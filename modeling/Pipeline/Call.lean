import Pipeline.Literal.Basic

/-!
# Calls and their arguments

A call names something and hands it a list of arguments, each a value that is passed by position
or under a keyword; a value is a literal or in its turn a call. Specifications write the positional
arguments before the keyword ones (`positionalFirst`), which the types leave open.
-/

namespace Pipeline

mutual

/-- What a call can be given: a literal, or what another call comes to. -/
inductive Value where
  | literal (l : Literal)
  | call (c : Call)

/-- A value and how it is passed. -/
inductive Argument where
  | positional (v : Value)
  | keyword (name : String) (v : Value)

/-- A name and what it is given. The arguments may stand in any order here. -/
structure Call where
  name : String
  args : List Argument

end

mutual

/-- Values, arguments and calls are compared part by part. -/
def Value.decEq : (v w : Value) → Decidable (v = w)
  | .literal l, .literal m => decidable_of_iff (l = m) (by simp)
  | .call c, .call d =>
    match c.decEq d with
    | .isTrue h => .isTrue (by rw [h])
    | .isFalse h => .isFalse (by simpa using h)
  | .literal _, .call _ | .call _, .literal _ => .isFalse nofun

/-- Two arguments are the same if they are passed in the same way and have the same value. -/
def Argument.decEq : (a b : Argument) → Decidable (a = b)
  | .positional v, .positional w =>
    match v.decEq w with
    | .isTrue h => .isTrue (by rw [h])
    | .isFalse h => .isFalse (by simpa using h)
  | .keyword n v, .keyword m w =>
    if h : n = m then
      match v.decEq w with
      | .isTrue h' => .isTrue (by rw [h, h'])
      | .isFalse h' => .isFalse (by simp [h'])
    else .isFalse (by simp [h])
  | .positional _, .keyword .. | .keyword .., .positional _ => .isFalse nofun

/-- The order of the arguments counts. -/
def Call.decEq : (c d : Call) → Decidable (c = d)
  | ⟨n, as⟩, ⟨m, bs⟩ =>
    if h : n = m then
      match Argument.decEqAll as bs with
      | .isTrue h' => .isTrue (by rw [h, h'])
      | .isFalse h' => .isFalse (by simp [h'])
    else .isFalse (by simp [h])

/-- The lists must have the same length. -/
def Argument.decEqAll : (as bs : List Argument) → Decidable (as = bs)
  | [], [] => .isTrue rfl
  | a :: as, b :: bs =>
    match a.decEq b, Argument.decEqAll as bs with
    | .isTrue h, .isTrue h' => .isTrue (by rw [h, h'])
    | .isFalse h, _ => .isFalse (by simp [h])
    | _, .isFalse h => .isFalse (by simp [h])
  | [], _ :: _ | _ :: _, [] => .isFalse nofun

end

instance : DecidableEq Value := Value.decEq

instance : DecidableEq Argument := Argument.decEq

instance : DecidableEq Call := Call.decEq

namespace Argument

/-- The value without the keyword. -/
def value : Argument → Value
  | positional v | keyword _ v => v

/-- The argument is passed under a keyword. -/
def isKeyword : Argument → Bool
  | positional _ => false
  | keyword .. => true

/-- The value, if it is passed by position. -/
def positional? : Argument → Option Value
  | positional v => some v
  | keyword .. => none

/-- The value, if it is passed under the keyword `name`. -/
def keyword? (name : String) : Argument → Option Value
  | positional _ => none
  | keyword n v => if n = name then some v else none

end Argument

namespace Call

/-- The values passed by position, in order. -/
def positional (c : Call) : List Value :=
  c.args.filterMap Argument.positional?

/-- The first value passed under the keyword `name`. -/
def keyword? (c : Call) (name : String) : Option Value :=
  c.args.findSome? (Argument.keyword? name)

end Call

/-- No positional argument comes after a keyword one. -/
def positionalFirst (args : List Argument) : Bool :=
  (args.dropWhile (!·.isKeyword)).all Argument.isKeyword

end Pipeline
