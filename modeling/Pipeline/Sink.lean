import Pipeline.Call

/-!
# Sources and sinks

Events come from a source and go to a sink. Both may be a bare name or a call; a sink may also
be made of other sinks: behind a decorator or in a block, side by side in a fan-out, or as the
backup of another. `Sink.walk` visits a sink and all sinks inside it.
-/

namespace Pipeline

/-- A bare name or a call. Decorators are written like sources. -/
inductive Source where
  | name (n : String)
  | call (c : Call)
deriving DecidableEq

namespace Source

/-- The name that a source starts with. -/
def head : Source → String
  | name n => n
  | call c => c.name

/-- A bare name has no arguments. -/
def args : Source → List Argument
  | name _ => []
  | call c => c.args

/-- The call, if the source is one. -/
def call? : Source → Option Call
  | name _ => none
  | call c => some c

end Source

/-- Where events go. Three forms are made of other sinks, and a block has one for its body. -/
inductive Sink where
  | name (n : String)
  | call (c : Call)
  /-- A decorator in front of a sink. -/
  | decorated (decorator : Source) (child : Sink)
  /-- Every event goes to all of the children. -/
  | fanOut (children : List Sink)
  | failover (primary backup : Sink)
  /-- A call with a sink as its body. -/
  | block (header : Call) (child : Sink)

mutual

/-- Two sinks are the same if they have the same form and the same parts. -/
def Sink.decEq : (s t : Sink) → Decidable (s = t)
  | .name n, .name m => decidable_of_iff (n = m) (by simp)
  | .call c, .call d => decidable_of_iff (c = d) (by simp)
  | .decorated d s, .decorated e t =>
    if h : d = e then
      match s.decEq t with
      | .isTrue h' => .isTrue (by rw [h, h'])
      | .isFalse h' => .isFalse (by simp [h'])
    else .isFalse (by simp [h])
  | .fanOut ss, .fanOut ts =>
    match Sink.decEqAll ss ts with
    | .isTrue h => .isTrue (by rw [h])
    | .isFalse h => .isFalse (by simpa using h)
  | .failover s t, .failover s' t' =>
    match s.decEq s', t.decEq t' with
    | .isTrue h, .isTrue h' => .isTrue (by rw [h, h'])
    | .isFalse h, _ => .isFalse (by simp [h])
    | _, .isFalse h => .isFalse (by simp [h])
  | .block c s, .block d t =>
    if h : c = d then
      match s.decEq t with
      | .isTrue h' => .isTrue (by rw [h, h'])
      | .isFalse h' => .isFalse (by simp [h'])
    else .isFalse (by simp [h])
  | .name _, .call _ | .name _, .decorated .. | .name _, .fanOut _ | .name _, .failover ..
  | .name _, .block .. | .call _, .name _ | .call _, .decorated .. | .call _, .fanOut _
  | .call _, .failover .. | .call _, .block .. | .decorated .., .name _ | .decorated .., .call _
  | .decorated .., .fanOut _ | .decorated .., .failover .. | .decorated .., .block ..
  | .fanOut _, .name _ | .fanOut _, .call _ | .fanOut _, .decorated .. | .fanOut _, .failover ..
  | .fanOut _, .block .. | .failover .., .name _ | .failover .., .call _
  | .failover .., .decorated .. | .failover .., .fanOut _ | .failover .., .block ..
  | .block .., .name _ | .block .., .call _ | .block .., .decorated .. | .block .., .fanOut _
  | .block .., .failover .. => .isFalse nofun

/-- The lists must have the same length. -/
def Sink.decEqAll : (ss ts : List Sink) → Decidable (ss = ts)
  | [], [] => .isTrue rfl
  | s :: ss, t :: ts =>
    match s.decEq t, Sink.decEqAll ss ts with
    | .isTrue h, .isTrue h' => .isTrue (by rw [h, h'])
    | .isFalse h, _ => .isFalse (by simp [h])
    | _, .isFalse h => .isFalse (by simp [h])
  | [], _ :: _ | _ :: _, [] => .isFalse nofun

end

instance : DecidableEq Sink := Sink.decEq

namespace Sink

/-- The name of the form, which documents use as well. -/
def kind : Sink → String
  | name _ => "simple"
  | call _ => "call"
  | decorated .. => "decorated"
  | fanOut _ => "multi"
  | failover .. => "failover"
  | block .. => "block"

/-- The sinks directly inside, in the order in which they are written. -/
def children : Sink → List Sink
  | name _ | call _ => []
  | decorated _ child | block _ child => [child]
  | fanOut children => children
  | failover primary backup => [primary, backup]

/-- What is visited in the child with the index `i`, as seen from its parent. -/
def inChild (i : Nat) (visits : List (List Nat × Sink)) : List (List Nat × Sink) :=
  visits.map fun (path, s) => (i :: path, s)

mutual

/-- A sink and all sinks inside it, outer before inner and left before right, each with the indices
of the children that lead to it. -/
def walk : Sink → List (List Nat × Sink)
  | .name n => [([], .name n)]
  | .call c => [([], .call c)]
  | .decorated d child => ([], .decorated d child) :: inChild 0 child.walk
  | .fanOut children => ([], .fanOut children) :: walkFrom 0 children
  | .failover primary backup =>
    ([], .failover primary backup) :: (inChild 0 primary.walk ++ inChild 1 backup.walk)
  | .block c child => ([], .block c child) :: inChild 0 child.walk

/-- What is visited in siblings, the first of which has the index `i`. -/
def walkFrom (i : Nat) : List Sink → List (List Nat × Sink)
  | [] => []
  | s :: ss => inChild i s.walk ++ walkFrom (i + 1) ss

end

end Sink

end Pipeline
