import Pipeline.Text.Numeral

/-!
# JSON documents

`Json.compact` writes a document on one line and `Json.pretty` over several, two blanks further in
for each level. Both escape in a string only what JSON does not allow in it.
-/

namespace Pipeline

/-- A document. The members of an object have an order, and a name may occur twice. -/
inductive Json where
  | null
  | bool (b : Bool)
  | int (n : Int)
  /-- A number that is not written as an integer. -/
  | fraction (text : String)
  | str (s : String)
  | arr (items : List Json)
  | obj (members : List (String × Json))
deriving Inhabited

namespace Json

/-- A character inside a string. -/
def escaped (c : Char) : List Char :=
  match c with
  | '"' => ['\\', '"']
  | '\\' => ['\\', '\\']
  | '\x08' => ['\\', 'b']
  | '\x0c' => ['\\', 'f']
  | '\n' => ['\\', 'n']
  | '\r' => ['\\', 'r']
  | '\t' => ['\\', 't']
  | c =>
    if c.toNat < 0x20 then
      ['\\', 'u', '0', '0', Nat.digitChar (c.toNat / 16), Nat.digitChar (c.toNat % 16)]
    else [c]

/-- A string in its quotes. -/
def stringChars (s : String) : List Char :=
  '"' :: (s.toList.flatMap escaped ++ ['"'])

mutual

/-- A document on one line, without a blank between its parts. -/
def compactChars : Json → List Char
  | .null => "null".toList
  | .bool b => (if b then "true" else "false").toList
  | .int n => Numeral.signed n
  | .fraction t => t.toList
  | .str s => stringChars s
  | .arr items => '[' :: (List.intercalate [','] (compactItems items) ++ [']'])
  | .obj members => '\x7b' :: (List.intercalate [','] (compactMembers members) ++ ['\x7d'])

/-- The items of an array, each for itself. -/
def compactItems : List Json → List (List Char)
  | [] => []
  | j :: js => j.compactChars :: compactItems js

/-- The members of an object, each for itself. -/
def compactMembers : List (String × Json) → List (List Char)
  | [] => []
  | (k, j) :: ms => (stringChars k ++ ':' :: j.compactChars) :: compactMembers ms

end

/-- A line break, and the blanks with which a line at `level` starts. -/
def newLine (level : Nat) : List Char :=
  '\n' :: List.replicate (2 * level) ' '

/-- The parts between two brackets at `level`, each on a line of its own. -/
def bracketed (opening : Char) (parts : List (List Char)) (closing : Char) (level : Nat) :
    List Char :=
  match parts with
  | [] => [opening, closing]
  | parts =>
    opening :: newLine (level + 1) ++
      (List.intercalate (',' :: newLine (level + 1)) parts ++ (newLine level ++ [closing]))

mutual

/-- A document whose first line starts somewhere on a line at `level`. -/
def prettyChars (level : Nat) : Json → List Char
  | .null => "null".toList
  | .bool b => (if b then "true" else "false").toList
  | .int n => Numeral.signed n
  | .fraction t => t.toList
  | .str s => stringChars s
  | .arr items => bracketed '[' (prettyItems (level + 1) items) ']' level
  | .obj members => bracketed '\x7b' (prettyMembers (level + 1) members) '\x7d' level

/-- The items of an array, each as it stands on a line at `level`. -/
def prettyItems (level : Nat) : List Json → List (List Char)
  | [] => []
  | j :: js => j.prettyChars level :: prettyItems level js

/-- The members of an object, each as it stands on a line at `level`. -/
def prettyMembers (level : Nat) : List (String × Json) → List (List Char)
  | [] => []
  | (k, j) :: ms =>
    (stringChars k ++ ':' :: ' ' :: j.prettyChars level) :: prettyMembers level ms

end

/-- The document on one line. -/
def compact (j : Json) : String :=
  String.ofList j.compactChars

/-- The document over several lines. Two documents without fractions never share a text. -/
def pretty (j : Json) : String :=
  String.ofList (j.prettyChars 0)

/-! ## Looking into a document -/

/-- The contents of a string. -/
def str? : Json → Option String
  | .str s => some s
  | _ => none

/-- An integer that fits into 64 bits with its sign. -/
def int64? : Json → Option Int64
  | .int n =>
    if Int64.minValue.toInt ≤ n ∧ n ≤ Int64.maxValue.toInt then some (Int64.ofInt n) else none
  | _ => none

/-- The member `name`, which may occur only once. -/
def member? (name : String) : List (String × Json) → Option Json
  | [] => none
  | (k, j) :: ms =>
    if k = name then
      if ms.any (·.1 = name) then none else some j
    else member? name ms

end Json

end Pipeline
