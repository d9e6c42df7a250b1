import Pipeline.Literal.Basic
import Pipeline.Rule.Basic

/-!
# Reading names and literals

A literal keeps its text as it is read. A hexadecimal marker and an opening quote commit to their
literals; a digit does so only after a double has been tried.
-/

namespace Pipeline.Rule

/-- A letter and all letters, digits and underscores behind it. -/
def name : Rule String :=
  noting (.expected .name) do
    ahead isNameStart
    return String.ofList (← chars isNamePart)

/-- The digits in `f` and what they denote. A number that takes more than 63 bits is refused where
it starts. -/
def natural (base : Nat) (f : Char → Bool) : Rule (List Char × Int64) := fun s =>
  match chars₁ f s with
  | .error e => .error e
  | .ok (digits, rest) =>
    let n := Numeral.value base digits
    if n < 1 <<< 63 then .ok ((digits, Int64.ofNat n), rest)
    else .error { committed := false, rest := s, notes := [], cause := some .overflow }

/-- Either spelling of the hexadecimal marker. -/
def hexMarker : Rule (List Char)
  | '0' :: 'x' :: s => .ok (['0', 'x'], s)
  | '0' :: 'X' :: s => .ok (['0', 'X'], s)
  | s => fail s

/-- Behind its marker nothing but digits will do. -/
def hexLiteral : Rule Literal := do
  let marker ← hexMarker
  let (digits, n) ← commit (noting (.expected .hexInteger) (natural 16 isHexDigit))
  return .int (String.ofList (marker ++ digits)) n

/-- The digits before the point may be missing, those after it not. -/
def doubleLiteral : Rule Literal := do
  let whole ← chars Char.isDigit
  char '.'
  let fraction ← chars₁ Char.isDigit
  return .double (String.ofList (whole ++ '.' :: fraction))

/-- A digit commits to an integer, as a double has been tried before. -/
def decimalLiteral : Rule Literal := do
  ahead Char.isDigit
  let (digits, n) ← commit (noting (.expected .integer) (natural 10 Char.isDigit))
  return .int (String.ofList digits) n

/-- The body of a string, which may be empty. It never fails. -/
def quotedBody : Rule (List Char) := fun s =>
  .ok (Quoted.body s)

/-- The quotes are part of the text of the literal. -/
def stringLiteral : Rule Literal := do
  char '"'
  let body ← commit do
    let body ← quotedBody
    noting (.expected .closingQuote) (char '"')
    return body
  return .string (String.ofList ('"' :: (body ++ ['"'])))

/-- The literal that a text starts with. A double comes before an integer, which could start it. -/
def literal : Rule Literal :=
  noting (.label .literal) (hexLiteral <|> doubleLiteral <|> decimalLiteral <|> stringLiteral)

end Pipeline.Rule
