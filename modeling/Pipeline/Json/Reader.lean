import Pipeline.Json.Basic
import Pipeline.Rule.Basic

/-!
# Reading documents

`Json.parse?` reads the text of one document. An integer stays exact; a number with a fraction or
an exponent, and a negative zero, keep their text.
-/

namespace Pipeline.Json

open Rule

/-- The number of four hexadecimal digits. -/
def fourHex? : List Char → Option (Nat × List Char)
  | a :: b :: c :: d :: rest =>
    if [a, b, c, d].all isHexDigit then some (Numeral.value 16 [a, b, c, d], rest) else none
  | _ => none

/-- What stands behind a backslash and `u`: one unit of UTF-16, or two that make a character. -/
def unicode? (s : List Char) : Option (Char × List Char) := do
  let (high, rest) ← fourHex? s
  if 0xD800 ≤ high ∧ high < 0xDC00 then
    match rest with
    | '\\' :: 'u' :: rest =>
      let (low, rest) ← fourHex? rest
      if 0xDC00 ≤ low ∧ low < 0xE000 then
        return (Char.ofNat (0x10000 + (high - 0xD800) * 0x400 + (low - 0xDC00)), rest)
      else none
    | _ => none
  else if 0xDC00 ≤ high ∧ high < 0xE000 then none
  else return (Char.ofNat high, rest)

/-- What a backslash and a letter stand for. -/
def shortEscape? : Char → Option Char
  | '"' => some '"'
  | '\\' => some '\\'
  | '/' => some '/'
  | 'b' => some '\x08'
  | 'f' => some '\x0c'
  | 'n' => some '\n'
  | 'r' => some '\r'
  | 't' => some '\t'
  | _ => none

/-- One character of a string. -/
def stringChar : Rule Char
  | '\\' :: 'u' :: s =>
    match unicode? s with
    | some r => .ok r
    | none => fail s
  | '\\' :: c :: s =>
    match shortEscape? c with
    | some d => .ok (d, s)
    | none => fail s
  | c :: s => if c = '"' || c.toNat < 0x20 then fail (c :: s) else .ok (c, s)
  | [] => fail []

/-- A string, whose contents may not run over a line. -/
def stringRule : Rule String := do
  char '"'
  let cs ← recursive fun more => do
    match ← stringChar.optional with
    | none => return []
    | some c => return c :: (← more)
  char '"'
  return String.ofList cs

/-- The digits before a point: no zero leads others. -/
def wholeDigits : Rule (List Char) := do
  let ds ← chars₁ Char.isDigit
  if ds.head? = some '0' ∧ ds.length ≠ 1 then fail else return ds

/-- The point of a number and the digits behind it, of which there is at least one. -/
def fractionDigits : Rule (List Char) := do
  char '.'
  return '.' :: (← chars₁ Char.isDigit)

/-- The exponent of a number with its letter, as it is written. -/
def exponentDigits : Rule (List Char) := do
  let e ← (do char 'e'; return 'e') <|> (do char 'E'; return 'E')
  let sign ← (do char '+'; return ['+']) <|> (do char '-'; return ['-']) <|> return []
  return e :: (sign ++ (← chars₁ Char.isDigit))

/-- A number, which stays exact if it is an integer and keeps its text otherwise. -/
def numberRule : Rule Json := do
  let minus ← (char '-').optional
  let whole ← wholeDigits
  let fraction ← fractionDigits.optional
  let exponent ← exponentDigits.optional
  let sign := if minus.isSome then ['-'] else []
  let n : Int := Numeral.value 10 whole
  if fraction.isSome || exponent.isSome || (minus.isSome && n == 0) then
    return .fraction (String.ofList (sign ++ whole ++ fraction.getD [] ++ exponent.getD []))
  else return .int (if minus.isSome then -n else n)

/-- The word `text` at the front, which stands for the document `j`. -/
def word (text : List Char) (j : Json) : Rule Json := fun s =>
  if text.isPrefixOf s then .ok (j, s.drop text.length) else fail s

/-- A name and the document behind it. -/
def memberOf (document : Rule Json) : Rule (String × Json) := do
  let k ← stringRule
  blanks
  char ':'
  blanks
  return (k, ← document)

/-- Items between two brackets, possibly none. No comma stands behind the last. -/
def listOf {α : Type} (opening closing : Char) (item : Rule α) : Rule (List α) := do
  char opening
  blanks
  let items ← items item
  blanks
  char closing
  return items

/-- One round of `document`. -/
def documentOf (document : Rule Json) : Rule Json :=
  (do return .str (← stringRule)) <|> numberRule <|>
  word "null".toList .null <|> word "true".toList (.bool true) <|>
  word "false".toList (.bool false) <|>
  (do return .arr (← listOf '[' ']' document)) <|>
  (do return .obj (← listOf '\x7b' '\x7d' (memberOf document)))

/-- The document that a text starts with. -/
def document : Rule Json :=
  recursive documentOf

/-- The document that a text consists of, apart from blanks at both ends. -/
def parse? (text : String) : Option Json :=
  match document (text.toList.dropWhile isBlank) with
  | .ok (j, rest) => if rest.all isBlank then some j else none
  | .error _ => none

end Pipeline.Json
