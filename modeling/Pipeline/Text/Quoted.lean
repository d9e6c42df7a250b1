/-!
# Quoted text

A text in quotes keeps to one line and never ends early: `quote` puts a backslash before what would
break either. Reading is more generous. `body` splits off everything up to the closing quote, where
a backslash takes any character with it, and `unescape` then gives each such pair its meaning.
-/

namespace Pipeline.Quoted

/-- The character that stands for `c` behind a backslash, where `quote` does not write `c` as it
is. -/
def escape? : Char → Option Char
  | '"' => some '"'
  | '\\' => some '\\'
  | '\n' => some 'n'
  | '\t' => some 't'
  | '\r' => some 'r'
  | _ => none

/-- What a backslash and `c` stand for: four letters have a meaning, the rest mean themselves. -/
def meaning : Char → Char
  | 'n' => '\n'
  | 't' => '\t'
  | 'r' => '\r'
  | '0' => '\x00'
  | c => c

/-- What is written between the quotes. It has no line end and no quote without a backslash. -/
def escape : List Char → List Char
  | [] => []
  | c :: cs =>
    match escape? c with
    | some e => '\\' :: e :: escape cs
    | none => c :: escape cs

/-- A text in quotes, from which it can be read back. -/
def quote (s : List Char) : List Char :=
  '"' :: (escape s ++ ['"'])

/-- A backslash with nothing after it stands for itself. -/
def unescape : List Char → List Char
  | [] => []
  | ['\\'] => ['\\']
  | '\\' :: c :: cs => meaning c :: unescape cs
  | c :: cs => c :: unescape cs

/-- Splits before the first quote that no backslash takes with it, or else before a backslash that
ends the text. -/
def body : List Char → List Char × List Char
  | [] => ([], [])
  | ['\\'] => ([], ['\\'])
  | '"' :: cs => ([], '"' :: cs)
  | '\\' :: c :: cs => let (b, rest) := body cs; ('\\' :: c :: b, rest)
  | c :: cs => let (b, rest) := body cs; (c :: b, rest)

/-- What stands between the first and the last character, if these are two quotes. -/
def inside? : List Char → Option (List Char)
  | '"' :: cs => if cs.getLast? = some '"' then some cs.dropLast else none
  | _ => none

end Pipeline.Quoted
