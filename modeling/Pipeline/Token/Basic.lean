import Pipeline.Text.Character

/-!
# Tokens

A specification is a sequence of words and marks with blanks between them. Words are names, numbers
and strings, kept as they are written. Between two words there is always a mark, so a name or a
number may be taken to go on for as long as the characters can.
-/

namespace Pipeline

/-- A piece of a text that only a string lets blanks into. -/
inductive Token where
  /-- A name, a number, or a string with its quotes. -/
  | word (text : List Char)
  | mark (c : Char)
  /-- The mark between a decorator and the sink behind it. -/
  | arrow
deriving DecidableEq, Repr

namespace Token

/-- The characters of a token as they stand in the text. -/
def chars : Token → List Char
  | word text => text
  | mark c => [c]
  | arrow => ['=', '>']

/-- The characters of names and numbers. -/
def isWordPart (c : Char) : Bool :=
  isNamePart c || c = '.'

/-- Puts `c` in front of the tokens `ts` of `cs`, as part of the first if that is a word which
starts at once. -/
def glue (c : Char) (cs : List Char) (ts : List Token) : List Token :=
  match cs.head?.any isWordPart, ts with
  | true, word w :: ts => word (c :: w) :: ts
  | _, ts => word [c] :: ts

mutual

/-- The tokens of a text. -/
def split : List Char → List Token
  | [] => []
  | '=' :: '>' :: cs => arrow :: split cs
  | '"' :: cs => let (w, ts) := splitQuoted cs; word ('"' :: w) :: ts
  | c :: cs =>
    if isBlank c then split cs
    else if isWordPart c then glue c cs (split cs)
    else mark c :: split cs

/-- What is left of a string with its closing quote, and the tokens behind it. -/
def splitQuoted : List Char → List Char × List Token
  | [] => ([], [])
  | ['\\'] => (['\\'], [])
  | '"' :: cs => (['"'], split cs)
  | '\\' :: c :: cs => let (w, ts) := splitQuoted cs; ('\\' :: c :: w, ts)
  | c :: cs => let (w, ts) := splitQuoted cs; (c :: w, ts)

end

end Token

end Pipeline
