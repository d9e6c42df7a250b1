/-!
# Character classes

The classes that the grammar of specifications is written in. All of them lie within ASCII: a
letter or a digit of another script is neither part of a name nor of a number, and no blank.
-/

namespace Pipeline

/-- The characters that may stand between two tokens. -/
def isBlank (c : Char) : Bool :=
  c = ' ' || c = '\t' || c = '\r' || c = '\n'

/-- A name starts with a letter. -/
def isNameStart (c : Char) : Bool :=
  c.isAlpha

/-- A name goes on with letters, digits and underscores. -/
def isNamePart (c : Char) : Bool :=
  c.isAlphanum || c = '_'

/-- Letters of either case count as digits from ten to fifteen. -/
def isHexDigit (c : Char) : Bool :=
  c.isDigit || ('a' ≤ c && c ≤ 'f') || ('A' ≤ c && c ≤ 'F')

end Pipeline
