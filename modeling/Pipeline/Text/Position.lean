/-!
# Positions in a text

A position is what lies before it, counted in three ways: the bytes of its UTF-8 form, the line
ends, and the characters since the last of these. Lines and columns are numbered from one.
-/

namespace Pipeline

/-- A place in a text. The offset counts bytes from zero. -/
structure Position where
  offset : Nat
  line : Nat
  column : Nat
deriving DecidableEq, Repr

namespace Position

/-- The start of every text. -/
def start : Position := ⟨0, 1, 1⟩

/-- Only a line feed ends a line; a carriage return and a tab count as one column. -/
def advance (p : Position) (c : Char) : Position :=
  if c = '\n' then ⟨p.offset + c.utf8Size, p.line + 1, 1⟩
  else ⟨p.offset + c.utf8Size, p.line, p.column + 1⟩

/-- The position behind the text `before`. -/
def after (before : List Char) : Position :=
  before.foldl advance start

end Position

end Pipeline
