/-!
# Why a rule fails

A failure says where reading stood, which rules were under way, and whether another alternative may
still be tried: a committed failure is final. Each rule that the failure leaves adds its note, so
the innermost comes first. `report` puts notes and cause into words: the first label tells what
could not be read, and all expectations follow.
-/

namespace Pipeline

/-- What a rule reads, where a failure in it is a failure of the whole. -/
inductive Label where
  | literal
  | sink
deriving DecidableEq, Repr

namespace Label

/-- The word for what could not be read. -/
def text : Label → String
  | literal => "literal"
  | sink => "sink"

end Label

/-- What would have let a rule go on. -/
inductive Expectation where
  | name
  | value
  | integer
  | hexInteger
  | closingQuote
  /-- An order of the arguments that `positionalFirst` accepts. -/
  | positionalFirst
  | token (t : String)
deriving DecidableEq, Repr

namespace Expectation

/-- What is said to be expected. A token is said as it is written. -/
def text : Expectation → String
  | name => "identifier"
  | value => "literal or function call"
  | integer => "integer in 64-bit range"
  | hexInteger => "hexadecimal integer in 64-bit range"
  | closingQuote => "closing quote"
  | positionalFirst => "positional arguments before keyword arguments"
  | token t => "`" ++ t ++ "`"

end Expectation

/-- What one rule adds to a failure that leaves it. -/
inductive Note where
  | label (l : Label)
  | expected (e : Expectation)
deriving DecidableEq, Repr

namespace Note

/-- The label, if the note is one. -/
def label? : Note → Option Label
  | label l => some l
  | expected _ => none

/-- The expectation, if the note is one. -/
def expectation? : Note → Option Expectation
  | label _ => none
  | expected e => some e

end Note

/-- What else stopped a rule that found the characters it looks for. -/
inductive Cause where
  | overflow
  /-- Rules are nested deeper than the text is long. -/
  | exhausted
deriving DecidableEq, Repr

namespace Cause

/-- What is said about a cause. -/
def text : Cause → String
  | overflow => "number too large to fit in target type"
  | exhausted => "nesting too deep"

end Cause

/-- How and where a rule has given up. -/
structure Failure where
  committed : Bool
  /-- What lay ahead when the rule gave up. -/
  rest : List Char
  /-- From the innermost rule outwards. -/
  notes : List Note
  cause : Option Cause
deriving DecidableEq, Repr

/-- The parts that `notes` and `cause` have, in this order: the first label, the expectations, the
cause. -/
def report (notes : List Note) (cause : Option Cause) : String :=
  let invalid := (notes.findSome? Note.label?).toList.map ("invalid " ++ ·.text)
  let expected :=
    match notes.filterMap Note.expectation? with
    | [] => []
    | es => ["expected " ++ ", ".intercalate (es.map Expectation.text)]
  match invalid ++ expected ++ cause.toList.map Cause.text with
  | [] => "unexpected input"
  | parts => ": ".intercalate parts

end Pipeline
