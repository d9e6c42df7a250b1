import Pipeline.Entry
import Pipeline.Rule.Sink
import Pipeline.Text.Position

/-!
# Reading a whole text

A text is read as an entry when the rule of the entry takes all of it, blanks at both ends aside.
Otherwise `Entry.parse` gives the position where the rule gave up, or where it was done and more
text followed.
-/

namespace Pipeline

/-- Why a text is not of the form that it is read as. -/
inductive Fault where
  | trailing
  | unreadable (notes : List Note) (cause : Option Cause)
deriving DecidableEq, Repr

namespace Fault

/-- What a fault says, without the place. -/
def text : Fault → String
  | trailing => "unexpected trailing input"
  | unreadable notes cause => report notes cause

end Fault

/-- What was to be read, what is wrong with the text, and where. -/
structure SyntaxError where
  entry : Entry
  fault : Fault
  position : Position
deriving DecidableEq, Repr

namespace SyntaxError

/-- What is wrong, without the place. -/
def message (e : SyntaxError) : String :=
  e.fault.text

/-- The message with what was to be read and where. -/
def text (e : SyntaxError) : String :=
  e.entry.name ++ " syntax error: " ++ e.message ++ " (line " ++ Numeral.text e.position.line
    ++ ", column " ++ Numeral.text e.position.column
    ++ ", offset " ++ Numeral.text e.position.offset ++ ")"

end SyntaxError

/-- The position in `s` at which `rest`, an end of `s`, begins. -/
def positionOf (s rest : List Char) : Position :=
  .after (s.take (s.length - rest.length))

namespace Entry

/-- The rule for what a text of this entry starts with, blanks aside. -/
def rule : (e : Entry) → Rule e.Tree
  | literal => Rule.literal
  | argument => Rule.argument
  | source => Rule.source
  | sink => Rule.sink

/-- Reads all of `s`. What is left behind the rule is an error at its first character that is no
blank. -/
def parseChars (e : Entry) (s : List Char) : Except SyntaxError e.Tree :=
  match e.rule (s.dropWhile isBlank) with
  | .error f => .error ⟨e, .unreadable f.notes f.cause, positionOf s f.rest⟩
  | .ok (t, rest) =>
    match rest.dropWhile isBlank with
    | [] => .ok t
    | rest => .error ⟨e, .trailing, positionOf s rest⟩

/-- The tree that the text spells, or why it spells none. -/
def parse (e : Entry) (text : String) : Except SyntaxError e.Tree :=
  e.parseChars text.toList

end Entry

end Pipeline
