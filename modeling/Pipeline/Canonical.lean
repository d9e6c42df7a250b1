import Pipeline.Parse

/-!
# Canonical text

Every tree has one canonical text. A call that is a source, a sink, a decorator or the header of a
block has blanks inside its parentheses; a call that is the value of an argument has none. Only the
empty call of the first kind leaves a choice, which `EmptyCall` settles. `Entry.canonicalize` reads
a text and writes it back.
-/

namespace Pipeline

/-- Whether a blank stands between the parentheses of an outer call without arguments. -/
inductive EmptyCall where
  | tight
  | spaced
deriving DecidableEq, Repr

namespace EmptyCall

/-- The parentheses of an outer call without arguments. -/
def parens : EmptyCall → List Char
  | tight => ['(', ')']
  | spaced => ['(', ' ', ')']

end EmptyCall

/-- Puts a comma and a blank between the parts of a list. -/
def commaSeparated (parts : List (List Char)) : List Char :=
  List.intercalate [',', ' '] parts

namespace Literal

/-- A literal is written as it was read. -/
def chars (l : Literal) : List Char :=
  l.text.toList

end Literal

mutual

/-- Calls inside a call have no blanks in their parentheses. -/
def Value.chars : Value → List Char
  | .literal l => l.chars
  | .call c => c.nested

/-- No blanks stand around the equals sign. -/
def Argument.chars : Argument → List Char
  | .positional v => v.chars
  | .keyword name v => name.toList ++ '=' :: v.chars

/-- A call as the value of an argument. -/
def Call.nested : Call → List Char
  | ⟨name, args⟩ => name.toList ++ '(' :: (commaSeparated (Argument.allChars args) ++ [')'])

/-- The arguments of a list, each for itself. -/
def Argument.allChars : List Argument → List (List Char)
  | [] => []
  | a :: as => a.chars :: Argument.allChars as

end

namespace Call

/-- A call that is no value of an argument. -/
def padded (empty : EmptyCall) : Call → List Char
  | ⟨name, []⟩ => name.toList ++ empty.parens
  | ⟨name, args⟩ =>
    name.toList ++ '(' :: ' ' :: (commaSeparated (args.map Argument.chars) ++ [' ', ')'])

end Call

namespace Source

/-- The outermost call of a source is padded. -/
def chars (empty : EmptyCall) : Source → List Char
  | name n => n.toList
  | call c => c.padded empty

end Source

mutual

/-- Brackets have a blank inside, an arrow and a question mark one on both sides, and calls are
padded. -/
def Sink.chars (empty : EmptyCall) : Sink → List Char
  | .name n => n.toList
  | .call c => c.padded empty
  | .decorated decorator child =>
    '{' :: ' ' :: (decorator.chars empty ++ ' ' :: '=' :: '>' :: ' ' ::
      (child.chars empty ++ [' ', '}']))
  | .fanOut [] => ['[', ' ', ']']
  | .fanOut (s :: ss) =>
    '[' :: ' ' :: (commaSeparated (s.chars empty :: Sink.allChars empty ss) ++ [' ', ']'])
  | .failover primary backup =>
    '<' :: ' ' :: (primary.chars empty ++ ' ' :: '?' :: ' ' :: (backup.chars empty ++ [' ', '>']))
  | .block header child =>
    header.padded empty ++ ' ' :: '{' :: ' ' :: (child.chars empty ++ [' ', '}'])

/-- The sinks of a list, each for itself. -/
def Sink.allChars (empty : EmptyCall) : List Sink → List (List Char)
  | [] => []
  | s :: ss => s.chars empty :: Sink.allChars empty ss

end

namespace Value

/-- The canonical text of a value. -/
def text (v : Value) : String :=
  String.ofList v.chars

end Value

namespace Argument

/-- The canonical text of an argument. -/
def text (a : Argument) : String :=
  String.ofList a.chars

end Argument

namespace Call

/-- The text of a call by itself, in which no parentheses are padded. -/
def text (c : Call) : String :=
  String.ofList c.nested

end Call

namespace Source

/-- The canonical text of a source, with empty calls tight. -/
def text (s : Source) : String :=
  String.ofList (s.chars .tight)

end Source

namespace Sink

/-- The canonical text of a sink, with empty calls tight. -/
def text (s : Sink) : String :=
  String.ofList (s.chars .tight)

end Sink

namespace Entry

/-- The canonical text of a tree. -/
def chars : (e : Entry) → EmptyCall → e.Tree → List Char
  | literal, _ => Literal.chars
  | argument, _ => Argument.chars
  | source, empty => Source.chars empty
  | sink, empty => Sink.chars empty

/-- The canonical text of a tree as a string. Any tree has one, also one that no text spells. -/
def write (e : Entry) (empty : EmptyCall) (t : e.Tree) : String :=
  String.ofList (e.chars empty t)

/-- Reads a text and writes its tree in canonical form. It fails where reading does, with the same
error. -/
def canonicalize (e : Entry) (empty : EmptyCall) (text : String) : Except SyntaxError String :=
  (e.parse text).map (e.write empty)

end Entry

end Pipeline
