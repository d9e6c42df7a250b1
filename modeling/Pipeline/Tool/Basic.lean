import Pipeline.Json.Tree
import Pipeline.Tool.Settings

/-!
# The command line tool

A run reads one text, the argument or all of standard input without the line ends behind it, and
prints its canonical text or its tree as a document. With a check it fails unless the text is
canonical already.
-/

namespace Pipeline.Tool

/-- What a run leaves behind. -/
structure Report where
  code : Nat
  stdout : String
  /-- Messages for the log. -/
  warnings : List String
  stderr : String
deriving DecidableEq, Repr

namespace Report

/-- One line on standard output. -/
def success (line : String) : Report :=
  ⟨0, line ++ "\n", [], ""⟩

/-- A message on standard error, and nothing on standard output. -/
def failure (warnings : List String) (message : String) : Report :=
  ⟨1, "", warnings, "Error: " ++ message ++ "\n"⟩

end Report

/-- The characters that end a line, together or each alone. -/
def isLineEnd (c : Char) : Bool :=
  c = '\r' || c = '\n'

/-- Takes the line ends off the end of a text. -/
def withoutLineEnds (s : List Char) : List Char :=
  (s.reverse.dropWhile isLineEnd).reverse

/-- A run on `text`. -/
def runOn (s : Settings) (text : String) : Report :=
  match s.entry.parse text with
  | .error e => .failure [] e.text
  | .ok t =>
    if s.ast then .success (s.entry.toJson t).pretty
    else
      let canonical := s.entry.write s.empty t
      if s.check && canonical != text then
        .failure ["input differs from canonical form"] ("not canonical; expected: " ++ canonical)
      else .success canonical

/-- A run on the bytes of standard input, which are to be UTF-8. -/
def runOnInput (s : Settings) (stdin : ByteArray) : Report :=
  match String.fromUTF8? stdin with
  | some input => runOn s (String.ofList (withoutLineEnds input.toList))
  | none =>
    .failure [] <| "failed to read specification from stdin\n\nCaused by:\n"
      ++ "    stream did not contain valid UTF-8"

/-- Standard input is looked at only where the command line has no text. -/
def run (s : Settings) (stdin : ByteArray) : Report :=
  match s.text with
  | some text => runOn s text
  | none => runOnInput s stdin

end Pipeline.Tool
