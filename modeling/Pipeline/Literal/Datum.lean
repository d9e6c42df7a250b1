import Pipeline.Literal.Basic
import Pipeline.Parse
import Pipeline.Text.Decimal

/-!
# What literals stand for

`Literal.datum` decodes a literal: the value of an integer, the nearest binary number to a double,
the characters that a string has between its quotes. It fails only on texts that no specification
can contain. `Datum.parse` reads the text of a literal and decodes that.
-/

namespace Pipeline

/-- What a literal stands for. -/
inductive Datum where
  | int (n : Int64)
  | double (x : Binary64)
  | string (s : String)
deriving DecidableEq, Repr

/-- Why the text of a literal stands for nothing. -/
inductive DatumError where
  | notDouble (text : String)
  | unquoted (text : String)
deriving DecidableEq, Repr

namespace DatumError

/-- What is said about a text that stands for nothing. -/
def message : DatumError → String
  | notDouble t => "invalid double literal: " ++ t
  | unquoted t => "string literal is not quoted: " ++ t

end DatumError

namespace Literal

/-- What a literal stands for. An integer has its value with it; for the others the text is
decoded. -/
def datum : Literal → Except DatumError Datum
  | int _ value => .ok (.int value)
  | double text =>
    match Decimal.toBinary64? text.toList with
    | some x => .ok (.double x)
    | none => .error (.notDouble text)
  | string text =>
    match Quoted.inside? text.toList with
    | some s => .ok (.string (String.ofList (Quoted.unescape s)))
    | none => .error (.unquoted text)

end Literal

/-- Why a text does not stand for anything as a literal. -/
inductive LiteralError where
  | unreadable (e : SyntaxError)
  | undecodable (e : DatumError)
deriving DecidableEq, Repr

namespace LiteralError

/-- The message with the step that went wrong. -/
def text : LiteralError → String
  | unreadable e => "Syntax error: " ++ e.text
  | undecodable e => "Value error: " ++ e.message

end LiteralError

namespace Datum

/-- What the literal stands for that `text` contains. -/
def parse (text : String) : Except LiteralError Datum :=
  match Entry.literal.parse text with
  | .error e => .error (.unreadable e)
  | .ok l => l.datum.mapError .undecodable

end Datum

end Pipeline
