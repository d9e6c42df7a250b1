import Pipeline.Text.Numeral
import Pipeline.Text.Quoted

/-!
# Literals

A literal keeps the text it is written with. An integer also carries its value; nothing here makes
the two agree, so a literal made by hand may have a text that no specification can contain.
-/

namespace Pipeline

/-- A literal with the text it is written with. -/
inductive Literal where
  | int (text : String) (value : Int64)
  | double (text : String)
  /-- The text has its quotes and escapes. -/
  | string (text : String)
deriving DecidableEq, Inhabited

namespace Literal

/-- The literal as it stands in a specification. -/
def text : Literal → String
  | int text _ | double text | string text => text

/-- The literal for a number. A negative one gets a sign, which the grammar does not have. -/
def ofInt (n : Int64) : Literal :=
  .int (String.ofList (Numeral.signed n.toInt)) n

/-- The string literal for `contents`. -/
def quoted (contents : String) : Literal :=
  .string (String.ofList (Quoted.quote contents.toList))

/-- The name under which a literal is reported. -/
def kind : Literal → String
  | int .. => "int"
  | double _ => "double"
  | string _ => "string"

end Literal

end Pipeline
