import Pipeline.Json.Tree

/-!
# Tidy documents

A tree has one document, `toJson`, but is read from others too. `tidy` takes these liberties out of
a document: where an object of parts is expected, members that are no parts are dropped and the
parts are put in order, for the order of members means nothing in JSON; and a call that is written
as an array is written as an object. Nothing else is changed and nothing is checked, so a document
that stands for no tree is still none when it is tidy.
-/

namespace Pipeline

namespace Json

/-- The members that are named in `names`, in the order of the names. A name that occurs twice still
does. -/
def restrict (names : List String) (ms : List (String × Json)) : List (String × Json) :=
  names.flatMap fun n => ms.filter (·.1 = n)

/-- Applies `f` to what the members with the name `name` hold. -/
def mapMember (name : String) (f : Json → Json) (ms : List (String × Json)) :
    List (String × Json) :=
  ms.map fun (k, j) => (k, if k = name then f j else j)

end Json

open Json (restrict mapMember)

namespace Literal

/-- A literal is an object of parts inside an object that names its form. -/
def tidy : Json → Json
  | .obj [("int", .obj ms)] => .variant "int" (.obj (restrict ["text", "value"] ms))
  | .obj [("double", .obj ms)] => .variant "double" (.obj (restrict ["text"] ms))
  | .obj [("string", .obj ms)] => .variant "string" (.obj (restrict ["text"] ms))
  | j => j

end Literal

mutual

/-- Only what is inside a value has anything to tidy. -/
def Value.tidy : Json → Json
  | .obj [("literal", j)] => .variant "literal" (Literal.tidy j)
  | .obj [("call", j)] => .variant "call" (Call.tidy j)
  | j => j

/-- An argument has its value in one of two places. -/
def Argument.tidy : Json → Json
  | .obj [("positional", j)] => .variant "positional" (Value.tidy j)
  | .obj [("keyword", .arr [.str name, j])] =>
    .variant "keyword" (.arr [.str name, Value.tidy j])
  | j => j

/-- A call comes out as an object of its name and its arguments, in this order. -/
def Call.tidy : Json → Json
  | .obj ms => .obj (restrict ["name", "args"] (Argument.tidyMembers "args" ms))
  | .arr [.str name, .arr js] =>
    .obj [("name", .str name), ("args", .arr (Argument.tidyAll js))]
  | j => j

/-- The arguments of a list, each for itself. -/
def Argument.tidyAll : List Json → List Json
  | [] => []
  | j :: js => Argument.tidy j :: Argument.tidyAll js

/-- A document that should hold a list of arguments. -/
def Argument.tidyList : Json → Json
  | .arr js => .arr (Argument.tidyAll js)
  | j => j

/-- The arguments in the members with the name `name`. -/
def Argument.tidyMembers (name : String) : List (String × Json) → List (String × Json)
  | [] => []
  | (k, j) :: ms =>
    (k, if k = name then Argument.tidyList j else j) :: Argument.tidyMembers name ms

end

namespace Source

/-- A bare name is tidy as it is. -/
def tidy : Json → Json
  | .obj [("call", j)] => .variant "call" (Call.tidy j)
  | j => j

end Source

mutual

/-- The parts of a sink come out in the order of its form, each of them tidy. -/
def Sink.tidy : Json → Json
  | .obj [("call", j)] => .variant "call" (Call.tidy j)
  | .obj [("decorated", .obj ms)] =>
    .variant "decorated" (.obj (restrict ["decorator", "child"]
      (mapMember "decorator" Source.tidy (Sink.tidyMembers ["child"] ms))))
  | .obj [("multi", .arr js)] => .variant "multi" (.arr (Sink.tidyAll js))
  | .obj [("failover", .obj ms)] =>
    .variant "failover" (.obj (restrict ["primary", "backup"]
      (Sink.tidyMembers ["primary", "backup"] ms)))
  | .obj [("block", .obj ms)] =>
    .variant "block" (.obj (restrict ["header", "child"]
      (mapMember "header" Call.tidy (Sink.tidyMembers ["child"] ms))))
  | j => j

/-- The sinks of a list, each for itself. -/
def Sink.tidyAll : List Json → List Json
  | [] => []
  | j :: js => Sink.tidy j :: Sink.tidyAll js

/-- The sinks in the members that are named in `names`. -/
def Sink.tidyMembers (names : List String) : List (String × Json) → List (String × Json)
  | [] => []
  | (k, j) :: ms => (k, if k ∈ names then Sink.tidy j else j) :: Sink.tidyMembers names ms

end

end Pipeline
