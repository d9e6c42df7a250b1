import Pipeline.Entry
import Pipeline.Json.Basic

/-!
# Trees as documents

A tree is an object whose only member is named for the form of the tree; a call, which has one form
alone, is an object of its parts. Reading a tree back asks for exactly these members and values,
with two liberties: an object of parts may have more members than are needed, and a call may be an
array of its name and its arguments.
-/

namespace Pipeline

/-- An object with one member. -/
def Json.variant (tag : String) (j : Json) : Json :=
  .obj [(tag, j)]

namespace Literal

/-- A literal with its text, and an integer with its value as well. -/
def toJson : Literal → Json
  | int text value => .variant "int" (.obj [("text", .str text), ("value", .int value.toInt)])
  | double text => .variant "double" (.obj [("text", .str text)])
  | string text => .variant "string" (.obj [("text", .str text)])

/-- The text and the value are taken as they are, without a look at whether they agree. -/
def ofJson? : Json → Option Literal
  | .obj [("int", .obj ms)] => do
    let text ← (Json.member? "text" ms).bind Json.str?
    let value ← (Json.member? "value" ms).bind Json.int64?
    return .int text value
  | .obj [("double", .obj ms)] => do
    return .double (← (Json.member? "text" ms).bind Json.str?)
  | .obj [("string", .obj ms)] => do
    return .string (← (Json.member? "text" ms).bind Json.str?)
  | _ => none

end Literal

mutual

/-- The form of the value names the member. -/
def Value.toJson : Value → Json
  | .literal l => .variant "literal" l.toJson
  | .call c => .variant "call" c.toJson

/-- A keyword and its value are a pair. -/
def Argument.toJson : Argument → Json
  | .positional v => .variant "positional" v.toJson
  | .keyword name v => .variant "keyword" (.arr [.str name, v.toJson])

/-- A call has one form alone, so nothing names it. -/
def Call.toJson : Call → Json
  | ⟨name, args⟩ => .obj [("name", .str name), ("args", .arr (Argument.allToJson args))]

/-- The arguments of a list, in order. -/
def Argument.allToJson : List Argument → List Json
  | [] => []
  | a :: as => a.toJson :: Argument.allToJson as

end

mutual

/-- Any other member, or more than one, makes it no value. -/
def Value.ofJson? : Json → Option Value
  | .obj [("literal", j)] => (Literal.ofJson? j).map .literal
  | .obj [("call", j)] => (Call.ofJson? j).map .call
  | _ => none

/-- A keyword comes with exactly one value. -/
def Argument.ofJson? : Json → Option Argument
  | .obj [("positional", j)] => (Value.ofJson? j).map .positional
  | .obj [("keyword", .arr [.str name, j])] => (Value.ofJson? j).map (.keyword name)
  | _ => none

/-- A call may be an object, in which other members do not matter, or an array of its parts. -/
def Call.ofJson? : Json → Option Call
  | .obj ms => do
    let name ← (Json.member? "name" ms).bind Json.str?
    let args ← Argument.allOfMember? "args" ms
    return ⟨name, args⟩
  | .arr [.str name, .arr js] => (Argument.allOfJson? js).map (⟨name, ·⟩)
  | _ => none

/-- All of the list must be arguments. -/
def Argument.allOfJson? : List Json → Option (List Argument)
  | [] => some []
  | j :: js => do return (← Argument.ofJson? j) :: (← Argument.allOfJson? js)

/-- The arguments in the member `name`, which may occur only once. -/
def Argument.allOfMember? (name : String) : List (String × Json) → Option (List Argument)
  | [] => none
  | (k, .arr js) :: ms =>
    if k = name then
      if ms.any (·.1 = name) then none else Argument.allOfJson? js
    else Argument.allOfMember? name ms
  | (k, _) :: ms => if k = name then none else Argument.allOfMember? name ms

end

namespace Source

/-- A bare name and a call are told apart by the name of the member. -/
def toJson : Source → Json
  | name n => .variant "ident" (.str n)
  | call c => .variant "call" c.toJson

/-- Any other member, or more than one, makes it no source. -/
def ofJson? : Json → Option Source
  | .obj [("ident", .str n)] => some (.name n)
  | .obj [("call", j)] => (Call.ofJson? j).map .call
  | _ => none

end Source

mutual

/-- The form of the sink names the member, and its parts have names of their own. -/
def Sink.toJson : Sink → Json
  | .name n => .variant "simple" (.str n)
  | .call c => .variant "call" c.toJson
  | .decorated decorator child =>
    .variant "decorated" (.obj [("decorator", decorator.toJson), ("child", child.toJson)])
  | .fanOut children => .variant "multi" (.arr (Sink.allToJson children))
  | .failover primary backup =>
    .variant "failover" (.obj [("primary", primary.toJson), ("backup", backup.toJson)])
  | .block header child =>
    .variant "block" (.obj [("header", header.toJson), ("child", child.toJson)])

/-- The children of a fan-out, in order. -/
def Sink.allToJson : List Sink → List Json
  | [] => []
  | s :: ss => s.toJson :: Sink.allToJson ss

end

mutual

/-- Where a form has parts, members besides them do not matter. -/
def Sink.ofJson? : Json → Option Sink
  | .obj [("simple", .str n)] => some (.name n)
  | .obj [("call", j)] => (Call.ofJson? j).map .call
  | .obj [("decorated", .obj ms)] => do
    let decorator ← (Json.member? "decorator" ms).bind Source.ofJson?
    return .decorated decorator (← Sink.ofMember? "child" ms)
  | .obj [("multi", .arr js)] => (Sink.allOfJson? js).map .fanOut
  | .obj [("failover", .obj ms)] => do
    return .failover (← Sink.ofMember? "primary" ms) (← Sink.ofMember? "backup" ms)
  | .obj [("block", .obj ms)] => do
    let header ← (Json.member? "header" ms).bind Call.ofJson?
    return .block header (← Sink.ofMember? "child" ms)
  | _ => none

/-- All of the list must be sinks. -/
def Sink.allOfJson? : List Json → Option (List Sink)
  | [] => some []
  | j :: js => do return (← Sink.ofJson? j) :: (← Sink.allOfJson? js)

/-- The sink in the member `name`, which may occur only once. -/
def Sink.ofMember? (name : String) : List (String × Json) → Option Sink
  | [] => none
  | (k, j) :: ms =>
    if k = name then
      if ms.any (·.1 = name) then none else Sink.ofJson? j
    else Sink.ofMember? name ms

end

namespace Entry

/-- The document of a tree. -/
def toJson : (e : Entry) → e.Tree → Json
  | literal => Literal.toJson
  | argument => Argument.toJson
  | source => Source.toJson
  | sink => Sink.toJson

end Entry

end Pipeline
