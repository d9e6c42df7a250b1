import Pipeline.Canonical

/-!
# Putting trees together

An assembly is a stack of nodes. A step puts a literal or a name on it, makes one node out of the
nodes on top, or reads one from a text; `Assembly.step` says what a step needs and what it leaves.
A step that cannot be taken leaves the assembly as it is.
-/

namespace Pipeline

/-- What can lie on the stack. A value by itself is a literal or a call. -/
inductive Node where
  | literal (l : Literal)
  | argument (a : Argument)
  | call (c : Call)
  | source (s : Source)
  | sink (s : Sink)
deriving DecidableEq

namespace Node

/-- The name under which a node is reported. -/
def kind : Node → String
  | literal _ => "literal"
  | argument _ => "argument"
  | call _ => "call"
  | source _ => "source"
  | sink _ => "sink"

/-- The canonical text of a node, with empty calls tight. -/
def text : Node → String
  | literal l => l.text
  | argument a => a.text
  | call c => c.text
  | source s => s.text
  | sink s => s.text

/-- What may be passed as an argument. -/
def value? : Node → Option Value
  | literal l => some (.literal l)
  | call c => some (.call c)
  | argument _ | source _ | sink _ => none

/-- What a call is made of. -/
def argument? : Node → Option Argument
  | argument a => some a
  | literal _ | call _ | source _ | sink _ => none

/-- What may stand for itself or in front of a block. -/
def call? : Node → Option Call
  | call c => some c
  | literal _ | argument _ | source _ | sink _ => none

/-- What a fan-out, a failover or a block may contain. -/
def sink? : Node → Option Sink
  | sink s => some s
  | literal _ | argument _ | call _ | source _ => none

/-- What may decorate a sink. -/
def decorator? : Node → Option Source
  | source s => some s
  | call c => some (.call c)
  | literal _ | argument _ | sink _ => none

/-- A tree as a node of its kind. -/
def ofTree : (e : Entry) → e.Tree → Node
  | .literal => literal
  | .argument => argument
  | .source => source
  | .sink => sink

/-- The entry that reads the text of a node. A call by itself is written as the value of an
argument. -/
def entry : Node → Entry
  | literal _ => .literal
  | argument _ | call _ => .argument
  | source _ => .source
  | sink _ => .sink

/-- The tree that a text spells, as a node. -/
def parse (e : Entry) (text : String) : Except SyntaxError Node :=
  (e.parse text).map (ofTree e)

end Node

/-- What can be done to a stack: a node is put there, made out of those on top, taken off, read or
compared. -/
inductive Step where
  | int (n : Int64)
  | double (text : String)
  | string (contents : String)
  | positional
  | keyword (name : String)
  /-- A call of the `n` arguments on top. -/
  | call (name : String) (n : Nat)
  | sourceName (name : String)
  | sourceCall
  | sinkName (name : String)
  | sinkCall
  | decorated
  /-- A fan-out to the `n` sinks on top. -/
  | fanOut (n : Nat)
  | failover
  | block
  | parse (e : Entry) (text : String)
  | duplicate
  | drop
  /-- Reads the top anew from its text, and tells whether it is the same as before. -/
  | reparse
  /-- Drops the top, and tells whether it is the same as the node below. -/
  | compare

/-- Why a step cannot be taken. -/
inductive StepError where
  /-- There are too few nodes, or they are of the wrong kinds. -/
  | operands
  | unreadable (e : SyntaxError)
deriving DecidableEq, Repr

/-- The top of the stack comes first. -/
abbrev Assembly : Type := List Node

namespace Assembly

/-- Takes `n` nodes off the top, all of which are to be in `f`. The deepest comes first, as it was
put there first. -/
def take? {α : Type} (f : Node → Option α) (n : Nat) (stack : Assembly) :
    Option (List α × Assembly) :=
  if stack.length < n then none
  else ((stack.take n).reverse.mapM f).map (·, stack.drop n)

/-- The node on top made into another. -/
def replace? (f : Node → Option Node) : Assembly → Option Assembly
  | [] => none
  | x :: stack => (f x).map (· :: stack)

/-- The two nodes on top made into one; `f` takes the lower of them first. -/
def join? (f : Node → Node → Option Node) : Assembly → Option Assembly
  | y :: x :: stack => (f x y).map (· :: stack)
  | _ => none

/-- The stack after a step that makes a node out of those on top. -/
def build? : Step → Assembly → Option Assembly
  | .int n, stack => some (.literal (.ofInt n) :: stack)
  | .double text, stack => some (.literal (.double text) :: stack)
  | .string contents, stack => some (.literal (.quoted contents) :: stack)
  | .positional, stack => replace? (fun x => do return .argument (.positional (← x.value?))) stack
  | .keyword name, stack =>
    replace? (fun x => do return .argument (.keyword name (← x.value?))) stack
  | .call name n, stack =>
    (take? Node.argument? n stack).map fun (args, stack) => .call ⟨name, args⟩ :: stack
  | .sourceName name, stack => some (.source (.name name) :: stack)
  | .sourceCall, stack => replace? (fun x => do return .source (.call (← x.call?))) stack
  | .sinkName name, stack => some (.sink (.name name) :: stack)
  | .sinkCall, stack => replace? (fun x => do return .sink (.call (← x.call?))) stack
  | .decorated, stack =>
    join? (fun x y => do return .sink (.decorated (← x.decorator?) (← y.sink?))) stack
  | .fanOut n, stack =>
    (take? Node.sink? n stack).map fun (children, stack) => .sink (.fanOut children) :: stack
  | .failover, stack =>
    join? (fun x y => do return .sink (.failover (← x.sink?) (← y.sink?))) stack
  | .block, stack => join? (fun x y => do return .sink (.block (← x.call?) (← y.sink?))) stack
  | .duplicate, x :: stack => some (x :: x :: stack)
  | .drop, _ :: stack => some stack
  | .duplicate, [] | .drop, [] | .parse .., _ | .reparse, _ | .compare, _ => none

/-- The stack after a step, and the answer of a step that compares. -/
def step (s : Step) (stack : Assembly) : Except StepError (Assembly × Option Bool) :=
  match s, stack with
  | .parse e text, stack =>
    match Node.parse e text with
    | .ok x => .ok (x :: stack, none)
    | .error e => .error (.unreadable e)
  | .reparse, x :: stack =>
    match Node.parse x.entry x.text with
    | .ok y => .ok (y :: stack, some (x = y))
    | .error e => .error (.unreadable e)
  | .compare, y :: x :: stack => .ok (x :: stack, some (x = y))
  | s, stack =>
    match build? s stack with
    | some stack => .ok (stack, none)
    | none => .error .operands

/-- Takes the steps one after the other, and gives for each what came of it together with the stack
that it left. -/
def run : List Step → Assembly → List (Except StepError (Option Bool) × Assembly)
  | [], _ => []
  | s :: steps, stack =>
    match step s stack with
    | .ok (stack, answer) => (.ok answer, stack) :: run steps stack
    | .error e => (.error e, stack) :: run steps stack

end Assembly

end Pipeline
