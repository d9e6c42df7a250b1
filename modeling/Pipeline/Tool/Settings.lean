import Pipeline.Canonical

/-!
# Command lines

What a command line asks for. Options may stand on either side of the text; behind two hyphens
there are none. No option may be given twice, and to print a document excludes a check.
-/

namespace Pipeline.Tool

/-- What a run is to do. -/
structure Settings where
  entry : Entry
  /-- Whether to print the tree as a document. -/
  ast : Bool
  /-- Whether to fail on a text that is not canonical. -/
  check : Bool
  empty : EmptyCall
  /-- The text to read, if it is not to come from standard input. -/
  text : Option String
deriving DecidableEq, Repr

/-- What a command line asks for. -/
inductive Request where
  | run (s : Settings)
  | help
  /-- The command line has no meaning. -/
  | misuse
deriving DecidableEq, Repr

/-- What is known of a command line when a part of it is read. -/
structure Progress where
  entry : Option Entry
  ast : Bool
  check : Bool
  spaced : Bool
  text : Option String

namespace Progress

/-- Before the first argument nothing is known. -/
def start : Progress := ⟨none, false, false, false, none⟩

/-- Names the rule, which may be done only once. -/
def withEntry? (p : Progress) (name : String) : Option Progress :=
  match p.entry, Entry.ofName? name with
  | none, some e => some { p with entry := some e }
  | _, _ => none

/-- Gives the text, of which there is only one. -/
def withText? (p : Progress) (text : String) : Option Progress :=
  match p.text with
  | none => some { p with text := some text }
  | some _ => none

/-- Asks for a document, which may be done only once. -/
def withAst? (p : Progress) : Option Progress :=
  if p.ast then none else some { p with ast := true }

/-- Asks for a check, which may be done only once. -/
def withCheck? (p : Progress) : Option Progress :=
  if p.check then none else some { p with check := true }

/-- Asks for a blank in empty calls, which may be done only once. -/
def withSpaced? (p : Progress) : Option Progress :=
  if p.spaced then none else some { p with spaced := true }

/-- The rule is that for sinks where none is named. -/
def finish (p : Progress) : Request :=
  if p.ast && p.check then .misuse
  else .run ⟨p.entry.getD .sink, p.ast, p.check, if p.spaced then .spaced else .tight, p.text⟩

end Progress

/-- Goes on from `p`, unless what came before has no meaning. -/
def orMisuse (p : Option Progress) (go : Progress → Request) : Request :=
  match p with
  | some p => go p
  | none => .misuse

/-- The arguments behind two hyphens. -/
def plain (p : Progress) : List String → Request
  | [] => p.finish
  | a :: as => orMisuse (p.withText? a) (plain · as)

/-- The arguments before any two hyphens. A lone hyphen is a text. Help is given as soon as it is
asked for, whatever letters or arguments come behind, but not if what came before has no meaning. -/
def options (p : Progress) : List String → Request
  | [] => p.finish
  | "--" :: as => plain p as
  | "--help" :: _ => .help
  | "--ast" :: as => orMisuse p.withAst? (options · as)
  | "--check" :: as => orMisuse p.withCheck? (options · as)
  | "--spaced-empty-calls" :: as => orMisuse p.withSpaced? (options · as)
  | "--rule" :: name :: as | "-r" :: name :: as => orMisuse (p.withEntry? name) (options · as)
  | a :: as =>
    match a.toList with
    | ['-'] => orMisuse (p.withText? a) (options · as)
    | '-' :: 'h' :: _ => .help
    | '-' :: '-' :: 'r' :: 'u' :: 'l' :: 'e' :: '=' :: name
    | '-' :: 'r' :: '=' :: name
    | '-' :: 'r' :: name => orMisuse (p.withEntry? (String.ofList name)) (options · as)
    | '-' :: _ => .misuse
    | _ => orMisuse (p.withText? a) (options · as)

/-- What the arguments of a command line ask for. -/
def Request.ofArgs (args : List String) : Request :=
  options .start args

end Pipeline.Tool
