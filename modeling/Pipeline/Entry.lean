import Pipeline.Sink

/-!
# Entries

A text is read as one of four things. `Entry.Tree` is the type of what comes out, so that what holds
for all four is said once.
-/

namespace Pipeline

/-- What a text is to be read as. -/
inductive Entry where
  | literal
  | argument
  | source
  | sink
deriving DecidableEq, Repr

namespace Entry

/-- The name of an entry in messages and on the command line. -/
def name : Entry → String
  | literal => "literal"
  | argument => "argument"
  | source => "source"
  | sink => "sink"

/-- The entry with a given name. -/
def ofName? : String → Option Entry
  | "literal" => some literal
  | "argument" => some argument
  | "source" => some source
  | "sink" => some sink
  | _ => none

/-- What a text is read into. -/
@[reducible]
def Tree : Entry → Type
  | literal => Literal
  | argument => Argument
  | source => Source
  | sink => Sink

instance (e : Entry) : DecidableEq e.Tree :=
  match e with
  | literal => inferInstanceAs (DecidableEq Literal)
  | argument => inferInstanceAs (DecidableEq Argument)
  | source => inferInstanceAs (DecidableEq Source)
  | sink => inferInstanceAs (DecidableEq Sink)

end Entry

end Pipeline
