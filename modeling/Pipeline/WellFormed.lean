import Pipeline.Grammar

/-!
# Well-formed trees

The trees that some text spells: names and literals are as the grammar has them, positional
arguments come before keyword ones, and a fan-out has a child.

`WellFormedWith` asks all of that but leaves to a predicate what a literal may be, and `WellFormed`
is its instance at the literals of the grammar. A tree that is built by hand may differ from one
that is read in its literals alone.
-/

namespace Pipeline

/-- A whole text that is a name. -/
def IsName (n : String) : Prop :=
  NameAt n.toList n []

namespace Literal

/-- The text spells the literal, so that an integer has the value of its text. -/
def WellFormed (l : Literal) : Prop :=
  Literal.At l.text.toList l []

end Literal

/-! ## Literals as a predicate has them -/

section With

variable (P : Literal → Prop)

mutual

/-- The names in the value are names, its calls have their arguments in order, and its literals are
in `P`. -/
def Value.WellFormedWith : Value → Prop
  | .literal l => P l
  | .call c => c.WellFormedWith

/-- A keyword is a name like any other. -/
def Argument.WellFormedWith : Argument → Prop
  | .positional v => v.WellFormedWith
  | .keyword n v => IsName n ∧ v.WellFormedWith

/-- The one place where the order of a list matters. -/
def Call.WellFormedWith : Call → Prop
  | ⟨n, args⟩ => IsName n ∧ Argument.AllWellFormedWith args ∧ positionalFirst args

/-- Each argument for itself, in whatever order they stand. -/
def Argument.AllWellFormedWith : List Argument → Prop
  | [] => True
  | a :: as => a.WellFormedWith ∧ Argument.AllWellFormedWith as

end

namespace Source

/-- A name, or a well-formed call. -/
def WellFormedWith : Source → Prop
  | name n => IsName n
  | call c => c.WellFormedWith P

end Source

mutual

/-- Everything inside the sink is well formed, and its fan-outs have children. -/
def Sink.WellFormedWith : Sink → Prop
  | .name n => IsName n
  | .call c => c.WellFormedWith P
  | .decorated d child => d.WellFormedWith P ∧ child.WellFormedWith
  | .fanOut children => children ≠ [] ∧ Sink.AllWellFormedWith children
  | .failover primary backup => primary.WellFormedWith ∧ backup.WellFormedWith
  | .block c child => c.WellFormedWith P ∧ child.WellFormedWith

/-- Each child of a fan-out, which may have none here. -/
def Sink.AllWellFormedWith : List Sink → Prop
  | [] => True
  | s :: ss => s.WellFormedWith ∧ Sink.AllWellFormedWith ss

end

namespace Entry

/-- The tree is well formed, apart from its literals, which are in `P`. -/
def WellFormedWith : (e : Entry) → e.Tree → Prop
  | literal => P
  | argument => Argument.WellFormedWith P
  | source => Source.WellFormedWith P
  | sink => Sink.WellFormedWith P

end Entry

end With

/-! ## Literals of the grammar -/

namespace Value

/-- Some text spells the value. -/
def WellFormed : Value → Prop :=
  WellFormedWith Literal.WellFormed

end Value

namespace Argument

/-- Some text spells the argument. -/
def WellFormed : Argument → Prop :=
  WellFormedWith Literal.WellFormed

/-- Some text spells each of the arguments. -/
def AllWellFormed : List Argument → Prop :=
  AllWellFormedWith Literal.WellFormed

end Argument

namespace Call

/-- Some text spells the call. -/
def WellFormed : Call → Prop :=
  WellFormedWith Literal.WellFormed

end Call

namespace Source

/-- Some text spells the source. -/
def WellFormed : Source → Prop :=
  WellFormedWith Literal.WellFormed

end Source

namespace Sink

/-- Some text spells the sink. -/
def WellFormed : Sink → Prop :=
  WellFormedWith Literal.WellFormed

/-- Some text spells each of the sinks. -/
def AllWellFormed : List Sink → Prop :=
  AllWellFormedWith Literal.WellFormed

end Sink

namespace Entry

/-- Some text spells the tree by this rule. -/
def WellFormed (e : Entry) : e.Tree → Prop :=
  e.WellFormedWith Literal.WellFormed

end Entry

end Pipeline
