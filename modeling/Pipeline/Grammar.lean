import Pipeline.Entry
import Pipeline.Text.Character

/-!
# The grammar

Which texts spell which trees, said without an order of trying: `Value.At s v rest` holds when `s`
starts with a text of `v` and `rest` is what follows, and so for the other kinds of trees. Between
two tokens there may be blanks. A text spells the tree of an entry, `Entry.Spells`, when nothing but
blanks stands on either side.

The rule on the order of arguments is a parameter, `order`; with `positionalFirst` for it the
grammar is that of specifications, and with `fun _ => true` the order does not matter.
-/

namespace Pipeline

/-- From `s` to `rest` there are only blanks. -/
def Blanks (s rest : List Char) : Prop :=
  ∃ b, b.all isBlank ∧ s = b ++ rest

/-- A name at the front. It need not be the longest: what follows may be a part of names as well. -/
inductive NameAt : List Char → String → List Char → Prop
  | mk {c : Char} {cs rest : List Char} : isNameStart c → cs.all isNamePart →
    NameAt (c :: (cs ++ rest)) (String.ofList (c :: cs)) rest

/-- What may stand between the quotes of a string. -/
inductive StringBody : List Char → Prop
  | nil : StringBody []
  | plain {c : Char} {cs : List Char} : c ≠ '"' → c ≠ '\\' → StringBody cs → StringBody (c :: cs)
  | escape (c : Char) {cs : List Char} : StringBody cs → StringBody ('\\' :: c :: cs)

/-- Integers are those that take no more than 63 bits. -/
inductive Literal.At : List Char → Literal → List Char → Prop
  | decimal {ds rest : List Char} : ds ≠ [] → ds.all Char.isDigit → Numeral.value 10 ds < 1 <<< 63 →
    Literal.At (ds ++ rest) (.int (String.ofList ds) (Int64.ofNat (Numeral.value 10 ds))) rest
  | hex {x : Char} {ds rest : List Char} : x = 'x' ∨ x = 'X' → ds ≠ [] → ds.all isHexDigit →
    Numeral.value 16 ds < 1 <<< 63 →
    Literal.At ('0' :: x :: (ds ++ rest))
      (.int (String.ofList ('0' :: x :: ds)) (Int64.ofNat (Numeral.value 16 ds))) rest
  | double {ds ds' rest : List Char} : ds.all Char.isDigit → ds' ≠ [] → ds'.all Char.isDigit →
    Literal.At (ds ++ '.' :: (ds' ++ rest)) (.double (String.ofList (ds ++ '.' :: ds'))) rest
  | string {b rest : List Char} : StringBody b →
    Literal.At ('"' :: (b ++ '"' :: rest)) (.string (String.ofList ('"' :: (b ++ ['"'])))) rest

section

variable (order : List Argument → Bool)

mutual

/-- A text of a value at the front: that of a literal or of a call. -/
inductive Value.At : List Char → Value → List Char → Prop
  | literal {s rest : List Char} {l : Literal} : Literal.At s l rest → Value.At s (.literal l) rest
  | call {s rest : List Char} {c : Call} : Call.At s c rest → Value.At s (.call c) rest

/-- Blanks may stand on both sides of the equals sign. -/
inductive Argument.At : List Char → Argument → List Char → Prop
  | positional {s rest : List Char} {v : Value} : Value.At s v rest →
    Argument.At s (.positional v) rest
  | keyword {s s₁ s₂ s₃ rest : List Char} {n : String} {v : Value} :
    NameAt s n s₁ → Blanks s₁ ('=' :: s₂) → Blanks s₂ s₃ → Value.At s₃ v rest →
    Argument.At s (.keyword n v) rest

/-- Blanks may stand before the parentheses and inside them. -/
inductive Call.At : List Char → Call → List Char → Prop
  | mk {s s₁ s₂ s₃ s₄ rest : List Char} {n : String} {args : List Argument} :
    NameAt s n s₁ → Blanks s₁ ('(' :: s₂) → Blanks s₂ s₃ → ArgumentsAt s₃ args s₄ →
    order args → Blanks s₄ (')' :: rest) →
    Call.At s ⟨n, args⟩ rest

/-- Arguments with commas between them, possibly none. -/
inductive ArgumentsAt : List Char → List Argument → List Char → Prop
  | nil {s : List Char} : ArgumentsAt s [] s
  | cons {s s₁ rest : List Char} {a : Argument} {as : List Argument} :
    Argument.At s a s₁ → MoreArgumentsAt s₁ as rest → ArgumentsAt s (a :: as) rest

/-- Arguments with a comma before each. -/
inductive MoreArgumentsAt : List Char → List Argument → List Char → Prop
  | nil {s : List Char} : MoreArgumentsAt s [] s
  | cons {s s₁ s₂ s₃ rest : List Char} {a : Argument} {as : List Argument} :
    Blanks s (',' :: s₁) → Blanks s₁ s₂ → Argument.At s₂ a s₃ → MoreArgumentsAt s₃ as rest →
    MoreArgumentsAt s (a :: as) rest

end

/-- A text of a source at the front. A name with arguments is spelled as a call. -/
inductive Source.At : List Char → Source → List Char → Prop
  | name {s rest : List Char} {n : String} : NameAt s n rest → Source.At s (.name n) rest
  | call {s rest : List Char} {c : Call} : Call.At order s c rest → Source.At s (.call c) rest

mutual

/-- A text of a sink at the front, one rule for each form of a sink. -/
inductive Sink.At : List Char → Sink → List Char → Prop
  | name {s rest : List Char} {n : String} : NameAt s n rest → Sink.At s (.name n) rest
  | call {s rest : List Char} {c : Call} : Call.At order s c rest → Sink.At s (.call c) rest
  | decorated {s s₁ s₂ s₃ s₄ rest : List Char} {d : Source} {t : Sink} :
    Blanks s s₁ → Source.At order s₁ d s₂ → Blanks s₂ ('=' :: '>' :: s₃) → Blanks s₃ s₄ →
    SinkBefore '}' s₄ t rest →
    Sink.At ('{' :: s) (.decorated d t) rest
  | fanOut {s s₁ s₂ s₃ rest : List Char} {t : Sink} {ts : List Sink} :
    Blanks s s₁ → Sink.At s₁ t s₂ → MoreSinksAt s₂ ts s₃ → Blanks s₃ (']' :: rest) →
    Sink.At ('[' :: s) (.fanOut (t :: ts)) rest
  | failover {s s₁ s₂ s₃ rest : List Char} {t u : Sink} :
    Blanks s s₁ → SinkBefore '?' s₁ t s₂ → Blanks s₂ s₃ → SinkBefore '>' s₃ u rest →
    Sink.At ('<' :: s) (.failover t u) rest
  | block {s s₁ s₂ s₃ rest : List Char} {c : Call} {t : Sink} :
    Call.At order s c s₁ → Blanks s₁ ('{' :: s₂) → Blanks s₂ s₃ → SinkBefore '}' s₃ t rest →
    Sink.At s (.block c t) rest

/-- A sink and the token behind it. -/
inductive SinkBefore : Char → List Char → Sink → List Char → Prop
  | mk {c : Char} {s s₁ rest : List Char} {t : Sink} : Sink.At s t s₁ → Blanks s₁ (c :: rest) →
    SinkBefore c s t rest

/-- Sinks with a comma before each. -/
inductive MoreSinksAt : List Char → List Sink → List Char → Prop
  | nil {s : List Char} : MoreSinksAt s [] s
  | cons {s s₁ s₂ s₃ rest : List Char} {t : Sink} {ts : List Sink} :
    Blanks s (',' :: s₁) → Blanks s₁ s₂ → Sink.At s₂ t s₃ → MoreSinksAt s₃ ts rest →
    MoreSinksAt s (t :: ts) rest

end

namespace Entry

/-- A text of the tree at the front, and what follows. -/
def At : (e : Entry) → List Char → e.Tree → List Char → Prop
  | literal => Literal.At
  | argument => Argument.At order
  | source => Source.At order
  | sink => Sink.At order

/-- The whole text spells the tree, apart from blanks at both ends. -/
def Spells (e : Entry) (text : List Char) (t : e.Tree) : Prop :=
  ∃ s rest, Blanks text s ∧ e.At order s t rest ∧ Blanks rest []

end Entry

end

end Pipeline
