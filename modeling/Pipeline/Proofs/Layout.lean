import Pipeline.Proofs.Recognition
import Pipeline.Token.Basic
import Pipeline.WellFormed

/-!
# Trees laid out as tokens

A tree has a sequence of tokens, and a text of the tree is these with blanks between them, in any
number and at both ends (`Token.LaidOut`). Together with `WellFormed` this is all that the grammar
asks for: what it spells is well formed (`Spells.wellFormed`), and every text that is laid out from
the tokens of a well-formed tree spells the tree (`spells_of_laidOut`).
-/

namespace Pipeline

namespace Token

/-- The tokens `ts` at the front of a text, each behind any blanks, and what follows. -/
inductive Laid : List Char → List Token → List Char → Prop
  | nil {s : List Char} : Laid s [] s
  | cons {s s₁ rest : List Char} {t : Token} {ts : List Token} :
    Blanks s (t.chars ++ s₁) → Laid s₁ ts rest → Laid s (t :: ts) rest

/-- Nothing but the tokens `ts` and blanks between them and at both ends. -/
def LaidOut (text : List Char) (ts : List Token) : Prop :=
  ∃ rest, Laid text ts rest ∧ Blanks rest []

section Laid

variable {s rest : List Char} {t : Token} {ts us : List Token}

theorem laid_nil : Laid s [] rest ↔ s = rest := by
  refine ⟨fun h => ?_, fun h => ?_⟩
  · cases h
    rfl
  · rw [h]
    exact .nil

theorem laid_cons : Laid s (t :: ts) rest ↔ ∃ s₁, Blanks s (t.chars ++ s₁) ∧ Laid s₁ ts rest := by
  refine ⟨fun h => ?_, fun h => ?_⟩
  · cases h with
    | cons hb h => exact ⟨_, hb, h⟩
  · obtain ⟨s₁, hb, h⟩ := h
    exact .cons hb h

/-- Tokens are laid out piece by piece: the first list up to a middle text, the second from
there. -/
theorem laid_append : Laid s (ts ++ us) rest ↔ ∃ s₁, Laid s ts s₁ ∧ Laid s₁ us rest := by
  induction ts generalizing s with
  | nil => simp [laid_nil]
  | cons t ts ih =>
    simp only [List.cons_append, laid_cons, ih]
    refine ⟨fun h => ?_, fun h => ?_⟩
    · obtain ⟨s₁, hb, s₂, h, h'⟩ := h
      exact ⟨s₂, ⟨s₁, hb, h⟩, h'⟩
    · obtain ⟨s₂, ⟨s₁, hb, h⟩, h'⟩ := h
      exact ⟨s₁, hb, s₂, h, h'⟩

theorem laid_singleton : Laid s [t] rest ↔ Blanks s (t.chars ++ rest) := by
  simp [laid_cons, laid_nil]

theorem LaidOut.behind_blanks (h : Blanks s rest) (h' : LaidOut rest ts) :
    LaidOut s ts := by
  obtain ⟨r, h', hr⟩ := h'
  cases h' with
  | nil => exact ⟨s, .nil, h.trans hr⟩
  | cons hb h' => exact ⟨r, .cons (h.trans hb) h', hr⟩

theorem LaidOut.cons (h : LaidOut s ts) :
    LaidOut (t.chars ++ s) (t :: ts) := by
  obtain ⟨r, h, hr⟩ := h
  exact ⟨r, .cons (.refl _) h, hr⟩

end Laid

/-- The tokens of all parts of a list, with commas between the parts. -/
def separated : List (List Token) → List Token
  | [] => []
  | ts :: tss => ts ++ tss.flatMap (mark ',' :: ·)

end Token

/-! ## The tokens of a tree -/

open Token (word mark arrow separated Laid LaidOut laid_nil laid_cons laid_append laid_singleton)

namespace Literal

/-- A literal is one token. -/
def tokens (l : Literal) : List Token :=
  [word l.text.toList]

end Literal

mutual

/-- The tokens of a value. -/
def Value.tokens : Value → List Token
  | .literal l => l.tokens
  | .call c => c.tokens

/-- A keyword stands in front of an equals sign. -/
def Argument.tokens : Argument → List Token
  | .positional v => v.tokens
  | .keyword n v => word n.toList :: mark '=' :: v.tokens

/-- The name, and the arguments with commas in parentheses. -/
def Call.tokens : Call → List Token
  | ⟨n, args⟩ => word n.toList :: mark '(' :: (separated (Argument.allTokens args) ++ [mark ')'])

/-- The tokens of each argument of a list. -/
def Argument.allTokens : List Argument → List (List Token)
  | [] => []
  | a :: as => a.tokens :: Argument.allTokens as

end

namespace Source

/-- A bare name is one token. -/
def tokens : Source → List Token
  | name n => [word n.toList]
  | call c => c.tokens

end Source

mutual

/-- The parts of a sink and the marks around them. -/
def Sink.tokens : Sink → List Token
  | .name n => [word n.toList]
  | .call c => c.tokens
  | .decorated d child => mark '{' :: (d.tokens ++ arrow :: (child.tokens ++ [mark '}']))
  | .fanOut children => mark '[' :: (separated (Sink.allTokens children) ++ [mark ']'])
  | .failover t u => mark '<' :: (t.tokens ++ mark '?' :: (u.tokens ++ [mark '>']))
  | .block c child => c.tokens ++ mark '{' :: (child.tokens ++ [mark '}'])

/-- The tokens of each sink of a list. -/
def Sink.allTokens : List Sink → List (List Token)
  | [] => []
  | s :: ss => s.tokens :: Sink.allTokens ss

end

namespace Entry

/-- The tokens of a tree, which do not depend on how it was written. -/
def tokens : (e : Entry) → e.Tree → List Token
  | literal => Literal.tokens
  | argument => Argument.tokens
  | source => Source.tokens
  | sink => Sink.tokens

end Entry

/-! ## What is spelled is well formed -/

section Spelled

variable {s rest : List Char}

theorem nameAt_iff {n : String} : NameAt s n rest ↔ IsName n ∧ s = n.toList ++ rest := by
  refine ⟨fun h => ?_, fun h => ?_⟩
  · obtain ⟨hc, hcs⟩ := h
    rename_i c cs
    have hn : NameAt (c :: (cs ++ [])) (String.ofList (c :: cs)) [] := .mk hc hcs
    rw [List.append_nil] at hn
    rw [IsName, String.toList_ofList]
    exact ⟨hn, rfl⟩
  · obtain ⟨hn, rfl⟩ := h
    unfold IsName at hn
    generalize hl : n.toList = l at hn
    obtain ⟨hc, hcs⟩ := hn
    rw [List.append_nil]
    exact .mk hc hcs

theorem literalAt_iff {l : Literal} :
    Literal.At s l rest ↔ l.WellFormed ∧ s = l.text.toList ++ rest := by
  unfold Literal.WellFormed
  refine ⟨fun h => ?_, fun h => ?_⟩
  · cases h with
    | @decimal ds rest hne hds hn =>
      have h : Literal.At _ _ [] := .decimal hne hds hn
      simpa [Literal.text] using h
    | @hex x ds rest hx hne hds hn =>
      have h : Literal.At _ _ [] := .hex hx hne hds hn
      simpa [Literal.text] using h
    | @double ds ds' rest hds hne hds' =>
      have h : Literal.At _ _ [] := .double hds hne hds'
      simpa [Literal.text] using h
    | @string b rest hb =>
      have h : Literal.At _ _ [] := .string hb
      simpa [Literal.text] using h
  · obtain ⟨h, rfl⟩ := h
    generalize hl : l.text.toList = t at h
    cases h with
    | decimal hne hds hn => simpa using Literal.At.decimal hne hds hn
    | hex hx hne hds hn => simpa using Literal.At.hex hx hne hds hn
    | double hds hne hds' => simpa using Literal.At.double hds hne hds'
    | string hb => simpa using Literal.At.string hb

mutual

/-- A value that a text shows is well formed: its argument lists obey the order there. -/
theorem value_wellFormed : ∀ (v : Value) {s rest : List Char}, Value.At positionalFirst s v rest →
    v.WellFormed
  | .literal _, _, _, .literal h => (literalAt_iff.1 h).1
  | .call c, _, _, .call h => call_wellFormed c h

theorem argument_wellFormed : ∀ (a : Argument) {s rest : List Char},
    Argument.At positionalFirst s a rest → a.WellFormed
  | .positional v, _, _, .positional h => value_wellFormed v h
  | .keyword _ v, _, _, .keyword hn _ _ h => ⟨(nameAt_iff.1 hn).1, value_wellFormed v h⟩

theorem call_wellFormed : ∀ (c : Call) {s rest : List Char}, Call.At positionalFirst s c rest →
    c.WellFormed
  | ⟨_, args⟩, _, _, .mk hn _ _ h ho _ => ⟨(nameAt_iff.1 hn).1, arguments_wellFormed args h, ho⟩

theorem arguments_wellFormed : ∀ (as : List Argument) {s rest : List Char},
    ArgumentsAt positionalFirst s as rest → Argument.AllWellFormed as
  | [], _, _, _ => trivial
  | a :: as, _, _, .cons h h' => ⟨argument_wellFormed a h, moreArguments_wellFormed as h'⟩

theorem moreArguments_wellFormed : ∀ (as : List Argument) {s rest : List Char},
    MoreArgumentsAt positionalFirst s as rest → Argument.AllWellFormed as
  | [], _, _, _ => trivial
  | a :: as, _, _, .cons _ _ h h' => ⟨argument_wellFormed a h, moreArguments_wellFormed as h'⟩

end

theorem source_wellFormed {d : Source} (h : Source.At positionalFirst s d rest) :
    d.WellFormed := by
  cases h with
  | name hn => exact (nameAt_iff.1 hn).1
  | call hc => exact call_wellFormed _ hc

mutual

theorem sink_wellFormed : ∀ (t : Sink) {s rest : List Char}, Sink.At positionalFirst s t rest →
    t.WellFormed
  | .name _, _, _, .name hn => (nameAt_iff.1 hn).1
  | .call c, _, _, .call h => call_wellFormed c h
  | .decorated _ t, _, _, .decorated _ hd _ _ (.mk h _) =>
    ⟨source_wellFormed hd, sink_wellFormed t h⟩
  | .fanOut (t :: ts), _, _, .fanOut _ h hts _ =>
    ⟨List.cons_ne_nil t ts, sink_wellFormed t h, moreSinks_wellFormed ts hts⟩
  | .failover t u, _, _, .failover _ (.mk ht _) _ (.mk hu _) =>
    ⟨sink_wellFormed t ht, sink_wellFormed u hu⟩
  | .block c t, _, _, .block hc _ _ (.mk h _) => ⟨call_wellFormed c hc, sink_wellFormed t h⟩

theorem moreSinks_wellFormed : ∀ (ts : List Sink) {s rest : List Char},
    MoreSinksAt positionalFirst s ts rest → Sink.AllWellFormed ts
  | [], _, _, _ => trivial
  | t :: ts, _, _, .cons _ _ h h' => ⟨sink_wellFormed t h, moreSinks_wellFormed ts h'⟩

end

end Spelled

/-! ## What is laid out is spelled -/

section Laid

variable {s rest : List Char}

mutual

/-- Conversely, any layout of a well formed value's tokens shows the value, behind the blanks that
come first. -/
theorem value_of_laid : ∀ (v : Value) {s rest : List Char}, v.WellFormed → Laid s v.tokens rest →
    ∃ s₁, Blanks s s₁ ∧ Value.At positionalFirst s₁ v rest
  | .literal _, _, _, hl, h => ⟨_, laid_singleton.1 h, .literal (literalAt_iff.2 ⟨hl, rfl⟩)⟩
  | .call c, _, _, hc, h => by
    obtain ⟨s₁, hb, h⟩ := call_of_laid c hc h
    exact ⟨s₁, hb, .call h⟩

theorem argument_of_laid : ∀ (a : Argument) {s rest : List Char}, a.WellFormed →
    Laid s a.tokens rest → ∃ s₁, Blanks s s₁ ∧ Argument.At positionalFirst s₁ a rest
  | .positional v, _, _, hv, h => by
    obtain ⟨s₁, hb, h⟩ := value_of_laid v hv h
    exact ⟨s₁, hb, .positional h⟩
  | .keyword n v, _, _, ⟨hn, hv⟩, h => by
    obtain ⟨s₁, hb, h⟩ := laid_cons.1 h
    obtain ⟨s₂, hb₁, h⟩ := laid_cons.1 h
    obtain ⟨s₃, hb₂, h⟩ := value_of_laid v hv h
    exact ⟨_, hb, .keyword (nameAt_iff.2 ⟨hn, rfl⟩) hb₁ hb₂ h⟩

theorem call_of_laid : ∀ (c : Call) {s rest : List Char}, c.WellFormed → Laid s c.tokens rest →
    ∃ s₁, Blanks s s₁ ∧ Call.At positionalFirst s₁ c rest
  | ⟨n, args⟩, _, _, ⟨hn, hargs, ho⟩, h => by
    obtain ⟨s₁, hb, h⟩ := laid_cons.1 h
    obtain ⟨s₂, hb₁, h⟩ := laid_cons.1 h
    obtain ⟨s₃, h, hc⟩ := laid_append.1 h
    obtain ⟨s₄, hb₂, h⟩ := arguments_of_laid args hargs h
    exact ⟨_, hb, .mk (nameAt_iff.2 ⟨hn, rfl⟩) hb₁ hb₂ h ho (laid_singleton.1 hc)⟩

theorem arguments_of_laid : ∀ (as : List Argument) {s rest : List Char},
    Argument.AllWellFormed as → Laid s (separated (Argument.allTokens as)) rest →
    ∃ s₁, Blanks s s₁ ∧ ArgumentsAt positionalFirst s₁ as rest
  | [], s, _, _, h => ⟨s, .refl s, laid_nil.1 h ▸ .nil⟩
  | a :: as, _, _, ⟨ha, has⟩, h => by
    obtain ⟨s₁, h, h'⟩ := laid_append.1 h
    obtain ⟨s₂, hb, h⟩ := argument_of_laid a ha h
    exact ⟨s₂, hb, .cons h (moreArguments_of_laid as has h')⟩

theorem moreArguments_of_laid : ∀ (as : List Argument) {s rest : List Char},
    Argument.AllWellFormed as →
    Laid s ((Argument.allTokens as).flatMap (mark ',' :: ·)) rest →
    MoreArgumentsAt positionalFirst s as rest
  | [], _, _, _, h => laid_nil.1 h ▸ .nil
  | a :: as, _, _, ⟨ha, has⟩, h => by
    obtain ⟨s₁, h, h'⟩ := laid_append.1 h
    obtain ⟨s₂, hb, h⟩ := laid_cons.1 h
    obtain ⟨s₃, hb₁, h⟩ := argument_of_laid a ha h
    exact .cons hb hb₁ h (moreArguments_of_laid as has h')

end

theorem source_of_laid : ∀ {d : Source}, d.WellFormed → Laid s d.tokens rest →
    ∃ s₁, Blanks s s₁ ∧ Source.At positionalFirst s₁ d rest
  | .name _, hn, h => ⟨_, laid_singleton.1 h, .name (nameAt_iff.2 ⟨hn, rfl⟩)⟩
  | .call c, hc, h => by
    obtain ⟨s₁, hb, h⟩ := call_of_laid c hc h
    exact ⟨s₁, hb, .call h⟩

mutual

theorem sink_of_laid : ∀ (t : Sink) {s rest : List Char}, t.WellFormed → Laid s t.tokens rest →
    ∃ s₁, Blanks s s₁ ∧ Sink.At positionalFirst s₁ t rest
  | .name _, _, _, hn, h => ⟨_, laid_singleton.1 h, .name (nameAt_iff.2 ⟨hn, rfl⟩)⟩
  | .call c, _, _, hc, h => by
    obtain ⟨s₁, hb, h⟩ := call_of_laid c hc h
    exact ⟨s₁, hb, .call h⟩
  | .decorated d t, _, _, ⟨hd, ht⟩, h => by
    obtain ⟨s₁, hb, h⟩ := laid_cons.1 h
    obtain ⟨s₂, h, h'⟩ := laid_append.1 h
    obtain ⟨s₃, hb₁, h⟩ := source_of_laid hd h
    obtain ⟨s₄, ha, h'⟩ := laid_cons.1 h'
    obtain ⟨s₅, h', hc⟩ := laid_append.1 h'
    obtain ⟨s₆, hb₂, h'⟩ := sink_of_laid t ht h'
    exact ⟨_, hb, .decorated hb₁ h ha hb₂ (.mk h' (laid_singleton.1 hc))⟩
  | .fanOut [], _, _, ⟨hne, _⟩, _ => absurd rfl hne
  | .fanOut (t :: ts), _, _, ⟨_, ht, hts⟩, h => by
    obtain ⟨s₁, hb, h⟩ := laid_cons.1 h
    obtain ⟨s₂, h, hc⟩ := laid_append.1 h
    obtain ⟨s₃, h, h'⟩ := laid_append.1 h
    obtain ⟨s₄, hb₁, h⟩ := sink_of_laid t ht h
    exact ⟨_, hb, .fanOut hb₁ h (moreSinks_of_laid ts hts h') (laid_singleton.1 hc)⟩
  | .failover t u, _, _, ⟨ht, hu⟩, h => by
    obtain ⟨s₁, hb, h⟩ := laid_cons.1 h
    obtain ⟨s₂, h, h'⟩ := laid_append.1 h
    obtain ⟨s₃, hb₁, h⟩ := sink_of_laid t ht h
    obtain ⟨s₄, hc, h'⟩ := laid_cons.1 h'
    obtain ⟨s₅, h', hc'⟩ := laid_append.1 h'
    obtain ⟨s₆, hb₂, h'⟩ := sink_of_laid u hu h'
    exact ⟨_, hb, .failover hb₁ (.mk h hc) hb₂ (.mk h' (laid_singleton.1 hc'))⟩
  | .block c t, _, _, ⟨hc, ht⟩, h => by
    obtain ⟨s₁, h, h'⟩ := laid_append.1 h
    obtain ⟨s₂, hb, h⟩ := call_of_laid c hc h
    obtain ⟨s₃, hb₁, h'⟩ := laid_cons.1 h'
    obtain ⟨s₄, h', hc'⟩ := laid_append.1 h'
    obtain ⟨s₅, hb₂, h'⟩ := sink_of_laid t ht h'
    exact ⟨s₂, hb, .block h hb₁ hb₂ (.mk h' (laid_singleton.1 hc'))⟩

theorem moreSinks_of_laid : ∀ (ts : List Sink) {s rest : List Char}, Sink.AllWellFormed ts →
    Laid s ((Sink.allTokens ts).flatMap (mark ',' :: ·)) rest →
    MoreSinksAt positionalFirst s ts rest
  | [], _, _, _, h => laid_nil.1 h ▸ .nil
  | t :: ts, _, _, ⟨ht, hts⟩, h => by
    obtain ⟨s₁, h, h'⟩ := laid_append.1 h
    obtain ⟨s₂, hb, h⟩ := laid_cons.1 h
    obtain ⟨s₃, hb₁, h⟩ := sink_of_laid t ht h
    exact .cons hb hb₁ h (moreSinks_of_laid ts hts h')

end

end Laid

namespace Entry

theorem at_wellFormed {s rest : List Char} : ∀ {e : Entry} {t : e.Tree},
    e.At positionalFirst s t rest → e.WellFormed t
  | literal, _, h => (literalAt_iff.1 h).1
  | argument, t, h => argument_wellFormed t h
  | source, _, h => source_wellFormed h
  | sink, t, h => sink_wellFormed t h

theorem at_of_laid {s rest : List Char} : ∀ {e : Entry} {t : e.Tree}, e.WellFormed t →
    Laid s (e.tokens t) rest → ∃ s₁, Blanks s s₁ ∧ e.At positionalFirst s₁ t rest
  | literal, _, hl, h => ⟨_, laid_singleton.1 h, literalAt_iff.2 ⟨hl, rfl⟩⟩
  | argument, t, ht, h => argument_of_laid t ht h
  | source, _, hd, h => source_of_laid hd h
  | sink, t, ht, h => sink_of_laid t ht h

variable {e : Entry} {t : e.Tree} {text : List Char}

theorem Spells.wellFormed (h : e.Spells positionalFirst text t) : e.WellFormed t := by
  obtain ⟨s, rest, -, h, -⟩ := h
  exact at_wellFormed h

/-- Every layout of a well formed tree's tokens spells the tree. -/
theorem spells_of_laidOut (ht : e.WellFormed t) (h : LaidOut text (e.tokens t)) :
    e.Spells positionalFirst text t := by
  obtain ⟨rest, h, hr⟩ := h
  obtain ⟨s, hb, h⟩ := at_of_laid ht h
  exact ⟨s, rest, hb, h, hr⟩

end Entry

end Pipeline
