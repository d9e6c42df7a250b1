import Mathlib.Data.List.Basic
import Pipeline.Proofs.Layout

/-!
# What a tree takes up of a text

The grammar never looks at what follows a tree: where it derives a tree from the front of a text,
the front alone is a text of the tree (`TextOf`), whatever else is put behind it, and it ends in a
character that is no blank (`value_extent`, `sink_extent`). It remains a text of the tree under any
weaker rule on the order of arguments. Blanks behind a whole text make no difference to what it is
read as (`parse_append_blanks`).
-/

namespace Pipeline

/-- The text `q` is one of `a`, whatever follows. -/
def TextOf {α : Type} (A : List Char → α → List Char → Prop) (q : List Char) (a : α) : Prop :=
  ∀ rest, A (q ++ rest) a rest

/-- The last character is no blank. -/
def EndsInToken (q : List Char) : Prop :=
  ∃ u c, q = u ++ [c] ∧ isBlank c = false

section EndsInToken

variable {p q b b' : List Char} {c : Char}

theorem endsInToken_append_singleton (p : List Char) (hc : isBlank c = false) :
    EndsInToken (p ++ [c]) :=
  ⟨p, c, rfl, hc⟩

theorem EndsInToken.ne_nil (h : EndsInToken q) : q ≠ [] := by
  obtain ⟨u, c, rfl, -⟩ := h
  simp

theorem EndsInToken.append_left (h : EndsInToken q) (p : List Char) : EndsInToken (p ++ q) := by
  obtain ⟨u, c, rfl, hc⟩ := h
  exact ⟨p ++ u, c, (List.append_assoc ..).symm, hc⟩

theorem EndsInToken.cons (h : EndsInToken q) (c : Char) : EndsInToken (c :: q) :=
  h.append_left [c]

theorem endsInToken_of_all {f : Char → Bool} (hne : q ≠ []) (hq : q.all f)
    (hf : ∀ c, f c → isBlank c = false) : EndsInToken q := by
  refine ⟨q.dropLast, q.getLast hne, (List.dropLast_concat_getLast hne).symm, hf _ ?_⟩
  exact List.all_eq_true.1 hq _ (List.getLast_mem hne)

/-- Only what follows `p` can reach into blanks at the end. -/
theorem EndsInToken.exists_append (h : EndsInToken p) (hb : b.all isBlank)
    (he : p ++ b' = q ++ b) : ∃ d, q = p ++ d ∧ b' = d ++ b := by
  rcases List.append_eq_append_iff.1 he with ⟨d, rfl, rfl⟩ | ⟨d, hp, rfl⟩
  · exact ⟨d, rfl, rfl⟩
  · obtain ⟨u, c, rfl, hc⟩ := h
    rcases List.eq_nil_or_concat' d with rfl | ⟨v, c', rfl⟩
    · rw [List.append_nil] at hp
      exact ⟨[], by rw [hp, List.append_nil], rfl⟩
    · have hcc : c = c' := by
        rw [← List.append_assoc] at hp
        exact List.singleton_inj.1 (List.append_inj' hp rfl).2
      have hblank : isBlank c' := List.all_eq_true.1 hb c' (by simp)
      rw [← hcc, hc] at hblank
      cases hblank

end EndsInToken

theorem blanks_append {b : List Char} (hb : b.all isBlank) (s : List Char) : Blanks (b ++ s) s :=
  ⟨b, hb, rfl⟩

/-! ## Words -/

section Words

variable {n : String} {l : Literal}

theorem textOf_name (hn : IsName n) : TextOf NameAt n.toList n :=
  fun _ => nameAt_iff.2 ⟨hn, rfl⟩

theorem textOf_literal (hl : l.WellFormed) : TextOf Literal.At l.text.toList l :=
  fun _ => literalAt_iff.2 ⟨hl, rfl⟩

theorem isBlank_of_isNamePart {c : Char} (h : isNamePart c) : isBlank c = false :=
  isBlank_of_isWordPart (isWordPart_of_isNamePart h)

theorem IsName.endsInToken (hn : IsName n) : EndsInToken n.toList := by
  unfold IsName at hn
  generalize n.toList = s at hn
  obtain ⟨hc, hcs⟩ := hn
  rename_i c cs
  rw [List.append_nil]
  refine endsInToken_of_all (List.cons_ne_nil c cs) ?_ fun c => isBlank_of_isNamePart
  rw [List.all_cons, isNamePart_of_isNameStart hc, hcs]
  rfl

theorem Literal.WellFormed.endsInToken (hl : l.WellFormed) : EndsInToken l.text.toList := by
  unfold Literal.WellFormed at hl
  generalize l.text.toList = s at hl
  cases hl with
  | @decimal ds _ hne hds =>
    rw [List.append_nil]
    exact endsInToken_of_all hne hds fun c hc => isBlank_of_isNamePart (isNamePart_of_isDigit hc)
  | @hex x ds _ hx hne hds =>
    rw [List.append_nil]
    have h := endsInToken_of_all hne hds fun c hc =>
      isBlank_of_isNamePart (isNamePart_of_isHexDigit hc)
    exact (h.cons x).cons '0'
  | @double ds ds' _ hds hne hds' =>
    rw [List.append_nil]
    have h := endsInToken_of_all hne hds' fun c hc =>
      isBlank_of_isNamePart (isNamePart_of_isDigit hc)
    exact (h.cons '.').append_left ds
  | @string b _ hb => exact (endsInToken_append_singleton b rfl).cons '"'

end Words

/-! ## Texts made of texts -/

section Compose

variable {order : List Argument → Bool} {n : String} {b b' q q' : List Char}

theorem textOf_keyword {v : Value} (hn : IsName n) (hb : b.all isBlank) (hb' : b'.all isBlank)
    (hv : TextOf (Value.At order) q v) :
    TextOf (Argument.At order) (n.toList ++ (b ++ '=' :: (b' ++ q))) (.keyword n v) := by
  intro rest
  have h := Argument.At.keyword (textOf_name hn _) (blanks_append hb _) (blanks_append hb' _)
    (hv rest)
  simpa using h

/-- An argument list with its parentheses. -/
def ParensAt (order : List Argument → Bool) (s : List Char) (args : List Argument)
    (rest : List Char) : Prop :=
  ∃ s₁ s₂ s₃, s = '(' :: s₁ ∧ Blanks s₁ s₂ ∧ ArgumentsAt order s₂ args s₃ ∧ order args ∧
    Blanks s₃ (')' :: rest)

/-- The list between the parentheses may be empty: its text then is empty too. -/
theorem textOf_parens {args : List Argument} (hb : b.all isBlank)
    (ha : TextOf (ArgumentsAt order) q args) (ho : order args) (hb' : b'.all isBlank) :
    TextOf (ParensAt order) ('(' :: (b ++ (q ++ (b' ++ [')'])))) args := by
  intro rest
  refine ⟨b ++ (q ++ (b' ++ ')' :: rest)), q ++ (b' ++ ')' :: rest), b' ++ ')' :: rest, ?_,
    blanks_append hb _, ha _, ho, blanks_append hb' _⟩
  simp

theorem textOf_call {args : List Argument} (hn : IsName n) (hb : b.all isBlank)
    (ha : TextOf (ParensAt order) q args) :
    TextOf (Call.At order) (n.toList ++ (b ++ q)) ⟨n, args⟩ := by
  intro rest
  obtain ⟨s₁, s₂, s₃, hs, hb₁, ha, ho, hb₂⟩ := ha rest
  have h := Call.At.mk (textOf_name hn _) (blanks_append hb _) hb₁ ha ho hb₂
  rw [List.append_assoc, List.append_assoc, hs]
  exact h

theorem textOf_arguments {a : Argument} {as : List Argument} (ha : TextOf (Argument.At order) q a)
    (has : TextOf (MoreArgumentsAt order) q' as) :
    TextOf (ArgumentsAt order) (q ++ q') (a :: as) := by
  intro rest
  rw [List.append_assoc]
  exact .cons (ha _) (has rest)

theorem textOf_moreArguments {a : Argument} {as : List Argument} (hb : b.all isBlank)
    (hb' : b'.all isBlank) (ha : TextOf (Argument.At order) q a)
    (has : TextOf (MoreArgumentsAt order) q' as) :
    TextOf (MoreArgumentsAt order) (b ++ ',' :: (b' ++ (q ++ q'))) (a :: as) := by
  intro rest
  have h := MoreArgumentsAt.cons (blanks_append hb _) (blanks_append hb' _) (ha _) (has rest)
  simpa using h

theorem textOf_before {t : Sink} (ht : TextOf (Sink.At order) q t) (hb : b.all isBlank)
    (c : Char) : TextOf (SinkBefore order c) (q ++ (b ++ [c])) t := by
  intro rest
  have h := SinkBefore.mk (ht _) (blanks_append hb (c :: rest))
  simpa using h

theorem textOf_decorated {d : Source} {t : Sink} {b₁ b₂ b₃ : List Char} (hb₁ : b₁.all isBlank)
    (hd : TextOf (Source.At order) q d) (hb₂ : b₂.all isBlank) (hb₃ : b₃.all isBlank)
    (ht : TextOf (SinkBefore order '}') q' t) :
    TextOf (Sink.At order) ('{' :: (b₁ ++ (q ++ (b₂ ++ '=' :: '>' :: (b₃ ++ q')))))
      (.decorated d t) := by
  intro rest
  have h := Sink.At.decorated (blanks_append hb₁ _) (hd _) (blanks_append hb₂ _)
    (blanks_append hb₃ _) (ht rest)
  simpa using h

theorem textOf_fanOut {t : Sink} {ts : List Sink} (hb : b.all isBlank)
    (ht : TextOf (Sink.At order) q t) (hts : TextOf (MoreSinksAt order) q' ts)
    (hb' : b'.all isBlank) :
    TextOf (Sink.At order) ('[' :: (b ++ (q ++ (q' ++ (b' ++ [']']))))) (.fanOut (t :: ts)) := by
  intro rest
  have h := Sink.At.fanOut (blanks_append hb _) (ht _) (hts _) (blanks_append hb' (']' :: rest))
  simpa using h

theorem textOf_failover {t u : Sink} (hb : b.all isBlank)
    (ht : TextOf (SinkBefore order '?') q t) (hb' : b'.all isBlank)
    (hu : TextOf (SinkBefore order '>') q' u) :
    TextOf (Sink.At order) ('<' :: (b ++ (q ++ (b' ++ q')))) (.failover t u) := by
  intro rest
  have h := Sink.At.failover (blanks_append hb _) (ht _) (blanks_append hb' _) (hu rest)
  simpa using h

theorem textOf_block {c : Call} {t : Sink} (hc : TextOf (Call.At order) q c) (hb : b.all isBlank)
    (hb' : b'.all isBlank) (ht : TextOf (SinkBefore order '}') q' t) :
    TextOf (Sink.At order) (q ++ (b ++ '{' :: (b' ++ q'))) (.block c t) := by
  intro rest
  have h := Sink.At.block (hc _) (blanks_append hb _) (blanks_append hb' _) (ht rest)
  simpa using h

theorem textOf_moreSinks {t : Sink} {ts : List Sink} (hb : b.all isBlank) (hb' : b'.all isBlank)
    (ht : TextOf (Sink.At order) q t) (hts : TextOf (MoreSinksAt order) q' ts) :
    TextOf (MoreSinksAt order) (b ++ ',' :: (b' ++ (q ++ q'))) (t :: ts) := by
  intro rest
  have h := MoreSinksAt.cons (blanks_append hb _) (blanks_append hb' _) (ht _) (hts rest)
  simpa using h

end Compose

/-! ## Every tree has an extent -/

section Extent

variable {order order' : List Argument → Bool}

mutual

/-- A value takes up a beginning of the text that ends in a token, and that beginning is a text of
the value with any rest behind it. The order of arguments may be relaxed on the way. -/
theorem value_extent (ho : ∀ as, order as → order' as) :
    ∀ (v : Value) {s rest : List Char}, Value.At order s v rest →
    ∃ q, s = q ++ rest ∧ EndsInToken q ∧ TextOf (Value.At order') q v
  | .literal _, _, _, .literal h => by
    obtain ⟨hl, rfl⟩ := literalAt_iff.1 h
    exact ⟨_, rfl, hl.endsInToken, fun r => .literal (textOf_literal hl r)⟩
  | .call c, _, _, .call h => by
    obtain ⟨q, rfl, hq, hc⟩ := call_extent ho c h
    exact ⟨q, rfl, hq, fun r => .call (hc r)⟩

theorem argument_extent (ho : ∀ as, order as → order' as) :
    ∀ (a : Argument) {s rest : List Char}, Argument.At order s a rest →
    ∃ q, s = q ++ rest ∧ EndsInToken q ∧ TextOf (Argument.At order') q a
  | .positional v, _, _, .positional h => by
    obtain ⟨q, rfl, hq, hv⟩ := value_extent ho v h
    exact ⟨q, rfl, hq, fun r => .positional (hv r)⟩
  | .keyword n v, _, _, .keyword hn hb hb' h => by
    obtain ⟨hw, rfl⟩ := nameAt_iff.1 hn
    obtain ⟨b, hb, rfl⟩ := hb
    obtain ⟨b', hb', rfl⟩ := hb'
    obtain ⟨q, rfl, hq, hv⟩ := value_extent ho v h
    refine ⟨_, ?_, ?_, textOf_keyword hw hb hb' hv⟩
    · simp
    · exact (((hq.append_left b').cons '=').append_left b).append_left _

theorem call_extent (ho : ∀ as, order as → order' as) :
    ∀ (c : Call) {s rest : List Char}, Call.At order s c rest →
    ∃ q, s = q ++ rest ∧ EndsInToken q ∧ TextOf (Call.At order') q c
  | ⟨n, args⟩, _, _, .mk hn hb hb' h hargs hc => by
    obtain ⟨hw, rfl⟩ := nameAt_iff.1 hn
    obtain ⟨b, hb, rfl⟩ := hb
    obtain ⟨b', hb', rfl⟩ := hb'
    obtain ⟨q, rfl, ha⟩ := arguments_extent ho args h
    obtain ⟨b'', hb'', rfl⟩ := hc
    refine ⟨_, ?_, ?_, textOf_call hw hb (textOf_parens hb' ha (ho args hargs) hb'')⟩
    · simp
    · have h := endsInToken_append_singleton (c := ')') (b' ++ (q ++ b'')) rfl
      simpa using ((h.cons '(').append_left b).append_left n.toList

theorem arguments_extent (ho : ∀ as, order as → order' as) :
    ∀ (as : List Argument) {s rest : List Char},
    ArgumentsAt order s as rest → ∃ q, s = q ++ rest ∧ TextOf (ArgumentsAt order') q as
  | [], _, _, .nil => ⟨[], rfl, fun _ => .nil⟩
  | a :: as, _, _, .cons h h' => by
    obtain ⟨q, rfl, -, ha⟩ := argument_extent ho a h
    obtain ⟨q', rfl, has⟩ := moreArguments_extent ho as h'
    exact ⟨q ++ q', (List.append_assoc ..).symm, textOf_arguments ha has⟩

theorem moreArguments_extent (ho : ∀ as, order as → order' as) :
    ∀ (as : List Argument) {s rest : List Char},
    MoreArgumentsAt order s as rest → ∃ q, s = q ++ rest ∧ TextOf (MoreArgumentsAt order') q as
  | [], _, _, .nil => ⟨[], rfl, fun _ => .nil⟩
  | a :: as, _, _, .cons hb hb' h h' => by
    obtain ⟨b, hb, rfl⟩ := hb
    obtain ⟨b', hb', rfl⟩ := hb'
    obtain ⟨q, rfl, -, ha⟩ := argument_extent ho a h
    obtain ⟨q', rfl, has⟩ := moreArguments_extent ho as h'
    exact ⟨_, by simp, textOf_moreArguments hb hb' ha has⟩

end

theorem source_extent (ho : ∀ as, order as → order' as) :
    ∀ (d : Source) {s rest : List Char}, Source.At order s d rest →
    ∃ q, s = q ++ rest ∧ EndsInToken q ∧ TextOf (Source.At order') q d
  | .name n, _, _, .name hn => by
    obtain ⟨hw, rfl⟩ := nameAt_iff.1 hn
    exact ⟨_, rfl, hw.endsInToken, fun r => .name (textOf_name hw r)⟩
  | .call c, _, _, .call h => by
    obtain ⟨q, rfl, hq, hc⟩ := call_extent ho c h
    exact ⟨q, rfl, hq, fun r => .call (hc r)⟩

mutual

theorem sink_extent (ho : ∀ as, order as → order' as) :
    ∀ (t : Sink) {s rest : List Char}, Sink.At order s t rest →
    ∃ q, s = q ++ rest ∧ EndsInToken q ∧ TextOf (Sink.At order') q t
  | .name n, _, _, .name hn => by
    obtain ⟨hw, rfl⟩ := nameAt_iff.1 hn
    exact ⟨_, rfl, hw.endsInToken, fun r => .name (textOf_name hw r)⟩
  | .call c, _, _, .call h => by
    obtain ⟨q, rfl, hq, hc⟩ := call_extent ho c h
    exact ⟨q, rfl, hq, fun r => .call (hc r)⟩
  | .decorated d t, _, _, .decorated hb₁ hd hb₂ hb₃ h => by
    obtain ⟨b₁, hb₁, rfl⟩ := hb₁
    obtain ⟨q, rfl, -, hd'⟩ := source_extent ho d hd
    obtain ⟨b₂, hb₂, rfl⟩ := hb₂
    obtain ⟨b₃, hb₃, rfl⟩ := hb₃
    obtain ⟨q', rfl, hq, ht⟩ := before_extent ho t h rfl
    refine ⟨_, ?_, ?_, textOf_decorated hb₁ hd' hb₂ hb₃ ht⟩
    · simp
    · have harrow := ((hq.append_left b₃).cons '>').cons '='
      exact (((harrow.append_left b₂).append_left q).append_left b₁).cons '{'
  | .fanOut (t :: ts), _, _, .fanOut hb h h' hb' => by
    obtain ⟨b, hb, rfl⟩ := hb
    obtain ⟨q, rfl, -, ht⟩ := sink_extent ho t h
    obtain ⟨q', rfl, hts⟩ := moreSinks_extent ho ts h'
    obtain ⟨b', hb', rfl⟩ := hb'
    refine ⟨_, ?_, ?_, textOf_fanOut hb ht hts hb'⟩
    · simp
    · have h := endsInToken_append_singleton (c := ']') (b ++ (q ++ (q' ++ b'))) rfl
      simpa using h.cons '['
  | .failover t u, _, _, .failover hb h hb' h' => by
    obtain ⟨b, hb, rfl⟩ := hb
    obtain ⟨q, rfl, -, ht⟩ := before_extent ho t h rfl
    obtain ⟨b', hb', rfl⟩ := hb'
    obtain ⟨q', rfl, hq, hu⟩ := before_extent ho u h' rfl
    refine ⟨_, ?_, ?_, textOf_failover hb ht hb' hu⟩
    · simp
    · exact (((hq.append_left b').append_left q).append_left b).cons '<'
  | .block c t, _, _, .block hc hb hb' h => by
    obtain ⟨q, rfl, -, hc'⟩ := call_extent ho c hc
    obtain ⟨b, hb, rfl⟩ := hb
    obtain ⟨b', hb', rfl⟩ := hb'
    obtain ⟨q', rfl, hq, ht⟩ := before_extent ho t h rfl
    refine ⟨_, ?_, ?_, textOf_block hc' hb hb' ht⟩
    · simp
    · exact (((hq.append_left b').cons '{').append_left b).append_left q

theorem before_extent (ho : ∀ as, order as → order' as) :
    ∀ (t : Sink) {c : Char} {s rest : List Char}, SinkBefore order c s t rest →
    isBlank c = false → ∃ q, s = q ++ rest ∧ EndsInToken q ∧ TextOf (SinkBefore order' c) q t
  | t, c, _, _, .mk h hb, hc => by
    obtain ⟨q, rfl, -, ht⟩ := sink_extent ho t h
    obtain ⟨b, hb, rfl⟩ := hb
    refine ⟨_, ?_, ?_, textOf_before ht hb c⟩
    · simp
    · exact (endsInToken_append_singleton b hc).append_left q

theorem moreSinks_extent (ho : ∀ as, order as → order' as) :
    ∀ (ts : List Sink) {s rest : List Char}, MoreSinksAt order s ts rest →
    ∃ q, s = q ++ rest ∧ TextOf (MoreSinksAt order') q ts
  | [], _, _, .nil => ⟨[], rfl, fun _ => .nil⟩
  | t :: ts, _, _, .cons hb hb' h h' => by
    obtain ⟨b, hb, rfl⟩ := hb
    obtain ⟨b', hb', rfl⟩ := hb'
    obtain ⟨q, rfl, -, ht⟩ := sink_extent ho t h
    obtain ⟨q', rfl, hts⟩ := moreSinks_extent ho ts h'
    exact ⟨_, by simp, textOf_moreSinks hb hb' ht hts⟩

end

/-! ## Weaker rules on the order of arguments -/

section Mono

variable {s rest : List Char}

theorem ArgumentsAt.mono (ho : ∀ as, order as → order' as) {as : List Argument}
    (h : ArgumentsAt order s as rest) : ArgumentsAt order' s as rest := by
  obtain ⟨q, rfl, hq⟩ := arguments_extent ho as h
  exact hq rest

theorem Call.At.mono (ho : ∀ as, order as → order' as) {c : Call} (h : Call.At order s c rest) :
    Call.At order' s c rest := by
  obtain ⟨q, rfl, -, hq⟩ := call_extent ho c h
  exact hq rest

theorem Source.At.mono (ho : ∀ as, order as → order' as) {d : Source}
    (h : Source.At order s d rest) : Source.At order' s d rest := by
  obtain ⟨q, rfl, -, hq⟩ := source_extent ho d h
  exact hq rest

theorem Sink.At.mono (ho : ∀ as, order as → order' as) {t : Sink} (h : Sink.At order s t rest) :
    Sink.At order' s t rest := by
  obtain ⟨q, rfl, -, hq⟩ := sink_extent ho t h
  exact hq rest

theorem MoreSinksAt.mono (ho : ∀ as, order as → order' as) {ts : List Sink}
    (h : MoreSinksAt order s ts rest) : MoreSinksAt order' s ts rest := by
  obtain ⟨q, rfl, hq⟩ := moreSinks_extent ho ts h
  exact hq rest

end Mono

end Extent

namespace Entry

variable {order order' : List Argument → Bool}

theorem at_extent (ho : ∀ as, order as → order' as) : ∀ {e : Entry} {t : e.Tree}
    {s rest : List Char}, e.At order s t rest →
    ∃ q, s = q ++ rest ∧ EndsInToken q ∧ TextOf (e.At order') q t
  | literal, _, _, _, h => by
    obtain ⟨hl, rfl⟩ := literalAt_iff.1 h
    exact ⟨_, rfl, hl.endsInToken, textOf_literal hl⟩
  | argument, a, _, _, h => argument_extent ho a h
  | source, d, _, _, h => source_extent ho d h
  | sink, t, _, _, h => sink_extent ho t h

variable {e : Entry} {t : e.Tree} {b b' q text : List Char}

theorem spells_of_textOf (hb : b.all isBlank) (h : TextOf (e.At order) q t)
    (hb' : b'.all isBlank) : e.Spells order (b ++ (q ++ b')) t :=
  ⟨q ++ b', b', blanks_append hb _, h b', by simpa using blanks_append hb' []⟩

/-- A text that spells a tree is a text of that tree between blanks. -/
theorem Spells.exists_textOf (ho : ∀ as, order as → order' as) (h : e.Spells order text t) :
    ∃ b q b', text = b ++ (q ++ b') ∧ b.all isBlank ∧ b'.all isBlank ∧ EndsInToken q ∧
      TextOf (e.At order') q t := by
  obtain ⟨s, rest, ⟨b, hb, rfl⟩, h, b', hb', rfl⟩ := h
  obtain ⟨q, rfl, hq, ht⟩ := at_extent ho h
  rw [List.append_nil]
  exact ⟨b, q, b', rfl, hb, hb', hq, ht⟩

/-- Blanks at the end cannot belong to a tree. -/
theorem spells_append_blanks (hb : b.all isBlank) :
    e.Spells order (text ++ b) t ↔ e.Spells order text t := by
  have ho : ∀ as, order as → order as := fun _ => id
  refine ⟨fun h => ?_, fun h => ?_⟩
  · obtain ⟨b₁, q, b₂, he, hb₁, hb₂, hq, ht⟩ := h.exists_textOf ho
    rw [← List.append_assoc] at he
    obtain ⟨d, rfl, rfl⟩ := (hq.append_left b₁).exists_append hb he.symm
    rw [List.all_append, Bool.and_eq_true] at hb₂
    rw [List.append_assoc]
    exact spells_of_textOf hb₁ ht hb₂.1
  · obtain ⟨b₁, q, b₂, rfl, hb₁, hb₂, -, ht⟩ := h.exists_textOf ho
    have hb' : (b₂ ++ b).all isBlank := by rw [List.all_append, hb₂, hb]; rfl
    simpa using spells_of_textOf hb₁ ht hb'

/-- Blanks at the end of a text never change what it parses to. -/
theorem parse_append_blanks {text : String} (hb : b.all isBlank) :
    e.parse (String.ofList (text.toList ++ b)) = .ok t ↔ e.parse text = .ok t := by
  rw [parse_eq_ok, parse_eq_ok, String.toList_ofList]
  exact spells_append_blanks hb

end Entry

end Pipeline
