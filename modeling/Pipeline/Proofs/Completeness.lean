import Pipeline.Proofs.Loops
import Pipeline.Proofs.Soundness

/-!
# What is derived is read

Where the grammar derives a tree from the front of a text, the rule returns that tree and leaves
the same rest (`value_complete`, `sink_complete`), unless the rest could be taken for more of it:
`Free` says that it cannot. Inside a specification every item stands before a delimiter, which makes
its rest free (`Blanks.free`). The induction is on trees, one round of the rule to each constructor.
-/

namespace Pipeline

/-- Nothing that a word could go on with, nor, blanks aside, the opening of arguments or of a
body. -/
structure Free (rest : List Char) : Prop where
  word : Stops Token.isWordPart rest
  next : Stops (fun c => c = '(' || c = '{') (rest.dropWhile isBlank)

/-- The marks that stand behind items. -/
def isDelimiter (c : Char) : Bool :=
  c ∈ [',', ')', '=', '?', '>', '}', ']']

section Follow

variable {s t rest : List Char} {c : Char}

theorem isMark_of_isDelimiter (h : isDelimiter c) : Token.isMark c := by
  simp only [isDelimiter, List.mem_cons, List.not_mem_nil, or_false, decide_eq_true_eq] at h
  rcases h with rfl | rfl | rfl | rfl | rfl | rfl | rfl <;> rfl

/-- A word ends before blanks and before a mark. -/
theorem Blanks.stops_word (h : Blanks s t) (ht : Stops Token.isWordPart t) :
    Stops Token.isWordPart s := by
  rcases h.eq_or with rfl | ⟨d, cs, rfl, hd⟩
  · exact ht
  · exact stops_cons.2 (isWordPart_of_isBlank hd)

/-- A mark behind blanks is what is left without them. -/
theorem Blanks.mark (h : Blanks s (c :: t)) (hc : isBlank c = false) :
    s.dropWhile isBlank = c :: t :=
  h.dropWhile_eq (stops_cons.2 hc)

theorem Blanks.free_of_end (h : Blanks s []) : Free s := by
  refine ⟨h.stops_word stops_nil, ?_⟩
  rw [h.dropWhile_eq stops_nil]
  exact stops_nil

theorem Blanks.free (h : Blanks s (c :: t)) (hc : isDelimiter c) : Free s := by
  obtain ⟨hb, hw, -⟩ := isMark_cases (isMark_of_isDelimiter hc)
  refine ⟨h.stops_word (stops_cons.2 hw), ?_⟩
  rw [h.mark hb, stops_cons]
  by_contra hne
  simp only [Bool.or_eq_false_iff, decide_eq_false_iff_not, not_and_or, not_not] at hne
  rcases hne with rfl | rfl <;> cases hc

theorem Free.name (h : Free rest) : Stops isNamePart rest :=
  h.word.mono fun _ => isWordPart_of_isNamePart

/-- No argument list opens in front of a free rest. -/
theorem Free.not_arguments (h : Free rest) : (rest.dropWhile isBlank).head? ≠ some '(' := by
  intro hs
  have := h.next _ hs
  cases this

theorem Free.not_body (h : Free rest) : (rest.dropWhile isBlank).head? ≠ some '{' := by
  intro hs
  have := h.next _ hs
  cases this

end Follow

/-! ## First characters -/

section First

variable {order : List Argument → Bool} {s rest : List Char}

theorem NameAt.exists_start {n : String} (h : NameAt s n rest) :
    ∃ c cs, s = c :: cs ∧ isNameStart c := by
  obtain ⟨hc, -⟩ := h
  exact ⟨_, _, rfl, hc⟩

theorem NameAt.stops_blank {n : String} (h : NameAt s n rest) : Stops isBlank s := by
  obtain ⟨c, cs, rfl, hc⟩ := h.exists_start
  have hw := isWordPart_of_isNamePart (isNamePart_of_isNameStart hc)
  exact stops_cons.2 (isBlank_of_isWordPart hw)

theorem isBlank_of_isLiteralStart {c : Char} (h : isLiteralStart c) : isBlank c = false := by
  by_contra hb
  simp only [isBlank, Bool.not_eq_false, Bool.or_eq_true, decide_eq_true_eq] at hb
  rcases hb with ((rfl | rfl) | rfl) | rfl <;> cases h

theorem Literal.At.stops_blank {l : Literal} (h : Literal.At s l rest) : Stops isBlank s := by
  obtain ⟨c, cs, rfl, hc⟩ := h.exists_start
  exact stops_cons.2 (isBlank_of_isLiteralStart hc)

theorem Call.At.stops_blank {c : Call} (h : Call.At order s c rest) : Stops isBlank s := by
  cases h with
  | mk hn => exact hn.stops_blank

theorem Value.At.stops_blank {w : Value} (h : Value.At order s w rest) : Stops isBlank s := by
  cases h with
  | literal h => exact h.stops_blank
  | call h => exact h.stops_blank

theorem Argument.At.stops_blank {a : Argument} (h : Argument.At order s a rest) :
    Stops isBlank s := by
  cases h with
  | positional h => exact h.stops_blank
  | keyword hn => exact hn.stops_blank

theorem Source.At.stops_blank {d : Source} (h : Source.At order s d rest) : Stops isBlank s := by
  cases h with
  | name h => exact h.stops_blank
  | call h => exact h.stops_blank

theorem Sink.At.stops_blank {t : Sink} (h : Sink.At order s t rest) : Stops isBlank s := by
  cases h with
  | name h => exact h.stops_blank
  | call h => exact h.stops_blank
  | decorated => exact stops_cons.2 rfl
  | fanOut => exact stops_cons.2 rfl
  | failover => exact stops_cons.2 rfl
  | block h => exact h.stops_blank

theorem NameAt.stops_literal {n : String} (h : NameAt s n rest) : Stops isLiteralStart s := by
  obtain ⟨c, cs, rfl, hc⟩ := h.exists_start
  rw [stops_cons, isLiteralStart, isDigit_of_isNameStart hc, Bool.false_or, Bool.or_eq_false_iff]
  refine ⟨?_, ?_⟩ <;> rw [decide_eq_false_iff_not] <;> rintro rfl <;> cases hc

theorem Call.At.stops_literal {c : Call} (h : Call.At order s c rest) : Stops isLiteralStart s := by
  cases h with
  | mk hn => exact hn.stops_literal

theorem isNameStart_of_isLiteralStart {c : Char} (h : isLiteralStart c) :
    isNameStart c = false := by
  by_contra hn
  simp only [isLiteralStart, isDigit_of_isNameStart (Bool.not_eq_false _ ▸ hn), Bool.false_or,
    Bool.or_eq_true, decide_eq_true_eq] at h
  rcases h with rfl | rfl <;> exact hn rfl

/-- Literals and names differ in their first character, so the order of the alternatives does not
matter. -/
theorem Literal.At.stops_name {l : Literal} (h : Literal.At s l rest) : Stops isNameStart s := by
  obtain ⟨c, cs, rfl, hc⟩ := h.exists_start
  exact stops_cons.2 (isNameStart_of_isLiteralStart hc)

end First

namespace Rule

/-! ## Items -/

section Items

variable {α : Type} {item : Rule α} {a : α} {as : List α} {s s₁ s₂ s₃ rest : List Char} {c : Char}

/-- Rules that are behind blanks start at what is no blank. -/
theorem read_behind {r : α × List Char} (h : Blanks s s₁) (hs₁ : Stops isBlank s₁)
    (hi : item s₁ = .ok r) : item (s.dropWhile isBlank) = .ok r := by
  rw [h.dropWhile_eq hs₁]
  exact hi

theorem moreItems_complete_nil (hi : item.LeavesEnd) (h : Blanks s (c :: rest))
    (hc : isDelimiter c) (hne : c ≠ ',') : moreItems item s = .ok ([], s) := by
  refine moreItems_of_declines hi (declines_nextItem ?_)
  rw [h.mark (isMark_cases (isMark_of_isDelimiter hc)).1]
  simpa using hne

/-- The budget of the loop suffices for one more round, since an item leaves an end of the text. -/
theorem moreItems_complete_cons (hi : item.LeavesEnd) (h : Blanks s (',' :: s₁))
    (h₁ : Blanks s₁ s₂) (hs₂ : Stops isBlank s₂) (ha : item s₂ = .ok (a, s₃))
    (has : moreItems item s₃ = .ok (as, rest)) : moreItems item s = .ok (a :: as, rest) := by
  have hn : nextItem item s = .ok (a, s₃) :=
    nextItem_eq_ok.2 ⟨s₁, h.mark rfl, read_behind h₁ hs₂ ha⟩
  exact moreItems_of_ok hi hn has

end Items

/-! ## Calls -/

section Calls

variable {s rest : List Char}

/-- What starts like a keyword argument is no value. -/
theorem not_keyword_of_value {w : Value} (h : Value.At positionalFirst s w rest) :
    name.Declines s ∨ ∃ n s₁, name s = .ok (n, s₁) ∧ (s₁.dropWhile isBlank).head? ≠ some '=' := by
  cases h with
  | literal h => exact .inl (declines_name.2 h.stops_name)
  | call h =>
    obtain ⟨hn, hb, -⟩ := h
    refine .inr ⟨_, _, name_eq_ok.2 ⟨hn, ?_⟩, ?_⟩
    · exact (hb.stops_word (stops_cons.2 rfl)).mono fun _ => isWordPart_of_isNamePart
    · rw [hb.dropWhile_eq (stops_cons.2 rfl)]
      simp

theorem free_of_moreArguments {as : List Argument} {t u : List Char}
    (h : MoreArgumentsAt positionalFirst s as t) (ht : Blanks t (')' :: u)) : Free s := by
  cases h with
  | nil => exact ht.free rfl
  | cons hb => exact hb.free rfl

theorem declines_argument_of_closing (s : List Char) : argument.Declines (')' :: s) := by
  have hn : name.Declines (')' :: s) := declines_name.2 (stops_cons.2 rfl)
  have hl : literal.Declines (')' :: s) := declines_literal (stops_cons.2 rfl)
  refine declines_argumentOf hn ?_
  rw [value_eq]
  exact declines_valueOf.2 ⟨hl, declines_callOf.2 (.inl hn)⟩

mutual

/-- A value that stands at the front of the text is the one that is read, whatever free rest
follows. -/
theorem value_complete : ∀ (w : Value) {s rest : List Char}, Value.At positionalFirst s w rest →
    Free rest → value s = .ok (w, rest)
  | .literal l, _, _, .literal h, hr => by
    rw [value_eq]
    exact valueOf_eq_ok.2 (.inl ⟨l, rfl, literal_complete h hr.word⟩)
  | .call c, _, _, .call h, _ => by
    have hl := declines_literal h.stops_literal
    rw [value_eq]
    exact valueOf_eq_ok.2 (.inr ⟨c, rfl, hl, call_complete c h⟩)

theorem argument_complete : ∀ (a : Argument) {s rest : List Char},
    Argument.At positionalFirst s a rest → Free rest → argument s = .ok (a, rest)
  | .positional w, _, _, .positional h, hr => by
    have hw := value_complete w h hr
    exact argumentOf_eq_ok.2 (.inr ⟨w, rfl, hw, not_keyword_of_value h⟩)
  | .keyword n w, _, _, .keyword hn hb hb' h, hr => by
    have hn' := name_eq_ok.2 ⟨hn, (hb.free rfl).name⟩
    have hw := read_behind hb' h.stops_blank (value_complete w h hr)
    exact argumentOf_eq_ok.2 (.inl ⟨n, w, _, _, rfl, hn', hb.mark rfl, hw⟩)

/-- A call ends in its own parenthesis, so nothing is asked of the rest. -/
theorem call_complete : ∀ (c : Call) {s rest : List Char}, Call.At positionalFirst s c rest →
    call s = .ok (c, rest)
  | ⟨n, args⟩, _, _, .mk hn hb hb' h ho hr => by
    obtain ⟨u, hi, hu⟩ := arguments_complete args hb' h hr
    have hs := (hb.stops_word (stops_cons.2 rfl)).mono fun _ => isWordPart_of_isNamePart
    have hl := argumentListOf_eq_ok.2 ⟨hi, ho⟩
    have ha := argumentsOf_eq_ok.2 ⟨_, u, hb.mark rfl, hl, hu⟩
    exact callOf_eq_ok.2 ⟨n, args, _, rfl, name_eq_ok.2 ⟨hn, hs⟩, ha⟩

/-- Blanks behind an empty list are skipped with those before it, so the rest may differ by them. -/
theorem arguments_complete : ∀ (args : List Argument) {s t u rest : List Char}, Blanks s t →
    ArgumentsAt positionalFirst t args u → Blanks u (')' :: rest) →
    ∃ u', items argument (s.dropWhile isBlank) = .ok (args, u') ∧ u'.dropWhile isBlank = ')' :: rest
  | [], _, _, _, rest, hb, .nil, hr => by
    rw [(hb.trans hr).mark rfl]
    exact ⟨_, items_eq_ok.2 (.inl ⟨rfl, rfl, declines_argument_of_closing rest⟩), rfl⟩
  | a :: as, _, _, u, _, hb, .cons h h', hr => by
    have ha := read_behind hb h.stops_blank (argument_complete a h (free_of_moreArguments h' hr))
    have has := moreArguments_complete as h' hr
    have hi := items₁_eq_ok.2 ⟨a, as, _, rfl, ha, has⟩
    exact ⟨u, items_eq_ok.2 (.inr hi), hr.mark rfl⟩

theorem moreArguments_complete : ∀ (as : List Argument) {s t rest : List Char},
    MoreArgumentsAt positionalFirst s as t → Blanks t (')' :: rest) →
    moreItems argument s = .ok (as, t)
  | [], _, _, _, .nil, hr =>
    moreItems_complete_nil (leavesEnd_argumentOf leavesEnd_value) hr rfl (by simp)
  | a :: as, _, _, _, .cons hb hb' h h', hr => by
    have ha := argument_complete a h (free_of_moreArguments h' hr)
    have has := moreArguments_complete as h' hr
    have hi := leavesEnd_argumentOf leavesEnd_value
    exact moreItems_complete_cons hi hb hb' h.stops_blank ha has

end

end Calls

/-! ## Sources and sinks -/

section Sinks

variable {s rest : List Char}

theorem source_complete {d : Source} (h : Source.At positionalFirst s d rest) (hr : Free rest) :
    source s = .ok (d, rest) := by
  cases h with
  | name h =>
    have hn := name_eq_ok.2 ⟨h, hr.name⟩
    exact source_eq_ok.2 (.inl ⟨_, rfl, hn, hr.not_arguments⟩)
  | call h => exact source_eq_ok.2 (.inr ⟨_, rfl, call_complete _ h⟩)

theorem sink_of_namedOf {t : Sink} (h : namedOf sink s = .ok (t, rest)) :
    sink s = .ok (t, rest) := by
  rw [sink_eq]
  exact sinkOf_eq_ok.2 (.inr (.inr (.inr h)))

theorem free_of_moreSinks {ts : List Sink} {t u : List Char}
    (h : MoreSinksAt positionalFirst s ts t) (ht : Blanks t (']' :: u)) : Free s := by
  cases h with
  | nil => exact ht.free rfl
  | cons hb => exact hb.free rfl

/-! What is closed by a bracket is read whatever follows it. -/

section Closed

variable {s₁ s₂ s₃ s₄ s₅ : List Char} {c : Call} {d : Source} {t u : Sink} {ts : List Sink}

theorem decorated_complete (hb : Blanks s s₁) (hd : Source.At positionalFirst s₁ d s₂)
    (ha : Blanks s₂ ('=' :: '>' :: s₃)) (hb' : Blanks s₃ s₄) (hs₄ : Stops isBlank s₄)
    (ht : sink s₄ = .ok (t, s₅)) (hc : Blanks s₅ ('}' :: rest)) :
    sink ('{' :: s) = .ok (.decorated d t, rest) := by
  have hd' := read_behind hb hd.stops_blank (source_complete hd (ha.free rfl))
  have ht' := read_behind hb' hs₄ ht
  have hs := decoratedOf_eq_ok.2
    ⟨d, t, _, _, _, _, rfl, rfl, hd', ha.mark rfl, ht', hc.mark rfl⟩
  rw [sink_eq]
  exact sinkOf_eq_ok.2 (.inl hs)

theorem fanOut_complete (hb : Blanks s s₁) (hs₁ : Stops isBlank s₁) (ht : sink s₁ = .ok (t, s₂))
    (hts : moreItems sink s₂ = .ok (ts, s₃)) (hc : Blanks s₃ (']' :: rest)) :
    sink ('[' :: s) = .ok (.fanOut (t :: ts), rest) := by
  have hi := items₁_eq_ok.2 ⟨t, ts, _, rfl, read_behind hb hs₁ ht, hts⟩
  have hs := fanOutOf_eq_ok.2 ⟨t :: ts, _, _, rfl, rfl, hi, hc.mark rfl⟩
  rw [sink_eq]
  exact sinkOf_eq_ok.2 (.inr (.inl hs))

theorem failover_complete (hb : Blanks s s₁) (hs₁ : Stops isBlank s₁) (ht : sink s₁ = .ok (t, s₂))
    (hc : Blanks s₂ ('?' :: s₃)) (hb' : Blanks s₃ s₄) (hs₄ : Stops isBlank s₄)
    (hu : sink s₄ = .ok (u, s₅)) (hc' : Blanks s₅ ('>' :: rest)) :
    sink ('<' :: s) = .ok (.failover t u, rest) := by
  have ht' := read_behind hb hs₁ ht
  have hu' := read_behind hb' hs₄ hu
  have hs := failoverOf_eq_ok.2
    ⟨t, u, _, _, _, _, rfl, rfl, ht', hc.mark rfl, hu', hc'.mark rfl⟩
  rw [sink_eq]
  exact sinkOf_eq_ok.2 (.inr (.inr (.inl hs)))

theorem block_complete (h : Call.At positionalFirst s c s₁) (ho : Blanks s₁ ('{' :: s₂))
    (hb : Blanks s₂ s₃) (hs₃ : Stops isBlank s₃) (ht : sink s₃ = .ok (t, s₄))
    (hc : Blanks s₄ ('}' :: rest)) : sink s = .ok (.block c t, rest) := by
  have hc' := call_complete c h
  have ht' := read_behind hb hs₃ ht
  exact sink_of_namedOf (namedOf_eq_ok.2
    (.inr (.inr ⟨c, t, _, _, _, rfl, hc', ho.mark rfl, ht', hc.mark rfl⟩)))

end Closed

mutual

/-- A sink that stands at the front of the text is the one that is read: of the four alternatives
the first character picks one, and among the names what opens behind them. -/
theorem sink_complete : ∀ (t : Sink) {s rest : List Char}, Sink.At positionalFirst s t rest →
    Free rest → sink s = .ok (t, rest)
  | .name n, _, _, .name h, hr => by
    have hn := name_eq_ok.2 ⟨h, hr.name⟩
    exact sink_of_namedOf (namedOf_eq_ok.2 (.inl ⟨n, rfl, hn, hr.not_arguments⟩))
  | .call c, _, _, .call h, hr => by
    have hc := call_complete c h
    exact sink_of_namedOf (namedOf_eq_ok.2 (.inr (.inl ⟨c, rfl, hc, hr.not_body⟩)))
  | .decorated _ t, _, _, .decorated hb hd ha hb' (.mk h hc), _ =>
    decorated_complete hb hd ha hb' h.stops_blank (sink_complete t h (hc.free rfl)) hc
  | .fanOut (t :: ts), _, _, .fanOut hb h h' hc, _ => by
    have ht := sink_complete t h (free_of_moreSinks h' hc)
    exact fanOut_complete hb h.stops_blank ht (moreSinks_complete ts h' hc) hc
  | .failover t u, _, _, .failover hb (.mk h hc) hb' (.mk h' hc'), _ => by
    have ht := sink_complete t h (hc.free rfl)
    have hu := sink_complete u h' (hc'.free rfl)
    exact failover_complete hb h.stops_blank ht hc hb' h'.stops_blank hu hc'
  | .block _ t, _, _, .block h ho hb (.mk h' hc), _ =>
    block_complete h ho hb h'.stops_blank (sink_complete t h' (hc.free rfl)) hc

theorem moreSinks_complete : ∀ (ts : List Sink) {s t rest : List Char},
    MoreSinksAt positionalFirst s ts t → Blanks t (']' :: rest) → moreItems sink s = .ok (ts, t)
  | [], _, _, _, .nil, hr => moreItems_complete_nil leavesEnd_sink hr rfl (by simp)
  | t :: ts, _, _, _, .cons hb hb' h h', hr => by
    have ht := sink_complete t h (free_of_moreSinks h' hr)
    have hts := moreSinks_complete ts h' hr
    exact moreItems_complete_cons leavesEnd_sink hb hb' h.stops_blank ht hts

end

end Sinks

end Rule

end Pipeline
