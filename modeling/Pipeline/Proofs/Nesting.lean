import Mathlib.Data.List.Chain
import Pipeline.Proofs.FailureOrigin
import Pipeline.Proofs.Loops

/-!
# How deep rules nest

A round is said to enter its nested rule on a text if another answer there could change its own
outcome (`Rule.Enters`). As rounds look inward, a visit to the rule for values or for sinks has a
shorter text than the one around it, and a chain of visits is no longer than the text, but for one
at its end (`Entry.length_visits_le`). Brackets alone have that many. Rules that may nest no deeper
do the same, whatever they do at the bottom (`Entry.ruleWithin_eq`), and no error is ever about the
nesting.
-/

namespace Pipeline

namespace Rule

variable {α β : Type}

/-! ## Entries -/

section Enters

variable {f : Rule α → Rule β} {p q : Rule α} {s t : List Char} {n : Nat}

/-- The rule with the answer `r` on `t`, and its own everywhere else. -/
def answering (p : Rule α) (t : List Char) (r : Except Failure (α × List Char)) : Rule α :=
  fun u => if u = t then r else p u

/-- What the round `f` does on `s` depends on what the nested rule does on `t`. -/
def Enters (f : Rule α → Rule β) (p : Rule α) (s t : List Char) : Prop :=
  ∃ r, f (p.answering t r) s ≠ f p s

theorem agreeOnEnds_answering (h : ¬ (t <:+ s ∧ t.length < n))
    (r : Except Failure (α × List Char)) : AgreeOnEnds s n (p.answering t r) p := by
  intro u hus hu
  refine if_neg ?_
  rintro rfl
  exact h ⟨hus, hu⟩

/-- What a round needs agreement on is all that it enters. -/
theorem Enters.of_agree (h : Enters f p s t) (hf : ∀ q, AgreeOnEnds s n q p → f q s = f p s) :
    t <:+ s ∧ t.length < n := by
  obtain ⟨r, hr⟩ := h
  by_contra ht
  exact hr (hf _ (agreeOnEnds_answering ht r))

end Enters

/-- A run of `value` or of `sink`, with the text that it is given. -/
inductive Visit where
  | value (s : List Char)
  | sink (s : List Char)

namespace Visit

/-- The text that the run is given. -/
def text : Visit → List Char
  | value s => s
  | sink s => s

/-- The first run enters the second directly, in its own round. -/
def Encloses : Visit → Visit → Prop
  | value s, value t => Enters valueOf Rule.value s t
  | value _, sink _ => False
  | sink s, value t => Enters (fun v => sinkWith v Rule.sink) Rule.value s t
  | sink s, sink t => Enters sinkOf Rule.sink s t

/-- An enclosed visit is at a shorter end of the text. -/
theorem Encloses.inner : ∀ {v w : Visit}, v.Encloses w →
    w.text <:+ v.text ∧ w.text.length < v.text.length
  | value s, value _, h => h.of_agree fun q hq =>
    inward_valueOf s _ q _ leavesEnd_value hq s List.suffix_rfl (Nat.lt_succ_self _)
  | sink s, value _, h => Enters.of_agree (f := fun v => sinkWith v Rule.sink) h fun _ hq =>
    hq.sinkWith (.refl _ _ _) leavesEnd_sink s List.suffix_rfl (Nat.lt_succ_self _)
  | sink s, sink _, h => h.of_agree fun q hq =>
    inward_sinkOf s _ q _ leavesEnd_sink hq s List.suffix_rfl (Nat.lt_succ_self _)

/-- So visits are nested no deeper than the text is long. -/
theorem length_le_of_isChain {v : Visit} {vs : List Visit} (h : (v :: vs).IsChain Encloses) :
    (v :: vs).length ≤ v.text.length + 1 := by
  induction vs generalizing v with
  | nil => simp
  | cons w vs ih =>
    obtain ⟨hvw, hw⟩ := List.isChain_cons_cons.1 h
    have hshort := hvw.inner.2
    have hlen := ih hw
    simp only [List.length_cons] at hlen ⊢
    omega

theorem encloses_bracket (s : List Char) :
    (Visit.sink ('[' :: s)).Encloses (.sink (s.dropWhile isBlank)) := by
  have hk (e : Failure) : sinkOf (Rule.sink.answering (s.dropWhile isBlank) (.error e)) ('[' :: s) =
      .error (e.commit.noted (.label .sink)) :=
    sinkOf_fanOut_fails (items₁_eq_error.2 (.inl (if_pos rfl)))
  rcases hs : sinkOf Rule.sink ('[' :: s) with f | r
  · -- The answer leaves more than the round does.
    refine ⟨.error ⟨true, '[' :: f.rest, [], none⟩, ?_⟩
    rw [hk, hs]
    intro h
    exact List.cons_ne_self _ _ (congrArg Failure.rest (Except.error.inj h))
  · refine ⟨.error ⟨true, [], [], none⟩, ?_⟩
    rw [hk, hs]
    nofun

/-- Opening brackets alone have as many visits as a text of their length can have. -/
theorem exists_isChain_brackets : ∀ n, ∃ vs,
    (Visit.sink (List.replicate n '[') :: vs).IsChain Encloses ∧ vs.length = n
  | 0 => ⟨[], List.isChain_singleton _, rfl⟩
  | n + 1 => by
    obtain ⟨vs, hvs, hlen⟩ := exists_isChain_brackets n
    have hstop : Stops isBlank (List.replicate n '[') := by
      intro c hc
      rw [List.eq_of_mem_replicate (List.mem_of_mem_head? hc)]
      rfl
    have hb := encloses_bracket (List.replicate n '[')
    rw [hstop.dropWhile_eq] at hb
    exact ⟨_ :: vs, List.isChain_cons_cons.2 ⟨hb, hvs⟩, by rw [List.length_cons, hlen]⟩

end Visit

/-! ## Bounded nesting -/

section Bounded

variable {v₀ : Rule Value} {k₀ : Rule Sink} {s : List Char} {n : Nat}

/-- At most `n` rounds of `value`, one inside the other, with `v₀` inside the last. -/
def valueWithin (v₀ : Rule Value) : Nat → Rule Value
  | 0 => v₀
  | n + 1 => valueOf (valueWithin v₀ n)

/-- At most `n` rounds of `sink` and `value`, one inside the other, with `v₀` and `k₀` inside the
last. -/
def sinkWithin (v₀ : Rule Value) (k₀ : Rule Sink) : Nat → Rule Sink
  | 0 => k₀
  | n + 1 => sinkWith (valueWithin v₀ n) (sinkWithin v₀ k₀ n)

theorem valueWithin_agree (v₀ : Rule Value) (s : List Char) :
    ∀ n, AgreeOnEnds s n (valueWithin v₀ n) value
  | 0 => fun _ _ ht => absurd ht (Nat.not_lt_zero _)
  | n + 1 => by
    rw [value_eq]
    exact inward_valueOf s n _ _ leavesEnd_value (valueWithin_agree v₀ s n)

theorem sinkWithin_agree (v₀ : Rule Value) (k₀ : Rule Sink) (s : List Char) :
    ∀ n, AgreeOnEnds s n (sinkWithin v₀ k₀ n) sink
  | 0 => fun _ _ ht => absurd ht (Nat.not_lt_zero _)
  | n + 1 => by
    rw [sink_eq]
    exact (valueWithin_agree v₀ s n).sinkWith (sinkWithin_agree v₀ k₀ s n) leavesEnd_sink

end Bounded

/-! ## The rules of the grammar -/

/-- The rules that read something wherever they succeed. -/
def advancing : List (Sigma Rule) :=
  [⟨_, name⟩, ⟨_, hexLiteral⟩, ⟨_, doubleLiteral⟩, ⟨_, decimalLiteral⟩, ⟨_, stringLiteral⟩,
    ⟨_, literal⟩, ⟨_, value⟩, ⟨_, argument⟩, ⟨_, arguments⟩, ⟨_, call⟩, ⟨_, source⟩,
    ⟨_, decoratedOf sink⟩, ⟨_, fanOutOf sink⟩, ⟨_, failoverOf sink⟩, ⟨_, namedOf sink⟩, ⟨_, sink⟩]

/-- The rules that may read nothing. -/
def skipping : List (Sigma Rule) :=
  [⟨_, blanks⟩, ⟨_, quotedBody⟩, ⟨_, argumentListOf value⟩]

theorem forward_of_advancing {r : Sigma Rule} (hr : r ∈ advancing) : r.2.Forward := by
  revert r
  simp only [advancing, List.forall_mem_cons]
  exact ⟨forward_name, forward_hexLiteral, forward_doubleLiteral, forward_decimalLiteral,
    forward_stringLiteral, forward_literal, forward_value, forward_argumentOf forward_value,
    forward_argumentsOf leavesEnd_value, forward_callOf leavesEnd_value, forward_source,
    forward_decoratedOf leavesEnd_sink, forward_fanOutOf leavesEnd_sink,
    forward_failoverOf leavesEnd_sink, forward_namedOf leavesEnd_sink, forward_sink,
    List.forall_mem_nil _⟩

theorem leavesEnd_of_skipping {r : Sigma Rule} (hr : r ∈ skipping) : r.2.LeavesEnd := by
  revert r
  simp only [skipping, List.forall_mem_cons]
  exact ⟨leavesEnd_blanks, leavesEnd_quotedBody, leavesEnd_argumentListOf leavesEnd_value,
    List.forall_mem_nil _⟩

end Rule

namespace Entry

open Rule

/-- The run is an outermost one where the entry is read on `s`. -/
def Opens : Entry → List Char → Visit → Prop
  | argument, s, .value t => Enters argumentOf value s t
  | source, s, .value t => Enters sourceOf value s t
  | sink, s, .sink t => t = s
  | _, _, _ => False

/-- The rule of the entry with its visits nested at most `n` deep. -/
def ruleWithin (v₀ : Rule Value) (k₀ : Rule Sink) (n : Nat) : (e : Entry) → Rule e.Tree
  | literal => Rule.literal
  | argument => argumentOf (valueWithin v₀ n)
  | source => sourceOf (valueWithin v₀ n)
  | sink => sinkWithin v₀ k₀ n

variable {e : Entry} {s : List Char} {v : Visit} {vs : List Visit}

theorem Opens.inner : ∀ {e : Entry} {v : Visit}, e.Opens s v → v.text <:+ s
  | argument, .value _, h => (Enters.of_agree h fun _ hq =>
    hq.argumentOf s List.suffix_rfl (Nat.lt_succ_self _)).1
  | source, .value _, h => (Enters.of_agree (f := sourceOf) h fun _ hq =>
    hq.sourceOf s List.suffix_rfl (Nat.lt_succ_self _)).1
  | sink, .sink _, h => by
    cases h
    exact List.suffix_rfl

theorem length_visits_le (hv : e.Opens s v) (hvs : (v :: vs).IsChain Visit.Encloses) :
    (v :: vs).length ≤ s.length + 1 :=
  (Visit.length_le_of_isChain hvs).trans (Nat.succ_le_succ hv.inner.length_le)

/-- A budget above the length of the text is never used up. -/
theorem ruleWithin_eq {n : Nat} (h : s.length < n) (v₀ : Rule Value) (k₀ : Rule Sink) :
    e.ruleWithin v₀ k₀ n s = e.rule s := by
  have hv := valueWithin_agree v₀ s n
  match e with
  | literal => rfl
  | argument => exact hv.argumentOf s List.suffix_rfl h
  | source => exact hv.sourceOf s List.suffix_rfl h
  | sink => exact sinkWithin_agree v₀ k₀ s n s List.suffix_rfl h

end Entry

/-! ## No failure for the nesting -/

theorem Rule.Fails.cause_ne {D : String → Prop} {N : Note → Prop} {s : List Char} {f : Failure}
    (h : Rule.Fails D N s f) : f.cause ≠ some .exhausted := by
  cases h with
  | @atLiteral q s₀ f₀ ns _ _ hf hc _ he =>
    obtain ⟨m, -, -, -, -, -, hover, hnone⟩ := Rule.literal_committed hf hc
    rw [he]
    change f₀.cause ≠ _
    by_cases ht : Literal.TooLarge m f₀.rest
    · rw [hover ht]
      nofun
    · rw [hnone ht]
      nofun
  | elsewhere _ _ hc =>
    rw [hc]
    nofun

namespace Entry

theorem parse_fault_ne {e : Entry} {text : String} {err : SyntaxError}
    (h : e.parse text = .error err) (notes : List Note) :
    err.fault ≠ .unreadable notes (some .exhausted) := by
  rcases parse_eq_error.1 h with ⟨f, hf, rfl⟩ | ⟨-, -, -, -, rfl⟩
  · intro he
    exact (rule_fails hf).cause_ne (Fault.unreadable.inj he).2
  · nofun

end Entry

namespace Rule

/-- Every rule moves forward, and with it each visit inside another and each part of a loop. Visits
nest as deep as the text is long, with one more at its end, which some texts come to, and what a
deeper one would do makes no difference. -/
theorem reading_advances :
    (∀ r ∈ advancing, r.2.Forward) ∧ (∀ r ∈ skipping, r.2.LeavesEnd) ∧
    (value = valueOf value ∧ source = sourceOf value ∧ sink = sinkWith value sink ∧
      ∀ v w : Visit, v.Encloses w → w.text <:+ v.text ∧ w.text.length < v.text.length) ∧
    (Loops quotedPart (· ++ ·) [] quotedBody ∧
      Loops (do separator; argument) List.cons [] (moreItems argument) ∧
      Loops (do separator; sink) List.cons [] (moreItems sink)) ∧
    (asserting quotedPart = quotedPart ∧ asserting separator = separator) ∧
    (∀ (e : Entry) s v vs, e.Opens s v → (v :: vs).IsChain Visit.Encloses →
      (v :: vs).length ≤ s.length + 1) ∧
    (∀ n, ∃ s v vs, s.length = n ∧ Entry.sink.Opens s v ∧ (v :: vs).IsChain Visit.Encloses ∧
      (v :: vs).length = n + 1) ∧
    (∀ (e : Entry) v₀ k₀ n s, s.length < n → e.ruleWithin v₀ k₀ n s = e.rule s) ∧
    ∀ (e : Entry) text err notes, e.parse text = .error err →
      err.fault ≠ .unreadable notes (some .exhausted) := by
  refine ⟨fun _ => forward_of_advancing, fun _ => leavesEnd_of_skipping,
    ⟨value_eq, sourceOf_value.symm, sink_eq.trans (sinkWith_value sink).symm, fun _ _ h => h.inner⟩,
    ⟨quotedBody_loops, ?_, ?_⟩,
    ⟨asserting_eq forward_quotedPart.advances, asserting_eq forward_separator.advances⟩,
    fun _ _ _ _ => Entry.length_visits_le, fun n => ?_,
    fun _ v₀ k₀ _ _ h => Entry.ruleWithin_eq h v₀ k₀,
    fun _ _ _ notes h => Entry.parse_fault_ne h notes⟩
  · rw [← nextItem_eq]
    exact moreItems_loops (leavesEnd_argumentOf leavesEnd_value)
  · rw [← nextItem_eq]
    exact moreItems_loops leavesEnd_sink
  · obtain ⟨vs, hvs, hlen⟩ := Visit.exists_isChain_brackets n
    exact ⟨_, .sink _, vs, List.length_replicate, rfl, hvs, congrArg (· + 1) hlen⟩

/-- As many visits as there can be, and just enough rounds for them. -/
theorem reading_advances_brackets :
    [Visit.sink ['[', '['], .sink ['['], .sink []].IsChain Visit.Encloses ∧
    [Visit.sink ['[', '['], .sink ['['], .sink []].length ≤ ['[', '['].length + 1 ∧
    Entry.sink.ruleWithin exhausted exhausted 3 ['[', '['] = sink ['[', '['] ∧
    Entry.sink.ruleWithin exhausted exhausted 2 ['[', '['] =
      .error ⟨true, [], [.label .sink, .label .sink], some .exhausted⟩ := by
  obtain ⟨-, -, -, -, -, hdepth, -, hwithin, -⟩ := reading_advances
  have h : [Visit.sink ['[', '['], .sink ['['], .sink []].IsChain Visit.Encloses :=
    List.isChain_cons_cons.2 ⟨Visit.encloses_bracket ['['],
      List.isChain_cons_cons.2 ⟨Visit.encloses_bracket [], List.isChain_singleton _⟩⟩
  exact ⟨h, hdepth .sink _ _ _ rfl h, hwithin .sink _ _ 3 _ (by decide), rfl⟩

end Rule

end Pipeline
