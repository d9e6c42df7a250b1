import Pipeline.Proofs.FailureOrigin
import Pipeline.Proofs.Report

/-!
# What messages say

No error is reported without a reason. The rules around literals do not note what literals do
(`Entry.not_mayNote_literal`), so the first words of a message tell whether a literal broke off
there and the last ones whether it was for its size (`Entry.parse_error_message`).
-/

namespace Pipeline

/-! ## Notes -/

namespace Note

/-- The text keeps to one line and does not end as the cause of an overflow does, with "type". -/
def IsPlain (n : Note) : Prop :=
  '\n' ∉ n.text.toList ∧ 2 ≤ n.text.toList.length ∧ ¬ ['p', 'e'] <:+ n.text.toList

theorem isPlain_of_ofArgument {n : Note} (h : n.OfArgument) : n.IsPlain := by
  simp only [OfArgument, marks, List.mem_cons, List.not_mem_nil, or_false, exists_eq_or_imp,
    exists_eq_left] at h
  unfold IsPlain
  rcases h with (rfl | rfl | rfl) | rfl | rfl | rfl | rfl | rfl | rfl <;> decide

theorem isPlain_of_ofSink {n : Note} (h : n.OfSink) : n.IsPlain := by
  rcases h with rfl | h
  · unfold IsPlain
    decide
  · exact isPlain_of_ofArgument h

theorem isPlain_literal : (label .literal).IsPlain := by
  unfold IsPlain
  decide

theorem isPlain_expected {x : Expectation}
    (h : x ∈ [Expectation.hexInteger, .integer, .closingQuote]) : (expected x).IsPlain := by
  simp only [List.mem_cons, List.not_mem_nil, or_false] at h
  unfold IsPlain
  rcases h with rfl | rfl | rfl <;> decide

/-- Every note that a rule may leave is plain. -/
theorem isPlain_of_mayNote : ∀ {e : Entry} {n : Note}, e.MayNote n → n.IsPlain
  | .literal, _, rfl => isPlain_literal
  | .argument, _, h => isPlain_of_ofArgument h
  | .source, _, h => isPlain_of_ofArgument h
  | .sink, _, h => isPlain_of_ofSink h

theorem label?_of_ofArgument {n : Note} (h : n.OfArgument) : n.label? = none := by
  rcases h with h | ⟨t, -, rfl⟩
  · simp only [List.mem_cons, List.not_mem_nil, or_false] at h
    rcases h with rfl | rfl | rfl <;> rfl
  · rfl

end Note

/-- The rules around a literal take no note that it takes itself. -/
theorem Entry.not_mayNote_literal {x : Expectation} : ∀ {e : Entry}, e.MayNote (.expected x) →
    ¬ e.MayNote (.label .literal)
  | literal, h, _ => nomatch h
  | argument, _, h => nomatch Note.label?_of_ofArgument h
  | source, _, h => nomatch Note.label?_of_ofArgument h
  | sink, _, h => h.elim nofun fun h => nomatch Note.label?_of_ofArgument h

section Plain

variable {notes : List Note}

/-- What reads as a cause at the end of a report is one. -/
theorem report_ne_cause (h : notes ≠ []) (hns : ∀ n ∈ notes, n.IsPlain) (r : String) :
    report notes none ≠ r ++ "number too large to fit in target type" := by
  obtain ⟨n, hn, r', hr'⟩ := report_ends h
  obtain ⟨-, hlen, hend⟩ := hns n hn
  intro hr
  rw [hr'] at hr
  have heq := congrArg String.toList hr
  rw [String.toList_append, String.toList_append] at heq
  have hcause : ['p', 'e'] <:+ "number too large to fit in target type".toList := by decide
  have hpe : ['p', 'e'] <:+ r'.toList ++ n.text.toList :=
    heq ▸ hcause.trans (List.suffix_append _ _)
  exact hend (List.suffix_of_suffix_length_le hpe (List.suffix_append _ _) hlen)

theorem findSome?_label_of_ofSink (h : .label .sink ∈ notes) (hns : ∀ n ∈ notes, n.OfSink) :
    notes.findSome? Note.label? = some .sink := by
  rcases hl : notes.findSome? Note.label? with _ | l
  · exact nomatch List.findSome?_eq_none_iff.1 hl _ h
  · rcases hns _ (mem_of_label? hl) with h | h
    · cases h
      rfl
    · exact nomatch Note.label?_of_ofArgument h

end Plain

/-! ## Messages -/

namespace Entry

/-- The text breaks off in a literal, at `p`: one is due, and what is there of it cannot be
completed, as `B` says of what is read and what lies ahead. -/
def BreaksOff (e : Entry) (B : List Char → List Char → Prop) (text : String) (p : Position) :
    Prop :=
  ∃ q m rest, text.toList = q.toList ++ (m ++ rest) ∧ e.LiteralDue q ∧ B m rest ∧
    p = .after (q.toList ++ m)

variable {e : Entry} {text : String} {err : SyntaxError}

/-- Where a literal breaks off, the failure is reported there. -/
theorem fault_of_breaksOff {q : String} {m rest : List Char} (h : e.parse text = .error err)
    (ht : text.toList = q.toList ++ (m ++ rest)) (hq : e.LiteralDue q)
    (hb : Literal.Broken m rest) : ∃ x ns c,
      err.fault = .unreadable (.expected x :: .label .literal :: ns) c ∧
      (Literal.TooLarge m rest → c = some .overflow) := by
  obtain ⟨f, hf, hc, rfl⟩ := Rule.literal_of_broken hb
  obtain ⟨m', x, hm, hnotes, -, -, hover, -⟩ := Rule.literal_committed hf hc
  obtain rfl := List.append_cancel_right hm
  obtain ⟨ns, hr⟩ := rule_of_due hf hc hq
  have herr := parse_eq_error.2 (.inl ⟨_, ht ▸ hr, rfl⟩)
  rw [h] at herr
  cases herr
  refine ⟨x, ns, f.cause, ?_, hover⟩
  simp [Failure.notedAll, hnotes]

/-- The three kinds of errors. -/
theorem parse_error_cases (h : e.parse text = .error err) :
    err.fault = .trailing ∨
    (∃ x ns c, err.fault = .unreadable (.expected x :: .label .literal :: ns) c ∧
      (∀ n ∈ .expected x :: .label .literal :: ns, n.IsPlain) ∧
      e.BreaksOff Literal.Broken text err.position ∧
      (c = none ∨ e.BreaksOff Literal.TooLarge text err.position)) ∨
    ∃ notes, err.fault = .unreadable notes none ∧ notes ≠ [] ∧ (∀ n ∈ notes, e.MayNote n) ∧
      (e = sink → .label .sink ∈ notes) := by
  rcases parse_eq_error.1 h with ⟨f, hf, rfl⟩ | ⟨t, rest, -, -, rfl⟩
  · refine .inr ?_
    cases rule_fails hf with
    | @atLiteral q s₀ f₀ ns hq hs hf₀ hc hns he =>
      subst he
      obtain ⟨m, x, rfl, hnotes, hx, hb, -, hcause⟩ := Rule.literal_committed hf₀ hc
      have hp : positionOf text.toList (f₀.notedAll ns).rest = .after (q.toList ++ m) := by
        rw [hs, ← List.append_assoc]
        exact positionOf_append _ _
      refine .inl ⟨x, ns, f₀.cause, ?_, ?_, ⟨q, m, _, hs, hq, hb, hp⟩, ?_⟩
      · simp [Failure.notedAll, hnotes]
      · simp only [List.forall_mem_cons]
        exact ⟨Note.isPlain_expected hx, Note.isPlain_literal,
          fun n hn => Note.isPlain_of_mayNote (hns n hn)⟩
      · -- The cause, if there is one, is a number that is too large.
        by_cases ht : Literal.TooLarge m f₀.rest
        · exact .inr ⟨q, m, _, hs, hq, ht, hp⟩
        · exact .inl (hcause ht)
    | elsewhere hne hns hcause =>
      refine .inr ⟨f.notes, by rw [hcause], hne, hns, ?_⟩
      rintro rfl
      -- The rule for sinks leaves its own label on every failure.
      have hsink : Rule.sink (text.toList.dropWhile isBlank) = .error f := hf
      rw [Rule.sink_eq] at hsink
      obtain ⟨f', rfl, -⟩ := Rule.sinkOf_error_cases hsink
      simp [Failure.noted]
  · exact .inl rfl

/-- No literal breaks off where all notes come from the rules around literals. -/
theorem not_breaksOff {notes : List Note} {p : Position} (h : e.parse text = .error err)
    (hf : err.fault = .unreadable notes none) (hns : ∀ n ∈ notes, e.MayNote n) :
    ¬ e.BreaksOff Literal.Broken text p := by
  rintro ⟨q, m, rest, ht, hq, hb, -⟩
  obtain ⟨x, ns, c, hf', -⟩ := fault_of_breaksOff h ht hq hb
  rw [hf] at hf'
  cases hf'
  exact not_mayNote_literal (hns _ List.mem_cons_self)
    (hns _ (List.mem_cons_of_mem _ List.mem_cons_self))

/-- What a message starts with if no literal breaks off. -/
def opening : Entry → String
  | literal => "invalid literal"
  | argument | source => "expected "
  | sink => "invalid sink"

theorem report_of_mayNote {notes : List Note} (hne : notes ≠ []) (hns : ∀ n ∈ notes, e.MayNote n)
    (hsink : e = sink → .label .sink ∈ notes) : ∃ r, report notes none = e.opening ++ r := by
  cases e with
  | literal =>
    obtain ⟨n, ns, rfl⟩ := List.exists_cons_of_ne_nil hne
    obtain rfl : n = .label .literal := hns n List.mem_cons_self
    exact report_of_label (l := .literal) rfl
  | argument => exact report_of_expected hne fun n hn => Note.label?_of_ofArgument (hns n hn)
  | source => exact report_of_expected hne fun n hn => Note.label?_of_ofArgument (hns n hn)
  | sink => exact report_of_label (findSome?_label_of_ofSink (hsink rfl) hns)

theorem opening_ne_literal (he : e ≠ literal) (r r' : String) :
    e.opening ++ r ≠ "invalid literal" ++ r' := by
  intro h
  have h := congrArg String.toList h
  rw [String.toList_append, String.toList_append] at h
  cases e with
  | literal => exact he rfl
  | argument => cases h
  | source => cases h
  | sink => cases h

theorem message_begins (h : e.parse text = .error err) :
    err.message = "unexpected trailing input" ∨
    e.BreaksOff Literal.Broken text err.position ∧ (∃ r, err.message = "invalid literal" ++ r) ∨
    ¬ e.BreaksOff Literal.Broken text err.position ∧ ∃ r, err.message = e.opening ++ r := by
  rcases parse_error_cases h with hf | ⟨x, ns, c, hf, -, hb, -⟩ | ⟨notes, hf, hne, hns, hsink⟩
  · exact .inl (SyntaxError.message_eq_trailing.2 hf)
  · refine .inr (.inl ⟨hb, ?_⟩)
    have hl : (.expected x :: .label .literal :: ns).findSome? Note.label? = some .literal := rfl
    rw [SyntaxError.message, hf]
    exact report_of_label hl
  · refine .inr (.inr ⟨not_breaksOff h hf hns, ?_⟩)
    rw [SyntaxError.message, hf]
    exact report_of_mayNote hne hns hsink

theorem message_one_line (h : e.parse text = .error err) : '\n' ∉ err.message.toList := by
  rw [SyntaxError.message]
  rcases parse_error_cases h with hf | ⟨x, ns, c, hf, hplain, -⟩ | ⟨notes, hf, hne, hns, -⟩
  · rw [hf]
    decide
  · rw [hf]
    exact report_one_line (List.cons_ne_nil _ _) fun n hn => (hplain n hn).1
  · rw [hf]
    exact report_one_line hne fun n hn => (Note.isPlain_of_mayNote (hns n hn)).1

theorem trailing_ne_cause (r : String) :
    "unexpected trailing input" ≠ r ++ "number too large to fit in target type" := by
  intro h
  have hlen := congrArg (fun s => s.toList.length) h
  simp at hlen

/-- Only a number past the limit has its cause in the message. -/
theorem message_ends_iff (h : e.parse text = .error err) :
    (∃ r, err.message = r ++ "number too large to fit in target type") ↔
      e.BreaksOff Literal.TooLarge text err.position := by
  refine ⟨fun ⟨r, hr⟩ => ?_, fun ⟨q, m, rest, ht, hq, hb, _⟩ => ?_⟩
  · rw [SyntaxError.message] at hr
    rcases parse_error_cases h with hf | ⟨x, ns, c, hf, hplain, -, hc⟩ | ⟨notes, hf, hne, hns, -⟩
    · rw [hf] at hr
      exact absurd hr (trailing_ne_cause r)
    · rcases hc with rfl | hb
      · rw [hf] at hr
        exact absurd hr (report_ne_cause (List.cons_ne_nil _ _) hplain r)
      · exact hb
    · rw [hf] at hr
      exact absurd hr (report_ne_cause hne (fun n hn => Note.isPlain_of_mayNote (hns n hn)) r)
  · obtain ⟨x, ns, c, hf, hc⟩ := fault_of_breaksOff h ht hq (.tooLarge hb)
    have hne : .expected x :: .label .literal :: ns ≠ [] := List.cons_ne_nil _ _
    rw [SyntaxError.message, hf, hc hb]
    exact report_of_cause hne .overflow

theorem opening_cases (e : Entry) :
    (∃ w, e.opening = "invalid " ++ w) ∨ e.opening = "expected " := by
  cases e with
  | literal => exact .inl ⟨"literal", rfl⟩
  | argument => exact .inr rfl
  | source => exact .inr rfl
  | sink => exact .inl ⟨"sink", rfl⟩

theorem message_begins_with (h : e.parse text = .error err) :
    err.message = "unexpected trailing input" ∨ (∃ r, err.message = "invalid " ++ r) ∨
      ∃ r, err.message = "expected " ++ r := by
  rcases message_begins h with ht | ⟨-, r, hr⟩ | ⟨-, r, hr⟩
  · exact .inl ht
  · refine .inr (.inl ⟨"literal" ++ r, ?_⟩)
    rw [hr, ← String.append_assoc]
    rfl
  · rcases opening_cases e with ⟨w, hw⟩ | hw
    · exact .inr (.inl ⟨w ++ r, by rw [hr, hw, String.append_assoc]⟩)
    · exact .inr (.inr ⟨r, by rw [hr, hw]⟩)

/-- No other message starts like the one about trailing text. -/
theorem message_ne {t : String} (h : e.parse text = .error err) (hu : t.toList.head? = some 'u')
    (ht : t ≠ "unexpected trailing input") : err.message ≠ t := by
  rintro rfl
  rcases message_begins_with h with h | ⟨r, h⟩ | ⟨r, h⟩
  · exact ht h
  · rw [h, String.toList_append] at hu
    cases hu
  · rw [h, String.toList_append] at hu
    cases hu

/-- A message begins with what it is about and ends with the cause, if there is one. It is about a
literal where one breaks off. -/
theorem parse_error_message (h : e.parse text = .error err) :
    (err.message = "unexpected trailing input" ∨ (∃ r, err.message = "invalid " ++ r) ∨
      ∃ r, err.message = "expected " ++ r) ∧
    err.message ≠ "unexpected input" ∧ err.message ≠ "unexpected end of input" ∧
    '\n' ∉ err.message.toList ∧
    (e ≠ literal → err.message ≠ "unexpected trailing input" →
      ((∃ r, err.message = "invalid literal" ++ r) ↔
        e.BreaksOff Literal.Broken text err.position) ∧
      (¬ e.BreaksOff Literal.Broken text err.position →
        ∃ r, err.message = (if e = sink then "invalid sink" else "expected ") ++ r)) ∧
    ((∃ r, err.message = r ++ "number too large to fit in target type") ↔
      e.BreaksOff Literal.TooLarge text err.position) := by
  refine ⟨message_begins_with h, message_ne h rfl (by decide), message_ne h rfl (by decide),
    message_one_line h, fun he hne => ?_, message_ends_iff h⟩
  rcases message_begins h with ht | ⟨hb, hr⟩ | ⟨hb, r, hr⟩
  · exact absurd ht hne
  · exact ⟨⟨fun _ => hb, fun _ => hr⟩, absurd hb⟩
  · refine ⟨⟨fun ⟨r', hr'⟩ => ?_, fun h => absurd h hb⟩, fun _ => ⟨r, ?_⟩⟩
    · exact absurd (hr.symm.trans hr') (opening_ne_literal he r r')
    · rw [hr]
      cases e with
      | literal => exact absurd rfl he
      | argument => rfl
      | source => rfl
      | sink => rfl

/-- The digits behind the marker are read in vain. -/
theorem parse_error_message_overflow :
    source.parse "f(k=0x8000000000000000)" = .error ⟨.source, .unreadable [.expected .hexInteger,
      .label .literal, .expected .value] (some .overflow), ⟨6, 1, 7⟩⟩ ∧
    source.BreaksOff Literal.Broken "f(k=0x8000000000000000)" ⟨6, 1, 7⟩ ∧
    source.BreaksOff Literal.TooLarge "f(k=0x8000000000000000)" ⟨6, 1, 7⟩ := by
  have h : source.parse "f(k=0x8000000000000000)" = .error ⟨.source, .unreadable
      [.expected .hexInteger, .label .literal, .expected .value] (some .overflow),
      ⟨6, 1, 7⟩⟩ := by rfl
  have htrailing := report_ne_trailing
    [.expected .hexInteger, .label .literal, .expected .value] (some .overflow)
  have hl : [Note.expected .hexInteger, .label .literal, .expected .value].findSome? Note.label? =
    some .literal := rfl
  have hne : [Note.expected .hexInteger, .label .literal, .expected .value] ≠ [] :=
    List.cons_ne_nil _ _
  obtain ⟨-, -, -, -, hlabel, hcause⟩ := parse_error_message h
  exact ⟨h, (hlabel nofun htrailing).1.1 (report_of_label hl),
    hcause.1 (report_of_cause hne .overflow)⟩

end Entry

end Pipeline
