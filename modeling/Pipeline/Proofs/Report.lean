import Pipeline.Parse

/-!
# Reports

A report puts its parts together (`report_eq`). It begins with the first label or, if there is none,
with what was expected (`report_of_label`, `report_of_expected`), and it ends with the cause or else
with one of the notes (`report_of_cause`, `report_ends`).
-/

namespace Pipeline

/-! ## Joining -/

section Joining

variable {sep : String} {ts : List String}

theorem exists_intercalate_cons (sep t : String) (ts : List String) :
    ∃ r, sep.intercalate (t :: ts) = t ++ r := by
  refine ⟨sep.intercalate ("" :: ts), ?_⟩
  rw [← String.intercalate_cons_append, String.append_empty]

theorem exists_intercalate_append_singleton (sep : String) (ts : List String) (t : String) :
    ∃ r, sep.intercalate (ts ++ [t]) = r ++ t := by
  by_cases hts : ts = []
  · exact ⟨"", by simp [hts]⟩
  · refine ⟨sep.intercalate ts ++ sep, ?_⟩
    rw [String.intercalate_append_of_ne_nil hts (List.cons_ne_nil _ _),
      String.intercalate_singleton]

theorem notMem_intercalate {c : Char} (hsep : c ∉ sep.toList) (hts : ∀ t ∈ ts, c ∉ t.toList) :
    c ∉ (sep.intercalate ts).toList := by
  induction ts with
  | nil => simp
  | cons t ts ih =>
    obtain ⟨ht, hts'⟩ := List.forall_mem_cons.1 hts
    by_cases hne : ts = []
    · subst hne
      rwa [String.intercalate_singleton]
    · simp only [String.intercalate_cons_of_ne_nil hne, String.toList_append, List.mem_append,
        not_or]
      exact ⟨⟨ht, hsep⟩, ih hts'⟩

end Joining

/-! ## Parts -/

section Parts

variable {notes : List Note} {cause : Option Cause}

/-- The parts that a report puts together. -/
def reportParts (notes : List Note) (cause : Option Cause) : List String :=
  (notes.findSome? Note.label?).toList.map ("invalid " ++ ·.text) ++
    (match notes.filterMap Note.expectation? with
      | [] => []
      | xs => ["expected " ++ ", ".intercalate (xs.map Expectation.text)]) ++
    cause.toList.map Cause.text

theorem report_def (notes : List Note) (cause : Option Cause) : report notes cause =
    match reportParts notes cause with
    | [] => "unexpected input"
    | parts => ": ".intercalate parts :=
  rfl

theorem report_of_parts (h : reportParts notes cause ≠ []) :
    report notes cause = ": ".intercalate (reportParts notes cause) := by
  rw [report_def]
  split
  · rename_i hnil
    exact absurd hnil h
  · rfl

theorem report_eq (h : notes ≠ []) :
    report notes cause = ": ".intercalate (reportParts notes cause) := by
  refine report_of_parts ?_
  obtain ⟨n, ns, rfl⟩ := List.exists_cons_of_ne_nil h
  cases n with
  | label l => simp [reportParts, Note.label?]
  | expected x => simp [reportParts, Note.expectation?]

theorem reportParts_of_expected (h : notes.filterMap Note.expectation? ≠ []) :
    reportParts notes cause = (notes.findSome? Note.label?).toList.map ("invalid " ++ ·.text) ++
      ["expected " ++ ", ".intercalate
        ((notes.filterMap Note.expectation?).map Expectation.text)] ++
      cause.toList.map Cause.text := by
  unfold reportParts
  split
  · rename_i hnil
    exact absurd hnil h
  · rfl

theorem mem_of_expectation? {x : Expectation} (h : x ∈ notes.filterMap Note.expectation?) :
    .expected x ∈ notes := by
  obtain ⟨n, hn, hx⟩ := List.mem_filterMap.1 h
  cases n with
  | label l => cases hx
  | expected y =>
    cases hx
    exact hn

theorem mem_of_label? {l : Label} (h : notes.findSome? Note.label? = some l) :
    .label l ∈ notes := by
  obtain ⟨n, hn, hl⟩ := List.exists_of_findSome?_eq_some h
  cases n with
  | label m =>
    cases hl
    exact hn
  | expected x => cases hl

/-- A part of a report is a label, the list of what was expected, or a cause. -/
theorem mem_reportParts {t : String} (h : t ∈ reportParts notes cause) :
    (∃ l, .label l ∈ notes ∧ t = "invalid " ++ l.text) ∨
    t = "expected " ++ ", ".intercalate
      ((notes.filterMap Note.expectation?).map Expectation.text) ∨
    ∃ c : Cause, t = c.text := by
  unfold reportParts at h
  simp only [List.mem_append, List.mem_map, Option.mem_toList] at h
  rcases h with (⟨l, hl, rfl⟩ | h) | ⟨c, -, rfl⟩
  · exact .inl ⟨l, mem_of_label? hl, rfl⟩
  · split at h
    · cases h
    · exact .inr (.inl (List.mem_singleton.1 h))
  · exact .inr (.inr ⟨c, rfl⟩)

end Parts

/-! ## Beginnings and ends -/

namespace Note

/-- The words of a note, with nothing around them. -/
def text : Note → String
  | label l => l.text
  | expected x => x.text

end Note

section Ends

variable {notes : List Note} {cause : Option Cause}

/-- A report with a label begins with it, whatever else was noted. -/
theorem report_of_label {l : Label} (h : notes.findSome? Note.label? = some l) :
    ∃ r, report notes cause = "invalid " ++ l.text ++ r := by
  have hne : notes ≠ [] := by
    rintro rfl
    cases h
  rw [report_eq hne, reportParts, h]
  exact exists_intercalate_cons _ _ _

theorem report_of_expected (h : notes ≠ []) (hl : ∀ n ∈ notes, n.label? = none) :
    ∃ r, report notes cause = "expected " ++ r := by
  have hlabel : notes.findSome? Note.label? = none := List.findSome?_eq_none_iff.2 hl
  have hxs : notes.filterMap Note.expectation? ≠ [] := by
    obtain ⟨n, ns, rfl⟩ := List.exists_cons_of_ne_nil h
    cases n with
    | label l => cases hl _ List.mem_cons_self
    | expected x => simp [Note.expectation?]
  rw [report_eq h, reportParts_of_expected hxs, hlabel]
  obtain ⟨r, hr⟩ := exists_intercalate_cons ": "
    ("expected " ++ ", ".intercalate ((notes.filterMap Note.expectation?).map Expectation.text))
    (cause.toList.map Cause.text)
  exact ⟨_, hr.trans (String.append_assoc ..)⟩

theorem report_of_cause (h : notes ≠ []) (c : Cause) :
    ∃ r, report notes (some c) = r ++ c.text := by
  rw [report_eq h, reportParts]
  exact exists_intercalate_append_singleton _ _ _

/-- Without a cause, a report ends with one of the notes. -/
theorem report_ends (h : notes ≠ []) : ∃ n ∈ notes, ∃ r, report notes none = r ++ n.text := by
  rcases (notes.filterMap Note.expectation?).eq_nil_or_concat with hxs | ⟨xs, x, hxs⟩
  · obtain ⟨n, ns, rfl⟩ := List.exists_cons_of_ne_nil h
    cases n with
    | label l =>
      have hl : (Note.label l :: ns).findSome? Note.label? = some l := rfl
      refine ⟨.label l, List.mem_cons_self, "invalid ", ?_⟩
      simp [report_eq h, reportParts, hxs, hl, Note.text]
    | expected x => simp [Note.expectation?] at hxs
  · rw [List.concat_eq_append] at hxs
    refine ⟨.expected x, mem_of_expectation? (by simp [hxs]), ?_⟩
    obtain ⟨r, hr⟩ := exists_intercalate_append_singleton ", " (xs.map Expectation.text) x.text
    obtain ⟨r', hr'⟩ := exists_intercalate_append_singleton ": "
      ((notes.findSome? Note.label?).toList.map ("invalid " ++ ·.text))
      ("expected " ++ ", ".intercalate ((xs ++ [x]).map Expectation.text))
    refine ⟨r' ++ ("expected " ++ r), ?_⟩
    rw [report_eq h, reportParts_of_expected (by simp [hxs]), hxs]
    simp only [Option.toList_none, List.map_nil, List.append_nil]
    rw [hr', List.map_append, List.map_singleton, hr]
    simp [Note.text, String.append_assoc]

/-- A report has no line break unless one of its notes has one. -/
theorem report_one_line (h : notes ≠ []) (hns : ∀ n ∈ notes, '\n' ∉ n.text.toList) :
    '\n' ∉ (report notes cause).toList := by
  rw [report_eq h]
  refine notMem_intercalate (by decide) fun t ht => ?_
  rcases mem_reportParts ht with ⟨l, hl, rfl⟩ | rfl | ⟨c, rfl⟩
  · rw [String.toList_append, List.mem_append, not_or]
    exact ⟨by decide, hns _ hl⟩
  · rw [String.toList_append, List.mem_append, not_or]
    refine ⟨by decide, notMem_intercalate (by decide) fun t ht => ?_⟩
    obtain ⟨x, hx, rfl⟩ := List.mem_map.1 ht
    exact hns _ (mem_of_expectation? hx)
  · cases c with
    | overflow => decide
    | exhausted => decide

end Ends

/-- No part of a report starts like the message about trailing text. -/
theorem report_ne_trailing (notes : List Note) (cause : Option Cause) :
    report notes cause ≠ "unexpected trailing input" := by
  intro h
  rcases hp : reportParts notes cause with _ | ⟨t, ts⟩
  · rw [report_def, hp] at h
    exact absurd h (by decide)
  · have hu : "unexpected trailing input".toList.head? = some 'u' := rfl
    obtain ⟨r, hr⟩ := exists_intercalate_cons ": " t ts
    rw [← h, report_of_parts (by simp [hp]), hp, hr, String.toList_append] at hu
    rcases mem_reportParts (hp ▸ List.mem_cons_self) with ⟨l, -, rfl⟩ | rfl | ⟨c, rfl⟩
    · rw [String.toList_append] at hu
      cases hu
    · rw [String.toList_append] at hu
      cases hu
    · cases c with
      | overflow => cases hu
      | exhausted => cases hu

theorem SyntaxError.message_eq_trailing {err : SyntaxError} :
    err.message = "unexpected trailing input" ↔ err.fault = .trailing := by
  unfold SyntaxError.message
  cases err.fault with
  | trailing => simp [Fault.text]
  | unreadable notes cause => simp [Fault.text, report_ne_trailing]

end Pipeline
