import Pipeline.Proofs.Spacing

/-!
# Writing and reading back

A tree is read back from its canonical text exactly if it is well formed: the canonical text of any
tree is laid out from its tokens (`laidOut_chars`), so the grammar has nothing else to object to
(`parse_write`). Reading yields well-formed trees only, hence canonical texts are fixed points.
-/

namespace Pipeline

namespace Entry

variable {e : Entry} {t : e.Tree} {empty : EmptyCall} {text : String}

/-- A well formed tree is read back from its own text, under either option. -/
theorem parse_write (ht : e.WellFormed t) (empty : EmptyCall) :
    e.parse (e.write empty t) = .ok t := by
  rw [parse_eq_ok, write, String.toList_ofList]
  exact spells_of_laidOut ht (laidOut_chars e empty t)

theorem wellFormed_of_parse (h : e.parse text = .ok t) : e.WellFormed t :=
  (parse_eq_ok.1 h).wellFormed

/-- Canonicalizing a text writes the tree that is read from it. -/
theorem canonicalize_of_parse (h : e.parse text = .ok t) (empty : EmptyCall) :
    e.canonicalize empty text = .ok (e.write empty t) := by
  rw [canonicalize, h]
  rfl

/-- Trees that are not well formed have a canonical text as well, but one that is refused or read as
another tree. -/
theorem parse_write_iff_wellFormed (e : Entry) :
    (∀ empty t, e.parse (e.write empty t) = .ok t ↔ e.WellFormed t) ∧
    (∀ text t, e.parse text = .ok t → e.WellFormed t) ∧
    (∀ empty empty' t u, e.WellFormed t → e.WellFormed u → e.write empty t = e.write empty' u →
      t = u) ∧
    ∀ empty empty' text t, e.parse text = .ok t → ∃ c c', e.canonicalize empty text = .ok c ∧
      e.canonicalize empty' c = .ok c' ∧ e.canonicalize empty' text = .ok c' := by
  refine ⟨fun empty t => ⟨wellFormed_of_parse, fun ht => parse_write ht empty⟩,
    fun text t => wellFormed_of_parse, fun empty empty' t u ht hu h => ?_,
    fun empty empty' text t h => ?_⟩
  · have h' := parse_write ht empty
    rw [h, parse_write hu empty'] at h'
    cases h'
    rfl
  · have h' := parse_write (wellFormed_of_parse h) empty
    exact ⟨_, _, canonicalize_of_parse h empty, canonicalize_of_parse h' empty',
      canonicalize_of_parse h empty'⟩

end Entry

end Pipeline
