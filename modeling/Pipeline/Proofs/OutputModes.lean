import Pipeline.Proofs.CanonicalRuns
import Pipeline.Proofs.Documents
import Pipeline.Proofs.Pretty

/-!
# The two outputs of the tool

A run that prints the document of a tree and one that prints its canonical text fail on the same
texts, with the same words, and tell the same texts apart (`runs_same_information`): no number of a
tree is written with a fraction, so that its document is fixed by what is printed of it and the tree
by its document (`pretty_toJson_inj`), and the tree is also what its canonical text is read as
(`write_inj`).
-/

namespace Pipeline

open Json (Integral)

/-! ## Documents of trees -/

section Integral

theorem integral_variant {tag : String} {j : Json} (hj : j.Integral) :
    (Json.variant tag j).Integral :=
  .obj (List.forall_mem_singleton.2 hj)

theorem integral_pair {a b : String} {j j' : Json} (hj : j.Integral) (hj' : j'.Integral) :
    (Json.obj [(a, j), (b, j')]).Integral := by
  refine .obj (List.forall_mem_cons.2 ⟨hj, ?_⟩)
  exact List.forall_mem_singleton.2 hj'

theorem Literal.integral_toJson : ∀ l : Literal, l.toJson.Integral
  | .int text value => integral_variant (integral_pair (.str text) (.int value.toInt))
  | .double text => integral_variant (integral_variant (.str text))
  | .string text => integral_variant (integral_variant (.str text))

mutual

theorem Value.integral_toJson : ∀ v : Value, v.toJson.Integral
  | .literal l => integral_variant l.integral_toJson
  | .call c => integral_variant (Call.integral_toJson c)

theorem Argument.integral_toJson : ∀ a : Argument, a.toJson.Integral
  | .positional v => integral_variant (Value.integral_toJson v)
  | .keyword n v => by
    have hv := Value.integral_toJson v
    refine integral_variant (.arr (List.forall_mem_cons.2 ⟨.str n, ?_⟩))
    exact List.forall_mem_singleton.2 hv

theorem Call.integral_toJson : ∀ c : Call, c.toJson.Integral
  | ⟨n, args⟩ => integral_pair (.str n) (.arr (Argument.integral_allToJson args))

theorem Argument.integral_allToJson : ∀ as : List Argument,
    ∀ j ∈ Argument.allToJson as, j.Integral
  | [] => List.forall_mem_nil _
  | a :: as =>
    List.forall_mem_cons.2 ⟨Argument.integral_toJson a, Argument.integral_allToJson as⟩

end

theorem Source.integral_toJson : ∀ d : Source, d.toJson.Integral
  | .name n => integral_variant (.str n)
  | .call c => integral_variant c.integral_toJson

mutual

theorem Sink.integral_toJson : ∀ t : Sink, t.toJson.Integral
  | .name n => integral_variant (.str n)
  | .call c => integral_variant c.integral_toJson
  | .decorated d t => integral_variant (integral_pair d.integral_toJson (Sink.integral_toJson t))
  | .fanOut ts => integral_variant (.arr (Sink.integral_allToJson ts))
  | .failover t u =>
    integral_variant (integral_pair (Sink.integral_toJson t) (Sink.integral_toJson u))
  | .block c t => integral_variant (integral_pair c.integral_toJson (Sink.integral_toJson t))

theorem Sink.integral_allToJson : ∀ ts : List Sink, ∀ j ∈ Sink.allToJson ts, j.Integral
  | [] => List.forall_mem_nil _
  | t :: ts => List.forall_mem_cons.2 ⟨Sink.integral_toJson t, Sink.integral_allToJson ts⟩

end

end Integral

/-- The document of a tree fixes it, since it is read back. -/
theorem Kind.toJson_inj {k : Kind} {t u : k.Tree} (h : k.toJson t = k.toJson u) : t = u := by
  have hread := congrArg k.ofJson? h
  rw [k.ofJson_toJson, k.ofJson_toJson, Option.some.injEq] at hread
  exact hread

namespace Entry

variable {e : Entry} {t u : e.Tree} {empty : EmptyCall}

/-- All numbers in a tree's document are integers, since a fraction is kept as text. -/
theorem integral_toJson : ∀ (e : Entry) (t : e.Tree), (e.toJson t).Integral
  | literal, l => Literal.integral_toJson l
  | argument, a => Argument.integral_toJson a
  | source, d => Source.integral_toJson d
  | sink, s => Sink.integral_toJson s

theorem toJson_inj : ∀ {e : Entry} {t u : e.Tree}, e.toJson t = e.toJson u → t = u
  | literal, _, _, h => Kind.toJson_inj (k := .literal) h
  | argument, _, _, h => Kind.toJson_inj (k := .argument) h
  | source, _, _, h => Kind.toJson_inj (k := .source) h
  | sink, _, _, h => Kind.toJson_inj (k := .sink) h

theorem pretty_toJson_inj : (e.toJson t).pretty = (e.toJson u).pretty ↔ t = u := by
  rw [Json.pretty_inj (e.integral_toJson t) (e.integral_toJson u)]
  exact ⟨toJson_inj, congrArg e.toJson⟩

theorem write_inj (ht : e.WellFormed t) (hu : e.WellFormed u) :
    e.write empty t = e.write empty u ↔ t = u := by
  refine ⟨fun h => ?_, congrArg (e.write empty)⟩
  have hread := parse_write ht empty
  rw [h, parse_write hu empty, Except.ok.injEq] at hread
  exact hread.symm

end Entry

/-! ## Runs -/

namespace Tool

section Runs

variable {e : Entry} {empty : EmptyCall} {g : Given} {t : e.Tree}

theorem run?_document (ht : e.parse g.text = .ok t) :
    g.run? e empty .document = some (.success (e.toJson t).pretty) := by
  rw [run?_eq_runOn, runOn]
  simp only [Given.settings, parse_seen.2 ht]
  rfl

theorem run?_write_of_parse (ht : e.parse g.text = .ok t) :
    g.run? e empty .write = some (.success (e.write empty t)) :=
  run?_write (Entry.canonicalize_eq_ok.2 ⟨t, ht, rfl⟩)

/-- On a text that is refused all modes report the same error. -/
theorem run?_of_error {err : SyntaxError} (h : e.parse g.seen = .error err) (m : Mode) :
    g.run? e empty m = some (.failure [] err.text) := by
  rw [run?_eq_runOn, runOn]
  simp only [Given.settings, h]

theorem success_inj {line line' : String} :
    (Report.success line).stdout = (Report.success line').stdout ↔ line = line' := by
  simp [Report.success, ← String.toList_inj]

/-- Two texts that are read have the same document printed if and only if they have the same
canonical text, whichever way empty calls are written. -/
theorem runs_same_information (e : Entry) (empty empty' : EmptyCall) :
    (∀ g : Given, ∃ d w, g.run? e empty' .document = some d ∧ g.run? e empty .write = some w ∧
      (d.code = 0 ↔ w.code = 0) ∧ (w.code = 0 ↔ ∃ t, e.parse g.text = .ok t) ∧
      (d.code ≠ 0 → w.code ≠ 0 → d.stderr = w.stderr)) ∧
    ∀ (g g' : Given) (t t' : e.Tree), e.parse g.text = .ok t → e.parse g'.text = .ok t' →
      ∃ d w d' w', g.run? e empty' .document = some d ∧ g.run? e empty .write = some w ∧
        g'.run? e empty' .document = some d' ∧ g'.run? e empty .write = some w' ∧
        (d.stdout = d'.stdout ↔ w.stdout = w'.stdout) := by
  refine ⟨fun g => ?_, fun g g' t t' ht ht' => ?_⟩
  · rcases h : e.parse g.seen with err | t
    · have hne : ¬ ∃ t, e.parse g.text = .ok t := by
        rintro ⟨t, ht⟩
        rw [parse_seen.2 ht] at h
        cases h
      refine ⟨_, _, run?_of_error h .document, run?_of_error h .write, Iff.rfl, ?_, fun _ _ => rfl⟩
      exact ⟨nofun, fun ht => absurd ht hne⟩
    · have ht := parse_seen.1 h
      refine ⟨_, _, run?_document ht, run?_write_of_parse ht, Iff.rfl, ?_, fun _ _ => rfl⟩
      exact ⟨fun _ => ⟨t, ht⟩, fun _ => rfl⟩
  · refine ⟨_, _, _, _, run?_document ht, run?_write_of_parse ht, run?_document ht',
      run?_write_of_parse ht', ?_⟩
    rw [success_inj, success_inj, Entry.pretty_toJson_inj,
      Entry.write_inj (Entry.wellFormed_of_parse ht) (Entry.wellFormed_of_parse ht')]

end Runs

end Tool

end Pipeline
