import Pipeline.Parse
import Pipeline.Proofs.Completeness

/-!
# Texts that can be read

A text can be read as a tree exactly if the grammar spells the tree with it (`parse_eq_ok`). A
grammar that leaves the choice between two trees open could not be read in this way, so no text
spells two.
-/

namespace Pipeline

namespace Entry

variable {e : Entry} {t u : e.Tree} {s rest : List Char}

theorem At.stops_blank {order : List Argument → Bool} :
    ∀ {e : Entry} {t : e.Tree}, e.At order s t rest → Stops isBlank s
  | literal, _, h => Literal.At.stops_blank h
  | argument, _, h => Argument.At.stops_blank h
  | source, _, h => Source.At.stops_blank h
  | sink, _, h => Sink.At.stops_blank h

/-- Each entry's rule reads only trees that the text shows. -/
theorem rule_sound : ∀ {e : Entry} {t : e.Tree}, e.rule s = .ok (t, rest) →
    e.At positionalFirst s t rest
  | literal, _, h => Rule.literal_sound h
  | argument, _, h => Rule.argument_sound h
  | source, _, h => Rule.source_sound h
  | sink, _, h => Rule.sink_sound h

/-- Each entry's rule reads every tree that the text shows before a free rest. -/
theorem rule_complete : ∀ {e : Entry} {t : e.Tree}, e.At positionalFirst s t rest → Free rest →
    e.rule s = .ok (t, rest)
  | literal, _, h, hr => Rule.literal_complete h hr.word
  | argument, t, h, hr => Rule.argument_complete t h hr
  | source, _, h, hr => Rule.source_complete h hr
  | sink, t, h, hr => Rule.sink_complete t h hr

/-- A text is accepted where the rule leaves nothing but blanks. -/
theorem parseChars_eq_ok : e.parseChars s = .ok t ↔
    ∃ rest, e.rule (s.dropWhile isBlank) = .ok (t, rest) ∧ rest.dropWhile isBlank = [] := by
  unfold parseChars
  split
  · rename_i f h
    simp [h]
  · rename_i t' rest h
    simp only [h, Except.ok.injEq, Prod.mk.injEq]
    split
    · rename_i hr
      refine ⟨fun ht => ?_, fun ht => ?_⟩
      · cases ht
        exact ⟨rest, ⟨rfl, rfl⟩, hr⟩
      · obtain ⟨_, ⟨rfl, rfl⟩, -⟩ := ht
        rfl
    · rename_i hr
      refine ⟨fun ht => ?_, fun ht => ?_⟩
      · cases ht
      · obtain ⟨_, ⟨rfl, rfl⟩, hr'⟩ := ht
        exact absurd hr' hr

/-- Parsing succeeds with exactly the trees that the text spells. -/
theorem parse_eq_ok {text : String} :
    e.parse text = .ok t ↔ e.Spells positionalFirst text.toList t := by
  rw [parse, parseChars_eq_ok]
  refine ⟨fun h => ?_, fun h => ?_⟩
  · obtain ⟨rest, h, hr⟩ := h
    exact ⟨_, rest, blanks_dropWhile _, rule_sound h, blanks_of_dropWhile hr⟩
  · obtain ⟨s, rest, hb, h, hr⟩ := h
    refine ⟨rest, ?_, hr.dropWhile_eq stops_nil⟩
    rw [hb.dropWhile_eq h.stops_blank]
    exact rule_complete h hr.free_of_end

/-- The grammar is unambiguous, because the parser is a function. -/
theorem Spells.unique (ht : e.Spells positionalFirst s t) (hu : e.Spells positionalFirst s u) :
    t = u := by
  rw [← String.toList_ofList (l := s)] at ht hu
  have h := parse_eq_ok.2 ht
  rw [parse_eq_ok.2 hu] at h
  cases h
  rfl

/-- Neither the order in which alternatives are tried nor the commitment to one of them ever costs a
tree that the grammar allows. -/
theorem parse_recognizes_grammar (e : Entry) (text : String) :
    (∀ t, e.parse text = .ok t ↔ e.Spells positionalFirst text.toList t) ∧
    ∀ t u, e.Spells positionalFirst text.toList t → e.Spells positionalFirst text.toList u →
      t = u :=
  ⟨fun _ => parse_eq_ok, fun _ _ => Spells.unique⟩

example : argument.parse "k = f(0X7f ,.5)" = .ok (.keyword "k" (.call ⟨"f",
    [.positional (.literal (.int "0X7f" 127)), .positional (.literal (.double ".5"))]⟩)) := by
  rfl

end Entry

end Pipeline
