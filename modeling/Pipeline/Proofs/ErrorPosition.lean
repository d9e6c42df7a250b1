import Pipeline.Proofs.OrderRule
import Pipeline.Proofs.Stopping

/-!
# Where a text goes wrong

The position of an error has the viable-prefix property: the text before it is the beginning of one
that the grammar has if arguments may come in any order, and of one that can be read if and only if
the arguments before it are in order (`parse_error_viable`). It is either where the rule of the
entry has stopped, or where text follows on what was a whole text already.
-/

namespace Pipeline

open Token

/-! ## Positions -/

section Positions

theorem foldl_advance_offset (s : List Char) (p : Position) :
    (s.foldl Position.advance p).offset = p.offset + (String.ofList s).utf8ByteSize := by
  induction s generalizing p with
  | nil => simp
  | cons c s ih =>
    have hc : (p.advance c).offset = p.offset + c.utf8Size := by
      unfold Position.advance
      split_ifs <;> rfl
    rw [List.foldl_cons, ih, hc, String.ofList_cons, String.utf8ByteSize_append,
      String.utf8ByteSize_singleton, Nat.add_assoc]

theorem after_offset (s : List Char) :
    (Position.after s).offset = (String.ofList s).utf8ByteSize := by
  rw [Position.after, foldl_advance_offset, Position.start, Nat.zero_add]

theorem positionOf_append (s rest : List Char) : positionOf (s ++ rest) rest = .after s := by
  rw [positionOf, List.length_append, Nat.add_sub_cancel, List.take_left]

theorem utf8ByteSize_le_of_prefix {p q : List Char} (h : p <+: q) :
    (String.ofList p).utf8ByteSize ≤ (String.ofList q).utf8ByteSize := by
  obtain ⟨x, rfl⟩ := h
  rw [String.ofList_append, String.utf8ByteSize_append]
  exact Nat.le_add_right _ _

end Positions

namespace Entry

variable {order : List Argument → Bool} {s : List Char} {f : Failure}

theorem rule_stops (hpf : ∀ as, positionalFirst as → order as) : ∀ {e : Entry},
    e.rule s = .error f → Rule.StopsWithin order (e.At order) s f.rest
  | literal, h => by
    obtain ⟨q, hq, -, -, hv⟩ := Rule.literal_viable h
    exact ⟨q, hq, fun _ => hv⟩
  | argument, h => by
    obtain ⟨q, hq, hv, -⟩ := Rule.argumentOf_viable (Rule.value_halts hpf) h
    exact ⟨q, hq, hv⟩
  | source, h => Rule.source_stops hpf h
  | sink, h => (Rule.sink_halts hpf).stops _ _ h

variable {e : Entry} {text : String} {err : SyntaxError}

/-- Either the rule of the entry fails, or it leaves more than blanks. -/
theorem parse_eq_error : e.parse text = .error err ↔
    (∃ f, e.rule (text.toList.dropWhile isBlank) = .error f ∧
      err = ⟨e, .unreadable f.notes f.cause, positionOf text.toList f.rest⟩) ∨
    ∃ t rest, e.rule (text.toList.dropWhile isBlank) = .ok (t, rest) ∧
      rest.dropWhile isBlank ≠ [] ∧
      err = ⟨e, .trailing, positionOf text.toList (rest.dropWhile isBlank)⟩ := by
  unfold parse parseChars
  rcases e.rule (text.toList.dropWhile isBlank) with f | ⟨t, rest⟩
  · refine ⟨fun h => ?_, fun h => ?_⟩
    · cases h
      exact .inl ⟨f, rfl, rfl⟩
    · rcases h with ⟨_, hf, rfl⟩ | ⟨_, _, hr, -⟩
      · cases hf
        rfl
      · cases hr
  · refine ⟨fun h => ?_, fun h => ?_⟩
    · dsimp only at h
      split at h
      · cases h
      · rename_i hb
        cases h
        exact .inr ⟨t, rest, rfl, hb, rfl⟩
    · rcases h with ⟨_, hf, -⟩ | ⟨_, _, hr, hb, rfl⟩
      · cases hf
      · cases hr
        dsimp only
        split
        · rename_i hb'
          exact absurd hb' hb
        · rfl

theorem rule_error_viable (hpf : ∀ as, positionalFirst as → order as)
    (h : e.rule (s.dropWhile isBlank) = .error f) : ∃ p, s = p ++ f.rest ∧
    (Fair order (split p) → ∃ x t, e.Spells order (p ++ x) t) := by
  obtain ⟨b, hb, hs⟩ := blanks_dropWhile s
  obtain ⟨q, hq, hv⟩ := rule_stops hpf h
  refine ⟨b ++ q, ?_, fun hf => ?_⟩
  · rw [List.append_assoc, ← hq]
    exact hs
  · rw [split_blanks (blanks_append hb q)] at hf
    obtain ⟨x, t, hx⟩ := hv hf
    exact ⟨x, t, by simpa using spells_of_textOf hb hx all_isBlank_nil⟩

/-- What comes before trailing text is a whole text. -/
theorem trailing_spells (hpf : ∀ as, positionalFirst as → order as) {t : e.Tree} {rest : List Char}
    (h : e.rule (s.dropWhile isBlank) = .ok (t, rest)) :
    ∃ p, s = p ++ rest.dropWhile isBlank ∧ e.Spells order p t := by
  obtain ⟨b, hb, hs⟩ := blanks_dropWhile s
  obtain ⟨q, hq, -, hqt⟩ := at_extent hpf (rule_sound h)
  obtain ⟨b', hb', hr⟩ := blanks_dropWhile rest
  refine ⟨b ++ (q ++ b'), ?_, spells_of_textOf hb hqt hb'⟩
  rw [List.append_assoc, List.append_assoc, ← hr, ← hq]
  exact hs

/-- The text before an error under any rule on the order of arguments. -/
theorem parse_error_prefix (h : e.parse text = .error err) : ∃ p rest, text.toList = p ++ rest ∧
    err.position = .after p ∧ ∀ order, (∀ as, positionalFirst as → order as) →
      Fair order (split p) → ∃ x t, e.Spells order (p ++ x) t := by
  rcases parse_eq_error.1 h with ⟨f, hf, rfl⟩ | ⟨t, rest, ht, -, rfl⟩
  · obtain ⟨p, hp, -⟩ := rule_error_viable (fun _ => id) hf
    refine ⟨p, f.rest, hp, ?_, fun order hpf hfair => ?_⟩
    · rw [hp, positionOf_append]
    · obtain ⟨p', hp', hv⟩ := rule_error_viable hpf hf
      rw [hp] at hp'
      rw [List.append_cancel_right hp'] at hfair ⊢
      exact hv hfair
  · obtain ⟨p, hp, -⟩ := trailing_spells (fun _ => id) ht
    refine ⟨p, _, hp, ?_, fun order hpf _ => ?_⟩
    · rw [hp, positionOf_append]
    · obtain ⟨p', hp', hs⟩ := trailing_spells hpf ht
      rw [hp] at hp'
      rw [List.append_cancel_right hp']
      exact ⟨[], t, by simpa using hs⟩

/-- The text before an error is the beginning of one without that error, unless it is the order of
arguments that is wrong. -/
theorem parse_error_viable (h : e.parse text = .error err) : ∃ p, p <+: text.toList ∧
    (String.ofList p).utf8ByteSize = err.position.offset ∧
    (∃ x t, e.Spells (fun _ => true) (p ++ x) t) ∧
    (inOrder [] (split p) ↔ ∃ x t, e.parse (String.ofList (p ++ x)) = .ok t) := by
  obtain ⟨p, rest, ht, hp, hv⟩ := parse_error_prefix h
  refine ⟨p, ⟨rest, ht.symm⟩, ?_, ?_, fun ho => ?_, fun ⟨x, t, hx⟩ => inOrder_of_parse hx⟩
  · rw [hp, after_offset]
  · exact hv _ (fun _ _ => rfl) (.inl fun _ => rfl)
  · obtain ⟨x, t, hx⟩ := hv positionalFirst (fun _ => id) (.inr ⟨[], ho⟩)
    refine ⟨x, t, parse_eq_ok.2 ?_⟩
    rwa [String.toList_ofList]

/-- No positional argument may come next, but a keyword one may. -/
theorem parse_error_viable_overflow :
    source.parse "f(k=1, 9223372036854775808)" = .error ⟨.source, .unreadable [.expected .integer,
      .label .literal, .expected .value] (some .overflow), ⟨7, 1, 8⟩⟩ ∧
    inOrder [] (split "f(k=1, ".toList) ∧
    ∃ p, p <+: "f(k=1, 9223372036854775808)".toList ∧ (String.ofList p).utf8ByteSize = 7 ∧
      (∃ x t, source.Spells (fun _ => true) (p ++ x) t) ∧
      (inOrder [] (split p) ↔ ∃ x t, source.parse (String.ofList (p ++ x)) = .ok t) := by
  have h : source.parse "f(k=1, 9223372036854775808)" = .error ⟨.source, .unreadable
      [.expected .integer, .label .literal, .expected .value] (some .overflow), ⟨7, 1, 8⟩⟩ := by
    rfl
  exact ⟨h, rfl, parse_error_viable h⟩

end Entry

end Pipeline
