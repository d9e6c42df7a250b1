import Pipeline.Proofs.Extent

/-!
# What is read and what follows

What a rule reads it takes from the text as a piece that starts and ends in a token: blanks around
it stay where they are. It reads the same in the piece alone, and in the piece with any other rest
behind it that could not be taken for more of it (`Rule.Detached`). For the grammar derives a tree
from the piece whatever follows, and the rules read what is derived in front of such a rest.
-/

namespace Pipeline

/-- The first character is no blank. -/
def StartsInToken (p : List Char) : Prop :=
  ∃ c u, p = c :: u ∧ isBlank c = false

namespace Rule

/-- The rule reads `a` in the text `p`, whatever stands around it. -/
structure Detached {α : Type} (R : Rule α) (p : List Char) (a : α) : Prop where
  starts : StartsInToken p
  ends : EndsInToken p
  alone : R p = .ok (a, [])
  before : ∀ r, Free r → R (p ++ r) = .ok (a, r)

section Detached

variable {α : Type} {R : Rule α} {A : List Char → α → List Char → Prop} {p r : List Char} {a : α}

theorem detached_of_textOf (hp : EndsInToken p) (hA : TextOf A p a)
    (hstart : ∀ {s a rest}, A s a rest → Stops isBlank s)
    (hcomplete : ∀ {s a rest}, A s a rest → Free rest → R s = .ok (a, rest)) : R.Detached p a := by
  have hp' : A p a [] := by simpa using hA []
  refine ⟨?_, hp, hcomplete hp' (Blanks.refl []).free_of_end, fun r => hcomplete (hA r)⟩
  obtain ⟨c, u, rfl⟩ := List.exists_cons_of_ne_nil hp.ne_nil
  exact ⟨c, u, rfl, stops_cons.1 (hstart hp')⟩

/-- What is read is derived, from all of the text that is gone. -/
theorem detached_of_sound (h : R (p ++ r) = .ok (a, r))
    (hsound : ∀ {s a rest}, R s = .ok (a, rest) → A s a rest)
    (hextent : ∀ {s a rest}, A s a rest → ∃ q, s = q ++ rest ∧ EndsInToken q ∧ TextOf A q a)
    (hstart : ∀ {s a rest}, A s a rest → Stops isBlank s)
    (hcomplete : ∀ {s a rest}, A s a rest → Free rest → R s = .ok (a, rest)) : R.Detached p a := by
  obtain ⟨q, hq, hend, htext⟩ := hextent (hsound h)
  rw [List.append_cancel_right hq]
  exact detached_of_textOf hend htext hstart hcomplete

end Detached

theorem value_detached {p r : List Char} {v : Value} (h : value (p ++ r) = .ok (v, r)) :
    value.Detached p v :=
  detached_of_sound h value_sound (value_extent (fun _ => id) _) Value.At.stops_blank
    (value_complete _)

end Rule

namespace Entry

/-- What an entry's rule has read can be detached from the rest. -/
theorem rule_detached {e : Entry} {t : e.Tree} {p r : List Char}
    (h : e.rule (p ++ r) = .ok (t, r)) : e.rule.Detached p t :=
  Rule.detached_of_sound h rule_sound (at_extent fun _ => id) At.stops_blank rule_complete

end Entry

namespace Rule

/-- No rule keeps a blank from around what it reads, and what follows is nothing to it as long as no
word goes on in it and it opens neither arguments nor a body. -/
theorem reads_detached (p r : List Char) :
    (∀ l, literal (p ++ r) = .ok (l, r) → literal.Detached p l) ∧
    (∀ v, value (p ++ r) = .ok (v, r) → value.Detached p v) ∧
    (∀ a, argument (p ++ r) = .ok (a, r) → argument.Detached p a) ∧
    (∀ d, source (p ++ r) = .ok (d, r) → source.Detached p d) ∧
    ∀ t, sink (p ++ r) = .ok (t, r) → sink.Detached p t :=
  ⟨fun _ => Entry.rule_detached (e := .literal), fun _ => value_detached,
    fun _ => Entry.rule_detached (e := .argument), fun _ => Entry.rule_detached (e := .source),
    fun _ => Entry.rule_detached (e := .sink)⟩

/-- A call in front of what no rest may start with, and then in front of a rest. -/
theorem reads_detached_call :
    source "f( k = 1 )\x7b".toList =
      .ok (.call ⟨"f", [.keyword "k" (.literal (.int "1" 1))]⟩, "\x7b".toList) ∧
    sink "f( k = 1 )".toList = .ok (.call ⟨"f", [.keyword "k" (.literal (.int "1" 1))]⟩, []) ∧
    source "f( k = 1 ) =>".toList =
      .ok (.call ⟨"f", [.keyword "k" (.literal (.int "1" 1))]⟩, " =>".toList) := by
  have h : source ("f( k = 1 )".toList ++ "\x7b".toList) =
      .ok (.call ⟨"f", [.keyword "k" (.literal (.int "1" 1))]⟩, "\x7b".toList) := rfl
  have h' : sink ("f( k = 1 )".toList ++ []) =
      .ok (.call ⟨"f", [.keyword "k" (.literal (.int "1" 1))]⟩, []) := rfl
  have hs := (reads_detached _ _).2.2.2.1 _ h
  have ht := (reads_detached _ _).2.2.2.2 _ h'
  exact ⟨h, ht.alone, hs.before " =>".toList ⟨stops_cons.2 rfl, stops_cons.2 rfl⟩⟩

end Rule

end Pipeline
