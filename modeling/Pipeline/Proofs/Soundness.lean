import Pipeline.Proofs.Reading

/-!
# What is read is derived

Where a rule succeeds the grammar derives the tree it returns from what it has read. For the
recursive rules this is an induction on rounds: one round over nested ones that are sound is sound
(`valueOf_sound`, `sinkOf_sound`).
-/

namespace Pipeline

namespace Rule

variable {s rest : List Char}

/-- A list of items is whatever an empty list and one more item in front of a list are. -/
theorem moreItems_sound {α : Type} {item : Rule α} {M : List Char → List α → List Char → Prop}
    (hnil : ∀ s, M s [] s)
    (hcons : ∀ s s₁ s₂ s₃ rest a as, Blanks s (',' :: s₁) → Blanks s₁ s₂ →
      item s₂ = .ok (a, s₃) → M s₃ as rest → M s (a :: as) rest)
    {as : List α} (h : moreItems item s = .ok (as, rest)) : M s as rest := by
  refine recursive_sound (fun more hmore s as rest h => ?_) h
  obtain ⟨o, s₁, ho, h⟩ := bind_eq_ok.1 h
  rcases optional_eq_ok.1 ho with ⟨a, rfl, ha⟩ | ⟨rfl, rfl, -⟩
  · obtain ⟨as', s₂, h', hp⟩ := bind_eq_ok.1 h
    obtain ⟨rfl, rfl⟩ := pure_eq_ok.1 hp
    obtain ⟨s₃, hs, ha⟩ := nextItem_eq_ok.1 ha
    exact hcons s s₃ _ s₁ s₂ a as' (blanks_of_dropWhile hs) (blanks_dropWhile s₃) ha
      (hmore s₁ as' s₂ h')
  · obtain ⟨rfl, rfl⟩ := pure_eq_ok.1 h
    exact hnil s

section Calls

variable {v : Rule Value}
  (hv : ∀ s w rest, v s = .ok (w, rest) → Value.At positionalFirst s w rest)

include hv

/-- If the inner rule reads values that the text shows, so does the rule for arguments. -/
theorem argumentOf_sound {a : Argument} (h : argumentOf v s = .ok (a, rest)) :
    Argument.At positionalFirst s a rest := by
  rcases argumentOf_eq_ok.1 h with ⟨n, w, s₁, s₂, rfl, hn, hs, hw⟩ | ⟨w, rfl, hw, -⟩
  · exact .keyword (name_eq_ok.1 hn).1 (blanks_of_dropWhile hs) (blanks_dropWhile s₂) (hv _ _ _ hw)
  · exact .positional (hv _ _ _ hw)

theorem items_argumentOf_sound {args : List Argument}
    (h : items (argumentOf v) s = .ok (args, rest)) : ArgumentsAt positionalFirst s args rest := by
  rcases items_eq_ok.1 h with ⟨rfl, rfl, -⟩ | h
  · exact .nil
  · obtain ⟨a, as, s₁, rfl, ha, has⟩ := items₁_eq_ok.1 h
    refine .cons (argumentOf_sound hv ha) (moreItems_sound (fun s => .nil) ?_ has)
    intro s s₁ s₂ s₃ rest a as hb hb' ha has
    exact .cons hb hb' (argumentOf_sound hv ha) has

theorem callOf_sound {c : Call} (h : callOf v s = .ok (c, rest)) :
    Call.At positionalFirst s c rest := by
  obtain ⟨n, args, s₁, rfl, hn, h⟩ := callOf_eq_ok.1 h
  obtain ⟨s₂, s₃, hs₂, h, hs₃⟩ := argumentsOf_eq_ok.1 h
  obtain ⟨h, ho⟩ := argumentListOf_eq_ok.1 h
  exact .mk (name_eq_ok.1 hn).1 (blanks_of_dropWhile hs₂) (blanks_dropWhile s₂)
    (items_argumentOf_sound hv h) ho (blanks_of_dropWhile hs₃)

theorem valueOf_sound {w : Value} (h : valueOf v s = .ok (w, rest)) :
    Value.At positionalFirst s w rest := by
  rcases valueOf_eq_ok.1 h with ⟨l, rfl, hl⟩ | ⟨c, rfl, -, hc⟩
  · exact .literal (literal_sound hl)
  · exact .call (callOf_sound hv hc)

end Calls

theorem value_sound {w : Value} (h : value s = .ok (w, rest)) : Value.At positionalFirst s w rest :=
  recursive_sound (fun _ hv _ _ _ => valueOf_sound hv) h

theorem argument_sound {a : Argument} (h : argument s = .ok (a, rest)) :
    Argument.At positionalFirst s a rest :=
  argumentOf_sound (fun _ _ _ => value_sound) h

theorem call_sound {c : Call} (h : call s = .ok (c, rest)) : Call.At positionalFirst s c rest :=
  callOf_sound (fun _ _ _ => value_sound) h

theorem source_sound {d : Source} (h : source s = .ok (d, rest)) :
    Source.At positionalFirst s d rest := by
  rcases source_eq_ok.1 h with ⟨n, rfl, hn, -⟩ | ⟨c, rfl, hc⟩
  · exact .name (name_eq_ok.1 hn).1
  · exact .call (call_sound hc)

section Sinks

variable {k : Rule Sink}
  (hk : ∀ s t rest, k s = .ok (t, rest) → Sink.At positionalFirst s t rest)

include hk

theorem namedOf_sound {t : Sink} (h : namedOf k s = .ok (t, rest)) :
    Sink.At positionalFirst s t rest := by
  rcases namedOf_eq_ok.1 h with ⟨n, rfl, hn, -⟩ | ⟨c, rfl, hc, -⟩ |
    ⟨c, child, s₁, s₂, s₃, rfl, hc, hs₁, ht, hs₃⟩
  · exact .name (name_eq_ok.1 hn).1
  · exact .call (call_sound hc)
  · exact .block (call_sound hc) (blanks_of_dropWhile hs₁) (blanks_dropWhile s₂)
      (.mk (hk _ _ _ ht) (blanks_of_dropWhile hs₃))

/-- One step of the recursion: a sink around sinks that stand where they were read. -/
theorem sinkOf_sound {t : Sink} (h : sinkOf k s = .ok (t, rest)) :
    Sink.At positionalFirst s t rest := by
  rcases sinkOf_eq_ok.1 h with h | h | h | h
  · obtain ⟨d, child, s₁, s₂, s₃, s₄, rfl, rfl, hd, hs₂, ht, hs₄⟩ := decoratedOf_eq_ok.1 h
    exact .decorated (blanks_dropWhile s₁) (source_sound hd) (blanks_of_dropWhile hs₂)
      (blanks_dropWhile s₃) (.mk (hk _ _ _ ht) (blanks_of_dropWhile hs₄))
  · obtain ⟨ts, s₁, s₂, rfl, rfl, h, hs₂⟩ := fanOutOf_eq_ok.1 h
    obtain ⟨t, ts, s₃, rfl, ht, hts⟩ := items₁_eq_ok.1 h
    refine .fanOut (blanks_dropWhile s₁) (hk _ _ _ ht) (moreItems_sound (fun s => .nil) ?_ hts)
      (blanks_of_dropWhile hs₂)
    intro s s₁ s₂ s₃ rest t ts hb hb' ht hts
    exact .cons hb hb' (hk _ _ _ ht) hts
  · obtain ⟨t₁, t₂, s₁, s₂, s₃, s₄, rfl, rfl, ht₁, hs₂, ht₂, hs₄⟩ := failoverOf_eq_ok.1 h
    exact .failover (blanks_dropWhile s₁) (.mk (hk _ _ _ ht₁) (blanks_of_dropWhile hs₂))
      (blanks_dropWhile s₃) (.mk (hk _ _ _ ht₂) (blanks_of_dropWhile hs₄))
  · exact namedOf_sound hk h

end Sinks

theorem sink_sound {t : Sink} (h : sink s = .ok (t, rest)) : Sink.At positionalFirst s t rest :=
  recursive_sound (fun _ hk _ _ _ => sinkOf_sound hk) h

end Rule

end Pipeline
