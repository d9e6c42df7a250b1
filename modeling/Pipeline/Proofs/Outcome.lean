import Mathlib.Tactic.Common
import Pipeline.Rule.Basic

/-!
# Outcomes of rules

When a rule made of others succeeds, and when it fails so that another alternative may be tried, in
terms of its parts. A choice or an option goes on only where its first part declines
(`orElse_eq_ok`, `optional_eq_ok`), and nothing committed declines (`not_declines_commit`). What
holds of every success of a recursive rule follows from one round of it (`recursive_sound`).
-/

namespace Pipeline

namespace Rule

variable {α β : Type}

/-- The rule fails on `s` and leaves it to another alternative. -/
def Declines (p : Rule α) (s : List Char) : Prop :=
  ∃ e, p s = .error e ∧ e.committed = false

section Combinators

variable {p q : Rule α} {f : α → Rule β} {s rest : List Char} {a : α}

theorem bind_eq_ok {r : β × List Char} :
    (p >>= f) s = .ok r ↔ ∃ a s₁, p s = .ok (a, s₁) ∧ f a s₁ = .ok r := by
  show Rule.bind p f s = .ok r ↔ _
  unfold Rule.bind
  rcases p s with e | ⟨a, s₁⟩
  · simp
  · refine ⟨fun h => ?_, fun h => ?_⟩
    · exact ⟨a, s₁, rfl, h⟩
    · obtain ⟨a', s₁', h, h'⟩ := h
      cases h
      exact h'

theorem pure_eq_ok {b : α} : (pure a : Rule α) s = .ok (b, rest) ↔ a = b ∧ s = rest := by
  show Rule.pure a s = .ok (b, rest) ↔ _
  simp [Rule.pure]

theorem commit_eq_ok {r : α × List Char} : commit p s = .ok r ↔ p s = .ok r := by
  unfold commit
  rcases p s with e | r' <;> simp

theorem noting_eq_ok {n : Note} {r : α × List Char} : noting n p s = .ok r ↔ p s = .ok r := by
  unfold noting
  rcases p s with e | r' <;> simp

/-- The second alternative is tried where the first declines, and never after a committed
failure. -/
theorem orElse_eq_ok {r : α × List Char} :
    (p <|> q) s = .ok r ↔ p s = .ok r ∨ (p.Declines s ∧ q s = .ok r) := by
  show Rule.orElse p q s = .ok r ↔ _
  unfold Rule.orElse Declines
  rcases p s with e | r'
  · rcases hc : e.committed <;> simp [hc]
  · simp

/-- An optional rule that finds nothing leaves the text as it was, also where the rule it tried had
read some of it. -/
theorem optional_eq_ok {o : Option α} :
    p.optional s = .ok (o, rest) ↔
      (∃ a, o = some a ∧ p s = .ok (a, rest)) ∨ (o = none ∧ s = rest ∧ p.Declines s) := by
  unfold Rule.optional Declines
  rcases p s with e | ⟨a, r'⟩
  · rcases hc : e.committed
    · simp [hc, @eq_comm _ none]
    · simp [hc]
  · refine ⟨fun h => ?_, fun h => ?_⟩
    · cases h
      exact .inl ⟨a, rfl, rfl⟩
    · rcases h with ⟨a', rfl, h⟩ | ⟨-, -, e, h, -⟩
      · cases h
        rfl
      · cases h

theorem declines_bind :
    (p >>= f).Declines s ↔ p.Declines s ∨ ∃ a s₁, p s = .ok (a, s₁) ∧ (f a).Declines s₁ := by
  show (∃ e, Rule.bind p f s = .error e ∧ _) ↔ _
  unfold Rule.bind Declines
  rcases p s with e | ⟨a, s₁⟩
  · simp
  · refine ⟨fun h => ?_, fun h => ?_⟩
    · exact .inr ⟨a, s₁, rfl, h⟩
    · rcases h with ⟨e, h, -⟩ | ⟨a', s₁', h, h'⟩
      · cases h
      · cases h
        exact h'

theorem not_declines_of_ok {r : α × List Char} (h : p s = .ok r) : ¬ p.Declines s := by
  rintro ⟨e, he, -⟩
  rw [h] at he
  cases he

theorem not_declines_pure : ¬ (pure a : Rule α).Declines s :=
  not_declines_of_ok (pure_eq_ok.2 ⟨rfl, rfl⟩)

/-- Past a commitment no alternative is tried. -/
theorem not_declines_commit : ¬ (commit p).Declines s := by
  rintro ⟨e, he, hc⟩
  simp only [commit] at he
  split at he
  · cases he
  · cases he
    cases hc

theorem declines_noting {n : Note} : (noting n p).Declines s ↔ p.Declines s := by
  unfold Declines
  rcases h : p s with e | r <;> simp [noting, h]

theorem declines_orElse : (p <|> q).Declines s ↔ p.Declines s ∧ q.Declines s := by
  show (∃ e, Rule.orElse p q s = .error e ∧ _) ↔ _
  unfold Rule.orElse Declines
  rcases p s with e | r
  · rcases hc : e.committed <;> simp [hc]
  · simp

theorem optional_of_declines (h : p.Declines s) : p.optional s = .ok (none, s) :=
  optional_eq_ok.2 (.inr ⟨rfl, rfl, h⟩)

theorem optional_of_ok (h : p s = .ok (a, rest)) : p.optional s = .ok (some a, rest) :=
  optional_eq_ok.2 (.inl ⟨a, rfl, h⟩)

end Combinators

/-! ## Characters -/

section Characters

variable {s rest : List Char} {c : Char} {f : Char → Bool}

theorem char_eq_ok {u : Unit} : char c s = .ok (u, rest) ↔ s = c :: rest := by
  rcases s with _ | ⟨d, s⟩
  · simp [char, fail]
  · by_cases h : d = c <;> simp [char, fail, h]

theorem declines_char : (char c).Declines s ↔ s.head? ≠ some c := by
  unfold Declines
  rcases s with _ | ⟨d, s⟩
  · simp [char, fail]
  · by_cases h : d = c <;> simp [char, fail, h]

theorem closing_eq_ok {u : Unit} : closing c s = .ok (u, rest) ↔ s = c :: rest := by
  rw [closing, noting_eq_ok, char_eq_ok]

theorem blanks_eq_ok {u : Unit} : blanks s = .ok (u, rest) ↔ s.dropWhile isBlank = rest := by
  simp [blanks]

theorem not_declines_blanks : ¬ blanks.Declines s :=
  not_declines_of_ok (blanks_eq_ok (u := ()).2 rfl)

theorem ahead_eq_ok {u : Unit} :
    ahead f s = .ok (u, rest) ↔ s = rest ∧ ∃ c cs, s = c :: cs ∧ f c := by
  rcases s with _ | ⟨d, s⟩
  · simp [ahead, fail]
  · by_cases h : f d <;> simp [ahead, fail, h]

theorem declines_ahead : (ahead f).Declines s ↔ ∀ c ∈ s.head?, f c = false := by
  unfold Declines
  rcases s with _ | ⟨d, s⟩
  · simp [ahead, fail]
  · by_cases h : f d <;> simp [ahead, fail, h]

theorem chars_eq_ok {t : List Char} :
    chars f s = .ok (t, rest) ↔ s.takeWhile f = t ∧ s.dropWhile f = rest := by
  simp [chars]

theorem not_declines_chars : ¬ (chars f).Declines s :=
  not_declines_of_ok (chars_eq_ok.2 ⟨rfl, rfl⟩)

theorem chars₁_eq_ok {t : List Char} :
    chars₁ f s = .ok (t, rest) ↔ t ≠ [] ∧ s.takeWhile f = t ∧ s.dropWhile f = rest := by
  unfold chars₁
  split
  · rename_i h
    refine ⟨fun h' => ?_, fun h' => ?_⟩
    · cases h'
    · obtain ⟨ht, rfl, -⟩ := h'
      exact absurd h ht
  · rename_i t' h
    refine ⟨fun h' => ?_, fun h' => ?_⟩
    · cases h'
      exact ⟨h, rfl, rfl⟩
    · obtain ⟨-, rfl, rfl⟩ := h'
      rfl

end Characters

/-! ## Recursion -/

/-- What one round keeps true of its successes holds of the whole recursion. -/
theorem recursive_sound {f : Rule α → Rule α} {P : List Char → α → List Char → Prop}
    (hf : ∀ p : Rule α, (∀ s a rest, p s = .ok (a, rest) → P s a rest) →
      ∀ s a rest, f p s = .ok (a, rest) → P s a rest)
    {s rest : List Char} {a : α} (h : recursive f s = .ok (a, rest)) : P s a rest := by
  have hn : ∀ n s a rest, rounds f n s = .ok (a, rest) → P s a rest := by
    intro n
    induction n with
    | zero =>
      intro s a rest h
      simp [rounds, exhausted] at h
    | succ n ih => exact hf _ ih
  exact hn _ s a rest h

end Rule

end Pipeline
