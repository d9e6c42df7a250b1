import Pipeline.Proofs.Loops
import Pipeline.Proofs.Reading

/-!
# How each rule fails

For every rule: which failures it has on a text, in terms of the parts that it is made of
(`callOf_eq_error` and so on). A failure is that of one part, behind parts that have succeeded, and
what the rule itself adds to it is a note or its commitment.
-/

namespace Pipeline

namespace Failure

/-- What gives up at `s` without a word. -/
def here (s : List Char) : Failure :=
  { committed := false, rest := s, notes := [], cause := none }

/-- A failure at `s` that says what was expected there. -/
def expecting (x : Expectation) (s : List Char) : Failure :=
  { committed := false, rest := s, notes := [.expected x], cause := none }

/-- The digits at `s` denote too large a number. -/
def overflow (s : List Char) : Failure :=
  { committed := false, rest := s, notes := [], cause := some .overflow }

/-- The same failure, but final. -/
def commit (e : Failure) : Failure :=
  { e with committed := true }

/-- The same failure, with one note more on its way out. -/
def noted (e : Failure) (n : Note) : Failure :=
  { e with notes := e.notes ++ [n] }

end Failure

namespace Rule

variable {α β : Type} {s rest : List Char} {e : Failure}

/-! ## Combinators -/

section Combinators

variable {p q : Rule α} {f : α → Rule β} {a : α}

theorem bind_eq_error : (p >>= f) s = .error e ↔
    p s = .error e ∨ ∃ a s₁, p s = .ok (a, s₁) ∧ f a s₁ = .error e := by
  show Rule.bind p f s = .error e ↔ _
  unfold Rule.bind
  rcases p s with e' | ⟨a, s₁⟩
  · simp
  · refine ⟨fun h => .inr ⟨a, s₁, rfl, h⟩, fun h => ?_⟩
    rcases h with h | ⟨a', s₁', h, h'⟩
    · cases h
    · cases h
      exact h'

theorem pure_ne_error : ¬ (pure a : Rule α) s = .error e :=
  nofun

theorem fail_eq_error : (fail : Rule α) s = .error e ↔ e = .here s := by
  rw [fail, Except.error.injEq]
  exact eq_comm

theorem commit_eq_error : commit p s = .error e ↔ ∃ e', p s = .error e' ∧ e = e'.commit := by
  unfold Rule.commit
  rcases p s with e' | r
  · simp [Failure.commit, eq_comm]
  · simp

theorem noting_eq_error {n : Note} :
    noting n p s = .error e ↔ ∃ e', p s = .error e' ∧ e = e'.noted n := by
  unfold noting
  rcases p s with e' | r
  · simp [Failure.noted, eq_comm]
  · simp

/-- The failure of the second alternative is the one that counts. -/
theorem orElse_eq_error : (p <|> q) s = .error e ↔
    (p s = .error e ∧ e.committed) ∨ (p.Declines s ∧ q s = .error e) := by
  show Rule.orElse p q s = .error e ↔ _
  unfold Rule.orElse Declines
  rcases p s with e' | r
  · rcases hc : e'.committed
    · simp only [hc, Except.error.injEq]
      refine ⟨fun h => .inr ⟨⟨e', rfl, hc⟩, h⟩, fun h => ?_⟩
      rcases h with ⟨rfl, h⟩ | ⟨-, h⟩
      · rw [hc] at h
        cases h
      · exact h
    · simp only [hc, Except.error.injEq]
      refine ⟨fun h => ?_, fun h => ?_⟩
      · cases h
        exact .inl ⟨rfl, hc⟩
      · rcases h with ⟨rfl, -⟩ | ⟨⟨_, rfl, h⟩, -⟩
        · rfl
        · rw [hc] at h
          cases h
  · simp

/-- Only a committed failure passes through an optional rule. -/
theorem optional_eq_error : p.optional s = .error e ↔ p s = .error e ∧ e.committed := by
  unfold Rule.optional
  rcases p s with e' | r
  · rcases hc : e'.committed
    · simp only [hc, Except.error.injEq]
      refine ⟨nofun, fun h => ?_⟩
      obtain ⟨rfl, h⟩ := h
      rw [hc] at h
      cases h
    · simp only [hc, Except.error.injEq]
      refine ⟨fun h => ?_, fun h => ?_⟩
      · cases h
        exact ⟨rfl, hc⟩
      · exact congrArg Except.error h.1
  · simp

end Combinators

/-! ## Characters -/

section Characters

variable {c : Char} {f : Char → Bool}

theorem char_eq_error : char c s = .error e ↔ s.head? ≠ some c ∧ e = .here s := by
  rcases s with _ | ⟨d, s⟩
  · simp [char, fail_eq_error]
  · by_cases h : d = c <;> simp [char, fail_eq_error, h]

theorem expected_char_eq_error {x : Expectation} :
    noting (.expected x) (char c) s = .error e ↔ s.head? ≠ some c ∧ e = .expecting x s := by
  simp only [noting_eq_error, char_eq_error]
  refine ⟨fun h => ?_, fun h => ⟨_, ⟨h.1, rfl⟩, h.2⟩⟩
  obtain ⟨_, ⟨h, rfl⟩, rfl⟩ := h
  exact ⟨h, rfl⟩

theorem closing_eq_error : closing c s = .error e ↔
    s.head? ≠ some c ∧ e = .expecting (.token (String.singleton c)) s :=
  expected_char_eq_error

theorem blanks_ne_error : ¬ blanks s = .error e :=
  nofun

theorem ahead_eq_error : ahead f s = .error e ↔ Stops f s ∧ e = .here s := by
  rcases s with _ | ⟨d, s⟩
  · simp [ahead, fail_eq_error, stops_nil]
  · by_cases h : f d <;> simp [ahead, fail_eq_error, stops_cons, h]

theorem chars_ne_error : ¬ chars f s = .error e :=
  nofun

theorem chars₁_eq_error : chars₁ f s = .error e ↔ Stops f s ∧ e = .here s := by
  unfold chars₁
  rcases s with _ | ⟨c, s⟩
  · simp [fail_eq_error, stops_nil]
  · by_cases h : f c <;> simp [fail_eq_error, stops_cons, h]

end Characters

/-! ## Names and literals -/

section Words

theorem name_eq_error : name s = .error e ↔ Stops isNameStart s ∧ e = .expecting .name s := by
  simp only [name, noting_eq_error, bind_eq_error, ahead_eq_error, chars_ne_error, pure_ne_error,
    and_false, exists_false, or_false]
  refine ⟨fun h => ?_, fun h => ⟨_, ⟨h.1, rfl⟩, h.2⟩⟩
  obtain ⟨_, ⟨h, rfl⟩, rfl⟩ := h
  exact ⟨h, rfl⟩

/-- Digits are missing, or their value is too large; the second failure is placed at the first
digit. -/
theorem natural_eq_error {base : Nat} {f : Char → Bool} : natural base f s = .error e ↔
    (Stops f s ∧ e = .here s) ∨
      (¬ Stops f s ∧ 1 <<< 63 ≤ Numeral.value base (s.takeWhile f) ∧ e = .overflow s) := by
  unfold natural
  rcases h : chars₁ f s with e' | ⟨ds, rest⟩
  · obtain ⟨hs, rfl⟩ := chars₁_eq_error.1 h
    simp [hs, eq_comm]
  · obtain ⟨hne, rfl, -⟩ := chars₁_eq_ok.1 h
    have hs : ¬ Stops f s := fun hs => hne hs.takeWhile_eq
    simp only [hs, false_and, not_false_eq_true, true_and, false_or]
    split_ifs with hn
    · simp only [Nat.not_le.2 hn, false_and]
    · simp only [Except.error.injEq, Nat.not_lt.1 hn, true_and]
      exact eq_comm

/-- Behind its marker a hexadecimal number is committed, so no decimal reading is tried. -/
theorem hexLiteral_eq_error : hexLiteral s = .error e ↔ hexMarker s = .error e ∨
    ∃ x s₁ e', (x = 'x' ∨ x = 'X') ∧ s = '0' :: x :: s₁ ∧ natural 16 isHexDigit s₁ = .error e' ∧
      e = (e'.noted (.expected .hexInteger)).commit := by
  simp only [hexLiteral, bind_eq_error, commit_eq_error, noting_eq_error, hexMarker_eq_ok]
  refine or_congr_right ⟨fun h => ?_, fun h => ?_⟩
  · obtain ⟨_, s₁, ⟨x, hx, rfl, rfl⟩, h | ⟨⟨ds, n⟩, s₂, -, h⟩⟩ := h
    · obtain ⟨_, ⟨e', h, rfl⟩, rfl⟩ := h
      exact ⟨x, s₁, e', hx, rfl, h, rfl⟩
    · exact absurd h pure_ne_error
  · obtain ⟨x, s₁, e', hx, rfl, h, rfl⟩ := h
    exact ⟨_, s₁, ⟨x, hx, rfl, rfl⟩, .inl ⟨_, ⟨e', h, rfl⟩, rfl⟩⟩

/-- A text with half of the marker, such as a lone zero, fails at its own start. -/
theorem hexMarker_soft (h : hexMarker s = .error e) : e = .here s := by
  unfold hexMarker at h
  split at h
  · cases h
  · cases h
  · exact fail_eq_error.1 h

theorem doubleLiteral_soft (h : doubleLiteral s = .error e) : e.committed = false := by
  simp only [doubleLiteral, bind_eq_error, chars_ne_error, char_eq_error, chars₁_eq_error,
    pure_ne_error, false_or, and_false, exists_false, or_false] at h
  rcases h with ⟨_, s₁, -, ⟨-, rfl⟩ | ⟨_, s₂, -, -, rfl⟩⟩
  · rfl
  · rfl

/-- Too large a number is a committed failure; a text without a digit is not. -/
theorem decimalLiteral_eq_error : decimalLiteral s = .error e ↔
    (Stops Char.isDigit s ∧ e = .here s) ∨
      (¬ Stops Char.isDigit s ∧ 1 <<< 63 ≤ Numeral.value 10 (s.takeWhile Char.isDigit) ∧
        e = ((Failure.overflow s).noted (.expected .integer)).commit) := by
  simp only [decimalLiteral, bind_eq_error, ahead_eq_error, ahead_eq_ok, commit_eq_error,
    noting_eq_error, natural_eq_error]
  refine or_congr_right ⟨fun h => ?_, fun h => ?_⟩
  · obtain ⟨_, _, ⟨rfl, c, cs, rfl, hc⟩, h | ⟨⟨ds, n⟩, s₂, -, h⟩⟩ := h
    · obtain ⟨_, ⟨_, ⟨hs, -⟩ | ⟨hs, hn, rfl⟩, rfl⟩, rfl⟩ := h
      · rw [stops_cons, hc] at hs
        cases hs
      · exact ⟨hs, hn, rfl⟩
    · exact absurd h pure_ne_error
  · obtain ⟨hs, hn, rfl⟩ := h
    refine ⟨(), s, ⟨rfl, ?_⟩, .inl ⟨_, ⟨_, .inr ⟨hs, hn, rfl⟩, rfl⟩, rfl⟩⟩
    rcases s with _ | ⟨c, cs⟩
    · exact absurd stops_nil hs
    · rw [stops_cons, Bool.not_eq_false] at hs
      exact ⟨c, cs, rfl, hs⟩

/-- The only failure past the opening quote is the missing closing one. -/
theorem stringLiteral_eq_error : stringLiteral s = .error e ↔
    (s.head? ≠ some '"' ∧ e = .here s) ∨
      ∃ s₁, s = '"' :: s₁ ∧ (Quoted.body s₁).2.head? ≠ some '"' ∧
        e = (Failure.expecting .closingQuote (Quoted.body s₁).2).commit := by
  simp only [stringLiteral, bind_eq_error, char_eq_error, char_eq_ok, commit_eq_error,
    expected_char_eq_error, pure_ne_error, and_false, exists_false, or_false]
  refine or_congr_right ⟨fun h => ?_, fun h => ?_⟩
  · obtain ⟨_, s₁, rfl, _, h | ⟨b, s₂, hb, hs₂, rfl⟩, rfl⟩ := h
    · cases h
    · rw [quotedBody, Except.ok.injEq] at hb
      exact ⟨s₁, rfl, by rw [hb]; exact hs₂, by rw [hb]⟩
  · obtain ⟨s₁, rfl, hs, rfl⟩ := h
    exact ⟨(), s₁, rfl, _, .inr ⟨_, _, rfl, hs, rfl⟩, rfl⟩

/-- A literal fails for want of one, or because what has begun cannot be completed: a hexadecimal
numeral, a decimal one that is too large, or a string that does not end. -/
theorem literal_error_cases (h : literal s = .error e) : ∃ e', e = e'.noted (.label .literal) ∧
    (e' = .here s ∨
      (∃ x s₁ e₁, (x = 'x' ∨ x = 'X') ∧ s = '0' :: x :: s₁ ∧
        natural 16 isHexDigit s₁ = .error e₁ ∧ e' = (e₁.noted (.expected .hexInteger)).commit) ∨
      (1 <<< 63 ≤ Numeral.value 10 (s.takeWhile Char.isDigit) ∧
        e' = ((Failure.overflow s).noted (.expected .integer)).commit) ∨
      ∃ s₁, s = '"' :: s₁ ∧ (Quoted.body s₁).2.head? ≠ some '"' ∧
        e' = (Failure.expecting .closingQuote (Quoted.body s₁).2).commit) := by
  simp only [literal, noting_eq_error, orElse_eq_error] at h
  obtain ⟨e', h, rfl⟩ := h
  refine ⟨e', rfl, ?_⟩
  rcases h with ⟨h, hc⟩ | ⟨-, ⟨h, hc⟩ | ⟨-, ⟨h, hc⟩ | ⟨-, h⟩⟩⟩
  · rcases hexLiteral_eq_error.1 h with h | h
    · rw [hexMarker_soft h] at hc
      cases hc
    · exact .inr (.inl h)
  · rw [doubleLiteral_soft h] at hc
    cases hc
  · rcases decimalLiteral_eq_error.1 h with ⟨-, rfl⟩ | ⟨-, h⟩
    · cases hc
    · exact .inr (.inr (.inl h))
  · rcases stringLiteral_eq_error.1 h with ⟨-, rfl⟩ | h
    · exact .inl rfl
    · exact .inr (.inr (.inr h))

end Words

/-! ## Items -/

section Items

variable {item : Rule α}

theorem nextItem_eq_error : nextItem item s = .error e ↔
    ((s.dropWhile isBlank).head? ≠ some ',' ∧ e = .here (s.dropWhile isBlank)) ∨
      ∃ s₁, s.dropWhile isBlank = ',' :: s₁ ∧ item (s₁.dropWhile isBlank) = .error e := by
  simp only [nextItem, bind_eq_error, blanks_eq_ok, char_eq_ok, char_eq_error, blanks_ne_error,
    false_or]
  refine ⟨fun h => ?_, fun h => ?_⟩
  · obtain ⟨_, _, rfl, h | ⟨_, s₁, hs, _, _, rfl, h⟩⟩ := h
    · exact .inl h
    · exact .inr ⟨s₁, hs, h⟩
  · rcases h with h | ⟨s₁, hs, h⟩
    · exact ⟨(), _, rfl, .inl h⟩
    · exact ⟨(), _, rfl, .inr ⟨(), s₁, hs, (), _, rfl, h⟩⟩

theorem items₁_eq_error : items₁ item s = .error e ↔
    item s = .error e ∨ ∃ a s₁, item s = .ok (a, s₁) ∧ moreItems item s₁ = .error e := by
  simp only [items₁, bind_eq_error, pure_ne_error, and_false, exists_false, or_false]

/-- A list that may be empty forgives the failure of its first item unless it is committed. -/
theorem items_eq_error : items item s = .error e ↔ (item s = .error e ∧ e.committed) ∨
    ∃ a s₁, item s = .ok (a, s₁) ∧ moreItems item s₁ = .error e := by
  simp only [items, bind_eq_error, optional_eq_error]
  refine or_congr_right ⟨fun h => ?_, fun h => ?_⟩
  · obtain ⟨o, s₁, ho, h⟩ := h
    rcases optional_eq_ok.1 ho with ⟨a, rfl, ha⟩ | ⟨rfl, rfl, -⟩
    · rcases bind_eq_error.1 h with h | ⟨as, s₂, -, h⟩
      · exact ⟨a, s₁, ha, h⟩
      · exact absurd h pure_ne_error
    · exact absurd h pure_ne_error
  · obtain ⟨a, s₁, ha, h⟩ := h
    exact ⟨some a, s₁, optional_of_ok ha, bind_eq_error.2 (.inl h)⟩

/-- Items that follow others fail at one of them, behind a comma and with commitment. -/
theorem moreItems_error_cases {M : List Char → List α → List Char → Prop} (hi : item.LeavesEnd)
    (hnil : ∀ s, M s [] s)
    (hcons : ∀ s s₁ s₂ s₃ rest a as, Blanks s (',' :: s₁) → Blanks s₁ s₂ →
      item s₂ = .ok (a, s₃) → M s₃ as rest → M s (a :: as) rest) :
    ∀ {s : List Char}, moreItems item s = .error e → e.committed ∧ ∃ as s₁ s₂, M s as s₁ ∧
      s₁.dropWhile isBlank = ',' :: s₂ ∧ item (s₂.dropWhile isBlank) = .error e := by
  intro s h
  induction hn : s.length using Nat.strongRecOn generalizing s with
  | ind n ih =>
    rw [moreItems_eq hi] at h
    rcases bind_eq_error.1 h with h | ⟨o, s₁, ho, h⟩
    · obtain ⟨h, hc⟩ := optional_eq_error.1 h
      rcases nextItem_eq_error.1 h with ⟨-, rfl⟩ | ⟨s₁, hs, h⟩
      · cases hc
      · exact ⟨hc, [], s, s₁, hnil s, hs, h⟩
    · rcases optional_eq_ok.1 ho with ⟨a, rfl, ha⟩ | ⟨rfl, rfl, -⟩
      · rcases bind_eq_error.1 h with h | ⟨as, s₂, -, h⟩
        · have hlt := (forward_nextItem hi).advances s a s₁ ha
          obtain ⟨hc, as, s₂, s₃, hm, hs, h⟩ := ih s₁.length (hn ▸ hlt) h rfl
          obtain ⟨s₄, hs₄, ha⟩ := nextItem_eq_ok.1 ha
          have hm' := hcons s s₄ _ s₁ s₂ a as (blanks_of_dropWhile hs₄) (blanks_dropWhile s₄) ha hm
          exact ⟨hc, a :: as, s₂, s₃, hm', hs, h⟩
        · exact absurd h pure_ne_error
      · exact absurd h pure_ne_error

end Items

/-! ## Calls -/

section Calls

variable {v : Rule Value} {c : Char}

/-- What an opening mark commits to fails committed or not at all. -/
theorem opened_eq_error {p : Rule α} : (do char c; blanks; commit p : Rule α) s = .error e ↔
    (s.head? ≠ some c ∧ e = .here s) ∨
      ∃ s₁ e', s = c :: s₁ ∧ p (s₁.dropWhile isBlank) = .error e' ∧ e = e'.commit := by
  simp only [bind_eq_error, char_eq_error, char_eq_ok, blanks_eq_ok, blanks_ne_error,
    commit_eq_error, false_or]
  refine or_congr_right ⟨fun h => ?_, fun h => ?_⟩
  · obtain ⟨_, s₁, rfl, _, _, rfl, e', h, rfl⟩ := h
    exact ⟨s₁, e', rfl, h, rfl⟩
  · obtain ⟨s₁, e', rfl, h, rfl⟩ := h
    exact ⟨(), s₁, rfl, (), _, rfl, e', h, rfl⟩

/-- A keyword argument fails at its value and is committed there; there is no second reading of it
as a value. -/
theorem argumentOf_eq_error : argumentOf v s = .error e ↔
    (∃ n s₁ s₂ e', name s = .ok (n, s₁) ∧ s₁.dropWhile isBlank = '=' :: s₂ ∧
      v (s₂.dropWhile isBlank) = .error e' ∧ e = e'.commit) ∨
    (v s = .error e ∧ (name.Declines s ∨
      ∃ n s₁, name s = .ok (n, s₁) ∧ (s₁.dropWhile isBlank).head? ≠ some '=')) := by
  simp only [argumentOf, orElse_eq_error, bind_eq_error, name_eq_error, blanks_eq_ok,
    blanks_ne_error, char_eq_error, char_eq_ok, commit_eq_error, pure_ne_error, declines_bind,
    declines_char, not_declines_blanks, not_declines_commit, not_declines_pure, and_false,
    exists_false, or_false, false_or]
  refine or_congr ⟨fun h => ?_, fun h => ?_⟩ ⟨fun h => ?_, fun h => ?_⟩
  · obtain ⟨⟨-, rfl⟩ | ⟨n, s₁, hn, _, _, rfl, h⟩, hc⟩ := h
    · cases hc
    · rcases h with ⟨-, rfl⟩ | ⟨_, s₂, hs, _, _, rfl, e', h, rfl⟩
      · cases hc
      · exact ⟨n, s₁, s₂, e', hn, hs, h, rfl⟩
  · obtain ⟨n, s₁, s₂, e', hn, hs, h, rfl⟩ := h
    exact ⟨.inr ⟨n, s₁, hn, (), _, rfl, .inr ⟨(), s₂, hs, (), _, rfl, e', h, rfl⟩⟩, rfl⟩
  · obtain ⟨hd, h⟩ := h
    refine ⟨h, hd.imp_right fun hd => ?_⟩
    obtain ⟨n, s₁, hn, _, _, rfl, hs⟩ := hd
    exact ⟨n, s₁, hn, hs⟩
  · obtain ⟨h, hd⟩ := h
    refine ⟨hd.imp_right fun hd => ?_, h⟩
    obtain ⟨n, s₁, hn, hs⟩ := hd
    exact ⟨n, s₁, hn, (), _, rfl, hs⟩

/-- An order that is not allowed fails behind the last argument. -/
theorem argumentListOf_eq_error : argumentListOf v s = .error e ↔
    items (argumentOf v) s = .error e ∨ ∃ args rest, items (argumentOf v) s = .ok (args, rest) ∧
      positionalFirst args = false ∧ e = .expecting .positionalFirst rest := by
  simp only [argumentListOf, bind_eq_error]
  refine or_congr_right ⟨fun h => ?_, fun h => ?_⟩
  · obtain ⟨args, s₁, h, h'⟩ := h
    split_ifs at h' with ho
    · exact absurd h' pure_ne_error
    · obtain ⟨_, hf, rfl⟩ := noting_eq_error.1 h'
      rw [fail_eq_error.1 hf]
      exact ⟨args, s₁, h, Bool.not_eq_true _ ▸ ho, rfl⟩
  · obtain ⟨args, s₁, h, ho, rfl⟩ := h
    refine ⟨args, s₁, h, ?_⟩
    rw [if_neg (by simp [ho])]
    rfl

theorem argumentsOf_eq_error : argumentsOf v s = .error e ↔ (s.head? ≠ some '(' ∧ e = .here s) ∨
    ∃ s₁ e', s = '(' :: s₁ ∧ e = e'.commit ∧ (argumentListOf v (s₁.dropWhile isBlank) = .error e' ∨
      ∃ args s₂, argumentListOf v (s₁.dropWhile isBlank) = .ok (args, s₂) ∧
        closing ')' (s₂.dropWhile isBlank) = .error e') := by
  rw [argumentsOf, opened_eq_error]
  simp only [bind_eq_error, blanks_eq_ok, blanks_ne_error, pure_ne_error, and_false, exists_false,
    or_false, false_or]
  refine or_congr_right ⟨fun h => ?_, fun h => ?_⟩
  · obtain ⟨s₁, e', rfl, h | ⟨args, s₂, h, _, _, rfl, h'⟩, rfl⟩ := h
    · exact ⟨s₁, e', rfl, rfl, .inl h⟩
    · exact ⟨s₁, e', rfl, rfl, .inr ⟨args, s₂, h, h'⟩⟩
  · obtain ⟨s₁, e', rfl, rfl, h | ⟨args, s₂, h, h'⟩⟩ := h
    · exact ⟨s₁, e', rfl, .inl h, rfl⟩
    · exact ⟨s₁, e', rfl, .inr ⟨args, s₂, h, (), _, rfl, h'⟩, rfl⟩

theorem callOf_eq_error : callOf v s = .error e ↔ name s = .error e ∨
    ∃ n s₁, name s = .ok (n, s₁) ∧ argumentsOf v (s₁.dropWhile isBlank) = .error e := by
  simp only [callOf, bind_eq_error, blanks_eq_ok, blanks_ne_error, pure_ne_error, and_false,
    exists_false, or_false, false_or]
  refine or_congr_right ⟨fun h => ?_, fun h => ?_⟩
  · obtain ⟨n, s₁, hn, _, _, rfl, h⟩ := h
    exact ⟨n, s₁, hn, h⟩
  · obtain ⟨n, s₁, hn, h⟩ := h
    exact ⟨n, s₁, hn, (), _, rfl, h⟩

/-- The failure of a value is the literal's when that one is committed, and the call's otherwise. -/
theorem valueOf_eq_error : valueOf v s = .error e ↔ ∃ e', e = e'.noted (.expected .value) ∧
    ((literal s = .error e' ∧ e'.committed) ∨ (literal.Declines s ∧ callOf v s = .error e')) := by
  simp only [valueOf, noting_eq_error, orElse_eq_error, bind_eq_error, declines_bind,
    not_declines_pure, pure_ne_error, and_false, exists_false, or_false]
  refine exists_congr fun e' => ?_
  rw [and_comm]

end Calls

/-! ## Sources and sinks -/

section Sinks

variable {k : Rule Sink}

theorem argumentsIfAny_eq_error : argumentsIfAny s = .error e ↔
    arguments (s.dropWhile isBlank) = .error e ∧ e.committed := by
  simp only [argumentsIfAny_eq, optional_eq_error, bind_eq_error, blanks_eq_ok, blanks_ne_error,
    false_or]
  refine and_congr_left fun _ => ⟨fun h => ?_, fun h => ?_⟩
  · obtain ⟨_, _, rfl, h⟩ := h
    exact h
  · exact ⟨(), _, rfl, h⟩

theorem source_eq_error : source s = .error e ↔ name s = .error e ∨
    ∃ n s₁, name s = .ok (n, s₁) ∧ arguments (s₁.dropWhile isBlank) = .error e ∧ e.committed := by
  simp only [source, sourceOf, bind_eq_error]
  refine or_congr_right ⟨fun h => ?_, fun h => ?_⟩
  · obtain ⟨n, s₁, hn, h | ⟨o, s₂, -, h⟩⟩ := h
    · exact ⟨n, s₁, hn, argumentsIfAny_eq_error.1 h⟩
    · rcases o with _ | args
      · exact absurd h pure_ne_error
      · exact absurd h pure_ne_error
  · obtain ⟨n, s₁, hn, h⟩ := h
    exact ⟨n, s₁, hn, .inl (argumentsIfAny_eq_error.2 h)⟩

/-- A sink fails in front of the mark `c`, or the mark is missing. -/
def FailsBefore (c : Char) (k : Rule Sink) (s : List Char) (e : Failure) : Prop :=
  k s = .error e ∨ ∃ t s₁, k s = .ok (t, s₁) ∧ closing c (s₁.dropWhile isBlank) = .error e

theorem failsBefore_iff {c : Char} : FailsBefore c k s e ↔ k s = .error e ∨
    ∃ t s₁, k s = .ok (t, s₁) ∧ ∃ (_ : Unit) (s₂ : List Char), s₁.dropWhile isBlank = s₂ ∧
      closing c s₂ = .error e := by
  refine or_congr_right ⟨fun h => ?_, fun h => ?_⟩
  · obtain ⟨t, s₁, ht, h⟩ := h
    exact ⟨t, s₁, ht, (), _, rfl, h⟩
  · obtain ⟨t, s₁, ht, _, _, rfl, h⟩ := h
    exact ⟨t, s₁, ht, h⟩

theorem arrow_eq_error : noting (.expected (.token "=>")) arrow s = .error e ↔
    (∀ s₁, s ≠ '=' :: '>' :: s₁) ∧ e = .expecting (.token "=>") s := by
  simp only [noting_eq_error]
  unfold arrow
  split
  · simp
  · rename_i h
    refine ⟨fun h' => ?_, fun h' => ⟨_, rfl, h'.2⟩⟩
    obtain ⟨_, h', rfl⟩ := h'
    rw [fail_eq_error.1 h']
    exact ⟨h, rfl⟩

theorem decoratedOf_eq_error : decoratedOf k s = .error e ↔ (s.head? ≠ some '{' ∧ e = .here s) ∨
    ∃ s₁ e', s = '{' :: s₁ ∧ e = e'.commit ∧ (source (s₁.dropWhile isBlank) = .error e' ∨
      ∃ d s₂, source (s₁.dropWhile isBlank) = .ok (d, s₂) ∧
        (noting (.expected (.token "=>")) arrow (s₂.dropWhile isBlank) = .error e' ∨
          ∃ s₃, s₂.dropWhile isBlank = '=' :: '>' :: s₃ ∧
            FailsBefore '}' k (s₃.dropWhile isBlank) e')) := by
  rw [decoratedOf, decoratedWith, opened_eq_error]
  simp only [bind_eq_error, blanks_eq_ok, blanks_ne_error, noting_eq_ok, arrow_eq_ok,
    pure_ne_error, and_false, exists_false, or_false, false_or]
  refine or_congr_right ⟨fun h => ?_, fun h => ?_⟩
  · obtain ⟨s₁, e', rfl, h | ⟨d, s₂, hd, _, _, rfl, h | ⟨_, s₃, hs₃, _, _, rfl, h⟩⟩, rfl⟩ := h
    · exact ⟨s₁, e', rfl, rfl, .inl h⟩
    · exact ⟨s₁, e', rfl, rfl, .inr ⟨d, s₂, hd, .inl h⟩⟩
    · exact ⟨s₁, e', rfl, rfl, .inr ⟨d, s₂, hd, .inr ⟨s₃, hs₃, failsBefore_iff.2 h⟩⟩⟩
  · obtain ⟨s₁, e', rfl, rfl, h | ⟨d, s₂, hd, h | ⟨s₃, hs₃, h⟩⟩⟩ := h
    · exact ⟨s₁, e', rfl, .inl h, rfl⟩
    · exact ⟨s₁, e', rfl, .inr ⟨d, s₂, hd, (), _, rfl, .inl h⟩, rfl⟩
    · exact ⟨s₁, e', rfl, .inr ⟨d, s₂, hd, (), _, rfl, .inr ⟨(), s₃, hs₃, (), _, rfl,
        failsBefore_iff.1 h⟩⟩, rfl⟩

theorem fanOutOf_eq_error : fanOutOf k s = .error e ↔ (s.head? ≠ some '[' ∧ e = .here s) ∨
    ∃ s₁ e', s = '[' :: s₁ ∧ e = e'.commit ∧ (items₁ k (s₁.dropWhile isBlank) = .error e' ∨
      ∃ ts s₂, items₁ k (s₁.dropWhile isBlank) = .ok (ts, s₂) ∧
        closing ']' (s₂.dropWhile isBlank) = .error e') := by
  rw [fanOutOf, opened_eq_error]
  simp only [bind_eq_error, blanks_eq_ok, blanks_ne_error, pure_ne_error, and_false, exists_false,
    or_false, false_or]
  refine or_congr_right ⟨fun h => ?_, fun h => ?_⟩
  · obtain ⟨s₁, e', rfl, h | ⟨ts, s₂, h, _, _, rfl, h'⟩, rfl⟩ := h
    · exact ⟨s₁, e', rfl, rfl, .inl h⟩
    · exact ⟨s₁, e', rfl, rfl, .inr ⟨ts, s₂, h, h'⟩⟩
  · obtain ⟨s₁, e', rfl, rfl, h | ⟨ts, s₂, h, h'⟩⟩ := h
    · exact ⟨s₁, e', rfl, .inl h, rfl⟩
    · exact ⟨s₁, e', rfl, .inr ⟨ts, s₂, h, (), _, rfl, h'⟩, rfl⟩

theorem failoverOf_eq_error : failoverOf k s = .error e ↔ (s.head? ≠ some '<' ∧ e = .here s) ∨
    ∃ s₁ e', s = '<' :: s₁ ∧ e = e'.commit ∧ (FailsBefore '?' k (s₁.dropWhile isBlank) e' ∨
      ∃ t s₂ s₃, k (s₁.dropWhile isBlank) = .ok (t, s₂) ∧ s₂.dropWhile isBlank = '?' :: s₃ ∧
        FailsBefore '>' k (s₃.dropWhile isBlank) e') := by
  rw [failoverOf, opened_eq_error]
  simp only [bind_eq_error, blanks_eq_ok, blanks_ne_error, closing_eq_ok, pure_ne_error,
    and_false, exists_false, or_false, false_or]
  refine or_congr_right ⟨fun h => ?_, fun h => ?_⟩
  · obtain ⟨s₁, e', rfl, h | ⟨t, s₂, ht, _, _, rfl, h | ⟨_, s₃, hs₃, _, _, rfl, h⟩⟩, rfl⟩ := h
    · exact ⟨s₁, e', rfl, rfl, .inl (.inl h)⟩
    · exact ⟨s₁, e', rfl, rfl, .inl (.inr ⟨t, s₂, ht, h⟩)⟩
    · exact ⟨s₁, e', rfl, rfl, .inr ⟨t, s₂, s₃, ht, hs₃, failsBefore_iff.2 h⟩⟩
  · obtain ⟨s₁, e', rfl, rfl, (h | ⟨t, s₂, ht, h⟩) | ⟨t, s₂, s₃, ht, hs₃, h⟩⟩ := h
    · exact ⟨s₁, e', rfl, .inl h, rfl⟩
    · exact ⟨s₁, e', rfl, .inr ⟨t, s₂, ht, (), _, rfl, .inl h⟩, rfl⟩
    · exact ⟨s₁, e', rfl, .inr ⟨t, s₂, ht, (), _, rfl, .inr ⟨(), s₃, hs₃, (), _, rfl,
        failsBefore_iff.1 h⟩⟩, rfl⟩

theorem bodyOf_eq_error : bodyOf k s = .error e ↔ ∃ s₁ e', s.dropWhile isBlank = '{' :: s₁ ∧
    e = e'.commit ∧ FailsBefore '}' k (s₁.dropWhile isBlank) e' := by
  simp only [bodyOf, optional_eq_error, bind_eq_error, blanks_eq_ok, blanks_ne_error, char_eq_ok,
    char_eq_error, commit_eq_error, pure_ne_error, and_false, exists_false, or_false, false_or]
  refine ⟨fun h => ?_, fun h => ?_⟩
  · obtain ⟨⟨_, _, rfl, ⟨-, rfl⟩ | ⟨_, s₁, hs₁, _, _, rfl, e', h, rfl⟩⟩, hc⟩ := h
    · cases hc
    · exact ⟨s₁, e', hs₁, rfl, failsBefore_iff.2 h⟩
  · obtain ⟨s₁, e', hs₁, rfl, h⟩ := h
    exact ⟨⟨(), _, rfl, .inr ⟨(), s₁, hs₁, (), _, rfl, e', failsBefore_iff.1 h, rfl⟩⟩, rfl⟩

/-- A sink that begins with a name fails as a source does, or in the body that it has opened. -/
theorem namedOf_eq_error : namedOf k s = .error e ↔ source s = .error e ∨
    ∃ c s₁, call s = .ok (c, s₁) ∧ bodyOf k s₁ = .error e := by
  rw [source_eq_error]
  simp only [namedOf, namedWith, bind_eq_error, call, callOf_eq_ok, or_assoc]
  refine or_congr_right ⟨fun h => ?_, fun h => ?_⟩
  · obtain ⟨n, s₁, hn, h | ⟨o, s₂, ho, h⟩⟩ := h
    · exact .inl ⟨n, s₁, hn, argumentsIfAny_eq_error.1 h⟩
    · rcases argumentsIfAny_eq_ok.1 ho with ⟨args, rfl, ha⟩ | ⟨rfl, -⟩
      · rcases bind_eq_error.1 h with h | ⟨b, s₃, -, h⟩
        · exact .inr ⟨⟨n, args⟩, s₂, ⟨n, args, s₁, rfl, hn, ha⟩, h⟩
        · rcases b with _ | child
          · exact absurd h pure_ne_error
          · exact absurd h pure_ne_error
      · exact absurd h pure_ne_error
  · rcases h with ⟨n, s₁, hn, h⟩ | ⟨_, s₂, ⟨n, args, s₁, rfl, hn, ha⟩, h⟩
    · exact ⟨n, s₁, hn, .inl (argumentsIfAny_eq_error.2 h)⟩
    · have ho := argumentsIfAny_eq_ok.2 (.inl ⟨args, rfl, ha⟩)
      exact ⟨n, s₁, hn, .inr ⟨some args, s₂, ho, bind_eq_error.2 (.inl h)⟩⟩

/-- Only the last form of a sink fails without commitment. -/
theorem sinkOf_error_cases (h : sinkOf k s = .error e) : ∃ e', e = e'.noted (.label .sink) ∧
    ((decoratedOf k s = .error e' ∧ e'.committed) ∨ (fanOutOf k s = .error e' ∧ e'.committed) ∨
      (failoverOf k s = .error e' ∧ e'.committed) ∨ namedOf k s = .error e') := by
  simp only [sinkOf_eq, noting_eq_error, orElse_eq_error] at h
  obtain ⟨e', h, rfl⟩ := h
  refine ⟨e', rfl, ?_⟩
  rcases h with h | ⟨-, h | ⟨-, h | ⟨-, h⟩⟩⟩
  · exact .inl h
  · exact .inr (.inl h)
  · exact .inr (.inr (.inl h))
  · exact .inr (.inr (.inr h))

end Sinks

end Rule

end Pipeline
