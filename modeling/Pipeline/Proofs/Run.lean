import Mathlib.Tactic.Common
import Pipeline.Token.Basic

/-!
# Runs of characters

A run is a front of a text in which all characters are of one class. A rule that reads on for as
long as it can reads a given run exactly where the text behind it does not go on with the class
(`takeWhile_run`, `dropWhile_run`).
-/

namespace Pipeline

/-- The text does not go on with a character in `f`. -/
def Stops (f : Char → Bool) (s : List Char) : Prop :=
  ∀ c ∈ s.head?, f c = false

section Runs

variable {f g : Char → Bool} {s t rest : List Char} {c : Char}

theorem stops_nil : Stops f [] := by
  simp [Stops]

theorem stops_cons : Stops f (c :: s) ↔ f c = false := by
  simp [Stops]

theorem Stops.mono (h : Stops g s) (hfg : ∀ c, f c → g c) : Stops f s := by
  intro c hc
  have hg := h c hc
  by_contra hf
  rw [hfg c (by simpa using hf)] at hg
  cases hg

theorem stops_dropWhile (f : Char → Bool) (s : List Char) : Stops f (s.dropWhile f) := by
  intro c hc
  have := List.head?_dropWhile_not f s
  rw [hc] at this
  simpa using this

theorem Stops.dropWhile_eq (h : Stops f s) : s.dropWhile f = s := by
  rcases s with _ | ⟨c, s⟩
  · rfl
  · exact List.dropWhile_cons_of_neg (by simp [stops_cons.1 h])

theorem Stops.takeWhile_eq (h : Stops f s) : s.takeWhile f = [] := by
  rcases s with _ | ⟨c, s⟩
  · rfl
  · exact List.takeWhile_cons_of_neg (by simp [stops_cons.1 h])

/-- A run before a text that does not go on with it is what is taken. -/
theorem takeWhile_run (ht : t.all f) (h : Stops f rest) : (t ++ rest).takeWhile f = t := by
  rw [List.takeWhile_append_of_pos (by simpa using ht), h.takeWhile_eq, List.append_nil]

theorem dropWhile_run (ht : t.all f) (h : Stops f rest) : (t ++ rest).dropWhile f = rest := by
  rw [List.dropWhile_append_of_pos (by simpa using ht), h.dropWhile_eq]

/-- A run and what follows make up the text. -/
theorem run_append (ht : s.takeWhile f = t) (h : s.dropWhile f = rest) : s = t ++ rest := by
  rw [← ht, ← h, List.takeWhile_append_dropWhile]

theorem all_run (ht : s.takeWhile f = t) : t.all f := by
  rw [← ht]
  exact List.all_takeWhile

end Runs

/-! ## Classes of characters -/

section Classes

variable {c : Char}

theorem isDigit_iff : c.isDigit ↔ 48 ≤ c.toNat ∧ c.toNat ≤ 57 := by
  simp [Char.isDigit, UInt32.le_iff_toNat_le, ← Char.toNat_val]

theorem isAlpha_iff :
    c.isAlpha ↔ (65 ≤ c.toNat ∧ c.toNat ≤ 90) ∨ (97 ≤ c.toNat ∧ c.toNat ≤ 122) := by
  delta Char.isAlpha Char.isUpper Char.isLower
  simp [UInt32.le_iff_toNat_le, ← Char.toNat_val]

theorem isHexDigit_iff :
    isHexDigit c ↔
      c.isDigit ∨ (97 ≤ c.toNat ∧ c.toNat ≤ 102) ∨ (65 ≤ c.toNat ∧ c.toNat ≤ 70) := by
  simp [isHexDigit, Char.le_def, UInt32.le_iff_toNat_le, ← Char.toNat_val, or_assoc]

theorem isDigit_of_isNameStart (h : isNameStart c) : c.isDigit = false := by
  have := isAlpha_iff.1 h
  rw [← Bool.not_eq_true, isDigit_iff]
  omega

theorem isNamePart_of_isNameStart (h : isNameStart c) : isNamePart c := by
  simp only [isNameStart, isNamePart, Char.isAlphanum] at h ⊢
  simp [h]

theorem isNamePart_of_isDigit (h : c.isDigit) : isNamePart c := by
  simp [isNamePart, Char.isAlphanum, h]

theorem isNamePart_of_isHexDigit (h : isHexDigit c) : isNamePart c := by
  simp only [isNamePart, Char.isAlphanum, Bool.or_eq_true, isAlpha_iff]
  rcases isHexDigit_iff.1 h with h | h
  · exact .inl (.inr h)
  · exact .inl (.inl (by omega))

theorem isWordPart_of_isNamePart (h : isNamePart c) : Token.isWordPart c := by
  simp [Token.isWordPart, h]

theorem isWordPart_of_isBlank (h : isBlank c) : Token.isWordPart c = false := by
  simp only [isBlank, Bool.or_eq_true, decide_eq_true_eq] at h
  rcases h with ((rfl | rfl) | rfl) | rfl <;> rfl

theorem isBlank_of_isWordPart (h : Token.isWordPart c) : isBlank c = false := by
  by_contra hb
  rw [isWordPart_of_isBlank (by simpa using hb)] at h
  cases h

/-- The tokens of a single character. -/
def Token.isMark (c : Char) : Bool :=
  c ∈ ['(', ')', ',', '=', '{', '}', '[', ']', '<', '>', '?']

/-- Marks, words, quotes and blanks are four classes apart. -/
theorem isMark_cases (h : Token.isMark c) :
    isBlank c = false ∧ Token.isWordPart c = false ∧ c ≠ '"' := by
  simp only [Token.isMark, List.mem_cons, List.not_mem_nil, or_false, decide_eq_true_eq] at h
  rcases h with rfl | rfl | rfl | rfl | rfl | rfl | rfl | rfl | rfl | rfl | rfl <;>
    exact ⟨rfl, rfl, by decide⟩

end Classes

end Pipeline
