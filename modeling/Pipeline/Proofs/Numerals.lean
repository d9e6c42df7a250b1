import Mathlib.Data.List.Induction
import Mathlib.Data.Nat.Digits.Defs
import Pipeline.Proofs.Run
import Pipeline.Text.Numeral

/-!
# What digits denote

A numeral is read from left to right, one digit at a time. What comes out is the sum of what the
digits are worth at their places (`value_eq_reading`), so neither zeros in front nor the case of
letters count. The decimal numeral that is written for a number denotes it (`value_decimal`).
-/

namespace Pipeline.Numeral

/-- The place of a digit among all digits, whatever its case. -/
def worth (c : Char) : Nat :=
  "0123456789abcdef".toList.idxOf c.toLower

/-- The sum of what the digits are worth at their places. -/
def reading (base : Nat) (digits : List Char) : Nat :=
  Nat.ofDigits base (digits.map worth).reverse

/-! ## Reading -/

variable {base : Nat}

theorem digitValue_eq_worth {c : Char} (h : isHexDigit c) : digitValue c = worth c := by
  have hall : ∀ n < 128, isHexDigit (Char.ofNat n) → digitValue (.ofNat n) = worth (.ofNat n) := by
    decide
  have hc : c.toNat < 128 := by
    rcases isHexDigit_iff.1 h with h | h
    · have := isDigit_iff.1 h
      omega
    · omega
  have hc' := hall c.toNat hc
  rw [Char.ofNat_toNat] at hc'
  exact hc' h

/-- The value that is summed up from the left is the usual reading of the digits. -/
theorem value_eq_reading {ds : List Char} (h : ds.all isHexDigit) :
    value base ds = reading base ds := by
  induction ds using List.reverseRecOn with
  | nil => rfl
  | append_singleton ds c ih =>
    simp only [List.all_append, List.all_cons, List.all_nil, Bool.and_true, Bool.and_eq_true] at h
    have hv : value base (ds ++ [c]) = value base ds * base + digitValue c := by
      simp [value]
    have hr : reading base (ds ++ [c]) = worth c + base * reading base ds := by
      simp [reading, Nat.ofDigits_cons]
    rw [hv, hr, ih h.1, digitValue_eq_worth h.2, Nat.mul_comm, Nat.add_comm]

theorem all_isHexDigit_of_digits {ds : List Char} (h : ds.all Char.isDigit) : ds.all isHexDigit :=
  List.all_eq_true.2 fun c hc => isHexDigit_iff.2 (.inl (List.all_eq_true.1 h c hc))

theorem reading_zero_cons (base : Nat) (ds : List Char) :
    reading base ('0' :: ds) = reading base ds :=
  Nat.ofDigits_reverse_zero_cons (ds.map worth)

/-- The case of digits does not matter. -/
theorem reading_congr {ds ds' : List Char} (h : ds.map Char.toLower = ds'.map Char.toLower) :
    reading base ds = reading base ds' := by
  have hw (cs : List Char) :
      cs.map worth = (cs.map Char.toLower).map ("0123456789abcdef".toList.idxOf ·) := by
    rw [List.map_map]
    rfl
  rw [reading, hw, h, ← hw, reading]

/-! ## Writing -/

theorem all_isDigit_decimal (n : Nat) : (decimal n).all Char.isDigit :=
  List.all_eq_true.2 fun _ hc => Nat.isDigit_of_mem_toDigits (by decide) (by decide) hc

theorem decimal_head (n : Nat) : ∃ c cs, decimal n = c :: cs ∧ c.isDigit := by
  obtain ⟨c, cs, h⟩ := List.exists_cons_of_ne_nil (Nat.toDigits_ne_nil (n := n) (b := 10))
  refine ⟨c, cs, h, List.all_eq_true.1 (all_isDigit_decimal n) c ?_⟩
  rw [decimal, h]
  exact List.mem_cons_self

theorem value_eq_ofDigitChars {ds : List Char} (hds : ds.all Char.isDigit) :
    value 10 ds = Nat.ofDigitChars 10 ds 0 := by
  have hfold (n : Nat) : ds.foldl (fun n c => n * 10 + digitValue c) n =
      Nat.ofDigitChars 10 ds n := by
    induction ds generalizing n with
    | nil => rfl
    | cons c ds ih =>
      simp only [List.all_cons, Bool.and_eq_true] at hds
      have hc : digitValue c = c.toNat - '0'.toNat := by rw [digitValue, if_pos hds.1]
      rw [List.foldl_cons, ih hds.2, Nat.ofDigitChars_cons, hc, Nat.mul_comm]
  exact hfold 0

theorem value_decimal (n : Nat) : value 10 (decimal n) = n := by
  rw [value_eq_ofDigitChars (all_isDigit_decimal n), decimal, Nat.ofDigitChars_ten_toDigits]

theorem decimal_inj {n m : Nat} (h : decimal n = decimal m) : n = m := by
  rw [← value_decimal n, h, value_decimal]

end Pipeline.Numeral
