import Pipeline.Proofs.BrokenLiteral
import Pipeline.Proofs.Numerals

/-!
# Integers up to the limit

An integer is read exactly as long as it takes no more than 63 bits, however many digits it is
written with, and digits of a larger one are refused where they begin (`parse_integer_limit`). The
number of digits makes no difference, as those in front may be zeros. A point behind the digits
makes a double of them, for which there is no limit.
-/

namespace Pipeline

namespace Entry

/-- A text of the integer `n` with digits that begin at `p`: it is read if `n` does not exceed the
greatest integer of 64 bits with a sign, and otherwise refused at `p`. -/
structure ReadUpToLimit (text : String) (n : Nat) (x : Expectation) (p : Position) : Prop where
  read : (n : Int) ≤ Int64.maxValue.toInt →
    ∃ v : Int64, literal.parse text = .ok (.int text v) ∧ v.toInt = n
  refused : Int64.maxValue.toInt < (n : Int) → literal.parse text =
    .error ⟨.literal, .unreadable [.expected x, .label .literal] (some .overflow), p⟩

section Literals

variable {text : String} {l : Literal} {f : Failure}

theorem parse_of_literalAt (h : Literal.At text.toList l []) : literal.parse text = .ok l :=
  parse_eq_ok.2 ⟨_, [], .refl _, h, .refl []⟩

/-- Where the rule fails behind `s`, the error is there. -/
theorem parse_of_literal_error (s : List Char) {t : List Char}
    (h : Rule.literal (s ++ t) = .error f) (hf : f.rest = t) (hs : Stops isBlank (s ++ t)) :
    literal.parse (String.ofList (s ++ t)) =
      .error ⟨.literal, .unreadable f.notes f.cause, .after s⟩ := by
  refine parse_eq_error.2 (.inl ⟨f, ?_, ?_⟩)
  · rw [String.toList_ofList, hs.dropWhile_eq]
    exact h
  · rw [String.toList_ofList, hf, positionOf_append]

end Literals

section Limit

variable {n : Nat} {ds ds' : List Char}

theorem lt_limit_iff : n < 1 <<< 63 ↔ (n : Int) ≤ Int64.maxValue.toInt := by
  have h : Int64.maxValue.toInt = 9223372036854775807 := rfl
  rw [h]
  omega

theorem stops_blank_of_digits (hne : ds ≠ []) (hds : ds.all Char.isDigit) : Stops isBlank ds := by
  obtain ⟨c, cs, rfl⟩ := List.exists_cons_of_ne_nil hne
  simp only [List.all_cons, Bool.and_eq_true] at hds
  exact stops_cons.2 (isBlank_of_isNamePart (isNamePart_of_isDigit hds.1))

/-- Decimal digits past the limit are refused at the first of them. -/
theorem decimal_readUpToLimit (hne : ds ≠ []) (hds : ds.all Char.isDigit) :
    ReadUpToLimit (String.ofList ds) (Numeral.reading 10 ds) .integer .start := by
  rw [← Numeral.value_eq_reading (Numeral.all_isHexDigit_of_digits hds)]
  refine ⟨fun hn => ?_, fun hn => ?_⟩
  · have hn := lt_limit_iff.2 hn
    have h : Literal.At (ds ++ []) _ [] := .decimal hne hds hn
    rw [List.append_nil] at h
    refine ⟨_, parse_of_literalAt ?_, Int64.toInt_ofNat_of_lt hn⟩
    rwa [String.toList_ofList]
  · have hn := not_lt.1 (mt lt_limit_iff.1 (not_le.2 hn))
    have h := Rule.literal_of_largeDecimal hds stops_nil nofun hn
    rw [List.append_nil] at h
    exact parse_of_literal_error [] h rfl (stops_blank_of_digits hne hds)

/-- Hexadecimal digits past the limit are refused behind the marker. -/
theorem hex_readUpToLimit {x : Char} (hx : x = 'x' ∨ x = 'X') (hne : ds ≠ [])
    (hds : ds.all isHexDigit) :
    ReadUpToLimit (String.ofList ('0' :: x :: ds)) (Numeral.reading 16 ds) .hexInteger
      (.after ['0', x]) := by
  rw [← Numeral.value_eq_reading hds]
  refine ⟨fun hn => ?_, fun hn => ?_⟩
  · have hn := lt_limit_iff.2 hn
    have h : Literal.At ('0' :: x :: (ds ++ [])) _ [] := .hex hx hne hds hn
    rw [List.append_nil] at h
    refine ⟨_, parse_of_literalAt ?_, Int64.toInt_ofNat_of_lt hn⟩
    rwa [String.toList_ofList]
  · have hn := not_lt.1 (mt lt_limit_iff.1 (not_le.2 hn))
    have h := Rule.literal_of_largeHex hx hds stops_nil hn
    rw [List.append_nil] at h
    exact parse_of_literal_error ['0', x] h rfl (stops_cons.2 rfl)

theorem parse_double (hds : ds.all Char.isDigit) (hne : ds' ≠ []) (hds' : ds'.all Char.isDigit) :
    literal.parse (String.ofList (ds ++ '.' :: ds')) =
      .ok (.double (String.ofList (ds ++ '.' :: ds'))) := by
  have h : Literal.At (ds ++ '.' :: (ds' ++ [])) _ [] := .double hds hne hds'
  rw [List.append_nil] at h
  refine parse_of_literalAt ?_
  rwa [String.toList_ofList]

end Limit

/-- Digits of either base are an integer up to the limit, and an overflow above it; digits on both
sides of a point are never too many. -/
theorem parse_integer_limit :
    (∀ d : String, d ≠ "" → d.toList.all Char.isDigit →
      ReadUpToLimit d (Numeral.reading 10 d.toList) .integer ⟨0, 1, 1⟩) ∧
    (∀ m ∈ ["0x", "0X"], ∀ d : String, d ≠ "" → d.toList.all isHexDigit →
      ReadUpToLimit (m ++ d) (Numeral.reading 16 d.toList) .hexInteger ⟨2, 1, 3⟩) ∧
    ∀ d d' : String, d.toList.all Char.isDigit → d' ≠ "" → d'.toList.all Char.isDigit →
      literal.parse (d ++ "." ++ d') = .ok (.double (d ++ "." ++ d')) := by
  have hne {d : String} (hd : d ≠ "") : d.toList ≠ [] := by simpa using hd
  refine ⟨fun d hd hds => ?_, fun m hm d hd hds => ?_, fun d d' hds hd' hds' => ?_⟩
  · have h := decimal_readUpToLimit (hne hd) hds
    rwa [String.ofList_toList] at h
  · have hm : ∃ x, (x = 'x' ∨ x = 'X') ∧ m = String.ofList ['0', x] := by
      simp only [List.mem_cons, List.not_mem_nil, or_false] at hm
      rcases hm with rfl | rfl
      · exact ⟨'x', .inl rfl, rfl⟩
      · exact ⟨'X', .inr rfl, rfl⟩
    obtain ⟨x, hx, rfl⟩ := hm
    have hp : Position.after ['0', x] = ⟨2, 1, 3⟩ := by
      rcases hx with rfl | rfl <;> rfl
    have ht : String.ofList ('0' :: x :: d.toList) = String.ofList ['0', x] ++ d := by
      simp [← String.toList_inj]
    have h := hex_readUpToLimit hx (hne hd) hds
    rwa [hp, ht] at h
  · have h := parse_double hds (hne hd') hds'
    have ht : String.ofList (d.toList ++ '.' :: d'.toList) = d ++ "." ++ d' := by
      simp [← String.toList_inj]
    rwa [ht] at h

/-- The limit in either base, the numbers next to it, and a double with the same digits. -/
theorem parse_integer_limit_next :
    (∃ v, literal.parse "009223372036854775807" = .ok (.int "009223372036854775807" v) ∧
      v.toInt = 9223372036854775807) ∧
    literal.parse "9223372036854775808" =
      .error ⟨.literal, .unreadable [.expected .integer, .label .literal] (some .overflow),
        ⟨0, 1, 1⟩⟩ ∧
    (∃ v, literal.parse "0X07fffFFFFffffFFFF" = .ok (.int "0X07fffFFFFffffFFFF" v) ∧
      v.toInt = 9223372036854775807) ∧
    literal.parse "0x8000000000000000" =
      .error ⟨.literal, .unreadable [.expected .hexInteger, .label .literal] (some .overflow),
        ⟨2, 1, 3⟩⟩ ∧
    literal.parse "9223372036854775808.0" = .ok (.double "9223372036854775808.0") := by
  obtain ⟨hdecimal, hhex, hdouble⟩ := parse_integer_limit
  refine ⟨?_, ?_, ?_, ?_, ?_⟩
  · exact (hdecimal "009223372036854775807" (by decide) (by decide)).read (by decide)
  · exact (hdecimal "9223372036854775808" (by decide) (by decide)).refused (by decide)
  · exact (hhex "0X" (by decide) "07fffFFFFffffFFFF" (by decide) (by decide)).read (by decide)
  · exact (hhex "0x" (by decide) "8000000000000000" (by decide) (by decide)).refused (by decide)
  · exact hdouble "9223372036854775808" "0" (by decide) (by decide) (by decide)

end Entry

end Pipeline
