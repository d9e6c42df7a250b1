import Pipeline.Literal.Datum
import Pipeline.Proofs.Numerals
import Pipeline.Proofs.RoundTrip

/-!
# Literals that are read can be decoded

The rules for literals and the decoder are made independently of each other. They fit together
because what a literal may look like when it is read, that it is well formed, is enough for each
step of the decoder to succeed (`decodes_of_wellFormed`): the quotes of a string are found, digits
around a point are a decimal fraction without a sign, and an integer that takes no more than 63 bits
keeps the value of its digits. Every literal of a well-formed tree is well formed, so none of a tree
that is read is ever refused (`parse_literals_decode`).
-/

namespace Pipeline

/-! ## Decimal fractions -/

namespace Binary64

/-- The patterns up to that of infinity are those of the numbers without a sign. -/
theorem ofNat_unsigned {n : Nat} (h : n ≤ infinityBits) :
    (⟨UInt64.ofNat n⟩ : Binary64).isNaN = false ∧
      (⟨UInt64.ofNat n⟩ : Binary64).isNegative = false := by
  have hi : infinityBits < 1 <<< 63 := by decide
  have hs : 1 <<< 63 < UInt64.size := by decide
  have hn : (UInt64.ofNat n).toNat = n := UInt64.toNat_ofNat_of_lt' (by omega)
  have hm : n % (1 <<< 63) = n := Nat.mod_eq_of_lt (by omega)
  refine ⟨?_, ?_⟩
  · rw [isNaN, hn, hm, decide_eq_false_iff_not]
    omega
  · rw [isNegative, hn, decide_eq_false_iff_not]
    omega

theorem ofRatio_unsigned (n d : Nat) :
    (ofRatio n d).isNaN = false ∧ (ofRatio n d).isNegative = false := by
  unfold ofRatio
  split_ifs
  · exact ofNat_unsigned (Nat.zero_le _)
  · exact ofNat_unsigned (Nat.min_le_right _ _)

end Binary64

namespace Decimal

theorem scale_unsigned (digits : List Char) (e : Int) :
    (scale digits e).isNaN = false ∧ (scale digits e).isNegative = false := by
  unfold scale
  dsimp only
  split_ifs
  · exact Binary64.ofNat_unsigned (Nat.zero_le _)
  · exact Binary64.ofNat_unsigned (Nat.le_refl _)
  · exact Binary64.ofNat_unsigned (Nat.zero_le _)
  · exact Binary64.ofRatio_unsigned _ _

variable {ds ds' : List Char}

theorem sign_point (hds : ds.all Char.isDigit) (s : List Char) :
    sign (ds ++ '.' :: s) = (false, ds ++ '.' :: s) := by
  rcases ds with _ | ⟨c, ds⟩
  · rfl
  · have hc : c.isDigit := by
      simp only [List.all_cons, Bool.and_eq_true] at hds
      exact hds.1
    unfold sign
    split
    · rename_i h
      cases h
      cases hc
    · rename_i h
      cases h
      cases hc
    · rfl

/-- Digits on both sides of a point are all digits of the number. -/
theorem magnitude?_point (hds : ds.all Char.isDigit) (hne : ds' ≠ [])
    (hds' : ds'.all Char.isDigit) :
    magnitude? (ds ++ '.' :: ds') = some (scale (ds ++ ds') (0 - ds'.length)) := by
  -- A word has no point in it.
  have hword {w : List Char} (hw : '.' ∉ w) : (ds ++ '.' :: ds').map Char.toLower ≠ w := by
    rintro rfl
    refine hw (List.mem_map.2 ⟨'.', ?_, rfl⟩)
    simp
  have hpoint : Stops Char.isDigit ('.' :: ds') := stops_cons.2 rfl
  have hinf : '.' ∉ "inf".toList ∧ '.' ∉ "infinity".toList ∧ '.' ∉ "nan".toList := by decide
  have hnil : (ds ++ ds').isEmpty = false := by
    rw [List.isEmpty_eq_false_iff]
    exact List.append_ne_nil_of_right_ne_nil _ hne
  have ht : ds'.takeWhile Char.isDigit = ds' := by
    simpa using takeWhile_run hds' (stops_nil (f := Char.isDigit))
  have hd : ds'.dropWhile Char.isDigit = [] := by
    simpa using dropWhile_run hds' (stops_nil (f := Char.isDigit))
  unfold magnitude?
  dsimp only
  rw [if_neg (not_or.2 ⟨hword hinf.1, hword hinf.2.1⟩), if_neg (hword hinf.2.2),
    takeWhile_run hds hpoint, dropWhile_run hds hpoint]
  simp only [fraction, ht, hd, hnil]
  rfl

/-- Digits around a point are read as the digits together, scaled by how many are behind it. -/
theorem toBinary64?_point (hds : ds.all Char.isDigit) (hne : ds' ≠ [])
    (hds' : ds'.all Char.isDigit) :
    toBinary64? (ds ++ '.' :: ds') = some (scale (ds ++ ds') (0 - ds'.length)) := by
  rw [toBinary64?, sign_point hds]
  dsimp only
  rw [magnitude?_point hds hne hds']
  rfl

end Decimal

/-! ## Literals -/

namespace Literal

/-- The number that the text of an integer literal is the numeral of. -/
def number : List Char → Nat
  | '0' :: 'x' :: ds | '0' :: 'X' :: ds => Numeral.reading 16 ds
  | ds => Numeral.reading 10 ds

/-- The literal stands for a datum of its own kind, which its text says. -/
def Decodes (l : Literal) : Prop :=
  match l with
  | int text _ => ∃ n, l.datum = .ok (.int n) ∧ n.toInt = number text.toList ∧ 0 ≤ n.toInt
  | double _ => ∃ x, l.datum = .ok (.double x) ∧ x.isNaN = false ∧ x.isNegative = false
  | string _ => ∃ s, l.datum = .ok (.string s)

variable {ds b : List Char}

theorem number_of_digits (hds : ds.all Char.isDigit) : number ds = Numeral.reading 10 ds := by
  unfold number
  split
  · cases hds
  · cases hds
  · rfl

theorem number_of_hex {x : Char} (hx : x = 'x' ∨ x = 'X') (ds : List Char) :
    number ('0' :: x :: ds) = Numeral.reading 16 ds := by
  rcases hx with rfl | rfl
  · rfl
  · rfl

theorem inside?_quotes (b : List Char) : Quoted.inside? ('"' :: (b ++ ['"'])) = some b := by
  simp [Quoted.inside?]

/-- A well formed literal stands for a datum of its own kind. -/
theorem decodes_of_wellFormed {l : Literal} (hl : l.WellFormed) : l.Decodes := by
  unfold WellFormed at hl
  generalize l.text.toList = s at hl
  cases hl with
  | @decimal ds _ hne hds hn =>
    have hv : (Int64.ofNat (Numeral.value 10 ds)).toInt = number ds := by
      rw [Int64.toInt_ofNat_of_lt hn, number_of_digits hds,
        Numeral.value_eq_reading (Numeral.all_isHexDigit_of_digits hds)]
    refine ⟨_, rfl, ?_, ?_⟩
    · rw [String.toList_ofList, hv]
    · rw [hv]
      exact Int.natCast_nonneg _
  | @hex x ds _ hx hne hds hn =>
    have hv : (Int64.ofNat (Numeral.value 16 ds)).toInt = number ('0' :: x :: ds) := by
      rw [Int64.toInt_ofNat_of_lt hn, number_of_hex hx, Numeral.value_eq_reading hds]
    refine ⟨_, rfl, ?_, ?_⟩
    · rw [String.toList_ofList, hv]
    · rw [hv]
      exact Int.natCast_nonneg _
  | @double ds ds' _ hds hne hds' =>
    obtain ⟨hnan, hneg⟩ := Decimal.scale_unsigned (ds ++ ds') (0 - ds'.length)
    refine ⟨_, ?_, hnan, hneg⟩
    rw [datum, String.toList_ofList, Decimal.toBinary64?_point hds hne hds']
  | @string b _ hb =>
    refine ⟨String.ofList (Quoted.unescape b), ?_⟩
    rw [datum, String.toList_ofList, inside?_quotes]

end Literal

/-! ## Literals in trees -/

mutual

/-- The literals at any depth of a value. -/
def Value.literals : Value → List Literal
  | .literal l => [l]
  | .call c => c.literals

/-- The literals in the value of an argument. -/
def Argument.literals : Argument → List Literal
  | .positional v | .keyword _ v => v.literals

/-- The name of a call is no literal. -/
def Call.literals : Call → List Literal
  | ⟨_, args⟩ => Argument.allLiterals args

/-- The literals in a list of arguments, in order. -/
def Argument.allLiterals : List Argument → List Literal
  | [] => []
  | a :: as => a.literals ++ Argument.allLiterals as

end

namespace Source

/-- The literals in a source, none if it is a bare name. -/
def literals : Source → List Literal
  | name _ => []
  | call c => c.literals

end Source

mutual

/-- The literals in a sink, in the order in which they are written. -/
def Sink.literals : Sink → List Literal
  | .name _ => []
  | .call c => c.literals
  | .decorated d child => d.literals ++ child.literals
  | .fanOut children => Sink.allLiterals children
  | .failover primary backup => primary.literals ++ backup.literals
  | .block c child => c.literals ++ child.literals

/-- The literals in a list of sinks, in order. -/
def Sink.allLiterals : List Sink → List Literal
  | [] => []
  | s :: ss => s.literals ++ Sink.allLiterals ss

end

namespace Entry

/-- The literals in a tree, in the order in which they are written. -/
def literals : (e : Entry) → e.Tree → List Literal
  | literal, l => [l]
  | argument, a => a.literals
  | source, d => d.literals
  | sink, t => t.literals

end Entry

section Parts

variable {l : Literal}

mutual

theorem Value.literals_wellFormed : ∀ {v : Value}, v.WellFormed → l ∈ v.literals → l.WellFormed
  | .literal _, hv, h => by
    rw [List.mem_singleton.1 h]
    exact hv
  | .call _, hv, h => Call.literals_wellFormed hv h

theorem Argument.literals_wellFormed : ∀ {a : Argument}, a.WellFormed → l ∈ a.literals →
    l.WellFormed
  | .positional _, ha, h => Value.literals_wellFormed ha h
  | .keyword _ _, ha, h => Value.literals_wellFormed ha.2 h

theorem Call.literals_wellFormed : ∀ {c : Call}, c.WellFormed → l ∈ c.literals → l.WellFormed
  | ⟨_, _⟩, hc, h => Argument.allLiterals_wellFormed hc.2.1 h

theorem Argument.allLiterals_wellFormed : ∀ {as : List Argument}, Argument.AllWellFormed as →
    l ∈ Argument.allLiterals as → l.WellFormed
  | [], _, h => nomatch h
  | _ :: _, has, h => by
    rcases List.mem_append.1 h with h | h
    · exact Argument.literals_wellFormed has.1 h
    · exact Argument.allLiterals_wellFormed has.2 h

end

theorem Source.literals_wellFormed : ∀ {d : Source}, d.WellFormed → l ∈ d.literals → l.WellFormed
  | .name _, _, h => nomatch h
  | .call _, hc, h => Call.literals_wellFormed hc h

mutual

theorem Sink.literals_wellFormed : ∀ {t : Sink}, t.WellFormed → l ∈ t.literals → l.WellFormed
  | .name _, _, h => nomatch h
  | .call _, hc, h => Call.literals_wellFormed hc h
  | .decorated _ _, ht, h => by
    rcases List.mem_append.1 h with h | h
    · exact Source.literals_wellFormed ht.1 h
    · exact Sink.literals_wellFormed ht.2 h
  | .fanOut _, ht, h => Sink.allLiterals_wellFormed ht.2 h
  | .failover _ _, ht, h => by
    rcases List.mem_append.1 h with h | h
    · exact Sink.literals_wellFormed ht.1 h
    · exact Sink.literals_wellFormed ht.2 h
  | .block _ _, ht, h => by
    rcases List.mem_append.1 h with h | h
    · exact Call.literals_wellFormed ht.1 h
    · exact Sink.literals_wellFormed ht.2 h

theorem Sink.allLiterals_wellFormed : ∀ {ts : List Sink}, Sink.AllWellFormed ts →
    l ∈ Sink.allLiterals ts → l.WellFormed
  | [], _, h => nomatch h
  | _ :: _, hts, h => by
    rcases List.mem_append.1 h with h | h
    · exact Sink.literals_wellFormed hts.1 h
    · exact Sink.allLiterals_wellFormed hts.2 h

end

theorem Entry.literals_wellFormed : ∀ {e : Entry} {t : e.Tree}, e.WellFormed t →
    l ∈ e.literals t → l.WellFormed
  | literal, _, hl, h => by
    rw [List.mem_singleton.1 h]
    exact hl
  | argument, _, ha, h => Argument.literals_wellFormed ha h
  | source, _, hd, h => Source.literals_wellFormed hd h
  | sink, _, ht, h => Sink.literals_wellFormed ht h

end Parts

theorem Literal.Decodes.exists_datum {l : Literal} (h : l.Decodes) : ∃ d, l.datum = .ok d := by
  cases l with
  | int text n => exact ⟨_, rfl⟩
  | double text =>
    obtain ⟨x, hx, -⟩ := h
    exact ⟨_, hx⟩
  | string text =>
    obtain ⟨s, hs⟩ := h
    exact ⟨_, hs⟩

theorem Entry.decodes_of_parse {e : Entry} {text : String} {t : e.Tree} (h : e.parse text = .ok t)
    {l : Literal} (hl : l ∈ e.literals t) : l.Decodes :=
  Literal.decodes_of_wellFormed (literals_wellFormed (wellFormed_of_parse h) hl)

namespace Datum

/-- A literal that has been read is not refused. -/
theorem parse_eq_error {text : String} {err : LiteralError} : parse text = .error err ↔
    ∃ e, Entry.literal.parse text = .error e ∧ err = .unreadable e := by
  unfold parse
  rcases h : Entry.literal.parse text with e | l
  · simp [eq_comm]
  · have hl : l ∈ Entry.literal.literals l := List.mem_singleton_self l
    obtain ⟨d, hd⟩ := (Entry.decodes_of_parse h hl).exists_datum
    simp [hd, Except.mapError]

end Datum

/-- Whatever is read can be decoded, so a literal that cannot is one that cannot be read. The number
that an integer stands for is that of its digits, of which neither zeros in front nor the case of
letters matter. -/
theorem Entry.parse_literals_decode :
    (∀ (e : Entry) (text : String) (t : e.Tree), e.parse text = .ok t →
      ∀ l ∈ e.literals t, l.Decodes) ∧
    (∀ (text : String) (err : LiteralError), Datum.parse text = .error err ↔
      ∃ e, Entry.literal.parse text = .error e ∧ err = .unreadable e) ∧
    (∀ base ds, Numeral.reading base ('0' :: ds) = Numeral.reading base ds) ∧
    ∀ base ds ds', ds.map Char.toLower = ds'.map Char.toLower →
      Numeral.reading base ds = Numeral.reading base ds' :=
  ⟨fun _ _ _ h _ hl => decodes_of_parse h hl, fun _ _ => Datum.parse_eq_error,
    Numeral.reading_zero_cons, fun _ _ _ => Numeral.reading_congr⟩

example : Datum.parse "0x00fF" = .ok (.int 255) := by rfl

end Pipeline
