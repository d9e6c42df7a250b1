import Pipeline.Proofs.Integers
import Pipeline.Proofs.Lexemes
import Pipeline.Proofs.LongestMatch
import Pipeline.Proofs.Overlap

/-!
# Integers that have no text

A literal can be made for any integer of 64 bits, but the grammar has no sign. Where the integer is
not negative its literal is read back (`parse_ofInt_of_nonneg`). The minus sign of any other belongs
to no token, and a text is refused if such a character stands anywhere outside its strings
(`refuses_of_stray`). As the tokens in front of the sign close the strings that they open, a
negative integer never goes into a text that can be read, whatever tree it is in
(`refuses_of_isNegative`).
-/

namespace Pipeline

open Token (word mark arrow split glue isMark isWordPart IsOf IsLexeme Laid LaidOut)

/-! ## Strings that are closed -/

/-- Made of characters other than quotes, and of whole strings. -/
inductive StringsClosed : List Char → Prop
  | nil : StringsClosed []
  | plain {c : Char} {s : List Char} : c ≠ '"' → StringsClosed s → StringsClosed (c :: s)
  | string {b s : List Char} : StringBody b → StringsClosed s →
    StringsClosed ('"' :: (b ++ '"' :: s))

section StringsClosed

variable {p q s : List Char} {f : Char → Bool}

theorem StringsClosed.append (hp : StringsClosed p) (hq : StringsClosed q) :
    StringsClosed (p ++ q) := by
  induction hp with
  | nil => exact hq
  | plain hc _ ih => exact .plain hc ih
  | string hb _ ih => simpa using ih.string hb

theorem stringsClosed_of_all (hs : s.all f) (hf : f '"' = false) : StringsClosed s := by
  induction s with
  | nil => exact .nil
  | cons c s ih =>
    simp only [List.all_cons, Bool.and_eq_true] at hs
    refine .plain ?_ (ih hs.2)
    rintro rfl
    rw [hf] at hs
    cases hs.1

theorem Blanks.exists_stringsClosed (h : Blanks s q) : ∃ b, s = b ++ q ∧ StringsClosed b := by
  obtain ⟨b, hb, rfl⟩ := h
  exact ⟨b, rfl, stringsClosed_of_all hb rfl⟩

theorem IsName.stringsClosed {n : String} (hn : IsName n) : StringsClosed n.toList := by
  obtain ⟨cs, hcs, hall⟩ := NameAt.exists_run hn
  rw [List.append_nil] at hcs
  rw [hcs]
  exact stringsClosed_of_all hall rfl

theorem Literal.WellFormed.stringsClosed {l : Literal} (hl : l.WellFormed) :
    StringsClosed l.text.toList := by
  unfold Literal.WellFormed at hl
  generalize l.text.toList = s at hl
  cases hl with
  | decimal _ hds =>
    rw [List.append_nil]
    exact stringsClosed_of_all hds rfl
  | hex hx _ hds =>
    rw [List.append_nil]
    refine .plain (by decide) (.plain ?_ (stringsClosed_of_all hds rfl))
    rcases hx with rfl | rfl <;> decide
  | double hds _ hds' =>
    rw [List.append_nil]
    exact (stringsClosed_of_all hds rfl).append (.plain (by decide) (stringsClosed_of_all hds' rfl))
  | string hb => exact .string hb .nil

/-- Tokens close the strings that they open, if their literals do. -/
theorem Token.IsOf.stringsClosed {P : Literal → Prop}
    (hP : ∀ l, P l → StringsClosed l.text.toList) {t : Token} (ht : t.IsOf P) :
    StringsClosed t.chars := by
  cases t with
  | word w =>
    rcases ht with ⟨n, hn, rfl⟩ | ⟨l, hl, rfl⟩
    · exact hn.stringsClosed
    · exact hP l hl
  | mark c => exact .plain (isMark_cases ht).2.2 .nil
  | arrow => exact .plain (by decide) (.plain (by decide) .nil)

theorem stringsClosed_of_laid {ts : List Token} (hts : ∀ t ∈ ts, StringsClosed t.chars)
    (h : Laid s ts q) : ∃ p, s = p ++ q ∧ StringsClosed p := by
  induction h with
  | nil => exact ⟨[], rfl, .nil⟩
  | @cons s s₁ q t ts hb _ ih =>
    rw [List.forall_mem_cons] at hts
    obtain ⟨b, rfl, hbc⟩ := hb.exists_stringsClosed
    obtain ⟨p, rfl, hp⟩ := ih hts.2
    exact ⟨b ++ (t.chars ++ p), by simp, hbc.append (hts.1.append hp)⟩

end StringsClosed

/-! ## Characters of no token -/

/-- Part of no token but a string, and no blank. -/
def isStray (c : Char) : Bool :=
  !isBlank c && !isWordPart c && !isMark c && c ≠ '"'

namespace Token

variable {p s : List Char} {c d : Char}

theorem mem_glue {ts : List Token} (h : mark c ∈ ts) : mark c ∈ glue d s ts := by
  unfold glue
  split
  · have h := (List.mem_cons.1 h).resolve_left nofun
    exact List.mem_cons_of_mem _ h
  · exact List.mem_cons_of_mem _ h

/-- What is outside strings remains so with another character in front. -/
theorem mem_split_cons (hd : d ≠ '"') (hc : isMark c = false) (h : mark c ∈ split s) :
    mark c ∈ split (d :: s) := by
  rcases hb : isBlank d with _ | _
  · rcases hw : isWordPart d with _ | _
    · by_cases ha : d = '=' ∧ s.head? = some '>'
      · obtain ⟨rfl, hs⟩ := ha
        obtain ⟨s, rfl⟩ := List.head?_eq_some_iff.1 hs
        rw [split_mark (c := '>') rfl rfl (by decide) fun h => absurd h (by decide)] at h
        -- The second character of the arrow would be a mark, had it been read alone.
        have hne : mark c ≠ mark '>' := by
          rintro ⟨⟩
          cases hc
        exact List.mem_cons_of_mem _ ((List.mem_cons.1 h).resolve_left hne)
      · rw [split_mark hb hw hd fun h hs => ha ⟨h, hs⟩]
        exact List.mem_cons_of_mem _ h
    · rw [split_wordPart hw]
      exact mem_glue h
  · rwa [split_blank hb]

/-- Closed strings in front do not hide a stray character: it stays a token of its own. -/
theorem mem_split_of_stringsClosed (hp : StringsClosed p) (hc : isMark c = false)
    (h : mark c ∈ split s) : mark c ∈ split (p ++ s) := by
  induction hp with
  | nil => exact h
  | plain hd _ ih => exact mem_split_cons hd hc ih
  | @string b p hb _ ih =>
    have hs : '"' :: (b ++ '"' :: p) ++ s = '"' :: (b ++ '"' :: (p ++ s)) := by simp
    rw [hs, split, splitQuoted_body hb]
    exact List.mem_cons_of_mem _ ih

end Token

namespace Entry

variable {e : Entry}

/-- A text with a stray character outside its strings is of no entry. -/
theorem refuses_of_stray {p s : List Char} {c : Char} (hp : StringsClosed p) (hc : isStray c) :
    e.Refuses (String.ofList (p ++ c :: s)) := by
  simp only [isStray, Bool.and_eq_true, Bool.not_eq_true', decide_eq_true_eq] at hc
  obtain ⟨⟨⟨hb, hw⟩, hm⟩, hq⟩ := hc
  refine refuses_of_forall_ne fun t h => ?_
  obtain ⟨ht, hs⟩ := parse_eq_ok_iff_split.1 h
  have hmem : mark c ∈ split (c :: s) := by
    rw [Token.split_mark hb hw hq]
    · exact List.mem_cons_self
    · rintro rfl
      cases hm
  have h := Token.mem_split_of_stringsClosed hp hm hmem
  rw [String.toList_ofList] at hs
  rw [hs] at h
  have hlex : isMark c := tokens_isLexeme e ht _ h
  rw [hm] at hlex
  cases hlex

end Entry

/-! ## Integers -/

namespace Literal

/-- The literal that is made for a negative integer. -/
def IsNegative (l : Literal) : Prop :=
  ∃ n : Int64, n < 0 ∧ l = .ofInt n

theorem ofInt_text (n : Int64) : (ofInt n).text = String.ofList (Numeral.signed n.toInt) := rfl

theorem IsNegative.exists_digits {l : Literal} (h : l.IsNegative) :
    ∃ ds, l.text.toList = '-' :: ds ∧ ds.all Char.isDigit := by
  obtain ⟨n, hn, rfl⟩ := h
  have hn : n.toInt < 0 := Int64.lt_iff_toInt_lt.1 hn
  refine ⟨_, ?_, Numeral.all_isDigit_decimal n.toInt.natAbs⟩
  rw [ofInt_text, String.toList_ofList, Numeral.signed, if_pos hn]

theorem IsNegative.stringsClosed {l : Literal} (h : l.IsNegative) :
    StringsClosed l.text.toList := by
  obtain ⟨ds, hds, hall⟩ := h.exists_digits
  rw [hds]
  exact .plain (by decide) (stringsClosed_of_all hall rfl)

theorem ofInt_wellFormed {n : Int64} (hn : 0 ≤ n) : (ofInt n).WellFormed := by
  have hn : 0 ≤ n.toInt := Int64.le_iff_toInt_le.1 hn
  have hvalue := Numeral.value_decimal n.toInt.natAbs
  have hlt : Numeral.value 10 (Numeral.decimal n.toInt.natAbs) < 1 <<< 63 := by
    have := n.toInt_lt
    omega
  have hne : Numeral.decimal n.toInt.natAbs ≠ [] := Nat.toDigits_ne_nil
  have h : Literal.At (_ ++ []) _ [] := .decimal hne (Numeral.all_isDigit_decimal _) hlt
  have hback : Int64.ofNat n.toInt.natAbs = n := by
    rw [← Int64.toInt_inj, Int64.toInt_ofNat_of_lt (by omega)]
    omega
  rw [List.append_nil, hvalue, hback] at h
  rw [WellFormed, ofInt_text, String.toList_ofList, Numeral.signed, if_neg (by omega)]
  rwa [ofInt, Numeral.signed, if_neg (by omega)]

end Literal

namespace Entry

/-- The decimal digits of a number from zero up are within the limit. -/
theorem parse_ofInt_of_nonneg {n : Int64} (hn : 0 ≤ n) :
    literal.parse (Literal.ofInt n).text = .ok (.ofInt n) :=
  parse_of_literalAt (Literal.ofInt_wellFormed hn)

/-- The minus sign is stray wherever the literal is, as all that stands before it is closed. -/
theorem refuses_of_isNegative {e : Entry} {t : e.Tree} {l : Literal}
    (ht : e.WellFormedWith (fun l => l.WellFormed ∨ l.IsNegative) t) (hl : l ∈ e.literals t)
    (hneg : l.IsNegative) (empty : EmptyCall) : e.Refuses (e.write empty t) := by
  obtain ⟨ds, hds, -⟩ := hneg.exists_digits
  obtain ⟨us, vs, hsplit⟩ := List.append_of_mem (literal_mem_tokens hl)
  have hclosed : ∀ k ∈ us, StringsClosed k.chars := fun k hk =>
    (tokens_isOf e ht k (hsplit ▸ List.mem_append_left _ hk)).stringsClosed fun l hl =>
      hl.elim (·.stringsClosed) (·.stringsClosed)
  obtain ⟨rest, hlaid, -⟩ := laidOut_chars e empty t
  rw [hsplit] at hlaid
  obtain ⟨s, hus, hword⟩ := Token.laid_append.1 hlaid
  obtain ⟨s₁, hb, -⟩ := Token.laid_cons.1 hword
  obtain ⟨p, hp, hpc⟩ := stringsClosed_of_laid hclosed hus
  obtain ⟨b, rfl, hbc⟩ := hb.exists_stringsClosed
  have htext : e.chars empty t = p ++ b ++ '-' :: (ds ++ s₁) := by
    rw [hp, Token.chars, hds, List.append_assoc, List.cons_append]
  rw [write, htext]
  exact refuses_of_stray (hpc.append hbc) rfl

theorem parse_ofInt_iff {n : Int64} :
    literal.parse (Literal.ofInt n).text = .ok (.ofInt n) ↔ 0 ≤ n := by
  refine ⟨fun h => ?_, parse_ofInt_of_nonneg⟩
  by_contra hn
  have hneg : (Literal.ofInt n).IsNegative := ⟨n, Int64.not_le.1 hn, rfl⟩
  have hl : (Literal.ofInt n) ∈ literal.literals (Literal.ofInt n) := List.mem_singleton_self _
  have hr := refuses_of_isNegative (e := literal) (.inr hneg) hl hneg .tight
  rw [write, chars, Literal.chars, String.ofList_toList] at hr
  exact hr.ne _ h

/-- An integer that a literal is made for is read back if it is not negative. A tree with a negative
one in it has no text that is read at all. -/
theorem ofInt_readable :
    (∀ n : Int64, literal.parse (Literal.ofInt n).text = .ok (.ofInt n) ↔ 0 ≤ n) ∧
    ∀ (e : Entry) (t : e.Tree), e.WellFormedWith (fun l => l.WellFormed ∨ l.IsNegative) t →
      (∃ l ∈ e.literals t, l.IsNegative) → ∀ empty, e.Refuses (e.write empty t) := by
  refine ⟨fun n => parse_ofInt_iff, fun e t ht h => ?_⟩
  obtain ⟨l, hl, hneg⟩ := h
  exact refuses_of_isNegative ht hl hneg

/-- The greatest integer, and a negative one below a block; the minus sign before it is quoted. -/
theorem ofInt_readable_nested :
    literal.parse (Literal.ofInt 9223372036854775807).text = .ok (.ofInt 9223372036854775807) ∧
    sink.write .spaced (.failover (.name "a") (.block
      ⟨"f", [.positional (.literal (.string "\"-\"")),
        .keyword "k" (.call ⟨"g", [.positional (.literal (.ofInt (-5)))]⟩)]⟩ (.name "b"))) =
      "< a ? f( \"-\", k=g(-5) ) \x7b b \x7d >" ∧
    sink.Refuses "< a ? f( \"-\", k=g(-5) ) \x7b b \x7d >" := by
  obtain ⟨hread, hrefused⟩ := ofInt_readable
  have hname {c : Char} (hc : isNameStart c) := isName_singleton hc
  have hstring : Literal.WellFormed (.string "\"-\"") :=
    Literal.At.string (b := ['-']) (.plain (by decide) (by decide) .nil)
  have hneg : (Literal.ofInt (-5)).IsNegative := ⟨-5, by decide, rfl⟩
  have hcall : Call.WellFormedWith (fun l => l.WellFormed ∨ l.IsNegative)
      ⟨"f", [.positional (.literal (.string "\"-\"")),
        .keyword "k" (.call ⟨"g", [.positional (.literal (.ofInt (-5)))]⟩)]⟩ :=
    ⟨hname (c := 'f') rfl, ⟨.inl hstring, ⟨hname (c := 'k') rfl, hname (c := 'g') rfl,
      ⟨.inr hneg, trivial⟩, rfl⟩, trivial⟩, rfl⟩
  refine ⟨(hread _).2 (by decide), rfl, ?_⟩
  exact hrefused sink (.failover (.name "a") (.block _ (.name "b")))
    ⟨hname (c := 'a') rfl, hcall, hname (c := 'b') rfl⟩ ⟨_, by decide, hneg⟩ .spaced

end Entry

end Pipeline
