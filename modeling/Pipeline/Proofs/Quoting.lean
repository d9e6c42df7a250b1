import Pipeline.Proofs.Decoding
import Pipeline.Proofs.Lexeme

/-!
# Quoted texts, sign by sign

A quoted text is made of signs, which are characters, with a backslash before some of them. The
three functions on quoted texts go over them one character or two at a time, each in its own way,
but all of them take one sign in one step: `body` goes past it (`body_sign`), `unescape` puts its
value for it (`unescape_sign`), and `escape` writes one for each character (`escape_eq_spell`). A
text is spelled by no more than one list of signs (`spell_injective`), so a string literal has a
character for each of its signs and no others (`Entry.parse_string_signs`), and what has been quoted
is read back (`Literal.quoted_read_back`).
-/

namespace Pipeline

namespace Quoted

/-- What stands for one character in a quoted text. -/
inductive Sign where
  | plain (c : Char)
  | escaped (c : Char)
deriving DecidableEq, Repr

namespace Sign

/-- A sign as it is written. -/
def chars : Sign → List Char
  | plain c => [c]
  | escaped c => ['\\', c]

/-- A quote would end the text, and a backslash belongs to what follows. -/
def Fits : Sign → Prop
  | plain c => c ≠ '"' ∧ c ≠ '\\'
  | escaped _ => True

/-- The control characters that have a letter of their own. -/
def controls : List (Char × Char) :=
  [('n', '\n'), ('t', '\t'), ('r', '\r'), ('0', '\x00')]

/-- What the sign stands for. -/
def value : Sign → Char
  | plain c => c
  | escaped c => (controls.lookup c).getD c

/-- The sign that `escape` writes for `c`. -/
def ofChar (c : Char) : Sign :=
  match escape? c with
  | some e => escaped e
  | none => plain c

end Sign

/-- The text that signs make together. -/
def spell (us : List Sign) : List Char :=
  us.flatMap Sign.chars

/-- As `unescape`, but nothing where it comes to a backslash with nothing after it. -/
def unescape? : List Char → Option (List Char)
  | [] => some []
  | ['\\'] => none
  | '\\' :: c :: cs => (unescape? cs).map (meaning c :: ·)
  | c :: cs => (unescape? cs).map (c :: ·)

theorem unescape_of_unescape? {s cs : List Char} (h : unescape? s = some cs) :
    unescape s = cs := by
  -- Cases: the end of the text, a backslash that ends it, an escape, any other character.
  fun_induction unescape? s generalizing cs with
  | case1 =>
    cases h
    rfl
  | case2 => cases h
  | case3 c s ih =>
    obtain ⟨cs, hcs, rfl⟩ := Option.map_eq_some_iff.1 h
    rw [unescape, ih hcs]
  | case4 c s h₁ h₂ ih =>
    obtain ⟨cs, hcs, rfl⟩ := Option.map_eq_some_iff.1 h
    rw [unescape, ih hcs]
    · exact h₁
    · exact h₂

/-! ## Signs -/

section Signs

variable {u : Sign} {us vs : List Sign} {s : List Char}

theorem spell_cons (u : Sign) (us : List Sign) : spell (u :: us) = u.chars ++ spell us :=
  List.flatMap_cons

theorem value_escaped (c : Char) : (Sign.escaped c).value = meaning c := by
  change (Sign.controls.lookup c).getD c = meaning c
  unfold meaning
  split
  · rfl
  · rfl
  · rfl
  · rfl
  · rename_i hn ht hr h0
    have h : Sign.controls.lookup c = none := by
      simpa [Sign.controls, List.lookup_eq_none_iff] using ⟨hn, ht, hr, h0⟩
    rw [h]
    rfl

theorem stringBody_spell (hus : ∀ u ∈ us, u.Fits) : StringBody (spell us) := by
  induction us with
  | nil => exact .nil
  | cons u us ih =>
    obtain ⟨hu, hus'⟩ := List.forall_mem_cons.1 hus
    cases u with
    | plain c => exact .plain hu.1 hu.2 (ih hus')
    | escaped c => exact .escape c (ih hus')

/-- Every body of a string is spelled by signs, one for each escape or plain character. -/
theorem exists_spell {b : List Char} (hb : StringBody b) :
    ∃ us, (∀ u ∈ us, u.Fits) ∧ b = spell us := by
  induction hb with
  | nil => exact ⟨[], nofun, rfl⟩
  | @plain c cs hq hs _ ih =>
    obtain ⟨us, hus, rfl⟩ := ih
    exact ⟨.plain c :: us, List.forall_mem_cons.2 ⟨⟨hq, hs⟩, hus⟩, rfl⟩
  | @escape c cs _ ih =>
    obtain ⟨us, hus, rfl⟩ := ih
    exact ⟨.escaped c :: us, List.forall_mem_cons.2 ⟨trivial, hus⟩, rfl⟩

/-- A backslash tells the two kinds of signs apart. -/
theorem spell_injective (hus : ∀ u ∈ us, u.Fits) (hvs : ∀ v ∈ vs, v.Fits)
    (h : spell us = spell vs) : us = vs := by
  induction us generalizing vs with
  | nil =>
    rcases vs with _ | ⟨_ | _, vs⟩
    · rfl
    · cases h
    · cases h
  | cons u us ih =>
    obtain ⟨hu, hus'⟩ := List.forall_mem_cons.1 hus
    rcases vs with _ | ⟨v, vs⟩
    · cases u <;> cases h
    obtain ⟨hv, hvs'⟩ := List.forall_mem_cons.1 hvs
    rw [spell_cons, spell_cons] at h
    -- A backslash shows an escape: no plain sign is one.
    cases u with
    | plain c =>
      cases v with
      | plain d =>
        obtain ⟨rfl, h'⟩ := List.cons.inj h
        rw [ih hus' hvs' h']
      | escaped d => exact absurd (List.cons.inj h).1 hu.2
    | escaped c =>
      cases v with
      | plain d => exact absurd (List.cons.inj h).1.symm hv.2
      | escaped d =>
        obtain ⟨rfl, h'⟩ := List.cons.inj (List.cons.inj h).2
        rw [ih hus' hvs' h']

end Signs

/-! ## Steps of the readers -/

section Steps

variable {u : Sign} {us : List Sign}

/-- The rule for strings takes one sign at a time. -/
theorem body_sign (hu : u.Fits) (s : List Char) :
    body (u.chars ++ s) = (u.chars ++ (body s).1, (body s).2) := by
  cases u with
  | plain c => simp [Sign.chars, body, hu.1, hu.2]
  | escaped c => simp [Sign.chars, body]

/-- The decoder takes one sign at a time as well, and gives one character for it. -/
theorem unescape_sign (hu : u.Fits) (s : List Char) :
    unescape (u.chars ++ s) = u.value :: unescape s := by
  cases u with
  | plain c => simp [Sign.chars, Sign.value, unescape, hu.2]
  | escaped c => simp [Sign.chars, value_escaped, unescape]

theorem unescape?_sign (hu : u.Fits) (s : List Char) :
    unescape? (u.chars ++ s) = (unescape? s).map (u.value :: ·) := by
  cases u with
  | plain c => simp [Sign.chars, Sign.value, unescape?, hu.2]
  | escaped c => simp [Sign.chars, value_escaped, unescape?]

theorem body_spell (hus : ∀ u ∈ us, u.Fits) (s : List Char) :
    body (spell us ++ s) = (spell us ++ (body s).1, (body s).2) := by
  induction us with
  | nil => rfl
  | cons u us ih =>
    obtain ⟨hu, hus⟩ := List.forall_mem_cons.1 hus
    rw [spell_cons, List.append_assoc, body_sign hu, ih hus, List.append_assoc]

theorem unescape_spell (hus : ∀ u ∈ us, u.Fits) (s : List Char) :
    unescape (spell us ++ s) = us.map Sign.value ++ unescape s := by
  induction us with
  | nil => rfl
  | cons u us ih =>
    obtain ⟨hu, hus⟩ := List.forall_mem_cons.1 hus
    rw [spell_cons, List.append_assoc, unescape_sign hu, ih hus]
    rfl

theorem unescape?_spell (hus : ∀ u ∈ us, u.Fits) :
    unescape? (spell us) = some (us.map Sign.value) := by
  induction us with
  | nil => rfl
  | cons u us ih =>
    obtain ⟨hu, hus⟩ := List.forall_mem_cons.1 hus
    rw [spell_cons, unescape?_sign hu, ih hus]
    rfl

end Steps

/-! ## Writing -/

section Writing

theorem fits_ofChar (c : Char) : (Sign.ofChar c).Fits := by
  unfold Sign.ofChar
  split
  · trivial
  · rename_i h
    refine ⟨?_, ?_⟩
    · rintro rfl
      cases h
    · rintro rfl
      cases h

theorem value_ofChar (c : Char) : (Sign.ofChar c).value = c := by
  unfold Sign.ofChar
  split
  · rename_i e h
    unfold escape? at h
    split at h <;> cases h <;> rfl
  · rfl

/-- Escaping replaces each character by the sign that stands for it. -/
theorem escape_eq_spell (s : List Char) : escape s = spell (s.map Sign.ofChar) := by
  induction s with
  | nil => rfl
  | cons c s ih =>
    rw [List.map_cons, spell_cons, ← ih, escape, Sign.ofChar]
    cases escape? c with
    | some e => rfl
    | none => rfl

theorem fits_of_mem_map {s : List Char} : ∀ u ∈ s.map Sign.ofChar, u.Fits :=
  List.forall_mem_map.2 fun c _ => fits_ofChar c

theorem unescape_escape (s : List Char) : unescape (escape s) = s := by
  have h := unescape_of_unescape? (unescape?_spell (fits_of_mem_map (s := s)))
  have hv : Sign.value ∘ Sign.ofChar = id := funext value_ofChar
  rw [escape_eq_spell, h, List.map_map, hv, List.map_id]

end Writing

/-! ## Reading -/

/-- Both readers take the text `w` to be the signs `us` between two quotes. -/
structure ReadAs (w : List Char) (us : List Sign) : Prop where
  fits : ∀ u ∈ us, u.Fits
  text : w = '"' :: (spell us ++ ['"'])
  /-- No quote comes earlier than the last one but behind a backslash. -/
  closed : ∀ rest, body (spell us ++ '"' :: rest) = (spell us, '"' :: rest)
  inside : inside? w = some (spell us)
  /-- Where a sign ends, both readers go on with what is behind it. -/
  inStep : ∀ vs ws, us = vs ++ ws → ∀ s,
    body (spell vs ++ s) = (spell vs ++ (body s).1, (body s).2) ∧
    unescape (spell vs ++ s) = vs.map Sign.value ++ unescape s
  decoded : unescape? (spell us) = some (us.map Sign.value)

theorem readAs_spell {us : List Sign} (hus : ∀ u ∈ us, u.Fits) :
    ReadAs ('"' :: (spell us ++ ['"'])) us where
  fits := hus
  text := rfl
  closed := Rule.body_complete (stringBody_spell hus)
  inside := Literal.inside?_quotes (spell us)
  inStep := by
    rintro vs ws rfl s
    have hvs : ∀ v ∈ vs, v.Fits := fun v hv => hus v (List.mem_append_left ws hv)
    exact ⟨body_spell hvs s, unescape_spell hvs s⟩
  decoded := unescape?_spell hus

theorem ReadAs.eq_of_text {w : List Char} {us vs : List Sign} (h : ReadAs w us)
    (hvs : ∀ v ∈ vs, v.Fits) (hw : w = '"' :: (spell vs ++ ['"'])) : vs = us := by
  have heq := List.append_cancel_right (List.cons.inj (hw.symm.trans h.text)).2
  exact spell_injective hvs h.fits heq

end Quoted

/-! ## String literals -/

namespace Literal

open Quoted

theorem datum_of_readAs {w : String} {us : List Sign} (h : ReadAs w.toList us) :
    (string w).datum = .ok (.string (String.ofList (us.map Sign.value))) := by
  rw [datum, h.inside]
  dsimp only
  rw [unescape_of_unescape? h.decoded]

theorem wellFormed_string_iff {w : String} : (string w).WellFormed ↔
    ∃ b, StringBody b ∧ w = String.ofList ('"' :: (b ++ ['"'])) := by
  refine ⟨fun h => ?_, ?_⟩
  · unfold WellFormed at h
    generalize hs : (string w).text.toList = s at h
    generalize hl : string w = l at h
    cases h with
    | @string b _ hb => exact ⟨b, hb, Literal.string.inj hl⟩
    | _ => cases hl
  · rintro ⟨b, hb, rfl⟩
    have h : At ('"' :: (b ++ ['"'])) (string (String.ofList ('"' :: (b ++ ['"'])))) [] :=
      .string hb
    rwa [WellFormed, text, String.toList_ofList]

theorem exists_readAs {w : String} (h : (string w).WellFormed) : ∃ us, ReadAs w.toList us := by
  obtain ⟨b, hb, rfl⟩ := wellFormed_string_iff.1 h
  obtain ⟨us, hus, rfl⟩ := exists_spell hb
  refine ⟨us, ?_⟩
  rw [String.toList_ofList]
  exact readAs_spell hus

/-- A string ends at its closing quote, whatever comes behind it. -/
theorem literal_of_readAs {w : String} {us : List Sign} (h : ReadAs w.toList us)
    (rest : List Char) : Rule.literal (w.toList ++ rest) = .ok (string w, rest) := by
  have hw : w = String.ofList ('"' :: (spell us ++ ['"'])) := by
    rw [← h.text, String.ofList_toList]
  have hr := Rule.literal_of_string (stringBody_spell h.fits) rest
  rw [← hw] at hr
  rw [h.text]
  simpa using hr

theorem quoted_wellFormed (s : String) : (quoted s).WellFormed := by
  refine wellFormed_string_iff.2 ⟨escape s.toList, ?_, rfl⟩
  rw [escape_eq_spell]
  exact stringBody_spell fits_of_mem_map

theorem datum_quoted (s : String) : (quoted s).datum = .ok (.string s) := by
  rw [quoted, datum, String.toList_ofList, quote, inside?_quotes]
  dsimp only
  rw [unescape_escape, String.ofList_toList]

theorem parse_quoted (s : String) : Entry.literal.parse (quoted s).text = .ok (quoted s) := by
  have hq : Entry.literal.WellFormed (quoted s) := quoted_wellFormed s
  have hw : Entry.literal.write .tight (quoted s) = (quoted s).text := String.ofList_toList
  rw [← hw]
  exact Entry.parse_write hq .tight

theorem quoted_injective : Function.Injective quoted := by
  intro s s' h
  have hd := datum_quoted s
  rw [h, datum_quoted s'] at hd
  cases hd
  rfl

/-- What is quoted is one literal, whatever characters it has, and stands for what was quoted. To
quote the contents of a string literal once more may change its text but not its contents. -/
theorem quoted_read_back :
    (∀ s, (quoted s).datum = .ok (.string s)) ∧
    (∀ s, Entry.literal.parse (quoted s).text = .ok (quoted s)) ∧
    Function.Injective quoted ∧
    ∀ (e : Entry) (text : String) (t : e.Tree), e.parse text = .ok t →
      ∀ w, string w ∈ e.literals t → ∃ s, (string w).datum = .ok (.string s) ∧
        (quoted s).datum = (string w).datum := by
  refine ⟨datum_quoted, parse_quoted, quoted_injective, fun e text t h w hw => ?_⟩
  obtain ⟨s, hs⟩ := Entry.decodes_of_parse h hw
  exact ⟨s, hs, by rw [datum_quoted, hs]⟩

example : Entry.literal.parse "\"\\é\\0\"" = .ok (.string "\"\\é\\0\"") ∧
    (string "\"\\é\\0\"").datum = .ok (.string "é\x00") ∧
    (quoted "é\x00").text = "\"é\x00\"" := by decide

end Literal

namespace Entry

open Quoted

variable {e : Entry} {text w : String} {t : e.Tree}

/-- Where a string literal has been read, its signs are those of its text, and each of them stands
for one character of what the literal stands for. -/
theorem parse_string_signs (h : e.parse text = .ok t) (hw : .string w ∈ e.literals t) :
    ∃ us, ReadAs w.toList us ∧
      (∀ rest, Rule.literal (w.toList ++ rest) = .ok (.string w, rest)) ∧
      (∀ vs, (∀ v ∈ vs, v.Fits) → w.toList = '"' :: (spell vs ++ ['"']) → vs = us) ∧
      (Literal.string w).datum = .ok (.string (String.ofList (us.map Sign.value))) := by
  have hl := literals_wellFormed (wellFormed_of_parse h) hw
  obtain ⟨us, hus⟩ := Literal.exists_readAs hl
  exact ⟨us, hus, Literal.literal_of_readAs hus, fun _ => hus.eq_of_text,
    Literal.datum_of_readAs hus⟩

/-- The backslash in front of the last quote belongs to the one before it. -/
theorem parse_string_signs_backslash :
    source.parse "f(k=\"a\\n\\\\\")" =
      .ok (.call ⟨"f", [.keyword "k" (.literal (.string "\"a\\n\\\\\""))]⟩) ∧
    ReadAs "\"a\\n\\\\\"".toList [.plain 'a', .escaped 'n', .escaped '\\'] ∧
    (Literal.string "\"a\\n\\\\\"").datum = .ok (.string "a\n\\") := by
  have h : source.parse "f(k=\"a\\n\\\\\")" =
      .ok (.call ⟨"f", [.keyword "k" (.literal (.string "\"a\\n\\\\\""))]⟩) := by rfl
  obtain ⟨us, hus, -, hunique, hd⟩ := parse_string_signs h (List.mem_singleton_self _)
  have hfits : ∀ v ∈ [Sign.plain 'a', .escaped 'n', .escaped '\\'], v.Fits := by
    simp [Sign.Fits]
  obtain rfl := hunique _ hfits rfl
  exact ⟨h, hus, hd⟩

end Entry

end Pipeline
