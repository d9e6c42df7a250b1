import Pipeline.Json.Reader
import Pipeline.Proofs.Numerals

/-!
# The text of a document

A document is fixed by its text over several lines, as long as all numbers in it are integers
(`pretty_inj`). More than that, the text shows where the document ends if no digit follows
(`pretty_toldApart`), so that what is inside brackets is told apart part by part: the first
character fixes the form of a document, a string can be read back character by character, and a
line between brackets either ends in a comma or is followed by the closing bracket.
-/

namespace Pipeline

/-- What `f` writes for `a` and for `b` is different, whatever follows that is no digit. -/
def ToldApart {α : Type} (f : α → List Char) (a b : α) : Prop :=
  ∀ ⦃r r' : List Char⦄, Stops Char.isDigit r → Stops Char.isDigit r' → f a ++ r = f b ++ r' →
    a = b ∧ r = r'

/-! ## Numerals -/

namespace Numeral

theorem decimal_toldApart (n m : Nat) : ToldApart decimal n m := by
  intro r r' hr hr' h
  have ht := congrArg (List.takeWhile Char.isDigit) h
  rw [takeWhile_run (all_isDigit_decimal n) hr, takeWhile_run (all_isDigit_decimal m) hr'] at ht
  rw [ht] at h
  exact ⟨decimal_inj ht, List.append_cancel_left h⟩

theorem decimal_append_ne_minus (n : Nat) (r s : List Char) : decimal n ++ r ≠ '-' :: s := by
  obtain ⟨c, cs, h, hc⟩ := decimal_head n
  rw [h, List.cons_append]
  intro heq
  rw [(List.cons.inj heq).1] at hc
  cases hc

theorem signed_toldApart (n m : Int) : ToldApart signed n m := by
  intro r r' hr hr' h
  unfold signed at h
  split_ifs at h with hn hm hm
  · obtain ⟨habs, hrest⟩ := decimal_toldApart _ _ hr hr' (List.cons.inj h).2
    exact ⟨by omega, hrest⟩
  · exact absurd h.symm (decimal_append_ne_minus _ _ _)
  · exact absurd h (decimal_append_ne_minus _ _ _)
  · obtain ⟨habs, hrest⟩ := decimal_toldApart _ _ hr hr' h
    exact ⟨by omega, hrest⟩

end Numeral

namespace Json

/-! ## Strings -/

section Strings

theorem unicode_control {n : Nat} (hn : n < 0x20) (s : List Char) :
    unicode? ('0' :: '0' :: Nat.digitChar (n / 16) :: Nat.digitChar (n % 16) :: s) =
      some (Char.ofNat n, s) := by
  have hdigits : ∀ n < 0x20, ['0', '0', Nat.digitChar (n / 16), Nat.digitChar (n % 16)].all
      isHexDigit ∧ Numeral.value 16 ['0', '0', Nat.digitChar (n / 16), Nat.digitChar (n % 16)] =
      n := by decide
  obtain ⟨hall, hvalue⟩ := hdigits n hn
  have hfour : fourHex? ('0' :: '0' :: Nat.digitChar (n / 16) :: Nat.digitChar (n % 16) :: s) =
      some (n, s) := by
    rw [fourHex?, if_pos hall, hvalue]
  have hhigh : ¬ (0xD800 ≤ n ∧ n < 0xDC00) := by omega
  have hlow : ¬ (0xDC00 ≤ n ∧ n < 0xE000) := by omega
  simp [unicode?, hfour, hhigh, hlow]

theorem stringChar_plain {c : Char} (hq : c ≠ '"') (hs : c ≠ '\\') (hc : ¬ c.toNat < 0x20)
    (s : List Char) : stringChar (c :: s) = .ok (c, s) := by
  simp [stringChar, hq, hs, hc]

/-- Reading a character undoes its escape. -/
theorem stringChar_escaped (c : Char) (s : List Char) :
    stringChar (escaped c ++ s) = .ok (c, s) := by
  unfold escaped
  split
  case h_8 hq hs _ _ _ _ _ =>
    split_ifs with hc
    · have hu := unicode_control hc s
      rw [Char.ofNat_toNat] at hu
      simp [stringChar, hu]
    · exact stringChar_plain hq hs hc s
  all_goals rfl

/-- A quote is never read as a character. -/
theorem escaped_append_ne_quote (c : Char) (s r : List Char) : escaped c ++ s ≠ '"' :: r := by
  intro h
  have hc := stringChar_escaped c s
  rw [h] at hc
  cases hc

/-- A string is read back character by character up to the quote that closes it. -/
theorem escapes_cancel : ∀ {cs ds r r' : List Char},
    cs.flatMap escaped ++ '"' :: r = ds.flatMap escaped ++ '"' :: r' → cs = ds ∧ r = r'
  | [], [], _, _, h => ⟨rfl, (List.cons.inj h).2⟩
  | [], d :: ds, _, _, h => by
    rw [List.flatMap_cons, List.append_assoc] at h
    exact absurd h.symm (escaped_append_ne_quote d _ _)
  | c :: cs, [], _, _, h => by
    rw [List.flatMap_cons, List.append_assoc] at h
    exact absurd h (escaped_append_ne_quote c _ _)
  | c :: cs, d :: ds, r, r', h => by
    rw [List.flatMap_cons, List.flatMap_cons, List.append_assoc, List.append_assoc] at h
    have hread := congrArg stringChar h
    rw [stringChar_escaped, stringChar_escaped, Except.ok.injEq, Prod.mk.injEq] at hread
    obtain ⟨hcs, hr⟩ := escapes_cancel hread.2
    exact ⟨by rw [hread.1, hcs], hr⟩

theorem stringChars_cancel {s t : String} {r r' : List Char}
    (h : stringChars s ++ r = stringChars t ++ r') : s = t ∧ r = r' := by
  simp only [stringChars, List.cons_append, List.append_assoc, List.cons.injEq, true_and] at h
  obtain ⟨hst, hr⟩ := escapes_cancel h
  exact ⟨String.toList_inj.1 hst, hr⟩

end Strings

/-! ## Lines between brackets -/

section Brackets

variable {α : Type} {f : α → List Char} {opening closing : Char} {level : Nat}

theorem intercalate_cons (sep p : List Char) (ps : List (List Char)) :
    List.intercalate sep (p :: ps) = p ++ ps.flatMap (sep ++ ·) := by
  induction ps generalizing p with
  | nil => simp
  | cons q ps ih =>
    rw [List.intercalate_cons_cons, ih, List.flatMap_cons, List.append_assoc, List.append_assoc]

theorem stops_newLine (level : Nat) (s : List Char) : Stops Char.isDigit (newLine level ++ s) :=
  stops_cons.2 rfl

/-- What comes behind the first part between brackets. -/
def moreLines (f : α → List Char) (level : Nat) (as : List α) (rest : List Char) : List Char :=
  (as.map f).flatMap (',' :: newLine (level + 1) ++ ·) ++ (newLine level ++ rest)

theorem moreLines_cons (a : α) (as : List α) (rest : List Char) :
    moreLines f level (a :: as) rest =
      ',' :: (newLine (level + 1) ++ (f a ++ moreLines f level as rest)) := by
  simp [moreLines]

theorem stops_moreLines (as : List α) (rest : List Char) :
    Stops Char.isDigit (moreLines f level as rest) := by
  cases as with
  | nil => exact stops_newLine level rest
  | cons a as =>
    rw [moreLines_cons]
    exact stops_cons.2 rfl

theorem bracketed_nil (rest : List Char) :
    bracketed opening [] closing level ++ rest = opening :: closing :: rest :=
  rfl

theorem bracketed_cons (a : α) (as : List α) (rest : List Char) :
    bracketed opening ((a :: as).map f) closing level ++ rest =
      opening :: (newLine (level + 1) ++ (f a ++ moreLines f level as (closing :: rest))) := by
  simp [bracketed, moreLines, intercalate_cons]

/-- Lines between brackets agree one by one: another line begins with a comma, and the end with a
line break. -/
theorem lines_cancel : ∀ {a b : α} {as bs : List α} {r r' : List Char},
    (∀ x ∈ a :: as, ∀ y ∈ b :: bs, ToldApart f x y) →
    f a ++ moreLines f level as r = f b ++ moreLines f level bs r' → a :: as = b :: bs ∧ r = r'
  | a, b, as, bs, r, r', hf, h => by
    obtain ⟨rfl, hmore⟩ := hf a List.mem_cons_self b List.mem_cons_self (stops_moreLines as r)
      (stops_moreLines bs r') h
    match as, bs with
    | [], [] => exact ⟨rfl, List.append_cancel_left (List.append_cancel_left hmore)⟩
    | [], y :: bs =>
      rw [moreLines_cons] at hmore
      cases hmore
    | x :: as, [] =>
      rw [moreLines_cons] at hmore
      cases hmore
    | x :: as, y :: bs =>
      rw [moreLines_cons, moreLines_cons, List.cons.injEq] at hmore
      obtain ⟨hxy, hr⟩ := lines_cancel
        (fun x hx y hy => hf x (List.mem_cons_of_mem _ hx) y (List.mem_cons_of_mem _ hy))
        (List.append_cancel_left hmore.2)
      exact ⟨by rw [hxy], hr⟩

theorem bracketed_toldApart {as bs : List α} (hf : ∀ a ∈ as, ∀ b ∈ bs, ToldApart f a b)
    (hc : closing ≠ '\n') :
    ToldApart (fun as => bracketed opening (as.map f) closing level) as bs := by
  intro r r' _ _ h
  cases as with
  | nil =>
    cases bs with
    | nil =>
      simp only [List.map_nil, bracketed_nil, List.cons.injEq, true_and] at h
      exact ⟨rfl, h⟩
    | cons b bs =>
      simp only [List.map_nil, bracketed_nil, bracketed_cons, List.cons.injEq, true_and] at h
      exact absurd (List.cons.inj h).1 hc
  | cons a as =>
    cases bs with
    | nil =>
      simp only [List.map_nil, bracketed_nil, bracketed_cons, List.cons.injEq, true_and] at h
      exact absurd (List.cons.inj h).1.symm hc
    | cons b bs =>
      simp only [bracketed_cons, List.cons.injEq, true_and] at h
      obtain ⟨habs, hr⟩ := lines_cancel hf (List.append_cancel_left h)
      exact ⟨habs, (List.cons.inj hr).2⟩

end Brackets

/-! ## Documents -/

/-- No number in the document has a fraction or an exponent. -/
inductive Integral : Json → Prop
  | null : Integral .null
  | bool (b : Bool) : Integral (.bool b)
  | int (n : Int) : Integral (.int n)
  | str (s : String) : Integral (.str s)
  | arr {js : List Json} : (∀ j ∈ js, Integral j) → Integral (.arr js)
  | obj {ms : List (String × Json)} : (∀ m ∈ ms, Integral m.2) → Integral (.obj ms)

/-- What shows of a document in its first character. -/
inductive Form where
  | null
  | bool
  | number
  | str
  | arr
  | obj
deriving DecidableEq

/-- The form of a document. The two words for truth values are one form, and so are all numbers. -/
def form : Json → Form
  | .null => .null
  | .bool _ => .bool
  | .int _ | .fraction _ => .number
  | .str _ => .str
  | .arr _ => .arr
  | .obj _ => .obj

/-- The form of an integral document that starts with `c`. -/
def formOf : Char → Form
  | 'n' => .null
  | 't' | 'f' => .bool
  | '"' => .str
  | '[' => .arr
  | '\x7b' => .obj
  | _ => .number

section Documents

variable {j j' : Json} {level : Nat}

theorem formOf_of_isDigit {c : Char} (hc : c.isDigit) : formOf c = .number := by
  unfold formOf
  split
  case h_7 => rfl
  all_goals cases hc

theorem signed_form (n : Int) : ∃ c s, Numeral.signed n = c :: s ∧ formOf c = .number := by
  unfold Numeral.signed
  split_ifs
  · exact ⟨_, _, rfl, rfl⟩
  · obtain ⟨c, s, hs, hc⟩ := Numeral.decimal_head n.natAbs
    exact ⟨c, s, hs, formOf_of_isDigit hc⟩

theorem bracketed_form (opening : Char) (parts : List (List Char)) (closing : Char) (level : Nat) :
    ∃ s, bracketed opening parts closing level = opening :: s := by
  cases parts with
  | nil => exact ⟨_, rfl⟩
  | cons p ps => exact ⟨_, rfl⟩

/-- The first character of a document shows its form. -/
theorem pretty_form (hj : j.Integral) (level : Nat) :
    ∃ c s, j.prettyChars level = c :: s ∧ formOf c = j.form := by
  cases hj with
  | null => exact ⟨'n', _, rfl, rfl⟩
  | bool b =>
    cases b with
    | false => exact ⟨'f', _, rfl, rfl⟩
    | true => exact ⟨'t', _, rfl, rfl⟩
  | int n => exact signed_form n
  | str s => exact ⟨'"', _, rfl, rfl⟩
  | @arr js _ =>
    obtain ⟨s, hs⟩ := bracketed_form '[' (prettyItems (level + 1) js) ']' level
    exact ⟨'[', s, hs, rfl⟩
  | @obj ms _ =>
    obtain ⟨s, hs⟩ := bracketed_form '\x7b' (prettyMembers (level + 1) ms) '\x7d' level
    exact ⟨'\x7b', s, hs, rfl⟩

theorem form_eq {r r' : List Char} (hj : j.Integral) (hj' : j'.Integral)
    (h : j.prettyChars level ++ r = j'.prettyChars level ++ r') : j.form = j'.form := by
  obtain ⟨c, s, hs, hc⟩ := pretty_form hj level
  obtain ⟨c', s', hs', hc'⟩ := pretty_form hj' level
  rw [hs, hs', List.cons_append, List.cons_append, List.cons.injEq] at h
  rw [← hc, ← hc', h.1]

theorem prettyItems_eq (level : Nat) : ∀ js : List Json,
    prettyItems level js = js.map (prettyChars level)
  | [] => rfl
  | j :: js => by rw [prettyItems, prettyItems_eq level js, List.map_cons]

/-- A member on the line that it starts. -/
def memberChars (level : Nat) (m : String × Json) : List Char :=
  stringChars m.1 ++ ':' :: ' ' :: m.2.prettyChars level

theorem prettyMembers_eq (level : Nat) : ∀ ms : List (String × Json),
    prettyMembers level ms = ms.map (memberChars level)
  | [] => rfl
  | m :: ms => by rw [prettyMembers, prettyMembers_eq level ms, List.map_cons, memberChars]

theorem member_toldApart {m m' : String × Json}
    (h : ToldApart (prettyChars level) m.2 m'.2) : ToldApart (memberChars level) m m' := by
  intro r r' hr hr' heq
  simp only [memberChars, List.append_assoc, List.cons_append] at heq
  obtain ⟨hk, hj⟩ := stringChars_cancel heq
  simp only [List.cons.injEq, true_and] at hj
  obtain ⟨hj, hrest⟩ := h hr hr' hj
  exact ⟨Prod.ext hk hj, hrest⟩

/-- Documents of integers are told apart by their text at any level. The induction is on the first
document; the form of the second is the same by its first character. -/
theorem pretty_toldApart (hj : j.Integral) (hj' : j'.Integral) :
    ToldApart (prettyChars level) j j' := by
  induction hj generalizing j' level with
  -- Of the second document only the form is known at first; it rules out all cases but one.
  | null =>
    intro r r' _ _ h
    have hform := form_eq .null hj' h
    cases hj' with
    | null => exact ⟨rfl, List.append_cancel_left h⟩
    | _ => cases hform
  | bool b =>
    intro r r' _ _ h
    have hform := form_eq (.bool b) hj' h
    cases hj' with
    | bool b' =>
      have hb : b = b' := by
        cases b <;> cases b'
        · rfl
        · exact absurd (List.cons.inj h).1 (by decide)
        · exact absurd (List.cons.inj h).1 (by decide)
        · rfl
      subst hb
      exact ⟨rfl, List.append_cancel_left h⟩
    | _ => cases hform
  | int n =>
    intro r r' hr hr' h
    have hform := form_eq (.int n) hj' h
    cases hj' with
    | int m =>
      obtain ⟨rfl, hrest⟩ := Numeral.signed_toldApart n m hr hr' h
      exact ⟨rfl, hrest⟩
    | _ => cases hform
  | str s =>
    intro r r' _ _ h
    have hform := form_eq (.str s) hj' h
    cases hj' with
    | str s' =>
      obtain ⟨rfl, hrest⟩ := stringChars_cancel h
      exact ⟨rfl, hrest⟩
    | _ => cases hform
  | @arr js hjs ih =>
    intro r r' hr hr' h
    have hform := form_eq (.arr hjs) hj' h
    cases hj' with
    | @arr js' hjs' =>
      simp only [prettyChars, prettyItems_eq] at h
      obtain ⟨rfl, hrest⟩ := bracketed_toldApart (fun j hj j' hj' => ih j hj (hjs' j' hj'))
        (by decide) hr hr' h
      exact ⟨rfl, hrest⟩
    | _ => cases hform
  | @obj ms hms ih =>
    intro r r' hr hr' h
    have hform := form_eq (.obj hms) hj' h
    cases hj' with
    | @obj ms' hms' =>
      simp only [prettyChars, prettyMembers_eq] at h
      obtain ⟨rfl, hrest⟩ := bracketed_toldApart
        (fun m hm m' hm' => member_toldApart (ih m hm (hms' m' hm'))) (by decide) hr hr' h
      exact ⟨rfl, hrest⟩
    | _ => cases hform

/-- Two documents of integers have the same text only if they are the same. -/
theorem pretty_inj (hj : j.Integral) (hj' : j'.Integral) : j.pretty = j'.pretty ↔ j = j' := by
  refine ⟨fun h => ?_, congrArg pretty⟩
  rw [pretty, pretty, String.ofList_inj] at h
  have h' : j.prettyChars 0 ++ [] = j'.prettyChars 0 ++ [] := by
    rw [List.append_nil, List.append_nil, h]
  exact (pretty_toldApart hj hj' stops_nil stops_nil h').1

example : (fraction "1").pretty = (int 1).pretty := by rfl

end Documents

end Json

end Pipeline
