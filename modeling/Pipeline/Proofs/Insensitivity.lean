import Pipeline.Proofs.Split

/-!
# Blanks between tokens do not matter

Two texts that can be read give the same tree exactly if they differ in nothing but blanks outside
strings (`unspaced`). A text that can be read also stays readable when the blanks between its tokens
are changed, as the tree depends on the tokens alone.
-/

namespace Pipeline

namespace Token

mutual

/-- What is left of a text without its blanks, those in strings aside. -/
def unspaced : List Char → List Char
  | [] => []
  | '"' :: cs => '"' :: unspacedQuoted cs
  | c :: cs => if isBlank c then unspaced cs else c :: unspaced cs

/-- The same behind an opening quote. -/
def unspacedQuoted : List Char → List Char
  | [] => []
  | '"' :: cs => '"' :: unspaced cs
  | '\\' :: c :: cs => '\\' :: c :: unspacedQuoted cs
  | c :: cs => c :: unspacedQuoted cs

end

theorem flatMap_chars_glue (c : Char) (cs : List Char) (ts : List Token) :
    (glue c cs ts).flatMap chars = c :: ts.flatMap chars := by
  unfold glue
  split <;> rfl

theorem unspaced_blank {c : Char} {cs : List Char} (hb : isBlank c) :
    unspaced (c :: cs) = unspaced cs := by
  have hq : c ≠ '"' := by
    rintro rfl
    cases hb
  simp [unspaced, hb]

theorem unspaced_cons {c : Char} {cs : List Char} (hb : isBlank c = false) (hq : c ≠ '"') :
    unspaced (c :: cs) = c :: unspaced cs := by
  simp [unspaced, hb]

/-- What is left are the characters of the tokens. -/
theorem unspaced_eq_both : (∀ s, unspaced s = (split s).flatMap chars) ∧
    ∀ s, unspacedQuoted s = (splitQuoted s).1 ++ (splitQuoted s).2.flatMap chars := by
  apply split_induction
  case empty => rfl
  case arrow =>
    intro cs ih
    rw [split, List.flatMap_cons, ← ih]
    rfl
  case quote =>
    intro cs ih
    rw [split_quote, List.flatMap_cons, unspaced, ih]
    rfl
  case blank =>
    intro c cs hb ih
    rw [split_blank hb, ← ih]
    exact unspaced_blank hb
  case wordPart =>
    intro c cs hb hw ih
    have hq : c ≠ '"' := by
      rintro rfl
      cases hw
    rw [split_wordPart hw, flatMap_chars_glue, ← ih]
    exact unspaced_cons hb hq
  case mark =>
    intro c cs hb hw hq ha ih
    rw [split_mark hb hw hq ha, List.flatMap_cons, ← ih]
    exact unspaced_cons hb hq
  case unclosed => rfl
  case unescaped => rfl
  case closed =>
    intro cs ih
    rw [unspacedQuoted, ih]
    rfl
  case escape =>
    intro c cs ih
    rw [splitQuoted_escape, unspacedQuoted, ih]
    rfl
  case plain =>
    intro c cs hq hc ih
    rw [splitQuoted_plain hq hc, List.cons_append, ← ih]
    simp [unspacedQuoted, hc]

theorem laidOut_flatMap_chars : ∀ ts : List Token, LaidOut (ts.flatMap chars) ts
  | [] => ⟨[], .nil, .refl []⟩
  | _ :: ts => .cons (laidOut_flatMap_chars ts)

end Token

open Token

namespace Entry

/-- Between the tokens of a text that can be read any blanks will do, and nothing else of the text
can be changed without changing its tree. -/
theorem parse_eq_of_blanks {e : Entry} {text : String} {t : e.Tree} (h : e.parse text = .ok t) :
    (∀ other : String, LaidOut other.toList (split text.toList) → e.parse other = .ok t) ∧
    ∀ other u, e.parse other = .ok u → (t = u ↔ unspaced text.toList = unspaced other.toList) := by
  obtain ⟨ht, hs⟩ := parse_eq_ok_iff_split.1 h
  refine ⟨fun other ho => ?_, fun other u hu => ?_⟩
  · rw [hs] at ho
    exact parse_eq_ok.2 (spells_of_laidOut ht ho)
  · obtain ⟨hu, hs'⟩ := parse_eq_ok_iff_split.1 hu
    rw [unspaced_eq_both.1, unspaced_eq_both.1, hs, hs']
    refine ⟨fun h => by rw [h], fun h => ?_⟩
    have hf := spells_of_laidOut hu (laidOut_flatMap_chars (e.tokens u))
    rw [← h] at hf
    exact (spells_of_laidOut ht (laidOut_flatMap_chars (e.tokens t))).unique hf

theorem parse_eq_of_blanks_fanOut :
    sink.parse "[a,f(\" \")]" = .ok (.fanOut [.name "a",
      .call ⟨"f", [.positional (.literal (.string "\" \""))]⟩]) ∧
    sink.parse "[ a\t, f (\" \") ]\r\n" = sink.parse "[a,f(\" \")]" ∧
    unspaced "[ a\t, f (\" \") ]\r\n".toList = unspaced "[a,f(\" \")]".toList := by
  have h : sink.parse "[a,f(\" \")]" = .ok (.fanOut [.name "a",
      .call ⟨"f", [.positional (.literal (.string "\" \""))]⟩]) := by rfl
  have ho : LaidOut "[ a\t, f (\" \") ]\r\n".toList (split "[a,f(\" \")]".toList) :=
    laidOut_split "[ a\t, f (\" \") ]\r\n".toList
  have h' := (parse_eq_of_blanks h).1 _ ho
  refine ⟨h, ?_, ?_⟩
  · rw [h, h']
  · exact (((parse_eq_of_blanks h).2 _ _ h').1 rfl).symm

end Entry

end Pipeline
