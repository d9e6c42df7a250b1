import Pipeline.Proofs.Split

/-!
# The tokens of a beginning

If a text goes on, its tokens so far stay what they are, apart from the last: a word may get longer,
and an equals sign may turn into an arrow (`begins_split`).
-/

namespace Pipeline

namespace Token

/-- `Begins ts us` where a text with the tokens `ts` may go on to be one with the tokens `us`. -/
inductive Begins : List Token → List Token → Prop
  | nil {us : List Token} : Begins [] us
  | cons {t : Token} {ts us : List Token} : Begins ts us → Begins (t :: ts) (t :: us)
  | word {c : Char} {w w' : List Char} {us : List Token} : w <+: w' →
    Begins [word (c :: w)] (word (c :: w') :: us)
  | arrow {us : List Token} : Begins [mark '='] (arrow :: us)

variable {c : Char} {s x : List Char} {ts us : List Token}

/-- A text that starts with a part of a word has a word for its first token. -/
theorem exists_word_of_glue (c : Char) (s : List Char) (ts : List Token) :
    ∃ w ts', glue c s ts = word (c :: w) :: ts' := by
  unfold glue
  split
  · exact ⟨_, _, rfl⟩
  · exact ⟨_, _, rfl⟩

theorem Begins.glue (h : Begins (split s) (split (s ++ x))) :
    Begins (glue c s (split s)) (glue c (s ++ x) (split (s ++ x))) := by
  rcases s with _ | ⟨d, s⟩
  · obtain ⟨w, us, hw⟩ := exists_word_of_glue c x (split x)
    rw [List.nil_append, hw]
    exact .word (List.nil_prefix)
  · by_cases hd : isWordPart d
    · obtain ⟨w, ts, hw⟩ := exists_word_of_glue d s (split s)
      obtain ⟨w', us, hw'⟩ := exists_word_of_glue d (s ++ x) (split (s ++ x))
      rw [List.cons_append, split_wordPart hd, split_wordPart hd, hw, hw'] at h
      rw [List.cons_append, split_wordPart hd, split_wordPart hd, hw, hw', glue_word hd,
        glue_word hd]
      cases h with
      | cons h => exact .cons h
      | word h => exact .word (List.cons_prefix_cons.2 ⟨rfl, h⟩)
    · have hs : Stops isWordPart (d :: s) := stops_cons.2 (by simpa using hd)
      have hs' : Stops isWordPart (d :: s ++ x) := stops_cons.2 (by simpa using hd)
      rw [glue_of_stops hs, glue_of_stops hs']
      exact .cons h

theorem Begins.mark (hb : isBlank c = false) (hw : isWordPart c = false) (hq : c ≠ '"')
    (ha : c = '=' → s.head? ≠ some '>') (h : Begins (split s) (split (s ++ x))) :
    Begins (split (c :: s)) (split (c :: (s ++ x))) := by
  rw [split_mark hb hw hq ha]
  by_cases harrow : c = '=' ∧ (s ++ x).head? = some '>'
  · obtain ⟨rfl, hx⟩ := harrow
    rcases s with _ | ⟨d, s⟩
    · obtain ⟨x, rfl⟩ := List.head?_eq_some_iff.1 hx
      exact .arrow
    · exact absurd hx (ha rfl)
  · rw [split_mark hb hw hq fun hc hx => harrow ⟨hc, hx⟩]
    exact .cons h

/-- Within a string, either it has been closed, or all so far is part of it. -/
theorem begins_split_both : (∀ s x, Begins (split s) (split (s ++ x))) ∧
    ∀ s x, ((splitQuoted s).1 = (splitQuoted (s ++ x)).1 ∧
        Begins (splitQuoted s).2 (splitQuoted (s ++ x)).2) ∨
      ((splitQuoted s).1 <+: (splitQuoted (s ++ x)).1 ∧ (splitQuoted s).2 = []) := by
  apply split_induction
  case empty => exact fun x => .nil
  case arrow =>
    intro cs ih x
    exact (ih x).cons
  case quote =>
    intro cs ih x
    rw [List.cons_append, split_quote, split_quote]
    rcases ih x with ⟨h, h'⟩ | ⟨h, h'⟩
    · rw [h]
      exact .cons h'
    · rw [h']
      exact .word h
  case blank =>
    intro c cs hb ih x
    rw [List.cons_append, split_blank hb, split_blank hb]
    exact ih x
  case wordPart =>
    intro c cs _ hw ih x
    rw [List.cons_append, split_wordPart hw, split_wordPart hw]
    exact (ih x).glue
  case mark =>
    intro c cs hb hw hq ha ih x
    exact (ih x).mark hb hw hq ha
  case unclosed => exact fun x => .inr ⟨List.nil_prefix, rfl⟩
  case unescaped =>
    rintro (_ | ⟨c, x⟩)
    · exact .inr ⟨List.prefix_rfl, rfl⟩
    · refine .inr ⟨?_, rfl⟩
      simp [splitQuoted]
  case closed =>
    intro cs ih x
    exact .inl ⟨rfl, ih x⟩
  case escape =>
    intro c cs ih x
    rw [List.cons_append, List.cons_append, splitQuoted_escape, splitQuoted_escape]
    rcases ih x with ⟨h, h'⟩ | ⟨h, h'⟩
    · exact .inl ⟨congrArg (fun cs => '\\' :: c :: cs) h, h'⟩
    · exact .inr ⟨by simpa using h, h'⟩
  case plain =>
    intro c cs hq hc ih x
    rw [List.cons_append, splitQuoted_plain hq hc, splitQuoted_plain hq hc]
    rcases ih x with ⟨h, h'⟩ | ⟨h, h'⟩
    · exact .inl ⟨congrArg (c :: ·) h, h'⟩
    · exact .inr ⟨List.cons_prefix_cons.2 ⟨rfl, h⟩, h'⟩

theorem begins_split (s x : List Char) : Begins (split s) (split (s ++ x)) :=
  begins_split_both.1 s x

end Token

end Pipeline
