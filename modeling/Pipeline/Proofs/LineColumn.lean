import Mathlib.Data.List.DropRight
import Mathlib.Data.Prod.Lex
import Pipeline.Proofs.ErrorPosition

/-!
# Lines and columns

A position counts what is before it: the line ends, and the characters behind the last of them
(`after_line`, `after_column`). Each further character moves it on, in the order of lines first and
columns then, so that line and column together say which place in the text is meant
(`place_lt_place`). The position of an error is that of a place between two characters
(`parse_error_place`).
-/

namespace Pipeline

namespace Position

/-- The position of a place in a text. -/
def ofPos {text : String} (p : text.Pos) : Position :=
  .after (text.sliceTo p).copy.toList

/-- A place as a reader is told of it. -/
def place (p : Position) : ℕ ×ₗ ℕ :=
  toLex (p.line, p.column)

/-! ## Counting -/

section Counting

variable {s : List Char}

theorem after_append (s t : List Char) : after (s ++ t) = t.foldl advance (after s) :=
  List.foldl_append

theorem after_append_singleton (s : List Char) (c : Char) :
    after (s ++ [c]) = (after s).advance c :=
  after_append s [c]

theorem after_line (s : List Char) : (after s).line = s.count '\n' + 1 := by
  induction s using List.reverseRecOn with
  | nil => rfl
  | append_singleton s c ih =>
    rw [after_append_singleton, advance, List.count_append]
    split_ifs with hc
    · subst hc
      simp [ih]
    · simp [ih, hc]

/-- The column counts the characters behind the last line break. -/
theorem after_column (s : List Char) :
    (after s).column = (s.rtakeWhile (· ≠ '\n')).length + 1 := by
  induction s using List.reverseRecOn with
  | nil => rfl
  | append_singleton s c ih =>
    rw [after_append_singleton, advance, List.rtakeWhile_concat]
    split_ifs with hc hc' hc'
    · simp [hc] at hc'
    · rfl
    · simp [ih]
    · simp [hc] at hc'

end Counting

/-! ## Order -/

section Order

/-- A line break goes to a later line, any other character to a later column. -/
theorem place_lt_advance (p : Position) (c : Char) : p.place < (p.advance c).place := by
  unfold place advance
  rw [Prod.Lex.toLex_lt_toLex]
  split_ifs
  · exact .inl (Nat.lt_succ_self _)
  · exact .inr ⟨rfl, Nat.lt_succ_self _⟩

theorem place_lt_foldl (p : Position) (c : Char) (s : List Char) :
    p.place < ((c :: s).foldl advance p).place := by
  induction s generalizing p c with
  | nil => exact place_lt_advance p c
  | cons d s ih => exact (place_lt_advance p c).trans (ih (p.advance c) d)

theorem place_after_lt {p q : List Char} (h : p <+: q) (hne : p ≠ q) :
    (after p).place < (after q).place := by
  obtain ⟨s, rfl⟩ := h
  rcases s with _ | ⟨c, s⟩
  · exact absurd (List.append_nil p).symm hne
  · rw [after_append]
    exact place_lt_foldl _ c s

/-- A place that comes before another one in a text has less text before it. -/
theorem sliceTo_prefix_of_lt {text : String} {p q : text.Pos} (h : p < q) :
    (text.sliceTo p).copy.toList <+: (text.sliceTo q).copy.toList ∧
      (text.sliceTo p).copy.toList ≠ (text.sliceTo q).copy.toList := by
  have hp := p.splits
  have hq := q.splits
  have hlt : (text.sliceTo p).copy.utf8ByteSize < (text.sliceTo q).copy.utf8ByteSize := by
    have h := String.Pos.lt_iff.1 h
    rwa [hp.offset_eq_rawEndPos, hq.offset_eq_rawEndPos] at h
  refine ⟨?_, fun heq => ?_⟩
  · have hp' := congrArg String.toList hp.eq_append
    have hq' := congrArg String.toList hq.eq_append
    rw [String.toList_append] at hp' hq'
    rcases List.prefix_or_prefix_of_prefix ⟨_, hp'.symm⟩ ⟨_, hq'.symm⟩ with h | h
    · exact h
    · have hle := utf8ByteSize_le_of_prefix h
      rw [String.ofList_toList, String.ofList_toList] at hle
      omega
  · rw [String.toList_injective heq] at hlt
    exact Nat.lt_irrefl _ hlt

theorem place_lt_place {text : String} {p q : text.Pos} (h : p < q) :
    (ofPos p).place < (ofPos q).place :=
  place_after_lt (sliceTo_prefix_of_lt h).1 (sliceTo_prefix_of_lt h).2

/-- Line and column fix the place in the text. -/
theorem eq_of_place_eq {text : String} {p q : text.Pos}
    (h : (ofPos p).place = (ofPos q).place) : p = q := by
  rcases Nat.lt_trichotomy p.offset.byteIdx q.offset.byteIdx with hlt | heq | hlt
  · exact absurd h (place_lt_place hlt).ne
  · exact String.Pos.ext (String.Pos.Raw.ext heq)
  · exact absurd h.symm (place_lt_place hlt).ne

end Order

end Position

/-! ## Errors -/

namespace Entry

variable {e : Entry} {text : String} {err : SyntaxError}

theorem exists_pos_of_error (h : e.parse text = .error err) :
    ∃ p : text.Pos, err.position = .ofPos p := by
  obtain ⟨p, rest, ht, hp, -⟩ := parse_error_prefix h
  have ht : text = String.ofList p ++ String.ofList rest := by
    rw [← String.ofList_append, ← ht, String.ofList_toList]
  have hvalid := String.Pos.Raw.isValid_iff_exists_append.2 ⟨_, _, ht, rfl⟩
  let q : text.Pos := ⟨_, hvalid⟩
  have hq : q.Splits (String.ofList p) (String.ofList rest) := ⟨ht, rfl⟩
  refine ⟨q, ?_⟩
  rw [hp, Position.ofPos, q.splits.eq_left hq, String.toList_ofList]

/-- An error is reported between two characters, at a line and a column that no other place of the
text has. -/
theorem parse_error_place (h : e.parse text = .error err) :
    (∃ p : text.Pos, p.offset.byteIdx = err.position.offset ∧
      err.position.offset ≤ text.utf8ByteSize ∧
      err.position.line = (text.sliceTo p).copy.toList.count '\n' + 1 ∧
      err.position.column = ((text.sliceTo p).copy.toList.rtakeWhile (· ≠ '\n')).length + 1 ∧
      err.position = .ofPos p ∧
      ∀ q : text.Pos, (Position.ofPos q).place = err.position.place → q = p) ∧
    ∀ (t : String) (p q : t.Pos), p < q → (Position.ofPos p).place < (Position.ofPos q).place := by
  refine ⟨?_, fun _ _ _ => Position.place_lt_place⟩
  obtain ⟨p, hp⟩ := exists_pos_of_error h
  have hoffset : err.position.offset = p.offset.byteIdx := by
    rw [hp, Position.ofPos, after_offset, String.ofList_toList, p.splits.offset_eq_rawEndPos]
    rfl
  refine ⟨p, hoffset.symm, ?_, ?_, ?_, hp, fun q hq => ?_⟩
  · rw [hoffset]
    exact p.isValid.le_rawEndPos
  · rw [hp, Position.ofPos, Position.after_line]
  · rw [hp, Position.ofPos, Position.after_column]
  · rw [hp] at hq
    exact Position.eq_of_place_eq hq

/-- A character of two bytes is one column, and the line end before it one line. -/
theorem parse_error_place_accent :
    sink.parse "f(\"\n\té\") {a} b" = .error ⟨.sink, .trailing, ⟨14, 2, 10⟩⟩ ∧
    ∃ p : String.Pos "f(\"\n\té\") {a} b", p.offset.byteIdx = 14 ∧
      ∀ q : String.Pos "f(\"\n\té\") {a} b", (Position.ofPos q).place = toLex (2, 10) → q = p := by
  have h : sink.parse "f(\"\n\té\") {a} b" = .error ⟨.sink, .trailing, ⟨14, 2, 10⟩⟩ := by rfl
  obtain ⟨⟨p, ho, -, -, -, -, hp⟩, -⟩ := parse_error_place h
  exact ⟨h, p, ho, hp⟩

end Entry

end Pipeline
