import Pipeline.Grammar
import Pipeline.Proofs.Progress

/-!
# Names and literals are read as the grammar has them

The rules for names and for literals succeed with what the grammar spells at the front of a text
and with nothing else (`name_eq_ok`, `literal_sound`, `literal_complete`). As they read on for as
long as the characters can, what follows must not go on with a character of a word (`Stops`).
-/

namespace Pipeline

/-! ## Blanks -/

section Blanks

variable {s t rest : List Char}

theorem Blanks.refl (s : List Char) : Blanks s s :=
  ⟨[], rfl, rfl⟩

theorem Blanks.trans (h : Blanks s t) (h' : Blanks t rest) : Blanks s rest := by
  obtain ⟨b, hb, rfl⟩ := h
  obtain ⟨b', hb', rfl⟩ := h'
  exact ⟨b ++ b', by simp [hb, hb'], by simp⟩

/-- Either there are none or the text starts with one. -/
theorem Blanks.eq_or (h : Blanks s rest) : s = rest ∨ ∃ c cs, s = c :: cs ∧ isBlank c := by
  obtain ⟨b, hb, rfl⟩ := h
  rcases b with _ | ⟨c, b⟩
  · exact .inl rfl
  · simp only [List.all_cons, Bool.and_eq_true] at hb
    exact .inr ⟨c, b ++ rest, rfl, hb.1⟩

theorem blanks_dropWhile (s : List Char) : Blanks s (s.dropWhile isBlank) :=
  ⟨s.takeWhile isBlank, List.all_takeWhile, List.takeWhile_append_dropWhile.symm⟩

theorem blanks_of_dropWhile (h : s.dropWhile isBlank = rest) : Blanks s rest := by
  rw [← h]
  exact blanks_dropWhile s

theorem Blanks.dropWhile_eq (h : Blanks s rest) (hr : Stops isBlank rest) :
    s.dropWhile isBlank = rest := by
  obtain ⟨b, hb, rfl⟩ := h
  exact dropWhile_run hb hr

end Blanks

/-- The characters that a literal may start with. -/
def isLiteralStart (c : Char) : Bool :=
  c.isDigit || c = '.' || c = '"'

theorem Literal.At.exists_start {s rest : List Char} {l : Literal} (h : Literal.At s l rest) :
    ∃ c cs, s = c :: cs ∧ isLiteralStart c := by
  cases h with
  | @decimal ds rest hne hds _ =>
    obtain ⟨c, cs, rfl⟩ := List.exists_cons_of_ne_nil hne
    simp only [List.all_cons, Bool.and_eq_true] at hds
    exact ⟨c, cs ++ rest, rfl, by simp [isLiteralStart, hds.1]⟩
  | hex => exact ⟨'0', _, rfl, rfl⟩
  | @double ds ds' rest hds _ _ =>
    rcases ds with _ | ⟨c, cs⟩
    · exact ⟨'.', _, rfl, rfl⟩
    · simp only [List.all_cons, Bool.and_eq_true] at hds
      exact ⟨c, _, rfl, by simp [isLiteralStart, hds.1]⟩
  | string => exact ⟨'"', _, rfl, rfl⟩

namespace Rule

/-! ## Names -/

section Names

variable {s rest : List Char} {n : String}

/-- A name is read to its end, so no part of a name follows. -/
theorem name_eq_ok : name s = .ok (n, rest) ↔ NameAt s n rest ∧ Stops isNamePart rest := by
  simp only [name, noting_eq_ok, bind_eq_ok, pure_eq_ok, ahead_eq_ok, chars_eq_ok]
  refine ⟨fun h => ?_, fun h => ?_⟩
  · obtain ⟨-, -, ⟨rfl, c, cs, rfl, hc⟩, t, _, ⟨rfl, rfl⟩, rfl, rfl⟩ := h
    have hp := isNamePart_of_isNameStart hc
    rw [List.takeWhile_cons_of_pos hp, List.dropWhile_cons_of_pos hp]
    refine ⟨?_, stops_dropWhile _ _⟩
    have hn : NameAt (c :: (cs.takeWhile isNamePart ++ cs.dropWhile isNamePart))
        (String.ofList (c :: cs.takeWhile isNamePart)) (cs.dropWhile isNamePart) :=
      .mk hc (all_run rfl)
    rwa [List.takeWhile_append_dropWhile] at hn
  · obtain ⟨⟨hc, hcs⟩, hr⟩ := h
    rename_i c cs
    have ht : (c :: cs).all isNamePart := by
      simp only [List.all_cons, isNamePart_of_isNameStart hc, Bool.true_and]
      exact hcs
    refine ⟨(), _, ⟨rfl, c, _, rfl, hc⟩, c :: cs, rest, ⟨?_, ?_⟩, rfl, rfl⟩
    · exact takeWhile_run ht hr
    · exact dropWhile_run ht hr

theorem declines_name : name.Declines s ↔ Stops isNameStart s := by
  simp only [name, declines_noting, declines_bind, declines_ahead, not_declines_chars,
    not_declines_pure, and_false, exists_false, or_false]
  rfl

end Names

/-! ## Numbers -/

section Numbers

variable {s rest : List Char} {l : Literal}

theorem declines_hexMarker (h : ∀ x r, s = '0' :: x :: r → x ≠ 'x' ∧ x ≠ 'X') :
    hexMarker.Declines s := by
  have hf : hexMarker s = fail s := by
    unfold hexMarker
    split
    · exact absurd rfl (h 'x' _ rfl).1
    · exact absurd rfl (h 'X' _ rfl).2
    · rfl
  exact ⟨_, hf, rfl⟩

theorem hexLiteral_eq_ok : hexLiteral s = .ok (l, rest) ↔
    ∃ x ds s₁, (x = 'x' ∨ x = 'X') ∧ s = '0' :: x :: s₁ ∧ ds ≠ [] ∧ s₁.takeWhile isHexDigit = ds ∧
      s₁.dropWhile isHexDigit = rest ∧ Numeral.value 16 ds < 1 <<< 63 ∧
      l = .int (String.ofList ('0' :: x :: ds)) (Int64.ofNat (Numeral.value 16 ds)) := by
  simp only [hexLiteral, bind_eq_ok, hexMarker_eq_ok, commit_eq_ok, noting_eq_ok]
  refine ⟨fun h => ?_, fun h => ?_⟩
  · obtain ⟨m, s₁, ⟨x, hx, rfl, rfl⟩, ⟨ds, n⟩, s₂, h, h'⟩ := h
    obtain ⟨rfl, rfl⟩ := pure_eq_ok.1 h'
    obtain ⟨hne, ht, hd, hn, rfl⟩ := natural_eq_ok.1 h
    exact ⟨x, ds, s₁, hx, rfl, hne, ht, hd, hn, rfl⟩
  · obtain ⟨x, ds, s₁, hx, rfl, hne, ht, hd, hn, rfl⟩ := h
    exact ⟨_, s₁, ⟨x, hx, rfl, rfl⟩, (ds, _), rest, natural_eq_ok.2 ⟨hne, ht, hd, hn, rfl⟩, rfl⟩

theorem declines_hexLiteral : hexLiteral.Declines s ↔ hexMarker.Declines s := by
  simp only [hexLiteral, declines_bind, not_declines_commit, false_or]
  refine ⟨fun h => ?_, fun h => ?_⟩
  · rcases h with h | ⟨m, s₁, -, ⟨ds, n⟩, s₂, -, h⟩
    · exact h
    · exact absurd h not_declines_pure
  · exact .inl h

theorem decimalLiteral_eq_ok : decimalLiteral s = .ok (l, rest) ↔
    ∃ ds, ds ≠ [] ∧ s.takeWhile Char.isDigit = ds ∧ s.dropWhile Char.isDigit = rest ∧
      Numeral.value 10 ds < 1 <<< 63 ∧
      l = .int (String.ofList ds) (Int64.ofNat (Numeral.value 10 ds)) := by
  simp only [decimalLiteral, bind_eq_ok, ahead_eq_ok, commit_eq_ok, noting_eq_ok]
  refine ⟨fun h => ?_, fun h => ?_⟩
  · obtain ⟨-, _, ⟨rfl, -⟩, ⟨ds, n⟩, s₂, h, h'⟩ := h
    obtain ⟨rfl, rfl⟩ := pure_eq_ok.1 h'
    obtain ⟨hne, ht, hd, hn, rfl⟩ := natural_eq_ok.1 h
    exact ⟨ds, hne, ht, hd, hn, rfl⟩
  · obtain ⟨ds, hne, rfl, hd, hn, rfl⟩ := h
    refine ⟨(), s, ⟨rfl, ?_⟩, (_, _), rest, natural_eq_ok.2 ⟨hne, rfl, hd, hn, rfl⟩, rfl⟩
    rcases s with _ | ⟨c, cs⟩
    · exact absurd rfl hne
    · refine ⟨c, cs, rfl, ?_⟩
      by_contra hc
      exact hne (List.takeWhile_cons_of_neg hc)

theorem declines_decimalLiteral : decimalLiteral.Declines s ↔ Stops Char.isDigit s := by
  simp only [decimalLiteral, declines_bind, declines_ahead, not_declines_commit, false_or]
  refine ⟨fun h => ?_, fun h => ?_⟩
  · rcases h with h | ⟨-, -, -, ⟨ds, n⟩, s₂, -, h⟩
    · exact h
    · exact absurd h not_declines_pure
  · exact .inl h

theorem doubleLiteral_eq_ok : doubleLiteral s = .ok (l, rest) ↔
    ∃ ds ds' s₁, s.takeWhile Char.isDigit = ds ∧ s.dropWhile Char.isDigit = '.' :: s₁ ∧ ds' ≠ [] ∧
      s₁.takeWhile Char.isDigit = ds' ∧ s₁.dropWhile Char.isDigit = rest ∧
      l = .double (String.ofList (ds ++ '.' :: ds')) := by
  simp only [doubleLiteral, bind_eq_ok, chars_eq_ok, char_eq_ok, chars₁_eq_ok, pure_eq_ok]
  refine ⟨fun h => ?_, fun h => ?_⟩
  · obtain ⟨ds, -, ⟨ht, rfl⟩, -, s₁, hd, ds', _, ⟨hne, ht', hd'⟩, rfl, rfl⟩ := h
    exact ⟨ds, ds', s₁, ht, hd, hne, ht', hd', rfl⟩
  · obtain ⟨ds, ds', s₁, ht, hd, hne, ht', hd', rfl⟩ := h
    exact ⟨ds, _, ⟨ht, rfl⟩, (), s₁, hd, ds', rest, ⟨hne, ht', hd'⟩, rfl, rfl⟩

theorem declines_doubleLiteral (h : (s.dropWhile Char.isDigit).head? ≠ some '.') :
    doubleLiteral.Declines s := by
  refine declines_bind.2 (.inr ⟨_, _, chars_eq_ok.2 ⟨rfl, rfl⟩, ?_⟩)
  exact declines_bind.2 (.inl (declines_char.2 h))

end Numbers

/-! ## Strings -/

section Strings

variable {s rest b : List Char} {l : Literal}

/-- The body that is taken has no unescaped quote and no open escape. -/
theorem body_sound (h : Quoted.body s = (b, rest)) : s = b ++ rest ∧ StringBody b := by
  -- Cases: the end of the text, a backslash that ends it, a quote, an escape, any other character.
  fun_induction Quoted.body s generalizing b with
  | case1 =>
    cases h
    exact ⟨rfl, .nil⟩
  | case2 =>
    cases h
    exact ⟨rfl, .nil⟩
  | case3 cs =>
    cases h
    exact ⟨rfl, .nil⟩
  | case4 c cs b' rest' _ ih =>
    cases h
    obtain ⟨hs, hb⟩ := ih ‹_›
    exact ⟨by rw [hs]; rfl, .escape c hb⟩
  | case5 c cs h₁ h₂ h₃ b' rest' _ ih =>
    cases h
    obtain ⟨hs, hb⟩ := ih ‹_›
    refine ⟨by rw [hs]; rfl, .plain h₂ ?_ hb⟩
    rintro rfl
    rcases cs with _ | ⟨d, cs⟩
    · exact h₁ rfl rfl
    · exact h₃ d cs rfl rfl

/-- A body reaches up to where nothing more can be split off. -/
theorem body_append (h : StringBody b) (hr : Quoted.body rest = ([], rest)) :
    Quoted.body (b ++ rest) = (b, rest) := by
  induction h with
  | nil => exact hr
  | plain _ h₂ _ ih => simp [Quoted.body, h₂, ih]
  | escape c _ ih => simp [Quoted.body, ih]

theorem body_complete (h : StringBody b) (rest : List Char) :
    Quoted.body (b ++ '"' :: rest) = (b, '"' :: rest) :=
  body_append h (by simp [Quoted.body])

theorem stringLiteral_eq_ok : stringLiteral s = .ok (l, rest) ↔
    ∃ b, StringBody b ∧ s = '"' :: (b ++ '"' :: rest) ∧
      l = .string (String.ofList ('"' :: (b ++ ['"']))) := by
  simp only [stringLiteral, bind_eq_ok, char_eq_ok, commit_eq_ok, noting_eq_ok, pure_eq_ok]
  refine ⟨fun h => ?_, fun h => ?_⟩
  · obtain ⟨-, s₁, rfl, b, _, ⟨b', s₂, h, -, s₃, rfl, rfl, rfl⟩, rfl, rfl⟩ := h
    obtain ⟨rfl, hb⟩ := body_sound (Except.ok.inj h)
    exact ⟨b', hb, rfl, rfl⟩
  · obtain ⟨b, hb, rfl, rfl⟩ := h
    exact ⟨(), _, rfl, b, rest, ⟨b, _, congrArg Except.ok (body_complete hb rest), (), rest, rfl,
      rfl, rfl⟩, rfl, rfl⟩

theorem declines_stringLiteral (h : s.head? ≠ some '"') : stringLiteral.Declines s :=
  declines_bind.2 (.inl (declines_char.2 h))

end Strings

/-! ## Literals -/

section Literals

variable {s rest : List Char} {l : Literal}

theorem literal_sound (h : literal s = .ok (l, rest)) : Literal.At s l rest := by
  simp only [literal, noting_eq_ok, orElse_eq_ok] at h
  rcases h with h | ⟨-, h | ⟨-, h | ⟨-, h⟩⟩⟩
  · obtain ⟨x, ds, s₁, hx, rfl, hne, ht, hd, hn, rfl⟩ := hexLiteral_eq_ok.1 h
    rw [run_append ht hd]
    exact .hex hx hne (all_run ht) hn
  · obtain ⟨ds, ds', s₁, ht, hd, hne, ht', hd', rfl⟩ := doubleLiteral_eq_ok.1 h
    rw [run_append ht hd, run_append ht' hd']
    exact .double (all_run ht) hne (all_run ht')
  · obtain ⟨ds, hne, ht, hd, hn, rfl⟩ := decimalLiteral_eq_ok.1 h
    rw [run_append ht hd]
    exact .decimal hne (all_run ht) hn
  · obtain ⟨b, hb, rfl, rfl⟩ := stringLiteral_eq_ok.1 h
    exact .string hb

theorem declines_literal (h : Stops isLiteralStart s) : literal.Declines s := by
  have hd : Stops Char.isDigit s := h.mono fun c hc => by simp [isLiteralStart, hc]
  simp only [literal, declines_noting, declines_orElse]
  refine ⟨declines_hexLiteral.2 (declines_hexMarker ?_), declines_doubleLiteral ?_,
    declines_decimalLiteral.2 hd, declines_stringLiteral ?_⟩
  · rintro x r rfl
    simp [stops_cons, isLiteralStart] at h
  · rw [hd.dropWhile_eq]
    intro hs
    simpa [isLiteralStart] using h _ hs
  · intro hs
    simpa [isLiteralStart] using h _ hs

/-- Digits do not start with a hexadecimal marker if what follows does not complete one. -/
theorem declines_hexMarker_of_digits {ds : List Char} (hds : ds.all Char.isDigit)
    (h : ∀ c ∈ rest.head?, c ≠ '0' ∧ c ≠ 'x' ∧ c ≠ 'X') : hexMarker.Declines (ds ++ rest) := by
  refine declines_hexMarker fun x r hs => ?_
  rcases ds with _ | ⟨d, _ | ⟨d', ds⟩⟩
  · rw [List.nil_append] at hs
    exact absurd rfl (h '0' (by simp [hs])).1
  · simp only [List.cons_append, List.nil_append, List.cons.injEq] at hs
    exact (h x (by simp [hs.2])).2
  · simp only [List.cons_append, List.cons.injEq] at hs
    obtain ⟨rfl, rfl, rfl⟩ := hs
    simp only [List.all_cons, Bool.and_eq_true] at hds
    refine ⟨?_, ?_⟩
    · rintro rfl
      simp at hds
    · rintro rfl
      simp at hds

/-- A double ends where its digits do. -/
theorem literal_of_double {ds ds' : List Char} (hds : ds.all Char.isDigit) (hne : ds' ≠ [])
    (hds' : ds'.all Char.isDigit) (hr : Stops Char.isDigit rest) :
    literal (ds ++ '.' :: (ds' ++ rest)) =
      .ok (.double (String.ofList (ds ++ '.' :: ds')), rest) := by
  have hpoint : Stops Char.isDigit ('.' :: (ds' ++ rest)) := stops_cons.2 rfl
  simp only [literal, noting_eq_ok, orElse_eq_ok]
  refine .inr ⟨declines_hexLiteral.2 (declines_hexMarker_of_digits hds ?_),
    .inl (doubleLiteral_eq_ok.2 ⟨ds, ds', _, takeWhile_run hds hpoint, dropWhile_run hds hpoint,
      hne, takeWhile_run hds' hr, dropWhile_run hds' hr, rfl⟩)⟩
  simp

/-- A string ends at its closing quote, whatever follows. -/
theorem literal_of_string {b : List Char} (hb : StringBody b) (rest : List Char) :
    literal ('"' :: (b ++ '"' :: rest)) =
      .ok (.string (String.ofList ('"' :: (b ++ ['"']))), rest) := by
  simp only [literal, noting_eq_ok, orElse_eq_ok]
  refine .inr ⟨declines_hexLiteral.2 (declines_hexMarker ?_), .inr ⟨declines_doubleLiteral ?_,
    .inr ⟨declines_decimalLiteral.2 (stops_cons.2 rfl), stringLiteral_eq_ok.2 ⟨b, hb, rfl, rfl⟩⟩⟩⟩
  · intro x r hs
    cases hs
  · rw [(stops_cons.2 rfl : Stops Char.isDigit _).dropWhile_eq]
    simp

/-- A literal that no part of a word follows is the one that is read. The alternatives before its
own decline it. -/
theorem literal_complete (h : Literal.At s l rest) (hr : Stops Token.isWordPart rest) :
    literal s = .ok (l, rest) := by
  have hdig : Stops Char.isDigit rest :=
    hr.mono fun c hc => isWordPart_of_isNamePart (isNamePart_of_isDigit hc)
  cases h with
  | @decimal ds rest hne hds hn =>
    have ht := takeWhile_run hds hdig
    have hd := dropWhile_run hds hdig
    simp only [literal, noting_eq_ok, orElse_eq_ok]
    refine .inr ⟨declines_hexLiteral.2 (declines_hexMarker_of_digits hds ?_),
      .inr ⟨declines_doubleLiteral ?_, .inl (decimalLiteral_eq_ok.2 ⟨ds, hne, ht, hd, hn, rfl⟩)⟩⟩
    · intro c hc
      have := hr c hc
      refine ⟨?_, ?_, ?_⟩ <;> rintro rfl <;> cases this
    · -- It is no double: a point would be part of a word.
      rw [hd]
      intro hc
      have := hr _ hc
      cases this
  | @hex x ds rest hx hne hds hn =>
    have hhex : Stops isHexDigit rest :=
      hr.mono fun c hc => isWordPart_of_isNamePart (isNamePart_of_isHexDigit hc)
    simp only [literal, noting_eq_ok, orElse_eq_ok]
    exact .inl (hexLiteral_eq_ok.2 ⟨x, ds, _, hx, rfl, hne, takeWhile_run hds hhex,
      dropWhile_run hds hhex, hn, rfl⟩)
  | double hds hne hds' => exact literal_of_double hds hne hds' hdig
  | string hb => exact literal_of_string hb rest

end Literals

end Rule

end Pipeline
