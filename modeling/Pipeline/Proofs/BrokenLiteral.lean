import Pipeline.Proofs.Enclosure

/-!
# Literals that cannot be completed

A literal fails for good once it has begun: a hexadecimal marker without digits behind it, an
integer of more than 63 bits, a string that does not end (`literal_committed`, `literal_of_broken`).
`Entry.LiteralDue` says where in a text literals are read, and from there such a failure comes out
of every rule under way (`rule_of_due`), with no more than notes added to it.
-/

namespace Pipeline

namespace Literal

/-- An integer of more than 63 bits: its marker, and what lies ahead. No part of a decimal one is
read, and digits that begin a double are none. -/
inductive TooLarge : List Char → List Char → Prop
  | hex {x : Char} {ds rest : List Char} : x = 'x' ∨ x = 'X' → ds.all isHexDigit →
    Stops isHexDigit rest → 1 <<< 63 ≤ Numeral.value 16 ds → TooLarge ['0', x] (ds ++ rest)
  | decimal {ds rest : List Char} : ds.all Char.isDigit → Stops Char.isDigit rest →
    (∀ c s, rest = '.' :: c :: s → c.isDigit = false) → 1 <<< 63 ≤ Numeral.value 10 ds →
    TooLarge [] (ds ++ rest)

/-- What has been read of a literal, and what lies ahead that cannot complete it. -/
inductive Broken : List Char → List Char → Prop
  | tooLarge {m rest : List Char} : TooLarge m rest → Broken m rest
  | noDigits {x : Char} {rest : List Char} : x = 'x' ∨ x = 'X' → Stops isHexDigit rest →
    Broken ['0', x] rest
  /-- A string goes on to the end of the text, or to a backslash there. -/
  | unclosed {b rest : List Char} : StringBody b → rest = [] ∨ rest = ['\\'] →
    Broken ('"' :: b) rest

end Literal

namespace Failure

/-- The failure with notes of more rules around it. -/
def notedAll (f : Failure) (ns : List Note) : Failure :=
  { f with notes := f.notes ++ ns }

theorem notedAll_nil (f : Failure) : f.notedAll [] = f := by
  simp [notedAll]

theorem noted_notedAll (f : Failure) (ns : List Note) (n : Note) :
    (f.notedAll ns).noted n = f.notedAll (ns ++ [n]) := by
  simp [noted, notedAll]

end Failure

/-! ## How a literal breaks off -/

namespace Rule

variable {s m rest : List Char} {f : Failure}

/-- The body of a string ends at a quote, or where the text does. -/
theorem body_rest (s : List Char) : (Quoted.body s).2 = [] ∨ (Quoted.body s).2 = ['\\'] ∨
    (Quoted.body s).2.head? = some '"' := by
  -- Cases: the end of the text, a backslash that ends it, a quote, an escape, any other character.
  fun_induction Quoted.body s with
  | case1 => exact .inl rfl
  | case2 => exact .inr (.inl rfl)
  | case3 cs => exact .inr (.inr rfl)
  | case4 c cs b rest h ih =>
    rw [h] at ih
    exact ih
  | case5 c cs _ _ _ b rest h ih =>
    rw [h] at ih
    exact ih

theorem declines_chars₁ {g : Char → Bool} : (chars₁ g).Declines s ↔ Stops g s := by
  unfold Declines
  simp only [chars₁_eq_error]
  refine ⟨fun h => ?_, fun h => ⟨_, ⟨h, rfl⟩, rfl⟩⟩
  obtain ⟨_, ⟨h, -⟩, -⟩ := h
  exact h

theorem declines_doubleLiteral_iff : doubleLiteral.Declines s ↔
    ∀ c s₁, s.dropWhile Char.isDigit = '.' :: c :: s₁ → c.isDigit = false := by
  simp only [doubleLiteral, declines_bind, not_declines_chars, chars_eq_ok, char_eq_ok,
    declines_char, declines_chars₁, not_declines_pure, and_false, exists_false, or_false,
    false_or]
  refine ⟨fun h c s₁ hs => ?_, fun h => ?_⟩
  · obtain ⟨_, _, ⟨-, rfl⟩, h | ⟨_, s₂, hs₂, h⟩⟩ := h
    · exact absurd (by rw [hs, List.head?_cons]) h
    · rw [hs] at hs₂
      cases hs₂
      exact stops_cons.1 h
  · refine ⟨_, _, ⟨rfl, rfl⟩, ?_⟩
    rcases hs : s.dropWhile Char.isDigit with _ | ⟨d, s₁⟩
    · exact .inl (by rintro ⟨⟩)
    · by_cases hd : d = '.'
      · subst hd
        refine .inr ⟨(), s₁, rfl, fun c hc => ?_⟩
        obtain ⟨s₂, rfl⟩ := List.head?_eq_some_iff.1 hc
        exact h c s₂ hs
      · exact .inl (by simpa using hd)

theorem tooLarge_hex_iff {x : Char} (hx : x = 'x' ∨ x = 'X') :
    Literal.TooLarge ['0', x] s ↔ 1 <<< 63 ≤ Numeral.value 16 (s.takeWhile isHexDigit) := by
  refine ⟨fun h => ?_, fun h => ?_⟩
  · cases h with
    | hex _ hds hr hn => rwa [takeWhile_run hds hr]
  · have h' := Literal.TooLarge.hex hx List.all_takeWhile (stops_dropWhile isHexDigit s) h
    rwa [List.takeWhile_append_dropWhile] at h'

theorem tooLarge_nil_iff : Literal.TooLarge [] s ↔ doubleLiteral.Declines s ∧
    1 <<< 63 ≤ Numeral.value 10 (s.takeWhile Char.isDigit) := by
  rw [declines_doubleLiteral_iff]
  refine ⟨fun h => ?_, fun h => ?_⟩
  · generalize hm : ([] : List Char) = m at h
    cases h with
    | hex => cases hm
    | decimal hds hr hd hn => exact ⟨by rwa [dropWhile_run hds hr], by rwa [takeWhile_run hds hr]⟩
  · have h' := Literal.TooLarge.decimal List.all_takeWhile (stops_dropWhile Char.isDigit s) h.1 h.2
    rwa [List.takeWhile_append_dropWhile] at h'

/-- A literal that has begun says what it still lacks. -/
theorem literal_committed (h : literal s = .error f) (hc : f.committed) : ∃ m x,
    s = m ++ f.rest ∧ f.notes = [.expected x, .label .literal] ∧
    x ∈ [Expectation.hexInteger, .integer, .closingQuote] ∧ Literal.Broken m f.rest ∧
    (Literal.TooLarge m f.rest → f.cause = some .overflow) ∧
    (¬ Literal.TooLarge m f.rest → f.cause = none) := by
  simp only [literal, noting_eq_error, orElse_eq_error] at h
  obtain ⟨e, h, rfl⟩ := h
  rcases h with ⟨h, hce⟩ | ⟨-, ⟨h, hce⟩ | ⟨hd, ⟨h, hce⟩ | ⟨-, h⟩⟩⟩
  · rcases hexLiteral_eq_error.1 h with h | ⟨x, s₁, e₁, hx, rfl, hn, rfl⟩
    · rw [hexMarker_soft h] at hce
      cases hce
    · rcases natural_eq_error.1 hn with ⟨hs, rfl⟩ | ⟨-, hv, rfl⟩
      · refine ⟨['0', x], .hexInteger, rfl, rfl, by decide, .noDigits hx hs, fun ht => ?_,
          fun _ => rfl⟩
        rw [tooLarge_hex_iff hx] at ht
        change 1 <<< 63 ≤ Numeral.value 16 (s₁.takeWhile isHexDigit) at ht
        rw [hs.takeWhile_eq] at ht
        cases ht
      · have ht := (tooLarge_hex_iff hx).2 hv
        exact ⟨['0', x], .hexInteger, rfl, rfl, by decide, .tooLarge ht, fun _ => rfl, absurd ht⟩
  · -- A double literal never commits.
    rw [doubleLiteral_soft h] at hce
    cases hce
  · -- The double literal has declined, so the digits are those of an integer.
    rcases decimalLiteral_eq_error.1 h with ⟨-, rfl⟩ | ⟨-, hn, rfl⟩
    · cases hce
    · have ht := tooLarge_nil_iff.2 ⟨hd, hn⟩
      exact ⟨[], .integer, rfl, rfl, by decide, .tooLarge ht, fun _ => rfl, absurd ht⟩
  · rcases stringLiteral_eq_error.1 h with ⟨-, rfl⟩ | ⟨s₁, rfl, hq, rfl⟩
    · cases hc
    · obtain ⟨hs, hb⟩ := body_sound (s := s₁) rfl
      have hr : (Quoted.body s₁).2 = [] ∨ (Quoted.body s₁).2 = ['\\'] := by
        rcases body_rest s₁ with h | h | h
        · exact .inl h
        · exact .inr h
        · exact absurd h hq
      exact ⟨'"' :: (Quoted.body s₁).1, .closingQuote, congrArg ('"' :: ·) hs, rfl,
        by decide, .unclosed hb hr, fun ht => (by cases ht), fun _ => rfl⟩

theorem not_stops_of_value {g : Char → Bool} {base : Nat} {ds : List Char} (hds : ds.all g)
    (hr : Stops g rest) (hn : 1 <<< 63 ≤ Numeral.value base ds) : ¬ Stops g (ds ++ rest) := by
  intro hs
  have ht := takeWhile_run hds hr
  rw [hs.takeWhile_eq] at ht
  subst ht
  exact absurd (show 1 <<< 63 ≤ 0 from hn) (by decide)

/-- Digits of a decimal numeral that is too large hold no hexadecimal marker. -/
theorem declines_hexMarker_of_tooLarge {ds : List Char} (hds : ds.all Char.isDigit)
    (hn : 1 <<< 63 ≤ Numeral.value 10 ds) : hexMarker.Declines (ds ++ rest) := by
  refine declines_hexMarker fun x r hs => ?_
  rcases ds with _ | ⟨d, _ | ⟨d', ds⟩⟩
  · exact absurd hn (by decide)
  · cases hs
    exact absurd hn (by decide)
  · cases hs
    simp only [List.all_cons, Bool.and_eq_true] at hds
    refine ⟨?_, ?_⟩
    · rintro rfl
      exact absurd hds.2.1 (by decide)
    · rintro rfl
      exact absurd hds.2.1 (by decide)

section TooLarge

variable {ds : List Char}

theorem literal_of_largeHex {x : Char} (hx : x = 'x' ∨ x = 'X') (hds : ds.all isHexDigit)
    (hr : Stops isHexDigit rest) (hn : 1 <<< 63 ≤ Numeral.value 16 ds) :
    literal ('0' :: x :: (ds ++ rest)) = .error
      (((Failure.overflow (ds ++ rest)).noted (.expected .hexInteger)).commit.noted
        (.label .literal)) := by
  have hs := not_stops_of_value hds hr hn
  have hn' : natural 16 isHexDigit (ds ++ rest) = .error (.overflow (ds ++ rest)) :=
    natural_eq_error.2 (.inr ⟨hs, by rwa [takeWhile_run hds hr], rfl⟩)
  have h := hexLiteral_eq_error.2 (.inr ⟨x, ds ++ rest, _, hx, rfl, hn', rfl⟩)
  simp only [literal, noting_eq_error, orElse_eq_error]
  exact ⟨_, .inl ⟨h, rfl⟩, rfl⟩

theorem literal_of_largeDecimal (hds : ds.all Char.isDigit) (hr : Stops Char.isDigit rest)
    (hd : ∀ c s, rest = '.' :: c :: s → c.isDigit = false)
    (hn : 1 <<< 63 ≤ Numeral.value 10 ds) :
    literal (ds ++ rest) = .error
      (((Failure.overflow (ds ++ rest)).noted (.expected .integer)).commit.noted
        (.label .literal)) := by
  have hs := not_stops_of_value hds hr hn
  have hhex : hexLiteral.Declines (ds ++ rest) :=
    declines_hexLiteral.2 (declines_hexMarker_of_tooLarge hds hn)
  have hdouble : doubleLiteral.Declines (ds ++ rest) :=
    declines_doubleLiteral_iff.2 (by rwa [dropWhile_run hds hr])
  have h := decimalLiteral_eq_error.2 (.inr ⟨hs, by rwa [takeWhile_run hds hr], rfl⟩)
  simp only [literal, noting_eq_error, orElse_eq_error]
  exact ⟨_, .inr ⟨hhex, .inr ⟨hdouble, .inl ⟨h, rfl⟩⟩⟩, rfl⟩

/-- A number past the limit is refused at its first digit. -/
theorem literal_of_tooLarge (h : Literal.TooLarge m rest) :
    ∃ f, literal (m ++ rest) = .error f ∧ f.committed ∧ f.rest = rest := by
  cases h with
  | hex hx hds hr hn =>
    have h := literal_of_largeHex hx hds hr hn
    exact ⟨_, h, rfl, rfl⟩
  | decimal hds hr hd hn =>
    have h := literal_of_largeDecimal hds hr hd hn
    exact ⟨_, h, rfl, rfl⟩

end TooLarge

theorem literal_of_unclosed {b : List Char} (hb : StringBody b) (hr : rest = [] ∨ rest = ['\\']) :
    ∃ f, literal ('"' :: (b ++ rest)) = .error f ∧ f.committed ∧ f.rest = rest := by
  have hrest : Quoted.body rest = ([], rest) := by
    rcases hr with rfl | rfl <;> rfl
  have hbody := body_append hb hrest
  have hq : (Quoted.body (b ++ rest)).2.head? ≠ some '"' := by
    rw [hbody]
    rcases hr with rfl | rfl <;> simp
  have hhex : hexLiteral.Declines ('"' :: (b ++ rest)) :=
    declines_hexLiteral.2 (declines_hexMarker (by rintro x r ⟨⟩))
  have hdouble : doubleLiteral.Declines ('"' :: (b ++ rest)) :=
    declines_doubleLiteral_iff.2 fun c s hs => by
      rw [(stops_cons.2 rfl : Stops Char.isDigit _).dropWhile_eq] at hs
      cases hs
  have hdecimal := declines_decimalLiteral.2 (stops_cons.2 rfl : Stops _ ('"' :: (b ++ rest)))
  have h := stringLiteral_eq_error.2 (.inr ⟨b ++ rest, rfl, hq, rfl⟩)
  simp only [literal, noting_eq_error, orElse_eq_error]
  exact ⟨_, ⟨_, .inr ⟨hhex, .inr ⟨hdouble, .inr ⟨hdecimal, h⟩⟩⟩, rfl⟩, rfl, by rw [hbody]; rfl⟩

/-- A broken literal is refused where it is broken, and no alternative is tried. -/
theorem literal_of_broken (h : Literal.Broken m rest) :
    ∃ f, literal (m ++ rest) = .error f ∧ f.committed ∧ f.rest = rest := by
  cases h with
  | tooLarge h => exact literal_of_tooLarge h
  | @noDigits x rest hx hs =>
    have hn : natural 16 isHexDigit rest = .error (.here rest) :=
      natural_eq_error.2 (.inl ⟨hs, rfl⟩)
    have h := hexLiteral_eq_error.2 (.inr ⟨x, rest, _, hx, rfl, hn, rfl⟩)
    simp only [literal, noting_eq_error, orElse_eq_error]
    exact ⟨_, ⟨_, .inl ⟨h, rfl⟩, rfl⟩, rfl, rfl⟩
  | unclosed hb hr => exact literal_of_unclosed hb hr

theorem exists_start_of_committed (h : literal s = .error f) (hc : f.committed) :
    ∃ c cs, s = c :: cs ∧ isLiteralStart c := by
  by_contra hs
  have hstop : Stops isLiteralStart s := by
    intro c hcs
    obtain ⟨cs, rfl⟩ := List.head?_eq_some_iff.1 hcs
    by_contra hl
    exact hs ⟨c, cs, rfl, by simpa using hl⟩
  obtain ⟨e, he, hce⟩ := declines_literal hstop
  rw [h] at he
  cases he
  rw [hc] at hce
  cases hce

theorem value_of_literal (h : literal s = .error f) (hc : f.committed) :
    value s = .error (f.noted (.expected .value)) := by
  rw [value_eq]
  exact valueOf_eq_error.2 ⟨f, rfl, .inl ⟨h, hc⟩⟩

theorem source_of_call_fails {n : String} {s₁ : List Char} (hs : name s = .ok (n, s₁))
    (h : call s = .error f) (hc : f.committed) : source s = .error f := by
  rcases callOf_eq_error.1 h with h | ⟨m, s₃, hs₃, h⟩
  · rw [hs] at h
    cases h
  · exact source_eq_error.2 (.inr ⟨m, s₃, hs₃, h, hc⟩)

theorem decorator_fails (h : source (s.dropWhile isBlank) = .error f) (hc : f.committed) :
    sink ('{' :: s) = .error (f.noted (.label .sink)) := by
  have h : decoratedOf sink ('{' :: s) = .error f :=
    decoratedOf_eq_error.2 (.inr ⟨s, f, rfl, (f.commit_of_committed hc).symm, .inl h⟩)
  rw [sink_eq]
  exact noting_eq_error.2 ⟨f, orElse_eq_error.2 (.inl ⟨h, hc⟩), rfl⟩

end Rule

/-! ## Where literals are read -/

namespace Entry

mutual

/-- The text up to where a literal may come as a value or inside one. -/
inductive ValueDue : String → Prop
  | here {b : String} : b.toList.all isBlank → ValueDue b
  | inCall {p q : String} : OpensCall p → ArgumentDue q → ValueDue (p ++ q)

/-- The text up to where a literal may come as an argument, behind its keyword, or inside one. -/
inductive ArgumentDue : String → Prop
  | positional {q : String} : ValueDue q → ArgumentDue q
  | keyword {b n b' q : String} : b.toList.all isBlank → IsName n → b'.toList.all isBlank →
    ValueDue q → ArgumentDue (b ++ n ++ b' ++ "=" ++ q)

end

/-- Literals come in a source only as arguments of its call. -/
inductive SourceDue : String → Prop
  | mk {p q : String} : OpensCall p → ArgumentDue q → SourceDue (p ++ q)

/-- The text up to where a literal may come in a call of a sink. -/
inductive SinkDue : String → Prop
  /-- In the call that the sink starts with. -/
  | head {q : String} : SourceDue q → SinkDue q
  | decorator {b q : String} : b.toList.all isBlank → SourceDue q → SinkDue (b ++ "\x7b" ++ q)
  | inSink {p q : String} : OpensSink p → SinkDue q → SinkDue (p ++ q)

/-- The text in front of a literal, in a text of the entry. -/
def LiteralDue : Entry → String → Prop
  | literal => fun b => b.toList.all isBlank
  | argument => ArgumentDue
  | source => SourceDue
  | sink => SinkDue

section Due

variable {s : List Char} {f : Failure} (h : Rule.literal s = .error f) (hc : f.committed)

include h hc

theorem dropWhile_blanks_of_committed {b : List Char} (hb : b.all isBlank) :
    (b ++ s).dropWhile isBlank = s := by
  obtain ⟨c, cs, rfl, hstart⟩ := Rule.exists_start_of_committed h hc
  exact (blanks_append hb _).dropWhile_eq (stops_cons.2 (isBlank_of_isLiteralStart hstart))

mutual

/-- Where a value's literal is due the literal's failure is the value's, but for the notes. -/
theorem value_of_due : ∀ {q : String}, ValueDue q →
    ∃ ns, Rule.value ((q.toList ++ s).dropWhile isBlank) = .error (f.notedAll ns)
  | _, .here hb => by
    rw [dropWhile_blanks_of_committed h hc hb]
    exact ⟨[.expected .value], Rule.value_of_literal h hc⟩
  | _, .inCall hp hq => by
    obtain ⟨ns, ha⟩ := argument_of_due hq
    have hc' : (f.notedAll ns).committed := hc
    obtain ⟨n, _, _, hn, -, hcall⟩ := call_behind hp ha hc'
    rw [String.toList_append, List.append_assoc]
    exact ⟨_, f.noted_notedAll ns _ ▸ Rule.value_of_call_fails hn hcall⟩

theorem argument_of_due : ∀ {q : String}, ArgumentDue q →
    ∃ ns, Rule.argument ((q.toList ++ s).dropWhile isBlank) = .error (f.notedAll ns)
  | _, .positional (.here hb) => by
    rw [dropWhile_blanks_of_committed h hc hb]
    obtain ⟨c, cs, rfl, hstart⟩ := Rule.exists_start_of_committed h hc
    have hn : Rule.name.Declines (c :: cs) :=
      Rule.declines_name.2 (stops_cons.2 (isNameStart_of_isLiteralStart hstart))
    exact ⟨[.expected .value],
      Rule.argumentOf_eq_error.2 (.inr ⟨Rule.value_of_literal h hc, .inl hn⟩)⟩
  | _, .positional (.inCall hp hq) => by
    obtain ⟨ns, ha⟩ := argument_of_due hq
    have hc' : (f.notedAll ns).committed := hc
    rw [String.toList_append, List.append_assoc]
    exact ⟨_, f.noted_notedAll ns _ ▸ argument_behind hp ha hc'⟩
  | _, @ArgumentDue.keyword b n b' q hb hn hb' hq => by
    obtain ⟨ns, hv⟩ := value_of_due hq
    have hc' : (f.notedAll ns).committed := hc
    have hs : (b ++ n ++ b' ++ "=" ++ q).toList ++ s =
        b.toList ++ (n.toList ++ (b'.toList ++ '=' :: (q.toList ++ s))) := by simp
    have heq := blanks_append hb' ('=' :: (q.toList ++ s))
    have hname := textOf_name hn (b'.toList ++ '=' :: (q.toList ++ s))
    have hstop := (heq.stops_word (stops_cons.2 rfl)).mono fun _ => isWordPart_of_isNamePart
    rw [hs, (blanks_append hb _).dropWhile_eq hname.stops_blank]
    exact ⟨ns, Rule.argumentOf_eq_error.2 (.inl ⟨n, _, _, _, Rule.name_eq_ok.2 ⟨hname, hstop⟩,
      heq.mark rfl, hv, (Failure.commit_of_committed hc').symm⟩)⟩

end

/-- No sink comes to a literal but in a call. -/
theorem source_of_due {q : String} (hq : SourceDue q) : ∃ ns n s₁,
    Rule.name ((q.toList ++ s).dropWhile isBlank) = .ok (n, s₁) ∧
      Rule.source ((q.toList ++ s).dropWhile isBlank) = .error (f.notedAll ns) := by
  obtain @⟨p, q, hp, hq⟩ := hq
  obtain ⟨ns, ha⟩ := argument_of_due h hc hq
  have hc' : (f.notedAll ns).committed := hc
  obtain ⟨n, s₁, _, hn, -, hcall⟩ := call_behind hp ha hc'
  rw [String.toList_append, List.append_assoc]
  exact ⟨ns, n, s₁, hn, Rule.source_of_call_fails hn hcall hc'⟩

theorem sink_of_due {q : String} (hq : SinkDue q) :
    ∃ ns, Rule.sink ((q.toList ++ s).dropWhile isBlank) = .error (f.notedAll ns) := by
  induction hq with
  | head hq =>
    obtain ⟨ns, n, s₁, hn, hsource⟩ := source_of_due h hc hq
    exact ⟨_, f.noted_notedAll ns _ ▸
      Rule.named_fails hn (Rule.namedOf_eq_error.2 (.inl hsource))⟩
  | @decorator b q hb hq =>
    obtain ⟨ns, -, -, -, hsource⟩ := source_of_due h hc hq
    have hc' : (f.notedAll ns).committed := hc
    have hs : (b ++ "\x7b" ++ q).toList ++ s = b.toList ++ '{' :: (q.toList ++ s) := by simp
    rw [hs, (blanks_append hb _).mark rfl]
    exact ⟨_, f.noted_notedAll ns _ ▸ Rule.decorator_fails hsource hc'⟩
  | inSink hp _ ih =>
    obtain ⟨ns, ih⟩ := ih
    have hc' : (f.notedAll ns).committed := hc
    rw [String.toList_append, List.append_assoc]
    exact ⟨_, f.noted_notedAll ns _ ▸ sink_behind hp ih hc'⟩

/-- Where a literal is due its failure is the whole rule's, but for the notes. -/
theorem rule_of_due : ∀ {e : Entry} {q : String}, e.LiteralDue q →
    ∃ ns, e.rule ((q.toList ++ s).dropWhile isBlank) = .error (f.notedAll ns)
  | literal, _, hq => by
    rw [dropWhile_blanks_of_committed h hc hq]
    exact ⟨[], by rwa [f.notedAll_nil]⟩
  | argument, _, hq => argument_of_due h hc hq
  | source, _, hq => by
    obtain ⟨ns, -, -, -, hsource⟩ := source_of_due h hc hq
    exact ⟨ns, hsource⟩
  | sink, _, hq => sink_of_due h hc hq

end Due

end Entry

end Pipeline
