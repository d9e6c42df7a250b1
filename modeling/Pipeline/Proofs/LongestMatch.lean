import Pipeline.Proofs.ErrorPosition
import Pipeline.Proofs.Overlap
import Pipeline.Proofs.Report

/-!
# The longest match

A rule that succeeds takes all that the grammar can: no tree that is derived from the front of its
text reaches further than the rule does (`literal_longest`, `value_longest`, `sink_longest`). For
what ends in a bracket this is because the rule reads such a derivation whatever follows it; the
rest are runs of characters, and names, behind which a bracket is looked for. Hence an error for
trailing text lies behind the longest beginning that is a text by itself
(`trailing_error_longest`).
-/

namespace Pipeline

theorem NameAt.exists_run {s rest : List Char} {n : String} (h : NameAt s n rest) :
    ∃ cs, s = cs ++ rest ∧ cs.all isNamePart := by
  obtain ⟨hc, hcs⟩ := h
  rename_i c cs
  refine ⟨c :: cs, rfl, ?_⟩
  rw [List.all_cons, isNamePart_of_isNameStart hc, hcs]
  rfl

namespace Rule

variable {s rest rest' : List Char}

/-! ## Words -/

section Words

/-- Nothing is left of a run in front. -/
theorem length_dropWhile_le {f : Char → Bool} {cs : List Char} (hcs : cs.all f)
    (rest : List Char) : ((cs ++ rest).dropWhile f).length ≤ rest.length := by
  rw [List.dropWhile_append_of_pos (by simpa using hcs)]
  exact (List.dropWhile_suffix f).length_le

theorem name_longest {n m : String} (h : NameAt s n rest) (hr : name s = .ok (m, rest')) :
    rest'.length ≤ rest.length := by
  obtain ⟨hm, hstop⟩ := name_eq_ok.1 hr
  obtain ⟨cs', rfl, hcs'⟩ := hm.exists_run
  obtain ⟨cs, hs, hcs⟩ := h.exists_run
  have hd := length_dropWhile_le hcs rest
  rwa [← hs, dropWhile_run hcs' hstop] at hd

/-- Every form of a literal takes the digits that it starts with. -/
theorem literal_takes_digits {l : Literal} (h : literal s = .ok (l, rest)) :
    rest.length ≤ (s.dropWhile Char.isDigit).length := by
  simp only [literal, noting_eq_ok, orElse_eq_ok] at h
  rcases h with h | ⟨-, h | ⟨-, h | ⟨-, h⟩⟩⟩
  · obtain ⟨x, ds, s₁, hx, rfl, -, -, hd, -, -⟩ := hexLiteral_eq_ok.1 h
    have hzero : ('0' :: x :: s₁).dropWhile Char.isDigit = x :: s₁ := by
      rcases hx with rfl | rfl
      · rfl
      · rfl
    rw [hzero, ← hd]
    exact ((List.dropWhile_suffix _).trans (List.suffix_cons x s₁)).length_le
  · obtain ⟨-, -, s₁, -, hs, -, -, hd, -⟩ := doubleLiteral_eq_ok.1 h
    rw [hs, ← hd]
    exact ((List.dropWhile_suffix _).trans (List.suffix_cons '.' s₁)).length_le
  · obtain ⟨-, -, -, hd, -⟩ := decimalLiteral_eq_ok.1 h
    exact hd ▸ Nat.le_refl _
  · obtain ⟨b, -, rfl, -⟩ := stringLiteral_eq_ok.1 h
    have hquote : Stops Char.isDigit ('"' :: (b ++ '"' :: rest)) := stops_cons.2 rfl
    rw [hquote.dropWhile_eq]
    simp only [List.length_cons, List.length_append]
    omega

theorem literal_longest {l m : Literal} (h : Literal.At s l rest)
    (hr : literal s = .ok (m, rest')) : rest'.length ≤ rest.length := by
  cases h with
  | decimal _ hds => exact Nat.le_trans (literal_takes_digits hr) (length_dropWhile_le hds rest)
  | @hex x ds rest hx hne hds =>
    simp only [literal, noting_eq_ok, orElse_eq_ok] at hr
    have hmarker : ¬ hexMarker.Declines ('0' :: x :: (ds ++ rest)) :=
      not_declines_of_ok (hexMarker_eq_ok.2 ⟨x, hx, rfl, rfl⟩)
    rcases hr with hr | ⟨hd, -⟩
    · obtain ⟨x', ds', s₁, -, hs, -, -, hd, -⟩ := hexLiteral_eq_ok.1 hr
      simp only [List.cons.injEq, true_and] at hs
      rw [← hd, ← hs.2]
      exact length_dropWhile_le hds rest
    · exact absurd (declines_hexLiteral.1 hd) hmarker
  | @double ds ds' rest hds hne hds' =>
    have hs : ds' ++ rest =
        (ds' ++ rest.takeWhile Char.isDigit) ++ rest.dropWhile Char.isDigit := by
      rw [List.append_assoc, List.takeWhile_append_dropWhile]
    have hall : (ds' ++ rest.takeWhile Char.isDigit).all Char.isDigit := by
      rw [List.all_append, hds', List.all_takeWhile]
      rfl
    -- The grammar may stop within the digits, but the rule takes all of them.
    have hne' : ds' ++ rest.takeWhile Char.isDigit ≠ [] := List.append_ne_nil_of_left_ne_nil hne _
    rw [hs, literal_of_double hds hne' hall (stops_dropWhile _ _)] at hr
    cases hr
    exact (List.dropWhile_suffix _).length_le
  | @string b rest hb =>
    rw [literal_of_string hb rest] at hr
    cases hr
    exact Nat.le_refl _

end Words

/-! ## Calls -/

section Calls

/-- Where a call is derived, no shorter literal and no other call is read. -/
theorem value_of_call {c : Call} (h : Call.At positionalFirst s c rest) :
    value s = .ok (.call c, rest) := by
  rw [value_eq]
  exact valueOf_eq_ok.2 (.inr ⟨c, rfl, declines_literal h.stops_literal, call_complete c h⟩)

/-- Where a literal is derived, one is read. -/
theorem literal_of_value {l : Literal} {v : Value} (h : Literal.At s l rest)
    (hr : value s = .ok (v, rest')) : ∃ m, v = .literal m ∧ literal s = .ok (m, rest') := by
  rw [value_eq] at hr
  rcases valueOf_eq_ok.1 hr with hl | ⟨c, -, -, hc⟩
  · exact hl
  · obtain ⟨n, -, s₁, -, hn, -⟩ := callOf_eq_ok.1 hc
    exact absurd (declines_name.2 h.stops_name) (not_declines_of_ok hn)

theorem value_longest {v w : Value} (h : Value.At positionalFirst s v rest)
    (hr : value s = .ok (w, rest')) : rest'.length ≤ rest.length := by
  cases h with
  | literal h =>
    obtain ⟨m, -, hm⟩ := literal_of_value h hr
    exact literal_longest h hm
  | call h =>
    rw [value_of_call h] at hr
    cases hr
    exact Nat.le_refl _

/-- The rule reads a value where the value of the argument is derived. -/
theorem value_of_argument {a b : Argument} (h : Argument.At positionalFirst s a rest)
    (hr : argument s = .ok (b, rest')) :
    ∃ s', Value.At positionalFirst s' a.value rest ∧ value s' = .ok (b.value, rest') := by
  cases h with
  | positional h =>
    -- A value in the text is not taken for a keyword, for no equals sign is behind it.
    rcases argumentOf_eq_ok.1 hr with ⟨n, w, s₁, s₂, -, hn, hs₁, -⟩ | ⟨w, rfl, hw, -⟩
    · rcases not_keyword_of_value h with hd | ⟨n', s₁', hn', hs₁'⟩
      · exact absurd hd (not_declines_of_ok hn)
      · rw [hn] at hn'
        cases hn'
        exact absurd (by rw [hs₁, List.head?_cons]) hs₁'
    · exact ⟨s, h, hw⟩
  | keyword hn hb hb' h =>
    have hn' := name_eq_ok.2 ⟨hn, (hb.free rfl).name⟩
    rcases argumentOf_eq_ok.1 hr with ⟨_, w, _, s₂, rfl, hn₁, hs₁, hw⟩ | ⟨w, -, -, hd | hk⟩
    · rw [hn'] at hn₁
      cases hn₁
      rw [hb.mark rfl] at hs₁
      cases hs₁
      rw [hb'.dropWhile_eq h.stops_blank] at hw
      exact ⟨_, h, hw⟩
    · exact absurd hd (not_declines_of_ok hn')
    · obtain ⟨_, _, hn₁, hs₁⟩ := hk
      rw [hn'] at hn₁
      cases hn₁
      rw [hb.mark rfl] at hs₁
      exact absurd rfl hs₁

theorem argument_longest {a b : Argument} (h : Argument.At positionalFirst s a rest)
    (hr : argument s = .ok (b, rest')) : rest'.length ≤ rest.length := by
  obtain ⟨_, hv, hw⟩ := value_of_argument h hr
  exact value_longest hv hw

/-- An argument that ends in a parenthesis is read whatever follows it. -/
theorem argument_of_call {a : Argument} {c : Call} (h : Argument.At positionalFirst s a rest)
    (ha : a.value = .call c) : argument s = .ok (a, rest) := by
  cases h with
  | positional h =>
    cases ha
    have hn := not_keyword_of_value h
    cases h with
    | call h => exact argumentOf_eq_ok.2 (.inr ⟨_, rfl, value_of_call h, hn⟩)
  | keyword hn hb hb' h =>
    cases ha
    have hn := name_eq_ok.2 ⟨hn, (hb.free rfl).name⟩
    have hs := h.stops_blank
    cases h with
    | call h =>
      have hv := read_behind hb' hs (value_of_call h)
      exact argumentOf_eq_ok.2 (.inl ⟨_, _, _, _, rfl, hn, hb.mark rfl, hv⟩)

theorem call_shorter {c : Call} {n : String} {s₁ : List Char} (hn : NameAt s n s₁)
    (hc : call s = .ok (c, rest)) : rest.length ≤ s₁.length := by
  obtain ⟨m, args, s₂, -, hm, ha⟩ := callOf_eq_ok.1 hc
  have hargs := (leavesEnd_argumentsOf leavesEnd_value).length_le ha
  have hblanks := (List.dropWhile_suffix isBlank (l := s₂)).length_le
  have hname := name_longest hn hm
  omega

end Calls

/-! ## Sources and sinks -/

section Sinks

/-- So is a source that ends in a parenthesis. -/
theorem source_of_call {c : Call} (h : Source.At positionalFirst s (.call c) rest) :
    source s = .ok (.call c, rest) := by
  cases h with
  | call h => exact source_eq_ok.2 (.inr ⟨c, rfl, call_complete c h⟩)

theorem source_longest {d d' : Source} (h : Source.At positionalFirst s d rest)
    (hr : source s = .ok (d', rest')) : rest'.length ≤ rest.length := by
  cases h with
  | name hn =>
    rcases source_eq_ok.1 hr with ⟨n, -, hn', -⟩ | ⟨c, -, hc⟩
    · exact name_longest hn hn'
    · exact call_shorter hn hc
  | call hc =>
    rw [source_of_call (.call hc)] at hr
    cases hr
    exact Nat.le_refl _

theorem namedOf_of_sink {n : String} {t : Sink} {s₁ : List Char} (hn : NameAt s n s₁)
    (hr : sink s = .ok (t, rest)) : namedOf sink s = .ok (t, rest) := by
  obtain ⟨c, cs, rfl, hc⟩ := hn.exists_start
  rw [sink_eq] at hr
  rcases sinkOf_eq_ok.1 hr with hr | hr | hr | hr
  · obtain ⟨-, -, s₂, -, -, -, -, hs, -⟩ := decoratedOf_eq_ok.1 hr
    cases hs
    cases hc
  · obtain ⟨-, s₂, -, -, hs, -⟩ := fanOutOf_eq_ok.1 hr
    cases hs
    cases hc
  · obtain ⟨-, -, s₂, -, -, -, -, hs, -⟩ := failoverOf_eq_ok.1 hr
    cases hs
    cases hc
  · exact hr

/-- A body is read behind the call. -/
theorem block_shorter {s₁ s₂ s₃ : List Char} {t : Sink} (hs₁ : s₁.dropWhile isBlank = '{' :: s₂)
    (ht : sink (s₂.dropWhile isBlank) = .ok (t, s₃))
    (hs₃ : s₃.dropWhile isBlank = '}' :: rest) : rest.length ≤ s₁.length := by
  have h₁ := (List.dropWhile_suffix isBlank (l := s₁)).length_le
  have h₂ := (List.dropWhile_suffix isBlank (l := s₂)).length_le
  have h₃ := (List.dropWhile_suffix isBlank (l := s₃)).length_le
  have ht' := leavesEnd_sink.length_le ht
  rw [hs₁, List.length_cons] at h₁
  rw [hs₃, List.length_cons] at h₃
  omega

/-- What ends in the bracket of a sink is read whatever follows it. -/
theorem sink_of_compound {t : Sink} (h : Sink.At positionalFirst s t rest) (ht : t.isCompound) :
    sink s = .ok (t, rest) := by
  cases h with
  | name => cases ht
  | call => cases ht
  | decorated hb hd ha hb' h =>
    obtain ⟨h, hc⟩ := h
    exact decorated_complete hb hd ha hb' h.stops_blank (sink_complete _ h (hc.free rfl)) hc
  | fanOut hb h h' hc =>
    have ht := sink_complete _ h (free_of_moreSinks h' hc)
    exact fanOut_complete hb h.stops_blank ht (moreSinks_complete _ h' hc) hc
  | failover hb h hb' h' =>
    obtain ⟨h, hc⟩ := h
    obtain ⟨h', hc'⟩ := h'
    have ht := sink_complete _ h (hc.free rfl)
    have hu := sink_complete _ h' (hc'.free rfl)
    exact failover_complete hb h.stops_blank ht hc hb' h'.stops_blank hu hc'
  | block h ho hb h' =>
    obtain ⟨h', hc⟩ := h'
    exact block_complete h ho hb h'.stops_blank (sink_complete _ h' (hc.free rfl)) hc

theorem sink_longest {t u : Sink} (h : Sink.At positionalFirst s t rest)
    (hr : sink s = .ok (u, rest')) : rest'.length ≤ rest.length := by
  have hclosed (ht : t.isCompound) : rest'.length ≤ rest.length := by
    rw [sink_of_compound h ht] at hr
    cases hr
    exact Nat.le_refl _
  cases h with
  | name hn =>
    rcases namedOf_eq_ok.1 (namedOf_of_sink hn hr) with ⟨m, -, hm, -⟩ | ⟨c, -, hc, -⟩ |
      ⟨c, child, s₁, s₂, s₃, -, hc, hs₁, ht, hs₃⟩
    · exact name_longest hn hm
    · exact call_shorter hn hc
    · exact Nat.le_trans (block_shorter hs₁ ht hs₃) (call_shorter hn hc)
  | call hc =>
    have hc' := call_complete _ hc
    obtain ⟨n, args, s₁, -, hn, ha⟩ := callOf_eq_ok.1 hc'
    rcases namedOf_eq_ok.1 (namedOf_of_sink (name_eq_ok.1 hn).1 hr) with ⟨m, -, hm, hs⟩ |
      ⟨c, -, hc₁, -⟩ | ⟨c, child, _, s₂, s₃, -, hc₁, hs₁, ht, hs₃⟩
    · obtain ⟨s₂, -, hs₁, -⟩ := argumentsOf_eq_ok.1 ha
      rw [hm] at hn
      cases hn
      exact absurd (by rw [hs₁, List.head?_cons]) hs
    · rw [hc'] at hc₁
      cases hc₁
      exact Nat.le_refl _
    · rw [hc'] at hc₁
      cases hc₁
      exact block_shorter hs₁ ht hs₃
  | decorated => exact hclosed rfl
  | fanOut => exact hclosed rfl
  | failover => exact hclosed rfl
  | block => exact hclosed rfl

end Sinks

end Rule

/-! ## Trailing text -/

namespace Entry

variable {e : Entry} {s rest rest' : List Char}

/-- What is read is at least as long as any tree that stands there. -/
theorem rule_longest : ∀ {e : Entry} {t u : e.Tree}, e.At positionalFirst s t rest →
    e.rule s = .ok (u, rest') → rest'.length ≤ rest.length
  | literal, _, _, h, hr => Rule.literal_longest h hr
  | argument, _, _, h, hr => Rule.argument_longest h hr
  | source, _, _, h, hr => Rule.source_longest h hr
  | sink, _, _, h, hr => Rule.sink_longest h hr

/-- Where the rule leaves `rest`, no text at the front reaches further, blanks at its end aside. -/
theorem rule_reaches {t u : e.Tree} {p z : List Char}
    (hr : e.rule ((p ++ z).dropWhile isBlank) = .ok (t, rest))
    (hp : e.Spells positionalFirst p u) : (rest.dropWhile isBlank).length ≤ z.length := by
  obtain ⟨b, q, b', rfl, hb, hb', -, hq⟩ := hp.exists_textOf fun _ => id
  have hs : b ++ (q ++ b') ++ z = b ++ (q ++ (b' ++ z)) := by simp
  have hu := hq (b' ++ z)
  rw [hs, (blanks_append hb _).dropWhile_eq hu.stops_blank] at hr
  have hle := rule_longest hu hr
  obtain ⟨q', hq', -, -⟩ := at_extent (fun _ => id) (rule_sound hr)
  have hend : rest <:+ b' ++ z :=
    List.suffix_of_suffix_length_le ⟨q', hq'.symm⟩ ⟨q, rfl⟩ hle
  obtain ⟨x, hx⟩ := hend
  rcases List.append_eq_append_iff.1 hx with ⟨d, rfl, rfl⟩ | ⟨d, -, rfl⟩
  · rw [List.all_append, Bool.and_eq_true] at hb'
    exact Rule.length_dropWhile_le hb'.2 z
  · have hd := (List.dropWhile_suffix isBlank (l := rest)).length_le
    rw [List.length_append]
    omega

/-- Trailing text starts with no blank, and what is before it is the longest beginning of the text
that could stand alone. -/
theorem trailing_error_longest {text : String} {err : SyntaxError}
    (h : e.parse text = .error err) (hm : err.message = "unexpected trailing input") :
    ∃ p c rest, text.toList = p ++ c :: rest ∧
      (String.ofList p).utf8ByteSize = err.position.offset ∧
      err.position.offset < text.utf8ByteSize ∧ isBlank c = false ∧
      (∃ t, e.parse (String.ofList p) = .ok t) ∧
      ∀ q, q <+: text.toList → err.position.offset < (String.ofList q).utf8ByteSize →
        ∀ u, e.parse (String.ofList q) ≠ .ok u := by
  rw [SyntaxError.message_eq_trailing] at hm
  rcases parse_eq_error.1 h with ⟨f, -, rfl⟩ | ⟨t, rest, hr, hne, rfl⟩
  · cases hm
  obtain ⟨p, hp, hpt⟩ := trailing_spells (fun _ => id) hr
  obtain ⟨c, cs, hcs⟩ := List.exists_cons_of_ne_nil hne
  have hc : isBlank c = false := by
    have hstop := stops_dropWhile isBlank rest
    rwa [hcs, stops_cons] at hstop
  have ho : (String.ofList p).utf8ByteSize =
      (positionOf text.toList (rest.dropWhile isBlank)).offset := by
    rw [hp, positionOf_append, after_offset]
  refine ⟨p, c, cs, by rw [hp, hcs], ho, ?_, hc, ⟨t, ?_⟩, fun q hq hlt u hu => ?_⟩
  · rw [← ho, ← String.ofList_toList (s := text), hp, hcs, String.ofList_append, String.ofList_cons]
    simp only [String.utf8ByteSize_append, String.utf8ByteSize_singleton]
    have := c.utf8Size_pos
    omega
  · rw [parse_eq_ok, String.toList_ofList]
    exact hpt
  · rw [parse_eq_ok, String.toList_ofList] at hu
    obtain ⟨z, hz⟩ := hq
    rw [← hz] at hr
    -- Read with all of the text in sight, the rule gets at least as far as `q` does.
    have hle := rule_reaches hr hu
    have hlen := congrArg List.length (hz.trans hp)
    simp only [List.length_append] at hlen
    have hqp : q <+: p := List.prefix_of_prefix_length_le ⟨z, hz⟩ ⟨_, hp.symm⟩ (by omega)
    have hbytes := utf8ByteSize_le_of_prefix hqp
    have hlt' : (positionOf text.toList (rest.dropWhile isBlank)).offset <
      (String.ofList q).utf8ByteSize := hlt
    omega

theorem trailing_error_longest_block :
    sink.parse "f(\"é\") {a} b" = .error ⟨.sink, .trailing, ⟨12, 1, 12⟩⟩ ∧
    (⟨.sink, .trailing, ⟨12, 1, 12⟩⟩ : SyntaxError).message = "unexpected trailing input" ∧
    ∃ p c rest, "f(\"é\") {a} b".toList = p ++ c :: rest ∧ (String.ofList p).utf8ByteSize = 12 ∧
      12 < "f(\"é\") {a} b".utf8ByteSize ∧ isBlank c = false ∧
      (∃ t, sink.parse (String.ofList p) = .ok t) ∧
      ∀ q, q <+: "f(\"é\") {a} b".toList → 12 < (String.ofList q).utf8ByteSize →
        ∀ u, sink.parse (String.ofList q) ≠ .ok u := by
  have h : sink.parse "f(\"é\") {a} b" = .error ⟨.sink, .trailing, ⟨12, 1, 12⟩⟩ := by rfl
  exact ⟨h, rfl, trailing_error_longest h rfl⟩

end Entry

end Pipeline
