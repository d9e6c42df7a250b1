import Pipeline.Proofs.Layout

/-!
# Splitting a text into tokens

Nothing but blanks is lost when a text is split (`laidOut_split`). Where the text spells a tree,
what comes out are the tokens of the tree (`Spells.split_eq`), because the end of a word always
shows: what stands behind it is a blank or a mark. So a text can be read as a tree exactly if the
tree is well formed and its tokens are those of the text (`parse_eq_ok_iff_split`).
-/

namespace Pipeline

namespace Token

variable {c : Char} {s rest : List Char}

/-! ## One token -/

theorem split_quote (s : List Char) :
    split ('"' :: s) = word ('"' :: (splitQuoted s).1) :: (splitQuoted s).2 := by
  simp only [split]

theorem splitQuoted_escape (c : Char) (s : List Char) :
    splitQuoted ('\\' :: c :: s) = ('\\' :: c :: (splitQuoted s).1, (splitQuoted s).2) := by
  simp only [splitQuoted]

theorem splitQuoted_plain (hq : c ≠ '"') (hc : c ≠ '\\') (s : List Char) :
    splitQuoted (c :: s) = (c :: (splitQuoted s).1, (splitQuoted s).2) := by
  simp [splitQuoted, hc]

theorem split_blank (h : isBlank c) : split (c :: s) = split s := by
  simp only [isBlank, Bool.or_eq_true, decide_eq_true_eq] at h
  rcases h with ((rfl | rfl) | rfl) | rfl <;> rfl

theorem split_blanks (h : Blanks s rest) : split s = split rest := by
  obtain ⟨b, hb, rfl⟩ := h
  induction b with
  | nil => rfl
  | cons c b ih =>
    simp only [List.all_cons, Bool.and_eq_true] at hb
    rw [List.cons_append, split_blank hb.1, ih hb.2]

theorem split_mark (hb : isBlank c = false) (hw : isWordPart c = false) (hq : c ≠ '"')
    (ha : c = '=' → s.head? ≠ some '>') : split (c :: s) = mark c :: split s := by
  have ha' : ∀ cs, c = '=' → s = '>' :: cs → False := by
    rintro cs hc rfl
    exact ha hc rfl
  simp [split, hb, hw]

theorem split_wordPart (h : isWordPart c) : split (c :: s) = glue c s (split s) := by
  have hb := isBlank_of_isWordPart h
  have hq : c ≠ '"' := by
    rintro rfl
    cases h
  have ha : ∀ cs, c = '=' → s = '>' :: cs → False := by
    rintro cs rfl
    cases h
  simp [split, h, hb]

/-- Induction along a text and the strings in it, with one case for each way in which a text or the
rest of a string may start. -/
theorem split_induction {P Q : List Char → Prop} (empty : P [])
    (arrow : ∀ cs, P cs → P ('=' :: '>' :: cs))
    (quote : ∀ cs, Q cs → P ('"' :: cs))
    (blank : ∀ c cs, isBlank c → P cs → P (c :: cs))
    (wordPart : ∀ c cs, isBlank c = false → isWordPart c → P cs → P (c :: cs))
    (mark : ∀ c cs, isBlank c = false → isWordPart c = false → c ≠ '"' →
      (c = '=' → cs.head? ≠ some '>') → P cs → P (c :: cs))
    (unclosed : Q []) (unescaped : Q ['\\'])
    (closed : ∀ cs, P cs → Q ('"' :: cs))
    (escape : ∀ c cs, Q cs → Q ('\\' :: c :: cs))
    (plain : ∀ c cs, c ≠ '"' → c ≠ '\\' → Q cs → Q (c :: cs)) : (∀ s, P s) ∧ ∀ s, Q s := by
  refine split.mutual_induct P Q empty arrow (fun cs _ _ _ => quote cs)
    (fun c cs _ _ => blank c cs) (fun c cs _ _ hb => wordPart c cs (by simpa using hb)) ?_ unclosed
    unescaped closed (fun c cs _ _ _ => escape c cs) ?_
  · intro c cs ha hq hb hw
    refine mark c cs (by simpa using hb) (by simpa using hw) hq fun hc h => ?_
    obtain ⟨cs', rfl⟩ := List.head?_eq_some_iff.1 h
    exact ha cs' hc rfl
  · intro c cs h₁ hq h₂ _ _ _
    refine plain c cs hq ?_
    rintro rfl
    rcases cs with _ | ⟨d, cs⟩
    · exact h₁ rfl rfl
    · exact h₂ d cs rfl rfl

theorem glue_of_stops {ts : List Token} (h : Stops isWordPart s) :
    glue c s ts = word [c] :: ts := by
  have hs : s.head?.any isWordPart = false := by
    rw [Option.any_eq_false]
    intro d hd
    simp [h d hd]
  unfold glue
  rw [hs]

theorem glue_word {d : Char} {w : List Char} {ts : List Token} (h : isWordPart d) :
    glue c (d :: s) (word w :: ts) = word (c :: w) :: ts := by
  unfold glue
  rw [List.head?_cons, Option.any_some, h]

/-- Names and numbers end where nothing can be added to them. -/
theorem split_run {w : List Char} (hne : w ≠ []) (hw : w.all isWordPart)
    (hs : Stops isWordPart s) : split (w ++ s) = word w :: split s := by
  induction w with
  | nil => exact absurd rfl hne
  | cons c w ih =>
    simp only [List.all_cons, Bool.and_eq_true] at hw
    rw [List.cons_append, split_wordPart hw.1]
    rcases w with _ | ⟨d, w⟩
    · rw [List.nil_append, glue_of_stops hs]
    · rw [ih (List.cons_ne_nil d w) hw.2]
      simp only [List.all_cons, Bool.and_eq_true] at hw
      exact glue_word hw.2.1

/-- A quoted token ends at the first quote that is not escaped. -/
theorem splitQuoted_body {b : List Char} (h : StringBody b) :
    splitQuoted (b ++ '"' :: s) = (b ++ ['"'], split s) := by
  induction h with
  | nil => simp [splitQuoted]
  | plain h₁ h₂ _ ih => simp [splitQuoted, h₂, ih]
  | escape c _ ih => simp [splitQuoted, ih]

theorem all_isWordPart {f : Char → Bool} {cs : List Char} (h : cs.all f)
    (hf : ∀ c, f c → isNamePart c) : cs.all isWordPart :=
  List.all_eq_true.2 fun c hc => isWordPart_of_isNamePart (hf c (List.all_eq_true.1 h c hc))

theorem split_name {n : String} (h : NameAt s n rest) (hr : Stops isWordPart rest) :
    split s = word n.toList :: split rest := by
  obtain ⟨hc, hcs⟩ := h
  rename_i c cs
  have hw : (c :: cs).all isWordPart := by
    rw [List.all_cons, isWordPart_of_isNamePart (isNamePart_of_isNameStart hc),
      all_isWordPart hcs fun _ => id]
    rfl
  rw [String.toList_ofList, ← split_run (List.cons_ne_nil c cs) hw hr, List.cons_append]

theorem split_literal {l : Literal} (h : Literal.At s l rest) (hr : Stops isWordPart rest) :
    split s = word l.text.toList :: split rest := by
  rw [(literalAt_iff.1 h).2]
  cases h with
  | @decimal ds _ hne hds _ =>
    rw [Literal.text, String.toList_ofList]
    exact split_run hne (all_isWordPart hds fun _ => isNamePart_of_isDigit) hr
  | @hex x ds _ hx _ hds _ =>
    have hx' : isWordPart x := by
      rcases hx with rfl | rfl <;> rfl
    have hw : ('0' :: x :: ds).all isWordPart := by
      rw [List.all_cons, List.all_cons, hx', all_isWordPart hds fun _ => isNamePart_of_isHexDigit]
      rfl
    rw [Literal.text, String.toList_ofList]
    exact split_run (List.cons_ne_nil _ _) hw hr
  | @double ds ds' _ hds _ hds' =>
    have hw : (ds ++ '.' :: ds').all isWordPart := by
      rw [List.all_append, List.all_cons, all_isWordPart hds fun _ => isNamePart_of_isDigit,
        all_isWordPart hds' fun _ => isNamePart_of_isDigit]
      rfl
    rw [Literal.text, String.toList_ofList]
    exact split_run (by simp) hw hr
  | string hb => simp [Literal.text, split, splitQuoted_body hb]

/-! ## Nothing is lost -/

/-- Where the text starts with a word there are no blanks to skip. -/
theorem eq_of_blanks (h : Blanks s rest) (hs : s.head?.any isWordPart) : s = rest := by
  rcases h.eq_or with rfl | ⟨d, cs, rfl, hd⟩
  · rfl
  · rw [List.head?_cons, Option.any_some, isWordPart_of_isBlank hd] at hs
    cases hs

theorem LaidOut.glue {ts : List Token} (h : LaidOut s ts) : LaidOut (c :: s) (glue c s ts) := by
  unfold Token.glue
  split
  · rename_i w ts hs
    obtain ⟨r, h, hr⟩ := h
    obtain ⟨s₁, hb, h⟩ := laid_cons.1 h
    rw [eq_of_blanks hb hs]
    exact ⟨r, .cons (.refl _) h, hr⟩
  · exact h.cons (t := word [c])

/-- Within a string, the characters up to the closing quote are kept as they are. -/
theorem laidOut_split_both : (∀ s, LaidOut s (split s)) ∧
    ∀ s, ∃ rest, s = (splitQuoted s).1 ++ rest ∧ LaidOut rest (splitQuoted s).2 := by
  apply split_induction
  case empty => exact ⟨[], .nil, .refl []⟩
  case arrow =>
    intro cs ih
    exact ih.cons (t := arrow)
  case quote =>
    intro cs ih
    obtain ⟨rest, hs, h⟩ := ih
    have hw := h.cons (t := word ('"' :: (splitQuoted cs).1))
    rwa [chars, List.cons_append, ← hs, ← split_quote] at hw
  case blank =>
    intro c cs hb ih
    rw [split_blank hb]
    exact ih.behind_blanks ⟨[c], by simp [hb], rfl⟩
  case wordPart =>
    intro c cs _ hw ih
    rw [split_wordPart hw]
    exact ih.glue
  case mark =>
    intro c cs hb hw hq ha ih
    rw [split_mark hb hw hq ha]
    exact ih.cons (t := mark c)
  case unclosed => exact ⟨[], rfl, [], .nil, .refl []⟩
  case unescaped => exact ⟨[], rfl, [], .nil, .refl []⟩
  case closed =>
    intro cs ih
    exact ⟨cs, rfl, ih⟩
  case escape =>
    intro c cs ih
    obtain ⟨rest, hs, h⟩ := ih
    rw [splitQuoted_escape]
    exact ⟨rest, congrArg (fun cs => '\\' :: c :: cs) hs, h⟩
  case plain =>
    intro c cs hq hc ih
    obtain ⟨rest, hs, h⟩ := ih
    rw [splitQuoted_plain hq hc]
    exact ⟨rest, congrArg (c :: ·) hs, h⟩

/-- A text is a layout of its own tokens. -/
theorem laidOut_split (s : List Char) : LaidOut s (split s) :=
  laidOut_split_both.1 s

section Marks

variable {s₁ s₂ : List Char}

theorem stops_mark (h : Blanks s (c :: s₁)) (hc : isMark c) : Stops isWordPart s :=
  h.stops_word (stops_cons.2 (isMark_cases hc).2.1)

/-- A mark is a token by itself, unless it begins an arrow. -/
theorem split_behind_mark (h : Blanks s (c :: s₁)) (h₁ : Blanks s₁ s₂) (hc : isMark c)
    (ha : c = '=' → s₁.head? ≠ some '>') : split s = mark c :: split s₂ := by
  obtain ⟨hb, hw, hq⟩ := isMark_cases hc
  rw [split_blanks h, split_mark hb hw hq ha, split_blanks h₁]

theorem split_opening (c : Char) (h : Blanks s rest) (hc : isMark c) (ha : c ≠ '=') :
    split (c :: s) = mark c :: split rest :=
  split_behind_mark (.refl _) h hc fun h => absurd h ha

theorem head_ne_of_blanks (h : Blanks s rest) (hc : isBlank c = false)
    (hr : rest.head? ≠ some c) : s.head? ≠ some c := by
  rcases h.eq_or with rfl | ⟨d, cs, rfl, hd⟩
  · exact hr
  · rintro h
    cases h
    rw [hd] at hc
    cases hc

end Marks

end Token

/-! ## The tokens of a text that is spelled -/

open Token

section Spelled

variable {order : List Argument → Bool} {s rest : List Char}

/-- No value makes an arrow of an equals sign in front of it. -/
theorem Value.At.head_ne {v : Value} (h : Value.At order s v rest) : s.head? ≠ some '>' := by
  cases h with
  | literal h =>
    obtain ⟨c, cs, rfl, hc⟩ := h.exists_start
    rintro hs
    cases hs
    cases hc
  | call h =>
    obtain ⟨hn, -⟩ := h
    obtain ⟨c, cs, rfl, hc⟩ := hn.exists_start
    rintro hs
    cases hs
    cases hc

theorem stops_moreArguments {as : List Argument} (h : MoreArgumentsAt order s as rest)
    (hr : Stops isWordPart rest) : Stops isWordPart s := by
  cases h with
  | nil => exact hr
  | cons hb => exact stops_mark hb rfl

mutual

/-- A value's text splits into the value's tokens. -/
theorem value_split : ∀ (v : Value) {s rest : List Char}, Value.At order s v rest →
    Stops isWordPart rest → split s = v.tokens ++ split rest
  | .literal _, _, _, .literal h, hr => split_literal h hr
  | .call c, _, _, .call h, _ => call_split c h

theorem argument_split : ∀ (a : Argument) {s rest : List Char}, Argument.At order s a rest →
    Stops isWordPart rest → split s = a.tokens ++ split rest
  | .positional v, _, _, .positional h, hr => value_split v h hr
  | .keyword n v, _, _, .keyword hn hb hb₁ h, hr => by
    rw [split_name hn (stops_mark hb rfl), split_behind_mark hb hb₁ rfl, value_split v h hr]
    · rfl
    · exact fun _ => head_ne_of_blanks hb₁ rfl h.head_ne

theorem call_split : ∀ (c : Call) {s rest : List Char}, Call.At order s c rest →
    split s = c.tokens ++ split rest
  | ⟨n, args⟩, _, _, .mk hn hb hb₁ h _ hc => by
    rw [split_name hn (stops_mark hb rfl), split_behind_mark hb hb₁ rfl nofun,
      arguments_split args h (stops_mark hc rfl), split_behind_mark hc (.refl _) rfl nofun]
    simp [Call.tokens]

theorem arguments_split : ∀ (as : List Argument) {s rest : List Char},
    ArgumentsAt order s as rest → Stops isWordPart rest →
    split s = separated (Argument.allTokens as) ++ split rest
  | [], _, _, .nil, _ => rfl
  | a :: as, _, _, .cons h h', hr => by
    rw [argument_split a h (stops_moreArguments h' hr), moreArguments_split as h' hr]
    exact (List.append_assoc ..).symm

theorem moreArguments_split : ∀ (as : List Argument) {s rest : List Char},
    MoreArgumentsAt order s as rest → Stops isWordPart rest →
    split s = (Argument.allTokens as).flatMap (mark ',' :: ·) ++ split rest
  | [], _, _, .nil, _ => rfl
  | a :: as, _, _, .cons hb hb₁ h h', hr => by
    rw [split_behind_mark hb hb₁ rfl nofun, argument_split a h (stops_moreArguments h' hr),
      moreArguments_split as h' hr]
    simp [Argument.allTokens]

end

theorem source_split {d : Source} (h : Source.At order s d rest)
    (hr : Stops isWordPart rest) : split s = d.tokens ++ split rest := by
  cases h with
  | name hn => exact split_name hn hr
  | call hc => exact call_split _ hc

theorem stops_moreSinks {ts : List Sink} (h : MoreSinksAt order s ts rest)
    (hr : Stops isWordPart rest) : Stops isWordPart s := by
  cases h with
  | nil => exact hr
  | cons hb => exact stops_mark hb rfl

mutual

theorem sink_split : ∀ (t : Sink) {s rest : List Char}, Sink.At order s t rest →
    Stops isWordPart rest → split s = t.tokens ++ split rest
  | .name _, _, _, .name hn, hr => split_name hn hr
  | .call c, _, _, .call h, _ => call_split c h
  | .decorated d t, _, _, .decorated hb hd ha hb₁ (.mk h hc), _ => by
    rw [split_opening '{' hb rfl nofun, source_split hd (stops_mark ha rfl),
      split_blanks ha, split, split_blanks hb₁, sink_split t h (stops_mark hc rfl),
      split_behind_mark hc (.refl _) rfl nofun]
    simp [Sink.tokens]
  | .fanOut (t :: ts), _, _, .fanOut hb h h' hc, _ => by
    have hs := stops_mark hc rfl
    rw [split_opening '[' hb rfl nofun, sink_split t h (stops_moreSinks h' hs),
      moreSinks_split ts h' hs, split_behind_mark hc (.refl _) rfl nofun]
    simp [Sink.tokens, Sink.allTokens, separated]
  | .failover t u, _, _, .failover hb (.mk h hc) hb₁ (.mk h' hc'), _ => by
    rw [split_opening '<' hb rfl nofun, sink_split t h (stops_mark hc rfl),
      split_behind_mark hc hb₁ rfl nofun, sink_split u h' (stops_mark hc' rfl),
      split_behind_mark hc' (.refl _) rfl nofun]
    simp [Sink.tokens]
  | .block c t, _, _, .block h hb hb₁ (.mk h' hc), _ => by
    rw [call_split c h, split_behind_mark hb hb₁ rfl nofun, sink_split t h' (stops_mark hc rfl),
      split_behind_mark hc (.refl _) rfl nofun]
    simp [Sink.tokens]

theorem moreSinks_split : ∀ (ts : List Sink) {s rest : List Char},
    MoreSinksAt order s ts rest → Stops isWordPart rest →
    split s = (Sink.allTokens ts).flatMap (mark ',' :: ·) ++ split rest
  | [], _, _, .nil, _ => rfl
  | t :: ts, _, _, .cons hb hb₁ h h', hr => by
    rw [split_behind_mark hb hb₁ rfl nofun, sink_split t h (stops_moreSinks h' hr),
      moreSinks_split ts h' hr]
    simp [Sink.allTokens]

end

end Spelled

namespace Entry

variable {order : List Argument → Bool}

theorem at_split {s rest : List Char} : ∀ {e : Entry} {t : e.Tree},
    e.At order s t rest → Stops isWordPart rest → split s = e.tokens t ++ split rest
  | literal, _, h, hr => split_literal h hr
  | argument, t, h, hr => argument_split t h hr
  | source, _, h, hr => source_split h hr
  | sink, t, h, hr => sink_split t h hr

variable {e : Entry} {t : e.Tree}

/-- The tokens of a text are fixed by the tree that it spells. -/
theorem Spells.split_eq {text : List Char} (h : e.Spells order text t) :
    split text = e.tokens t := by
  obtain ⟨s, rest, hb, h, hr⟩ := h
  rw [split_blanks hb, at_split h (hr.stops_word stops_nil), split_blanks hr]
  exact List.append_nil _

/-- The tokens of a text are all that counts in it. -/
theorem parse_eq_ok_iff_split {text : String} :
    e.parse text = .ok t ↔ e.WellFormed t ∧ split text.toList = e.tokens t := by
  rw [parse_eq_ok]
  refine ⟨fun h => ⟨h.wellFormed, h.split_eq⟩, fun h => ?_⟩
  have hl := laidOut_split text.toList
  rw [h.2] at hl
  exact spells_of_laidOut h.1 hl

example : split "f(1.5,\t k = g( ) )".toList = split "f ( 1.5 , k=g() )".toList := by rfl

end Entry

end Pipeline
