import Pipeline.Proofs.Outcome
import Pipeline.Proofs.Run
import Pipeline.Rule.Sink

/-!
# Rules move forward

Every rule leaves an end of its text, whether it succeeds or fails (`LeavesEnd`). A rule that takes
a character or a name before anything else leaves a shorter one when it succeeds (`Forward`), no
matter what the nested rounds do as long as they leave ends. That settles all rules of the grammar
but `blanks`, `quotedBody` and the list between parentheses, which may read nothing.
-/

namespace Pipeline

namespace Rule

variable {α β : Type}

/-- What the rule leaves is an end of what it was given, whether it succeeds or fails. -/
def LeavesEnd (p : Rule α) : Prop :=
  ∀ s, (∀ a rest, p s = .ok (a, rest) → rest <:+ s) ∧ ∀ e, p s = .error e → e.rest <:+ s

/-- Every success reads something. -/
def Advances (p : Rule α) : Prop :=
  ∀ s a rest, p s = .ok (a, rest) → rest.length < s.length

/-- Every success leaves a shorter end, every failure an end. -/
structure Forward (p : Rule α) : Prop where
  leavesEnd : p.LeavesEnd
  advances : p.Advances

/-! ## Ends -/

section Ends

variable {p q : Rule α} {f : α → Rule β}

theorem LeavesEnd.length_le (hp : p.LeavesEnd) {s rest : List Char} {a : α}
    (h : p s = .ok (a, rest)) : rest.length ≤ s.length :=
  ((hp s).1 a rest h).length_le

theorem leavesEnd_pure (a : α) : (pure a : Rule α).LeavesEnd := by
  intro s
  refine ⟨fun b rest h => ?_, fun e h => ?_⟩
  · obtain ⟨-, rfl⟩ := pure_eq_ok.1 h
    exact List.suffix_rfl
  · cases h

theorem leavesEnd_fail : (fail : Rule α).LeavesEnd := by
  intro s
  refine ⟨fun a rest h => ?_, fun e h => ?_⟩
  · cases h
  · cases h
    exact List.suffix_rfl

theorem LeavesEnd.bind (hp : p.LeavesEnd) (hf : ∀ a, (f a).LeavesEnd) : (p >>= f).LeavesEnd := by
  intro s
  refine ⟨fun b rest h => ?_, fun e h => ?_⟩
  · obtain ⟨a, s₁, h₁, h₂⟩ := bind_eq_ok.1 h
    exact ((hf a s₁).1 b rest h₂).trans ((hp s).1 a s₁ h₁)
  · change Rule.bind p f s = .error e at h
    unfold Rule.bind at h
    split at h
    · rename_i a s₁ h₁
      exact ((hf a s₁).2 e h).trans ((hp s).1 a s₁ h₁)
    · rename_i e' h₁
      cases h
      exact (hp s).2 _ h₁

theorem LeavesEnd.commit (hp : p.LeavesEnd) : (commit p).LeavesEnd := by
  intro s
  refine ⟨fun a rest h => (hp s).1 a rest (commit_eq_ok.1 h), fun e h => ?_⟩
  unfold Rule.commit at h
  split at h
  · cases h
  · rename_i e' h'
    cases h
    exact (hp s).2 e' h'

theorem LeavesEnd.noting (n : Note) (hp : p.LeavesEnd) : (noting n p).LeavesEnd := by
  intro s
  refine ⟨fun a rest h => (hp s).1 a rest (noting_eq_ok.1 h), fun e h => ?_⟩
  unfold Rule.noting at h
  split at h
  · cases h
  · rename_i e' h'
    cases h
    exact (hp s).2 e' h'

theorem LeavesEnd.orElse (hp : p.LeavesEnd) (hq : q.LeavesEnd) : (p <|> q).LeavesEnd := by
  intro s
  refine ⟨fun a rest h => ?_, fun e h => ?_⟩
  · rcases orElse_eq_ok.1 h with h | ⟨-, h⟩
    · exact (hp s).1 a rest h
    · exact (hq s).1 a rest h
  · change Rule.orElse p q s = .error e at h
    unfold Rule.orElse at h
    split at h
    · cases h
    · rename_i e' h'
      split_ifs at h
      · cases h
        exact (hp s).2 _ h'
      · exact (hq s).2 e h

/-- Where the rule declines, the whole text is left, which is one of its own ends. -/
theorem LeavesEnd.optional (hp : p.LeavesEnd) : p.optional.LeavesEnd := by
  intro s
  refine ⟨fun o rest h => ?_, fun e h => ?_⟩
  · rcases optional_eq_ok.1 h with ⟨a, -, h⟩ | ⟨-, rfl, -⟩
    · exact (hp s).1 a rest h
    · exact List.suffix_rfl
  · unfold Rule.optional at h
    split at h
    · cases h
    · rename_i e' h'
      split_ifs at h
      cases h
      exact (hp s).2 _ h'

theorem leavesEnd_char (c : Char) : (char c).LeavesEnd := by
  intro s
  refine ⟨fun u rest h => ?_, fun e h => ?_⟩
  · rw [char_eq_ok.1 h]
    exact List.suffix_cons c rest
  · unfold char at h
    split at h
    · exact (leavesEnd_fail _).2 e h
    · split_ifs at h
      exact (leavesEnd_fail _).2 e h

theorem leavesEnd_closing (c : Char) : (closing c).LeavesEnd :=
  (leavesEnd_char c).noting _

theorem leavesEnd_ahead (g : Char → Bool) : (ahead g).LeavesEnd := by
  intro s
  refine ⟨fun u rest h => ?_, fun e h => ?_⟩
  · obtain ⟨rfl, -⟩ := ahead_eq_ok.1 h
    exact List.suffix_rfl
  · unfold ahead at h
    split at h
    · exact (leavesEnd_fail _).2 e h
    · split_ifs at h
      exact (leavesEnd_fail _).2 e h

theorem leavesEnd_chars (g : Char → Bool) : (chars g).LeavesEnd := by
  intro s
  refine ⟨fun t rest h => ?_, fun e h => ?_⟩
  · rw [← (chars_eq_ok.1 h).2]
    exact List.dropWhile_suffix _
  · cases h

theorem leavesEnd_chars₁ (g : Char → Bool) : (chars₁ g).LeavesEnd := by
  intro s
  refine ⟨fun t rest h => ?_, fun e h => ?_⟩
  · rw [← (chars₁_eq_ok.1 h).2.2]
    exact List.dropWhile_suffix _
  · unfold chars₁ at h
    split at h
    · exact (leavesEnd_fail _).2 e h
    · cases h

theorem leavesEnd_blanks : blanks.LeavesEnd := by
  intro s
  refine ⟨fun u rest h => ?_, fun e h => ?_⟩
  · rw [← blanks_eq_ok.1 h]
    exact List.dropWhile_suffix _
  · cases h

/-- However many rounds are left, each of them leaves an end of its text. -/
theorem leavesEnd_rounds {g : Rule α → Rule α}
    (hg : ∀ p : Rule α, p.LeavesEnd → (g p).LeavesEnd) : ∀ n, (rounds g n).LeavesEnd
  | 0, s => by
    refine ⟨fun a rest h => ?_, fun e h => ?_⟩
    · cases h
    · cases h
      exact List.suffix_rfl
  | n + 1, s => hg _ (leavesEnd_rounds hg n) s

theorem leavesEnd_recursive {g : Rule α → Rule α}
    (hg : ∀ p : Rule α, p.LeavesEnd → (g p).LeavesEnd) : (recursive g).LeavesEnd :=
  fun s => leavesEnd_rounds hg _ s

end Ends

/-! ## Shorter ends -/

section Forward

variable {p q : Rule α} {f : α → Rule β}

/-- One forward part makes a sequence go forward. -/
theorem Forward.bind (hp : p.Forward) (hf : ∀ a, (f a).LeavesEnd) : (p >>= f).Forward where
  leavesEnd := hp.leavesEnd.bind hf
  advances s b rest h := by
    obtain ⟨a, s₁, h₁, h₂⟩ := bind_eq_ok.1 h
    exact Nat.lt_of_le_of_lt ((hf a).length_le h₂) (hp.advances s a s₁ h₁)

/-- The rule behind one that may read nothing does the reading. -/
theorem Forward.behind (hp : p.LeavesEnd) (hf : ∀ a, (f a).Forward) : (p >>= f).Forward where
  leavesEnd := hp.bind fun a => (hf a).leavesEnd
  advances s b rest h := by
    obtain ⟨a, s₁, h₁, h₂⟩ := bind_eq_ok.1 h
    exact Nat.lt_of_lt_of_le ((hf a).advances s₁ b rest h₂) (hp.length_le h₁)

theorem Forward.commit (hp : p.Forward) : (commit p).Forward where
  leavesEnd := hp.leavesEnd.commit
  advances s a rest h := hp.advances s a rest (commit_eq_ok.1 h)

theorem Forward.noting (n : Note) (hp : p.Forward) : (noting n p).Forward where
  leavesEnd := hp.leavesEnd.noting n
  advances s a rest h := hp.advances s a rest (noting_eq_ok.1 h)

theorem Forward.orElse (hp : p.Forward) (hq : q.Forward) : (p <|> q).Forward where
  leavesEnd := hp.leavesEnd.orElse hq.leavesEnd
  advances s a rest h := by
    rcases orElse_eq_ok.1 h with h | ⟨-, h⟩
    · exact hp.advances s a rest h
    · exact hq.advances s a rest h

/-- One round is enough, since even at its bound the recursion leaves an end. -/
theorem forward_recursive {g : Rule α → Rule α} (hg : ∀ p : Rule α, p.LeavesEnd → (g p).Forward) :
    (recursive g).Forward where
  leavesEnd := leavesEnd_recursive fun p hp => (hg p hp).leavesEnd
  advances s := (hg _ (leavesEnd_rounds (fun p hp => (hg p hp).leavesEnd) s.length)).advances s

theorem forward_char (c : Char) : (char c).Forward where
  leavesEnd := leavesEnd_char c
  advances s u rest h := by
    rw [char_eq_ok.1 h]
    exact Nat.lt_succ_self _

theorem forward_chars₁ (g : Char → Bool) : (chars₁ g).Forward where
  leavesEnd := leavesEnd_chars₁ g
  advances s t rest h := by
    obtain ⟨ht, hs, hr⟩ := chars₁_eq_ok.1 h
    rw [run_append hs hr, List.length_append]
    exact Nat.lt_add_of_pos_left (List.length_pos_iff.2 ht)

end Forward

/-! ## Lists of items -/

section Items

variable {item : Rule α}

theorem forward_nextItem (hi : item.LeavesEnd) : (nextItem item).Forward :=
  .behind leavesEnd_blanks fun _ =>
    (forward_char _).bind fun _ => leavesEnd_blanks.bind fun _ => hi

/-- A list may be over before its first comma, so it need not go forward. -/
theorem leavesEnd_moreItems (hi : item.LeavesEnd) : (moreItems item).LeavesEnd := by
  refine leavesEnd_recursive fun more hmore => ?_
  refine (forward_nextItem hi).leavesEnd.optional.bind fun o => ?_
  rcases o with _ | a
  · exact leavesEnd_pure _
  · exact hmore.bind fun as => leavesEnd_pure _

theorem leavesEnd_items₁ (hi : item.LeavesEnd) : (items₁ item).LeavesEnd :=
  hi.bind fun _ => (leavesEnd_moreItems hi).bind fun _ => leavesEnd_pure _

theorem leavesEnd_items (hi : item.LeavesEnd) : (items item).LeavesEnd := by
  refine hi.optional.bind fun o => ?_
  rcases o with _ | a
  · exact leavesEnd_pure _
  · exact (leavesEnd_moreItems hi).bind fun as => leavesEnd_pure _

end Items

/-! ## Names and literals -/

theorem forward_name : name.Forward where
  leavesEnd := ((leavesEnd_ahead _).bind fun _ =>
    (leavesEnd_chars _).bind fun _ => leavesEnd_pure _).noting _
  advances s n rest h := by
    simp only [name, noting_eq_ok, bind_eq_ok, pure_eq_ok, ahead_eq_ok, chars_eq_ok] at h
    obtain ⟨-, -, ⟨rfl, c, cs, rfl, hc⟩, t, _, ⟨rfl, rfl⟩, rfl, rfl⟩ := h
    rw [List.dropWhile_cons_of_pos (isNamePart_of_isNameStart hc), List.length_cons]
    exact Nat.lt_succ_of_le (List.dropWhile_suffix _).length_le

section Literals

variable {s rest : List Char}

/-- The digits up to the first character that is none, as long as their value is within the
limit. -/
theorem natural_eq_ok {base : Nat} {f : Char → Bool} {ds : List Char} {n : Int64} :
    natural base f s = .ok ((ds, n), rest) ↔
      ds ≠ [] ∧ s.takeWhile f = ds ∧ s.dropWhile f = rest ∧ Numeral.value base ds < 1 <<< 63 ∧
        Int64.ofNat (Numeral.value base ds) = n := by
  unfold natural
  split
  · rename_i e h
    refine ⟨fun h' => ?_, fun h' => ?_⟩
    · cases h'
    · obtain ⟨hne, ht, hd, -⟩ := h'
      rw [chars₁_eq_ok.2 ⟨hne, ht, hd⟩] at h
      cases h
  · rename_i digits rest' h
    obtain ⟨hne, rfl, rfl⟩ := chars₁_eq_ok.1 h
    simp only
    split_ifs with hn
    · refine ⟨fun h' => ?_, fun h' => ?_⟩
      · cases h'
        exact ⟨hne, rfl, rfl, hn, rfl⟩
      · obtain ⟨-, rfl, rfl, -, rfl⟩ := h'
        rfl
    · refine ⟨fun h' => ?_, fun h' => ?_⟩
      · cases h'
      · obtain ⟨-, rfl, -, hn', -⟩ := h'
        exact absurd hn' hn

theorem forward_natural (base : Nat) (g : Char → Bool) : (natural base g).Forward where
  leavesEnd s := by
    refine ⟨fun a rest h => ?_, fun e h => ?_⟩
    · obtain ⟨-, -, rfl, -, -⟩ := natural_eq_ok.1 h
      exact List.dropWhile_suffix _
    · unfold natural at h
      split at h
      · rename_i e' h'
        cases h
        exact (leavesEnd_chars₁ g s).2 _ h'
      · simp only at h
        split_ifs at h
        cases h
        exact List.suffix_rfl
  advances s a rest h := by
    obtain ⟨hne, ht, hr, -, -⟩ := natural_eq_ok.1 h
    exact (forward_chars₁ g).advances s a.1 rest (chars₁_eq_ok.2 ⟨hne, ht, hr⟩)

theorem hexMarker_eq_ok {m : List Char} :
    hexMarker s = .ok (m, rest) ↔
      ∃ x, (x = 'x' ∨ x = 'X') ∧ m = ['0', x] ∧ s = '0' :: x :: rest := by
  unfold hexMarker
  split
  · simp [eq_comm]
  · simp [eq_comm]
  · rename_i h h'
    refine ⟨fun h'' => ?_, fun h'' => ?_⟩
    · cases h''
    · obtain ⟨x, rfl | rfl, -, rfl⟩ := h''
      · exact absurd rfl (h rest)
      · exact absurd rfl (h' rest)

theorem forward_hexMarker : hexMarker.Forward where
  leavesEnd s := by
    refine ⟨fun m rest h => ?_, fun e h => ?_⟩
    · obtain ⟨x, -, -, rfl⟩ := hexMarker_eq_ok.1 h
      exact ⟨['0', x], rfl⟩
    · unfold hexMarker at h
      split at h
      · cases h
      · cases h
      · exact (leavesEnd_fail _).2 e h
  advances s m rest h := by
    obtain ⟨x, -, -, rfl⟩ := hexMarker_eq_ok.1 h
    simp only [List.length_cons]
    omega

theorem forward_hexLiteral : hexLiteral.Forward :=
  forward_hexMarker.bind fun _ =>
    ((forward_natural _ _).leavesEnd.noting _).commit.bind fun (_, _) => leavesEnd_pure _

theorem forward_doubleLiteral : doubleLiteral.Forward :=
  .behind (leavesEnd_chars _) fun _ => (forward_char _).bind fun _ =>
    (leavesEnd_chars₁ _).bind fun _ => leavesEnd_pure _

theorem forward_decimalLiteral : decimalLiteral.Forward :=
  .behind (leavesEnd_ahead _) fun _ =>
    ((forward_natural _ _).noting _).commit.bind fun (_, _) => leavesEnd_pure _

/-- Induction on how the body is read, an escape taking two characters at once. -/
theorem body_suffix (s : List Char) : (Quoted.body s).2 <:+ s := by
  -- Cases: the end of the text, a backslash that ends it, a quote, an escape, any other character.
  fun_induction Quoted.body s with
  | case1 => exact List.suffix_rfl
  | case2 => exact List.suffix_rfl
  | case3 cs => exact List.suffix_rfl
  | case4 c cs b rest h ih =>
    rw [h] at ih
    exact ih.trans ⟨['\\', c], rfl⟩
  | case5 c cs _ _ _ b rest h ih =>
    rw [h] at ih
    exact ih.trans (List.suffix_cons c cs)

theorem leavesEnd_quotedBody : quotedBody.LeavesEnd := by
  intro s
  refine ⟨fun b rest h => ?_, fun e h => ?_⟩
  · unfold quotedBody at h
    have := body_suffix s
    rw [Except.ok.inj h] at this
    exact this
  · cases h

theorem forward_stringLiteral : stringLiteral.Forward :=
  (forward_char _).bind fun _ =>
    (leavesEnd_quotedBody.bind fun _ =>
      ((leavesEnd_char _).noting _).bind fun _ => leavesEnd_pure _).commit.bind fun _ =>
        leavesEnd_pure _

theorem forward_literal : literal.Forward :=
  (forward_hexLiteral.orElse (forward_doubleLiteral.orElse
    (forward_decimalLiteral.orElse forward_stringLiteral))).noting _

end Literals

/-! ## Values, arguments and calls -/

section Calls

variable {v : Rule Value}

/-- The alternative for a keyword argument. -/
theorem forward_keyword (hv : v.LeavesEnd) : (do
    let n ← name
    blanks
    char '='
    blanks
    return Argument.keyword n (← commit v) : Rule Argument).Forward :=
  forward_name.bind fun _ => leavesEnd_blanks.bind fun _ => (leavesEnd_char _).bind fun _ =>
    leavesEnd_blanks.bind fun _ => hv.commit.bind fun _ => leavesEnd_pure _

theorem leavesEnd_argumentOf (hv : v.LeavesEnd) : (argumentOf v).LeavesEnd :=
  (forward_keyword hv).leavesEnd.orElse (hv.bind fun _ => leavesEnd_pure _)

theorem forward_argumentOf (hv : v.Forward) : (argumentOf v).Forward :=
  (forward_keyword hv.leavesEnd).orElse (hv.bind fun _ => leavesEnd_pure _)

theorem leavesEnd_argumentListOf (hv : v.LeavesEnd) : (argumentListOf v).LeavesEnd := by
  refine (leavesEnd_items (leavesEnd_argumentOf hv)).bind fun args => ?_
  split
  · exact leavesEnd_pure _
  · exact leavesEnd_fail.noting _

theorem forward_argumentsOf (hv : v.LeavesEnd) : (argumentsOf v).Forward :=
  (forward_char _).bind fun _ => leavesEnd_blanks.bind fun _ =>
    ((leavesEnd_argumentListOf hv).bind fun _ => leavesEnd_blanks.bind fun _ =>
      (leavesEnd_closing _).bind fun _ => leavesEnd_pure _).commit

theorem leavesEnd_argumentsOf (hv : v.LeavesEnd) : (argumentsOf v).LeavesEnd :=
  (forward_argumentsOf hv).leavesEnd

theorem forward_callOf (hv : v.LeavesEnd) : (callOf v).Forward :=
  forward_name.bind fun _ => leavesEnd_blanks.bind fun _ =>
    (leavesEnd_argumentsOf hv).bind fun _ => leavesEnd_pure _

theorem forward_valueOf (hv : v.LeavesEnd) : (valueOf v).Forward :=
  ((forward_literal.bind fun _ => leavesEnd_pure _).orElse
    ((forward_callOf hv).bind fun _ => leavesEnd_pure _)).noting _

theorem leavesEnd_valueOf (hv : v.LeavesEnd) : (valueOf v).LeavesEnd :=
  (forward_valueOf hv).leavesEnd

theorem forward_value : value.Forward :=
  forward_recursive fun _ => forward_valueOf

theorem leavesEnd_value : value.LeavesEnd :=
  forward_value.leavesEnd

end Calls

/-! ## Sources and sinks -/

section Sinks

variable {k : Rule Sink}

theorem leavesEnd_argumentsIfAny : argumentsIfAny.LeavesEnd :=
  (leavesEnd_blanks.bind fun _ => leavesEnd_argumentsOf leavesEnd_value).optional

theorem forward_source : source.Forward := by
  refine forward_name.bind fun n => leavesEnd_argumentsIfAny.bind fun o => ?_
  rcases o with _ | args
  · exact leavesEnd_pure _
  · exact leavesEnd_pure _

theorem leavesEnd_arrow : arrow.LeavesEnd := by
  intro s
  refine ⟨fun u rest h => ?_, fun e h => ?_⟩
  · unfold arrow at h
    split at h
    · cases h
      exact ⟨['=', '>'], rfl⟩
    · cases h
  · unfold arrow at h
    split at h
    · cases h
    · exact (leavesEnd_fail _).2 e h

theorem forward_decoratedOf (hk : k.LeavesEnd) : (decoratedOf k).Forward :=
  (forward_char _).bind fun _ => leavesEnd_blanks.bind fun _ =>
    (forward_source.leavesEnd.bind fun _ => leavesEnd_blanks.bind fun _ =>
      (leavesEnd_arrow.noting _).bind fun _ => leavesEnd_blanks.bind fun _ => hk.bind fun _ =>
        leavesEnd_blanks.bind fun _ => (leavesEnd_closing _).bind fun _ => leavesEnd_pure _).commit

theorem forward_fanOutOf (hk : k.LeavesEnd) : (fanOutOf k).Forward :=
  (forward_char _).bind fun _ => leavesEnd_blanks.bind fun _ =>
    ((leavesEnd_items₁ hk).bind fun _ => leavesEnd_blanks.bind fun _ =>
      (leavesEnd_closing _).bind fun _ => leavesEnd_pure _).commit

theorem forward_failoverOf (hk : k.LeavesEnd) : (failoverOf k).Forward :=
  (forward_char _).bind fun _ => leavesEnd_blanks.bind fun _ =>
    (hk.bind fun _ => leavesEnd_blanks.bind fun _ => (leavesEnd_closing _).bind fun _ =>
      leavesEnd_blanks.bind fun _ => hk.bind fun _ => leavesEnd_blanks.bind fun _ =>
        (leavesEnd_closing _).bind fun _ => leavesEnd_pure _).commit

theorem leavesEnd_bodyOf (hk : k.LeavesEnd) : (bodyOf k).LeavesEnd :=
  (leavesEnd_blanks.bind fun _ => (leavesEnd_char _).bind fun _ => leavesEnd_blanks.bind fun _ =>
    (hk.bind fun _ => leavesEnd_blanks.bind fun _ => (leavesEnd_closing _).bind fun _ =>
      leavesEnd_pure _).commit).optional

theorem forward_namedOf (hk : k.LeavesEnd) : (namedOf k).Forward := by
  refine forward_name.bind fun n => leavesEnd_argumentsIfAny.bind fun o => ?_
  rcases o with _ | args
  · exact leavesEnd_pure _
  · refine (leavesEnd_bodyOf hk).bind fun b => ?_
    rcases b with _ | child
    · exact leavesEnd_pure _
    · exact leavesEnd_pure _

theorem forward_sinkOf (hk : k.LeavesEnd) : (sinkOf k).Forward :=
  ((forward_decoratedOf hk).orElse ((forward_fanOutOf hk).orElse
    ((forward_failoverOf hk).orElse (forward_namedOf hk)))).noting _

theorem leavesEnd_sinkOf (hk : k.LeavesEnd) : (sinkOf k).LeavesEnd :=
  (forward_sinkOf hk).leavesEnd

/-- A sink takes at least one character, so lists of sinks come to an end. -/
theorem forward_sink : sink.Forward :=
  forward_recursive fun _ => forward_sinkOf

theorem leavesEnd_sink : sink.LeavesEnd :=
  forward_sink.leavesEnd

end Sinks

end Rule

end Pipeline
