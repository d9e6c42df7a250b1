import Pipeline.Proofs.Lexeme

/-!
# What each rule reads

For every rule of calls, sources and sinks: when it succeeds, and when it declines, in terms of the
parts that it is made of (`callOf_eq_ok`, `declines_callOf`, and so on). Whoever argues about a rule
argues from these and not from its definition.
-/

namespace Pipeline

namespace Rule

variable {s rest : List Char}

/-! ## Items -/

section Items

variable {α : Type} {item : Rule α} {a : α} {as : List α}

/-- A further item stands behind its comma, with blanks on either side of it. -/
theorem nextItem_eq_ok : nextItem item s = .ok (a, rest) ↔
    ∃ s₁, s.dropWhile isBlank = ',' :: s₁ ∧ item (s₁.dropWhile isBlank) = .ok (a, rest) := by
  simp only [nextItem, bind_eq_ok, blanks_eq_ok, char_eq_ok]
  refine ⟨fun h => ?_, fun h => ?_⟩
  · obtain ⟨-, _, rfl, -, s₁, hs, -, _, rfl, h⟩ := h
    exact ⟨s₁, hs, h⟩
  · obtain ⟨s₁, hs, h⟩ := h
    exact ⟨(), _, rfl, (), s₁, hs, (), _, rfl, h⟩

theorem declines_nextItem (h : (s.dropWhile isBlank).head? ≠ some ',') :
    (nextItem item).Declines s :=
  declines_bind.2 (.inr ⟨(), _, rfl, declines_bind.2 (.inl (declines_char.2 h))⟩)

theorem items₁_eq_ok : items₁ item s = .ok (as, rest) ↔
    ∃ b bs s₁, as = b :: bs ∧ item s = .ok (b, s₁) ∧ moreItems item s₁ = .ok (bs, rest) := by
  simp only [items₁, bind_eq_ok, pure_eq_ok]
  refine ⟨fun h => ?_, fun h => ?_⟩
  · obtain ⟨b, s₁, h, bs, _, h', rfl, rfl⟩ := h
    exact ⟨b, bs, s₁, rfl, h, h'⟩
  · obtain ⟨b, bs, s₁, rfl, h, h'⟩ := h
    exact ⟨b, s₁, h, bs, rest, h', rfl, rfl⟩

/-- An empty list is read where an item declines, and takes no blanks. -/
theorem items_eq_ok : items item s = .ok (as, rest) ↔
    (as = [] ∧ s = rest ∧ item.Declines s) ∨ items₁ item s = .ok (as, rest) := by
  rw [items₁_eq_ok]
  simp only [items, bind_eq_ok]
  refine ⟨fun h => ?_, fun h => ?_⟩
  · obtain ⟨o, s₁, ho, h⟩ := h
    rcases optional_eq_ok.1 ho with ⟨b, rfl, hb⟩ | ⟨rfl, rfl, hd⟩
    · obtain ⟨bs, s₂, h', hp⟩ := bind_eq_ok.1 h
      obtain ⟨rfl, rfl⟩ := pure_eq_ok.1 hp
      exact .inr ⟨b, bs, s₁, rfl, hb, h'⟩
    · obtain ⟨rfl, rfl⟩ := pure_eq_ok.1 h
      exact .inl ⟨rfl, rfl, hd⟩
  · rcases h with ⟨rfl, rfl, hd⟩ | ⟨b, bs, s₁, rfl, hb, h'⟩
    · exact ⟨none, s, optional_of_declines hd, rfl⟩
    · exact ⟨some b, s₁, optional_of_ok hb, bind_eq_ok.2 ⟨bs, rest, h', rfl⟩⟩

end Items

/-! ## Brackets -/

section Brackets

variable {α : Type} {p : Rule α} {c : Char}

/-- What stands behind an opening bracket is committed to. -/
theorem opened_eq_ok {r : α × List Char} : (do char c; blanks; commit p : Rule α) s = .ok r ↔
    ∃ s₁, s = c :: s₁ ∧ p (s₁.dropWhile isBlank) = .ok r := by
  simp only [bind_eq_ok, char_eq_ok, blanks_eq_ok, commit_eq_ok]
  refine ⟨fun h => ?_, fun h => ?_⟩
  · obtain ⟨-, s₁, hs, -, _, rfl, h⟩ := h
    exact ⟨s₁, hs, h⟩
  · obtain ⟨s₁, hs, h⟩ := h
    exact ⟨(), s₁, hs, (), _, rfl, h⟩

theorem declines_opened :
    (do char c; blanks; commit p : Rule α).Declines s ↔ s.head? ≠ some c := by
  simp only [declines_bind, declines_char, not_declines_blanks, not_declines_commit, and_false,
    exists_false, or_false]

end Brackets

/-! ## Calls -/

section Calls

variable {v : Rule Value} {a : Argument} {args : List Argument} {c : Call} {w : Value}

/-- A name followed by the sign for equality is a keyword whatever comes after; any other text is
read again from its start as a value. -/
theorem argumentOf_eq_ok : argumentOf v s = .ok (a, rest) ↔
    (∃ n w s₁ s₂, a = .keyword n w ∧ name s = .ok (n, s₁) ∧ s₁.dropWhile isBlank = '=' :: s₂ ∧
      v (s₂.dropWhile isBlank) = .ok (w, rest)) ∨
    (∃ w, a = .positional w ∧ v s = .ok (w, rest) ∧ (name.Declines s ∨
      ∃ n s₁, name s = .ok (n, s₁) ∧ (s₁.dropWhile isBlank).head? ≠ some '=')) := by
  simp only [argumentOf, orElse_eq_ok, bind_eq_ok, declines_bind, blanks_eq_ok, char_eq_ok,
    commit_eq_ok, pure_eq_ok, declines_char, not_declines_blanks, not_declines_commit,
    not_declines_pure, and_false, exists_false, or_false, false_or]
  refine or_congr ⟨fun h => ?_, fun h => ?_⟩ ⟨fun h => ?_, fun h => ?_⟩
  · obtain ⟨n, s₁, hn, -, _, rfl, -, s₂, hs, -, _, rfl, w, _, h, rfl, rfl⟩ := h
    exact ⟨n, w, s₁, s₂, rfl, hn, hs, h⟩
  · obtain ⟨n, w, s₁, s₂, rfl, hn, hs, h⟩ := h
    exact ⟨n, s₁, hn, (), _, rfl, (), s₂, hs, (), _, rfl, w, rest, h, rfl, rfl⟩
  · obtain ⟨hd, w, _, h, rfl, rfl⟩ := h
    refine ⟨w, rfl, h, hd.imp_right fun hd => ?_⟩
    obtain ⟨n, s₁, hn, -, _, rfl, hs⟩ := hd
    exact ⟨n, s₁, hn, hs⟩
  · obtain ⟨w, rfl, h, hd⟩ := h
    refine ⟨hd.imp_right fun hd => ?_, w, rest, h, rfl, rfl⟩
    obtain ⟨n, s₁, hn, hs⟩ := hd
    exact ⟨n, s₁, hn, (), _, rfl, hs⟩

theorem declines_argumentOf (hn : name.Declines s) (hv : v.Declines s) :
    (argumentOf v).Declines s :=
  declines_orElse.2 ⟨declines_bind.2 (.inl hn), declines_bind.2 (.inl hv)⟩

/-- The order of the arguments is looked at once they are all read. -/
theorem argumentListOf_eq_ok : argumentListOf v s = .ok (args, rest) ↔
    items (argumentOf v) s = .ok (args, rest) ∧ positionalFirst args := by
  simp only [argumentListOf, bind_eq_ok]
  refine ⟨fun h => ?_, fun h => ?_⟩
  · obtain ⟨args', s₁, h, h'⟩ := h
    split_ifs at h' with ho
    · obtain ⟨rfl, rfl⟩ := pure_eq_ok.1 h'
      exact ⟨h, ho⟩
    · cases h'
  · refine ⟨args, rest, h.1, ?_⟩
    rw [if_pos h.2]
    rfl

theorem argumentsOf_eq_ok : argumentsOf v s = .ok (args, rest) ↔
    ∃ s₁ s₂, s = '(' :: s₁ ∧ argumentListOf v (s₁.dropWhile isBlank) = .ok (args, s₂) ∧
      s₂.dropWhile isBlank = ')' :: rest := by
  rw [argumentsOf, opened_eq_ok]
  simp only [bind_eq_ok, blanks_eq_ok, closing_eq_ok, pure_eq_ok]
  refine ⟨fun h => ?_, fun h => ?_⟩
  · obtain ⟨s₁, hs, args', s₂, h, -, _, hs₂, -, s₃, rfl, rfl, rfl⟩ := h
    exact ⟨s₁, s₂, hs, h, hs₂⟩
  · obtain ⟨s₁, s₂, hs, h, hs₂⟩ := h
    exact ⟨s₁, hs, args, s₂, h, (), _, hs₂, (), rest, rfl, rfl, rfl⟩

theorem declines_argumentsOf : (argumentsOf v).Declines s ↔ s.head? ≠ some '(' :=
  declines_opened

theorem callOf_eq_ok : callOf v s = .ok (c, rest) ↔
    ∃ n args s₁, c = ⟨n, args⟩ ∧ name s = .ok (n, s₁) ∧
      argumentsOf v (s₁.dropWhile isBlank) = .ok (args, rest) := by
  simp only [callOf, bind_eq_ok, blanks_eq_ok, pure_eq_ok]
  refine ⟨fun h => ?_, fun h => ?_⟩
  · obtain ⟨n, s₁, hn, -, _, rfl, args, _, h, rfl, rfl⟩ := h
    exact ⟨n, args, s₁, rfl, hn, h⟩
  · obtain ⟨n, args, s₁, rfl, hn, h⟩ := h
    exact ⟨n, s₁, hn, (), _, rfl, args, rest, h, rfl, rfl⟩

theorem declines_callOf : (callOf v).Declines s ↔
    name.Declines s ∨ ∃ n s₁, name s = .ok (n, s₁) ∧ (s₁.dropWhile isBlank).head? ≠ some '(' := by
  simp only [callOf, declines_bind, declines_argumentsOf, not_declines_blanks, not_declines_pure,
    blanks_eq_ok, and_false, exists_false, or_false, false_or]
  refine or_congr_right ⟨fun h => ?_, fun h => ?_⟩
  · obtain ⟨n, s₁, hn, -, _, rfl, h⟩ := h
    exact ⟨n, s₁, hn, h⟩
  · obtain ⟨n, s₁, hn, h⟩ := h
    exact ⟨n, s₁, hn, (), _, rfl, h⟩

/-- A literal is tried first, so a call is read only where no literal stands. -/
theorem valueOf_eq_ok : valueOf v s = .ok (w, rest) ↔
    (∃ l, w = .literal l ∧ literal s = .ok (l, rest)) ∨
    (∃ c, w = .call c ∧ literal.Declines s ∧ callOf v s = .ok (c, rest)) := by
  simp only [valueOf, noting_eq_ok, orElse_eq_ok, bind_eq_ok, declines_bind, pure_eq_ok,
    not_declines_pure, and_false, exists_false, or_false]
  refine ⟨fun h => ?_, fun h => ?_⟩
  · rcases h with ⟨l, _, h, rfl, rfl⟩ | ⟨hd, c, _, h, rfl, rfl⟩
    · exact .inl ⟨l, rfl, h⟩
    · exact .inr ⟨c, rfl, hd, h⟩
  · rcases h with ⟨l, rfl, h⟩ | ⟨c, rfl, hd, h⟩
    · exact .inl ⟨l, rest, h, rfl, rfl⟩
    · exact .inr ⟨hd, c, rest, h, rfl, rfl⟩

theorem declines_valueOf : (valueOf v).Declines s ↔ literal.Declines s ∧ (callOf v).Declines s := by
  simp only [valueOf, declines_noting, declines_orElse, declines_bind, not_declines_pure, and_false,
    exists_false, or_false]

end Calls

/-! ## Sources and sinks -/

section Sinks

variable {k : Rule Sink} {d : Source} {t : Sink}

/-- Where no argument list opens, the blanks before it are given back. -/
theorem argumentsIfAny_eq_ok {o : Option (List Argument)} : argumentsIfAny s = .ok (o, rest) ↔
    (∃ args, o = some args ∧ arguments (s.dropWhile isBlank) = .ok (args, rest)) ∨
    (o = none ∧ s = rest ∧ (s.dropWhile isBlank).head? ≠ some '(') := by
  simp only [argumentsIfAny_eq, optional_eq_ok, bind_eq_ok, blanks_eq_ok, arguments, declines_bind,
    declines_argumentsOf, not_declines_blanks, false_or]
  refine or_congr ⟨fun h => ?_, fun h => ?_⟩ ⟨fun h => ?_, fun h => ?_⟩
  · obtain ⟨args, rfl, -, _, rfl, h⟩ := h
    exact ⟨args, rfl, h⟩
  · obtain ⟨args, rfl, h⟩ := h
    exact ⟨args, rfl, (), _, rfl, h⟩
  · obtain ⟨rfl, rfl, -, _, rfl, h⟩ := h
    exact ⟨rfl, rfl, h⟩
  · obtain ⟨rfl, rfl, h⟩ := h
    exact ⟨rfl, rfl, (), _, rfl, h⟩

theorem source_eq_ok : source s = .ok (d, rest) ↔
    (∃ n, d = .name n ∧ name s = .ok (n, rest) ∧ (rest.dropWhile isBlank).head? ≠ some '(') ∨
    (∃ c, d = .call c ∧ call s = .ok (c, rest)) := by
  simp only [source, sourceOf, bind_eq_ok, call, callOf_eq_ok]
  refine ⟨fun h => ?_, fun h => ?_⟩
  · obtain ⟨n, s₁, hn, o, s₂, ho, h⟩ := h
    rcases argumentsIfAny_eq_ok.1 ho with ⟨args, rfl, ha⟩ | ⟨rfl, rfl, hs⟩
    · obtain ⟨rfl, rfl⟩ := pure_eq_ok.1 h
      exact .inr ⟨_, rfl, n, args, s₁, rfl, hn, ha⟩
    · obtain ⟨rfl, rfl⟩ := pure_eq_ok.1 h
      exact .inl ⟨n, rfl, hn, hs⟩
  · rcases h with ⟨n, rfl, hn, hs⟩ | ⟨c, rfl, n, args, s₁, rfl, hn, ha⟩
    · exact ⟨n, rest, hn, none, rest, argumentsIfAny_eq_ok.2 (.inr ⟨rfl, rfl, hs⟩), rfl⟩
    · exact ⟨n, s₁, hn, some args, rest, argumentsIfAny_eq_ok.2 (.inl ⟨args, rfl, ha⟩), rfl⟩

theorem arrow_eq_ok {u : Unit} : arrow s = .ok (u, rest) ↔ s = '=' :: '>' :: rest := by
  unfold arrow
  split
  · simp
  · rename_i h
    refine ⟨fun h' => ?_, fun h' => ?_⟩
    · cases h'
    · exact absurd h' (h rest)

theorem decoratedOf_eq_ok : decoratedOf k s = .ok (t, rest) ↔
    ∃ d child s₁ s₂ s₃ s₄, t = .decorated d child ∧ s = '{' :: s₁ ∧
      source (s₁.dropWhile isBlank) = .ok (d, s₂) ∧ s₂.dropWhile isBlank = '=' :: '>' :: s₃ ∧
      k (s₃.dropWhile isBlank) = .ok (child, s₄) ∧ s₄.dropWhile isBlank = '}' :: rest := by
  rw [decoratedOf, decoratedWith, opened_eq_ok]
  simp only [bind_eq_ok, blanks_eq_ok, noting_eq_ok, arrow_eq_ok, closing_eq_ok, pure_eq_ok]
  refine ⟨fun h => ?_, fun h => ?_⟩
  · obtain ⟨s₁, hs, d, s₂, hd, -, _, rfl, -, s₃, hs₃, -, _, rfl, child, s₄, hk, -, _, rfl, -, _,
      hs₄, rfl, rfl⟩ := h
    exact ⟨d, child, s₁, s₂, s₃, s₄, rfl, hs, hd, hs₃, hk, hs₄⟩
  · obtain ⟨d, child, s₁, s₂, s₃, s₄, rfl, hs, hd, hs₃, hk, hs₄⟩ := h
    exact ⟨s₁, hs, d, s₂, hd, (), _, rfl, (), s₃, hs₃, (), _, rfl, child, s₄, hk, (), _, rfl, (),
      rest, hs₄, rfl, rfl⟩

theorem fanOutOf_eq_ok : fanOutOf k s = .ok (t, rest) ↔
    ∃ ts s₁ s₂, t = .fanOut ts ∧ s = '[' :: s₁ ∧ items₁ k (s₁.dropWhile isBlank) = .ok (ts, s₂) ∧
      s₂.dropWhile isBlank = ']' :: rest := by
  rw [fanOutOf, opened_eq_ok]
  simp only [bind_eq_ok, blanks_eq_ok, closing_eq_ok, pure_eq_ok]
  refine ⟨fun h => ?_, fun h => ?_⟩
  · obtain ⟨s₁, hs, ts, s₂, hk, -, _, rfl, -, _, hs₂, rfl, rfl⟩ := h
    exact ⟨ts, s₁, s₂, rfl, hs, hk, hs₂⟩
  · obtain ⟨ts, s₁, s₂, rfl, hs, hk, hs₂⟩ := h
    exact ⟨s₁, hs, ts, s₂, hk, (), _, rfl, (), rest, hs₂, rfl, rfl⟩

theorem failoverOf_eq_ok : failoverOf k s = .ok (t, rest) ↔
    ∃ t₁ t₂ s₁ s₂ s₃ s₄, t = .failover t₁ t₂ ∧ s = '<' :: s₁ ∧
      k (s₁.dropWhile isBlank) = .ok (t₁, s₂) ∧ s₂.dropWhile isBlank = '?' :: s₃ ∧
      k (s₃.dropWhile isBlank) = .ok (t₂, s₄) ∧ s₄.dropWhile isBlank = '>' :: rest := by
  rw [failoverOf, opened_eq_ok]
  simp only [bind_eq_ok, blanks_eq_ok, closing_eq_ok, pure_eq_ok]
  refine ⟨fun h => ?_, fun h => ?_⟩
  · obtain ⟨s₁, hs, t₁, s₂, hk, -, _, rfl, -, s₃, hs₃, -, _, rfl, t₂, s₄, hk', -, _, rfl, -, _,
      hs₄, rfl, rfl⟩ := h
    exact ⟨t₁, t₂, s₁, s₂, s₃, s₄, rfl, hs, hk, hs₃, hk', hs₄⟩
  · obtain ⟨t₁, t₂, s₁, s₂, s₃, s₄, rfl, hs, hk, hs₃, hk', hs₄⟩ := h
    exact ⟨s₁, hs, t₁, s₂, hk, (), _, rfl, (), s₃, hs₃, (), _, rfl, t₂, s₄, hk', (), _, rfl, (),
      rest, hs₄, rfl, rfl⟩

theorem bodyOf_eq_ok {o : Option Sink} : bodyOf k s = .ok (o, rest) ↔
    (∃ child s₁ s₂, o = some child ∧ s.dropWhile isBlank = '{' :: s₁ ∧
      k (s₁.dropWhile isBlank) = .ok (child, s₂) ∧ s₂.dropWhile isBlank = '}' :: rest) ∨
    (o = none ∧ s = rest ∧ (s.dropWhile isBlank).head? ≠ some '{') := by
  simp only [bodyOf, optional_eq_ok, bind_eq_ok, blanks_eq_ok, char_eq_ok, commit_eq_ok,
    closing_eq_ok, pure_eq_ok, declines_bind, declines_char, not_declines_blanks,
    not_declines_commit, and_false, exists_false, or_false, false_or]
  refine or_congr ⟨fun h => ?_, fun h => ?_⟩ ⟨fun h => ?_, fun h => ?_⟩
  · obtain ⟨_, rfl, -, _, rfl, -, s₁, hs₁, -, _, rfl, child, s₂, hk, -, _, rfl, -, _, hs₂, rfl,
      rfl⟩ := h
    exact ⟨child, s₁, s₂, rfl, hs₁, hk, hs₂⟩
  · obtain ⟨child, s₁, s₂, rfl, hs₁, hk, hs₂⟩ := h
    exact ⟨child, rfl, (), _, rfl, (), s₁, hs₁, (), _, rfl, child, s₂, hk, (), _, rfl, (), rest,
      hs₂, rfl, rfl⟩
  · obtain ⟨rfl, rfl, -, _, rfl, h⟩ := h
    exact ⟨rfl, rfl, h⟩
  · obtain ⟨rfl, rfl, h⟩ := h
    exact ⟨rfl, rfl, (), _, rfl, h⟩

/-- The three sinks that begin with a name differ in what opens behind it: nothing, arguments, or
arguments and a body. -/
theorem namedOf_eq_ok : namedOf k s = .ok (t, rest) ↔
    (∃ n, t = .name n ∧ name s = .ok (n, rest) ∧ (rest.dropWhile isBlank).head? ≠ some '(') ∨
    (∃ c, t = .call c ∧ call s = .ok (c, rest) ∧ (rest.dropWhile isBlank).head? ≠ some '{') ∨
    (∃ c child s₁ s₂ s₃, t = .block c child ∧ call s = .ok (c, s₁) ∧
      s₁.dropWhile isBlank = '{' :: s₂ ∧ k (s₂.dropWhile isBlank) = .ok (child, s₃) ∧
      s₃.dropWhile isBlank = '}' :: rest) := by
  simp only [namedOf, namedWith, bind_eq_ok, call, callOf_eq_ok]
  refine ⟨fun h => ?_, fun h => ?_⟩
  · obtain ⟨n, s₁, hn, o, s₂, ho, h⟩ := h
    rcases argumentsIfAny_eq_ok.1 ho with ⟨args, rfl, ha⟩ | ⟨rfl, rfl, hs⟩
    · obtain ⟨b, s₃, hb, h⟩ := bind_eq_ok.1 h
      rcases bodyOf_eq_ok.1 hb with ⟨child, s₄, s₅, rfl, hs₄, hk, hs₅⟩ | ⟨rfl, rfl, hs⟩
      · obtain ⟨rfl, rfl⟩ := pure_eq_ok.1 h
        exact .inr (.inr ⟨_, child, s₂, s₄, s₅, rfl, ⟨n, args, s₁, rfl, hn, ha⟩, hs₄, hk, hs₅⟩)
      · obtain ⟨rfl, rfl⟩ := pure_eq_ok.1 h
        exact .inr (.inl ⟨_, rfl, ⟨n, args, s₁, rfl, hn, ha⟩, hs⟩)
    · obtain ⟨rfl, rfl⟩ := pure_eq_ok.1 h
      exact .inl ⟨n, rfl, hn, hs⟩
  · rcases h with ⟨n, rfl, hn, hs⟩ | ⟨_, rfl, ⟨n, args, s₁, rfl, hn, ha⟩, hs⟩ |
      ⟨_, child, s₂, s₄, s₅, rfl, ⟨n, args, s₁, rfl, hn, ha⟩, hs₄, hk, hs₅⟩
    · exact ⟨n, rest, hn, none, rest, argumentsIfAny_eq_ok.2 (.inr ⟨rfl, rfl, hs⟩), rfl⟩
    · exact ⟨n, s₁, hn, some args, rest, argumentsIfAny_eq_ok.2 (.inl ⟨args, rfl, ha⟩),
        bind_eq_ok.2 ⟨none, rest, bodyOf_eq_ok.2 (.inr ⟨rfl, rfl, hs⟩), rfl⟩⟩
    · exact ⟨n, s₁, hn, some args, s₂, argumentsIfAny_eq_ok.2 (.inl ⟨args, rfl, ha⟩),
        bind_eq_ok.2 ⟨some child, rest,
          bodyOf_eq_ok.2 (.inl ⟨child, s₄, s₅, rfl, hs₄, hk, hs₅⟩), rfl⟩⟩

theorem declines_decoratedOf : (decoratedOf k).Declines s ↔ s.head? ≠ some '{' :=
  declines_opened

theorem declines_fanOutOf : (fanOutOf k).Declines s ↔ s.head? ≠ some '[' :=
  declines_opened

theorem declines_failoverOf : (failoverOf k).Declines s ↔ s.head? ≠ some '<' :=
  declines_opened

/-- No mark opens such a sink, which keeps the four alternatives for sinks apart. -/
theorem exists_nameStart_of_namedOf (h : namedOf k s = .ok (t, rest)) :
    ∃ c cs, s = c :: cs ∧ isNameStart c := by
  obtain ⟨n, s₁, hn, -⟩ := bind_eq_ok.1 h
  obtain ⟨⟨hc, -⟩, -⟩ := name_eq_ok.1 hn
  exact ⟨_, _, rfl, hc⟩

/-- The forms of a sink differ in their first characters, so their order does not matter. -/
theorem sinkOf_eq_ok : sinkOf k s = .ok (t, rest) ↔
    decoratedOf k s = .ok (t, rest) ∨ fanOutOf k s = .ok (t, rest) ∨
      failoverOf k s = .ok (t, rest) ∨ namedOf k s = .ok (t, rest) := by
  simp only [sinkOf_eq, noting_eq_ok, orElse_eq_ok, declines_decoratedOf, declines_fanOutOf,
    declines_failoverOf]
  refine ⟨fun h => ?_, fun h => ?_⟩
  · rcases h with h | ⟨-, h | ⟨-, h | ⟨-, h⟩⟩⟩
    · exact .inl h
    · exact .inr (.inl h)
    · exact .inr (.inr (.inl h))
    · exact .inr (.inr (.inr h))
  · rcases h with h | h | h | h
    · exact .inl h
    · have hs : s.head? = some '[' := by
        obtain ⟨-, s₁, -, -, rfl, -⟩ := fanOutOf_eq_ok.1 h
        rfl
      exact .inr ⟨by simp [hs], .inl h⟩
    · have hs : s.head? = some '<' := by
        obtain ⟨-, -, s₁, -, -, -, -, rfl, -⟩ := failoverOf_eq_ok.1 h
        rfl
      exact .inr ⟨by simp [hs], .inr ⟨by simp [hs], .inl h⟩⟩
    · obtain ⟨c, cs, rfl, hc⟩ := exists_nameStart_of_namedOf h
      have hne : c ≠ '{' ∧ c ≠ '[' ∧ c ≠ '<' := by
        refine ⟨?_, ?_, ?_⟩ <;> rintro rfl <;> cases hc
      exact .inr ⟨by simp [hne], .inr ⟨by simp [hne], .inr ⟨by simp [hne], h⟩⟩⟩

end Sinks

end Rule

end Pipeline
