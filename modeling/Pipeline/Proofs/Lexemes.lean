import Pipeline.Proofs.Decoding

/-!
# What tokens of a tree are

The tokens of a well-formed tree are names, literals and marks as the grammar has them
(`tokens_isLexeme`), and every literal in a tree is one of its tokens (`literal_mem_tokens`). What
the literals are like does not matter for the other tokens, so the first is proved with a predicate
for the literals (`tokens_isOf`).
-/

namespace Pipeline

open Token (word mark arrow separated isMark)

/-! ## Tokens -/

namespace Token

variable {P : Literal → Prop}

/-- Words are names of the grammar or literals in `P`, and marks are those of the grammar. -/
def IsOf (P : Literal → Prop) : Token → Prop
  | word w => (∃ n, IsName n ∧ w = n.toList) ∨ ∃ l, P l ∧ w = l.text.toList
  | mark c => isMark c
  | arrow => True

/-- Words are names or literals of the grammar. -/
def IsLexeme : Token → Prop :=
  IsOf Literal.WellFormed

/-- The tokens of a list are those of its parts and commas. -/
theorem mem_separated {t : Token} : ∀ {tss : List (List Token)}, t ∈ separated tss →
    t = mark ',' ∨ ∃ ts ∈ tss, t ∈ ts
  | [], h => by cases h
  | ts :: tss, h => by
    simp only [separated, List.mem_append, List.mem_flatMap, List.mem_cons] at h
    rcases h with h | ⟨us, hus, h | h⟩
    · exact .inr ⟨ts, List.mem_cons_self, h⟩
    · exact .inl h
    · exact .inr ⟨us, List.mem_cons_of_mem ts hus, h⟩

theorem infix_separated {ts : List Token} : ∀ {tss : List (List Token)}, ts ∈ tss →
    ts <:+: separated tss
  | us :: tss, h => by
    rcases List.mem_cons.1 h with rfl | h
    · exact (List.prefix_append ts _).isInfix
    · have hts : mark ',' :: ts <:+: tss.flatMap (mark ',' :: ·) := by
        rw [List.flatMap_def]
        exact List.infix_of_mem_flatten (List.mem_map_of_mem h)
      exact ((List.suffix_cons _ ts).isInfix.trans hts).trans (List.suffix_append us _).isInfix

theorem isOf_separated {tss : List (List Token)} (h : ∀ ts ∈ tss, ∀ t ∈ ts, t.IsOf P)
    {t : Token} (ht : t ∈ separated tss) : t.IsOf P := by
  rcases mem_separated ht with rfl | ⟨ts, hts, ht⟩
  · exact (rfl : isMark ',')
  · exact h ts hts t ht

end Token

open Token

section Tokens

variable {P : Literal → Prop}

mutual

/-- A value's tokens are of the class that its literals are in. -/
theorem value_isOf : ∀ (v : Value), v.WellFormedWith P → ∀ t ∈ v.tokens, t.IsOf P
  | .literal l, hl, t, ht => by
    cases List.mem_singleton.1 ht
    exact .inr ⟨l, hl, rfl⟩
  | .call c, hc, t, ht => call_isOf c hc t ht

theorem argument_isOf : ∀ (a : Argument), a.WellFormedWith P → ∀ t ∈ a.tokens, t.IsOf P
  | .positional v, hv, t, ht => value_isOf v hv t ht
  | .keyword n v, ⟨hn, hv⟩, t, ht => by
    rcases List.mem_cons.1 ht with rfl | ht
    · exact .inl ⟨n, hn, rfl⟩
    rcases List.mem_cons.1 ht with rfl | ht
    · exact (rfl : isMark '=')
    · exact value_isOf v hv t ht

theorem call_isOf : ∀ (c : Call), c.WellFormedWith P → ∀ t ∈ c.tokens, t.IsOf P
  | ⟨n, args⟩, ⟨hn, hargs, _⟩, t, ht => by
    simp only [Call.tokens, List.mem_cons, List.mem_append, List.not_mem_nil, or_false] at ht
    rcases ht with rfl | rfl | ht | rfl
    · exact .inl ⟨n, hn, rfl⟩
    · exact (rfl : isMark '(')
    · exact isOf_separated (arguments_isOf args hargs) ht
    · exact (rfl : isMark ')')

theorem arguments_isOf : ∀ (as : List Argument), Argument.AllWellFormedWith P as →
    ∀ ts ∈ Argument.allTokens as, ∀ t ∈ ts, t.IsOf P
  | [], _, _, hts => by cases hts
  | a :: as, ⟨ha, has⟩, ts, hts => by
    rcases List.mem_cons.1 hts with rfl | hts
    · exact argument_isOf a ha
    · exact arguments_isOf as has ts hts

end

theorem source_isOf : ∀ (d : Source), d.WellFormedWith P → ∀ t ∈ d.tokens, t.IsOf P
  | .name n, hn, t, ht => by
    cases List.mem_singleton.1 ht
    exact .inl ⟨n, hn, rfl⟩
  | .call c, hc, t, ht => call_isOf c hc t ht

mutual

theorem sink_isOf : ∀ (s : Sink), s.WellFormedWith P → ∀ t ∈ s.tokens, t.IsOf P
  | .name n, hn, t, ht => by
    cases List.mem_singleton.1 ht
    exact .inl ⟨n, hn, rfl⟩
  | .call c, hc, t, ht => call_isOf c hc t ht
  | .decorated d s, ⟨hd, hs⟩, t, ht => by
    simp only [Sink.tokens, List.mem_cons, List.mem_append, List.not_mem_nil, or_false] at ht
    rcases ht with rfl | ht | rfl | ht | rfl
    · exact (rfl : isMark '{')
    · exact source_isOf d hd t ht
    · trivial
    · exact sink_isOf s hs t ht
    · exact (rfl : isMark '}')
  | .fanOut ss, ⟨_, hss⟩, t, ht => by
    simp only [Sink.tokens, List.mem_cons, List.mem_append, List.not_mem_nil, or_false] at ht
    rcases ht with rfl | ht | rfl
    · exact (rfl : isMark '[')
    · exact isOf_separated (sinks_isOf ss hss) ht
    · exact (rfl : isMark ']')
  | .failover s u, ⟨hs, hu⟩, t, ht => by
    simp only [Sink.tokens, List.mem_cons, List.mem_append, List.not_mem_nil, or_false] at ht
    rcases ht with rfl | ht | rfl | ht | rfl
    · exact (rfl : isMark '<')
    · exact sink_isOf s hs t ht
    · exact (rfl : isMark '?')
    · exact sink_isOf u hu t ht
    · exact (rfl : isMark '>')
  | .block c s, ⟨hc, hs⟩, t, ht => by
    simp only [Sink.tokens, List.mem_cons, List.mem_append, List.not_mem_nil, or_false] at ht
    rcases ht with ht | rfl | ht | rfl
    · exact call_isOf c hc t ht
    · exact (rfl : isMark '{')
    · exact sink_isOf s hs t ht
    · exact (rfl : isMark '}')

theorem sinks_isOf : ∀ (ss : List Sink), Sink.AllWellFormedWith P ss →
    ∀ ts ∈ Sink.allTokens ss, ∀ t ∈ ts, t.IsOf P
  | [], _, _, hts => by cases hts
  | s :: ss, ⟨hs, hss⟩, ts, hts => by
    rcases List.mem_cons.1 hts with rfl | hts
    · exact sink_isOf s hs
    · exact sinks_isOf ss hss ts hts

end

end Tokens

namespace Entry

variable {P : Literal → Prop}

theorem tokens_isOf : ∀ (e : Entry) {t : e.Tree}, e.WellFormedWith P t →
    ∀ k ∈ e.tokens t, k.IsOf P
  | literal, l, hl, k, hk => by
    cases List.mem_singleton.1 hk
    exact .inr ⟨l, hl, rfl⟩
  | argument, a, ha, k, hk => argument_isOf a ha k hk
  | source, d, hd, k, hk => source_isOf d hd k hk
  | sink, s, hs, k, hk => sink_isOf s hs k hk

theorem tokens_isLexeme (e : Entry) {t : e.Tree} (ht : e.WellFormed t) :
    ∀ k ∈ e.tokens t, k.IsLexeme :=
  tokens_isOf e ht

end Entry

/-! ## Literals among the tokens -/

section Literals

variable {l : Literal}

mutual

theorem Value.literal_mem : ∀ {v : Value}, l ∈ v.literals → word l.text.toList ∈ v.tokens
  | .literal _, h => by
    cases List.mem_singleton.1 h
    exact List.mem_singleton_self _
  | .call _, h => Call.literal_mem h

theorem Argument.literal_mem : ∀ {a : Argument}, l ∈ a.literals → word l.text.toList ∈ a.tokens
  | .positional _, h => Value.literal_mem h
  | .keyword _ _, h => List.mem_cons_of_mem _ (List.mem_cons_of_mem _ (Value.literal_mem h))

theorem Call.literal_mem : ∀ {c : Call}, l ∈ c.literals → word l.text.toList ∈ c.tokens
  | ⟨_, _⟩, h => by
    obtain ⟨ts, hts, hl⟩ := Argument.literal_mem_all h
    simp only [Call.tokens, List.mem_cons, List.mem_append]
    exact .inr (.inr (.inl ((infix_separated hts).subset hl)))

theorem Argument.literal_mem_all : ∀ {as : List Argument}, l ∈ Argument.allLiterals as →
    ∃ ts ∈ Argument.allTokens as, word l.text.toList ∈ ts
  | [], h => nomatch h
  | _ :: _, h => by
    rcases List.mem_append.1 h with h | h
    · exact ⟨_, List.mem_cons_self, Argument.literal_mem h⟩
    · obtain ⟨ts, hts, hl⟩ := Argument.literal_mem_all h
      exact ⟨ts, List.mem_cons_of_mem _ hts, hl⟩

end

theorem Source.literal_mem : ∀ {d : Source}, l ∈ d.literals → word l.text.toList ∈ d.tokens
  | .name _, h => nomatch h
  | .call _, h => Call.literal_mem h

mutual

theorem Sink.literal_mem : ∀ {t : Sink}, l ∈ t.literals → word l.text.toList ∈ t.tokens
  | .name _, h => nomatch h
  | .call _, h => Call.literal_mem h
  | .decorated _ _, h => by
    simp only [Sink.tokens, List.mem_cons, List.mem_append]
    rcases List.mem_append.1 h with h | h
    · exact .inr (.inl (Source.literal_mem h))
    · exact .inr (.inr (.inr (.inl (Sink.literal_mem h))))
  | .fanOut _, h => by
    obtain ⟨ts, hts, hl⟩ := Sink.literal_mem_all h
    simp only [Sink.tokens, List.mem_cons, List.mem_append]
    exact .inr (.inl ((infix_separated hts).subset hl))
  | .failover _ _, h => by
    simp only [Sink.tokens, List.mem_cons, List.mem_append]
    rcases List.mem_append.1 h with h | h
    · exact .inr (.inl (Sink.literal_mem h))
    · exact .inr (.inr (.inr (.inl (Sink.literal_mem h))))
  | .block _ _, h => by
    simp only [Sink.tokens, List.mem_cons, List.mem_append]
    rcases List.mem_append.1 h with h | h
    · exact .inl (Call.literal_mem h)
    · exact .inr (.inr (.inl (Sink.literal_mem h)))

theorem Sink.literal_mem_all : ∀ {ts : List Sink}, l ∈ Sink.allLiterals ts →
    ∃ us ∈ Sink.allTokens ts, word l.text.toList ∈ us
  | [], h => nomatch h
  | _ :: _, h => by
    rcases List.mem_append.1 h with h | h
    · exact ⟨_, List.mem_cons_self, Sink.literal_mem h⟩
    · obtain ⟨us, hus, hl⟩ := Sink.literal_mem_all h
      exact ⟨us, List.mem_cons_of_mem _ hus, hl⟩

end

/-- A literal at any depth of a tree is one of its tokens. -/
theorem Entry.literal_mem_tokens : ∀ {e : Entry} {t : e.Tree}, l ∈ e.literals t →
    word l.text.toList ∈ e.tokens t
  | literal, _, h => by
    cases List.mem_singleton.1 h
    exact List.mem_singleton_self _
  | argument, _, h => Argument.literal_mem h
  | source, _, h => Source.literal_mem h
  | sink, _, h => Sink.literal_mem h

end Literals

end Pipeline
