import Pipeline.Proofs.ArgumentOrder
import Pipeline.Proofs.TokenPrefix

/-!
# The rule on the order of arguments

The rule can be checked on tokens alone. Those of a well-formed tree are in order
(`tokens_inOrder`), and a text of the grammar without the rule that is in order can be read, so
nothing else is forbidden by the rule (`Spells.parse_iff_inOrder`). What comes later cannot mend an
order that is wrong, for what begins a text that can be read is in order (`inOrder_of_parse`).
-/

namespace Pipeline

open Token

/-! ## Beginnings -/

section Begins

variable {lists : List Stage} {ts us : List Token}

/-- A positional argument has begun when its first tokens are there. -/
theorem Token.Begins.positionalAhead (h : Begins ts us) (hp : positionalAhead ts) :
    positionalAhead us := by
  cases h with
  | nil => cases hp
  | @cons t ts us h =>
    cases t with
    | word w =>
      simp only [Token.positionalAhead, Bool.or_eq_true, decide_eq_true_eq] at hp ⊢
      refine hp.imp_right fun hp => ?_
      cases h with
      | cons => exact hp
      | nil | word | arrow => cases hp
    | mark c => cases hp
    | arrow => cases hp
  | word =>
    have hc := by simpa [Token.positionalAhead] using hp
    simp [Token.positionalAhead, hc]
  | arrow => cases hp

/-- What begins a text in order is in order. -/
theorem Token.Begins.inOrder (h : Begins ts us) (hu : inOrder lists us) : inOrder lists ts := by
  induction h generalizing lists with
  | nil => rfl
  | @cons t ts us h ih =>
    obtain ⟨hp, hu⟩ := inOrder_cons_iff.1 hu
    exact inOrder_cons_iff.2 ⟨fun hk ht => hp hk ((Begins.cons h).positionalAhead ht), ih hu⟩
  | word h =>
    obtain ⟨hp, -⟩ := inOrder_cons_iff.1 hu
    exact inOrder_cons_iff.2 ⟨fun hk ht => hp hk ((Begins.word h).positionalAhead ht), rfl⟩
  | arrow => exact inOrder_mark rfl

end Begins

/-! ## Well-formed trees are in order -/

section WellFormed

variable {lists : List Stage} {us : List Token}

/-- A name with an equals sign behind it begins no positional argument. -/
theorem not_positionalAhead_bound {n : String} (hn : IsName n) (us : List Token) :
    ¬ positionalAhead (word n.toList :: mark '=' :: us) := by
  obtain ⟨c, cs, hcs, hc⟩ := NameAt.exists_start hn
  have hs := NameAt.stops_literal hn
  rw [hcs, stops_cons] at hs
  simp [positionalAhead, hcs, hs]

theorem positionalFirst_append_cons {args as : List Argument} {a : Argument}
    (h : positionalFirst (args ++ a :: as)) :
    a.isKeyword ∨ args.any Argument.isKeyword = false := by
  rw [positionalFirst_iff, List.pairwise_append] at h
  exact forall_isKeyword_iff.1 fun b hb => h.2.2 b hb a List.mem_cons_self

theorem behind_append_singleton {args : List Argument} {a : Argument}
    (h : a.isKeyword ∨ args.any Argument.isKeyword = false) :
    Stage.behind (args ++ [a]) = if a.isKeyword then .bound else Stage.before args := by
  cases ha : a.isKeyword
  · have hargs := h.resolve_left (by simp [ha])
    simp [Stage.behind, Stage.before, ha, hargs]
  · simp [Stage.behind, ha]

mutual

/-- The tokens of a well formed value are in order wherever a positional argument may stand. -/
theorem value_inOrder : ∀ (v : Value) {lists : List Stage} {us : List Token}, v.WellFormed →
    lists.head? ≠ some .keyword → inOrder lists us → inOrder lists (v.tokens ++ us)
  | .literal _, _, _, _, hl, h => inOrder_word hl h
  | .call c, _, _, hw, hl, h => call_inOrder c hw hl h

theorem argument_inOrder : ∀ (a : Argument) {g : Stage} {lists : List Stage} {us : List Token},
    a.WellFormed → a.isKeyword ∨ g ≠ .keyword →
    inOrder ((if a.isKeyword then .bound else g) :: lists) us →
    inOrder (g :: lists) (a.tokens ++ us)
  | .positional v, g, lists, us, hw, hg, h => by
    have hl : (g :: lists).head? ≠ some .keyword := by
      rintro hk
      cases hk
      rcases hg with hg | hg
      · cases hg
      · exact hg rfl
    exact value_inOrder v hw hl h
  | .keyword n v, g, lists, us, hw, _, h => by
    have hv : inOrder (.bound :: lists) (v.tokens ++ us) := value_inOrder v hw.2 nofun h
    refine inOrder_cons_iff.2 ⟨fun _ => not_positionalAhead_bound hw.1 _, ?_⟩
    rw [advance_word]
    exact inOrder_mark hv

theorem call_inOrder : ∀ (c : Call) {lists : List Stage} {us : List Token}, c.WellFormed →
    lists.head? ≠ some .keyword → inOrder lists us → inOrder lists (c.tokens ++ us)
  | ⟨n, args⟩, lists, us, hw, hl, h => by
    have ha : inOrder (.positional :: lists)
        (separated (Argument.allTokens args) ++ mark ')' :: us) :=
      arguments_inOrder args hw.2.1 hw.2.2 fun g => inOrder_mark h
    simp only [Call.tokens, List.cons_append, List.append_assoc, List.nil_append]
    exact inOrder_word hl (inOrder_mark ha)

theorem arguments_inOrder : ∀ (as : List Argument) {lists : List Stage} {us : List Token},
    Argument.AllWellFormed as → positionalFirst as → (∀ g, inOrder (g :: lists) us) →
    inOrder (.positional :: lists) (separated (Argument.allTokens as) ++ us)
  | [], _, _, _, _, h => h _
  | a :: as, lists, us, hw, ho, h => by
    rw [Argument.allTokens, separated, List.append_assoc]
    have hm : inOrder (Stage.behind ([] ++ [a]) :: lists)
        ((Argument.allTokens as).flatMap (mark ',' :: ·) ++ us) :=
      moreArguments_inOrder as hw.2 ho h
    rw [behind_append_singleton (.inr rfl)] at hm
    exact argument_inOrder a hw.1 (.inr nofun) hm

theorem moreArguments_inOrder : ∀ (as : List Argument) {args : List Argument}
    {lists : List Stage} {us : List Token}, Argument.AllWellFormed as →
    positionalFirst (args ++ as) → (∀ g, inOrder (g :: lists) us) →
    inOrder (Stage.behind args :: lists) ((Argument.allTokens as).flatMap (mark ',' :: ·) ++ us)
  | [], _, _, _, _, _, h => h _
  | a :: as, args, lists, us, hw, ho, h => by
    have hk := positionalFirst_append_cons ho
    rw [← List.singleton_append, ← List.append_assoc] at ho
    have hm := moreArguments_inOrder as hw.2 ho h
    rw [Argument.allTokens, List.flatMap_cons, List.append_assoc, List.cons_append]
    refine inOrder_mark ?_
    rw [advance_comma]
    refine argument_inOrder a hw.1 (hk.imp_right fun hp => ?_) ?_
    · simp [Stage.before, hp]
    · rwa [behind_append_singleton hk] at hm

end

theorem source_inOrder {d : Source} (hd : d.WellFormed) (h : inOrder [] us) :
    inOrder [] (d.tokens ++ us) := by
  cases d with
  | name n => exact inOrder_word nofun h
  | call c => exact call_inOrder c hd nofun h

mutual

theorem sink_inOrder : ∀ (t : Sink) {us : List Token}, t.WellFormed → inOrder [] us →
    inOrder [] (t.tokens ++ us)
  | .name _, _, _, h => inOrder_word nofun h
  | .call c, _, hw, h => call_inOrder c hw nofun h
  | .decorated d t, us, hw, h => by
    have ht : inOrder [] (t.tokens ++ mark '}' :: us) := sink_inOrder t hw.2 (inOrder_mark h)
    have hd : inOrder [] (d.tokens ++ Token.arrow :: (t.tokens ++ mark '}' :: us)) :=
      source_inOrder hw.1 (inOrder_cons_iff.2 ⟨nofun, ht⟩)
    simp only [Sink.tokens, List.cons_append, List.append_assoc, List.nil_append]
    exact inOrder_mark hd
  | .fanOut ts, us, hw, h => by
    have hts : inOrder [] (separated (Sink.allTokens ts) ++ mark ']' :: us) :=
      sinks_inOrder ts hw.2 (inOrder_mark h)
    simp only [Sink.tokens, List.cons_append, List.append_assoc, List.nil_append]
    exact inOrder_mark hts
  | .failover t u, us, hw, h => by
    have hu : inOrder [] (u.tokens ++ mark '>' :: us) := sink_inOrder u hw.2 (inOrder_mark h)
    have ht : inOrder [] (t.tokens ++ mark '?' :: (u.tokens ++ mark '>' :: us)) :=
      sink_inOrder t hw.1 (inOrder_mark hu)
    simp only [Sink.tokens, List.cons_append, List.append_assoc, List.nil_append]
    exact inOrder_mark ht
  | .block c t, us, hw, h => by
    have ht : inOrder [] (t.tokens ++ mark '}' :: us) := sink_inOrder t hw.2 (inOrder_mark h)
    have hc : inOrder [] (c.tokens ++ mark '{' :: (t.tokens ++ mark '}' :: us)) :=
      call_inOrder c hw.1 nofun (inOrder_mark ht)
    simpa [Sink.tokens] using hc

theorem sinks_inOrder : ∀ (ts : List Sink) {us : List Token}, Sink.AllWellFormed ts →
    inOrder [] us → inOrder [] (separated (Sink.allTokens ts) ++ us)
  | [], _, _, h => h
  | t :: ts, us, hw, h => by
    rw [Sink.allTokens, separated, List.append_assoc]
    exact sink_inOrder t hw.1 (moreSinks_inOrder ts hw.2 h)

theorem moreSinks_inOrder : ∀ (ts : List Sink) {us : List Token}, Sink.AllWellFormed ts →
    inOrder [] us → inOrder [] ((Sink.allTokens ts).flatMap (mark ',' :: ·) ++ us)
  | [], _, _, h => h
  | t :: ts, us, hw, h => by
    rw [Sink.allTokens, List.flatMap_cons, List.append_assoc]
    exact inOrder_mark (sink_inOrder t hw.1 (moreSinks_inOrder ts hw.2 h))

end

end WellFormed

/-! ## Where the order is all that can be wrong -/

section Spelled

variable {order : List Argument → Bool} {lists : List Stage} {us : List Token} {s rest : List Char}

mutual

theorem value_wellFormed_of_inOrder : ∀ (v : Value) {s rest : List Char} {lists : List Stage}
    {us : List Token}, Value.At order s v rest → inOrder lists (v.tokens ++ us) → v.WellFormed
  | .literal _, _, _, _, _, .literal h, _ => (literalAt_iff.1 h).1
  | .call c, _, _, _, _, .call h, ho => call_wellFormed_of_inOrder c h ho

theorem argument_wellFormed_of_inOrder : ∀ (a : Argument) {s rest : List Char}
    {lists : List Stage} {us : List Token}, Argument.At order s a rest →
    inOrder lists (a.tokens ++ us) → a.WellFormed
  | .positional v, _, _, _, _, .positional h, ho => value_wellFormed_of_inOrder v h ho
  | .keyword _ v, _, _, _, _, .keyword hn _ _ h, ho =>
    ⟨(nameAt_iff.1 hn).1, value_wellFormed_of_inOrder v h (inOrder_cons (inOrder_cons ho))⟩

/-- Conversely, tokens in order leave no list of the call out of order. -/
theorem call_wellFormed_of_inOrder : ∀ (c : Call) {s rest : List Char} {lists : List Stage}
    {us : List Token}, Call.At order s c rest → inOrder lists (c.tokens ++ us) → c.WellFormed
  | ⟨n, args⟩, _, _, lists, us, .mk hn _ _ h _ _, ho => by
    simp only [Call.tokens, List.cons_append, List.append_assoc] at ho
    have hl := inOrder_cons (inOrder_cons ho)
    rw [advance_word, advance] at hl
    have hw := arguments_wellFormed_of_inOrder args h hl
    exact ⟨(nameAt_iff.1 hn).1, hw, (inOrder_arguments hw hl).1⟩

theorem arguments_wellFormed_of_inOrder : ∀ (as : List Argument) {s rest : List Char}
    {lists : List Stage} {us : List Token}, ArgumentsAt order s as rest →
    inOrder lists (separated (Argument.allTokens as) ++ us) → Argument.AllWellFormed as
  | [], _, _, _, _, _, _ => trivial
  | a :: as, _, _, lists, us, .cons h h', ho => by
    rw [Argument.allTokens, separated, List.append_assoc] at ho
    exact ⟨argument_wellFormed_of_inOrder a h ho,
      moreArguments_wellFormed_of_inOrder as h' (inOrder_append ho)⟩

theorem moreArguments_wellFormed_of_inOrder : ∀ (as : List Argument) {s rest : List Char}
    {lists : List Stage} {us : List Token}, MoreArgumentsAt order s as rest →
    inOrder lists ((Argument.allTokens as).flatMap (mark ',' :: ·) ++ us) →
    Argument.AllWellFormed as
  | [], _, _, _, _, _, _ => trivial
  | a :: as, _, _, lists, us, .cons _ _ h h', ho => by
    rw [Argument.allTokens, List.flatMap_cons, List.append_assoc] at ho
    have ho' := inOrder_cons ho
    exact ⟨argument_wellFormed_of_inOrder a h ho',
      moreArguments_wellFormed_of_inOrder as h' (inOrder_append ho')⟩

end

theorem source_wellFormed_of_inOrder {d : Source} (h : Source.At order s d rest)
    (ho : inOrder lists (d.tokens ++ us)) : d.WellFormed := by
  cases h with
  | name hn => exact (nameAt_iff.1 hn).1
  | call hc => exact call_wellFormed_of_inOrder _ hc ho

mutual

theorem sink_wellFormed_of_inOrder : ∀ (t : Sink) {s rest : List Char} {lists : List Stage}
    {us : List Token}, Sink.At order s t rest → inOrder lists (t.tokens ++ us) → t.WellFormed
  | .name _, _, _, _, _, .name hn, _ => (nameAt_iff.1 hn).1
  | .call c, _, _, _, _, .call h, ho => call_wellFormed_of_inOrder c h ho
  | .decorated d t, _, _, lists, us, .decorated _ hd _ _ (.mk h _), ho => by
    simp only [Sink.tokens, List.cons_append, List.append_assoc] at ho
    have hd' := inOrder_cons ho
    exact ⟨source_wellFormed_of_inOrder hd hd',
      sink_wellFormed_of_inOrder t h (inOrder_cons (inOrder_append hd'))⟩
  | .fanOut (t :: ts), _, _, lists, us, .fanOut _ h h' _, ho => by
    simp only [Sink.tokens, Sink.allTokens, separated, List.cons_append, List.append_assoc] at ho
    have ht := inOrder_cons ho
    exact ⟨List.cons_ne_nil t ts, sink_wellFormed_of_inOrder t h ht,
      moreSinks_wellFormed_of_inOrder ts h' (inOrder_append ht)⟩
  | .failover t u, _, _, lists, us, .failover _ (.mk h _) _ (.mk h' _), ho => by
    simp only [Sink.tokens, List.cons_append, List.append_assoc] at ho
    have ht := inOrder_cons ho
    exact ⟨sink_wellFormed_of_inOrder t h ht,
      sink_wellFormed_of_inOrder u h' (inOrder_cons (inOrder_append ht))⟩
  | .block c t, _, _, lists, us, .block h _ _ (.mk h' _), ho => by
    simp only [Sink.tokens, List.cons_append, List.append_assoc] at ho
    exact ⟨call_wellFormed_of_inOrder c h ho,
      sink_wellFormed_of_inOrder t h' (inOrder_cons (inOrder_append ho))⟩

theorem moreSinks_wellFormed_of_inOrder : ∀ (ts : List Sink) {s rest : List Char}
    {lists : List Stage} {us : List Token}, MoreSinksAt order s ts rest →
    inOrder lists ((Sink.allTokens ts).flatMap (mark ',' :: ·) ++ us) → Sink.AllWellFormed ts
  | [], _, _, _, _, _, _ => trivial
  | t :: ts, _, _, lists, us, .cons _ _ h h', ho => by
    rw [Sink.allTokens, List.flatMap_cons, List.append_assoc] at ho
    have ho' := inOrder_cons ho
    exact ⟨sink_wellFormed_of_inOrder t h ho',
      moreSinks_wellFormed_of_inOrder ts h' (inOrder_append ho')⟩

end

end Spelled

namespace Entry

variable {e : Entry} {t : e.Tree}

/-- A tree that was spelled without regard to the order is well formed if its tokens are in
order. -/
theorem wellFormed_of_inOrder {order : List Argument → Bool} {s rest : List Char}
    (h : e.At order s t rest) (ho : inOrder [] (e.tokens t)) : e.WellFormed t := by
  rw [← List.append_nil (e.tokens t)] at ho
  cases e with
  | literal => exact (literalAt_iff.1 h).1
  | argument => exact argument_wellFormed_of_inOrder t h ho
  | source => exact source_wellFormed_of_inOrder h ho
  | sink => exact sink_wellFormed_of_inOrder t h ho

theorem tokens_inOrder (hw : e.WellFormed t) : inOrder [] (e.tokens t) := by
  rw [← List.append_nil (e.tokens t)]
  cases e with
  | literal => exact inOrder_word nofun rfl
  | argument =>
    cases t with
    | positional v => exact value_inOrder v hw nofun rfl
    | keyword n v =>
      have hv : inOrder [] (v.tokens ++ []) := value_inOrder v hw.2 nofun rfl
      exact inOrder_word nofun (inOrder_mark hv)
  | source => exact source_inOrder hw rfl
  | sink => exact sink_inOrder t hw rfl

/-- What the grammar spells under any rule on the order of arguments can be read if it is in order,
and only then. -/
theorem Spells.parse_iff_inOrder {order : List Argument → Bool} {text : String}
    (h : e.Spells order text.toList t) :
    e.parse text = .ok t ↔ inOrder [] (split text.toList) := by
  rw [parse_eq_ok_iff_split, h.split_eq, and_iff_left rfl]
  refine ⟨tokens_inOrder, fun ho => ?_⟩
  obtain ⟨s, rest, -, ht, -⟩ := h
  exact wellFormed_of_inOrder ht ho

/-- What begins a text that can be read is in order. -/
theorem inOrder_of_parse {p x : List Char} (h : e.parse (String.ofList (p ++ x)) = .ok t) :
    inOrder [] (split p) := by
  obtain ⟨hw, hs⟩ := parse_eq_ok_iff_split.1 h
  rw [String.toList_ofList] at hs
  have hb := begins_split p x
  rw [hs] at hb
  exact hb.inOrder (tokens_inOrder hw)

end Entry

end Pipeline
