import Pipeline.Proofs.Lexemes
import Pipeline.Proofs.OrderRule
import Pipeline.Proofs.Overlap

/-!
# Arguments apart

The rule on the order of arguments is checked for one list at a time, and a call may be made by any
of several rules and stand at any depth of a tree. Still every call in a tree that has been read is
well formed (`calls_wellFormed`) and stands in the text as it is in the tree (`calls_within`). Its
accessors then take its arguments apart: the positional ones are a beginning of the list, and a
keyword leads to the first argument that is written with it (`Call.parted_of_positionalFirst`).
-/

namespace Pipeline

open Token

/-! ## Calls at any depth -/

mutual

/-- The calls at any depth of a value. -/
def Value.calls : Value → List Call
  | .literal _ => []
  | .call c => c.calls

/-- The calls in the value of an argument. -/
def Argument.calls : Argument → List Call
  | .positional v | .keyword _ v => v.calls

/-- The call itself, and the calls in its arguments. -/
def Call.calls : Call → List Call
  | ⟨n, args⟩ => ⟨n, args⟩ :: Argument.allCalls args

/-- The calls in a list of arguments, in order. -/
def Argument.allCalls : List Argument → List Call
  | [] => []
  | a :: as => a.calls ++ Argument.allCalls as

end

namespace Source

/-- The calls in a source, none if it is a bare name. -/
def calls : Source → List Call
  | name _ => []
  | call c => c.calls

end Source

mutual

/-- The calls in a sink, in the order in which they are written. -/
def Sink.calls : Sink → List Call
  | .name _ => []
  | .call c => c.calls
  | .decorated d child => d.calls ++ child.calls
  | .fanOut children => Sink.allCalls children
  | .failover primary backup => primary.calls ++ backup.calls
  | .block c child => c.calls ++ child.calls

/-- The calls in a list of sinks, in order. -/
def Sink.allCalls : List Sink → List Call
  | [] => []
  | s :: ss => s.calls ++ Sink.allCalls ss

end

namespace Entry

/-- The calls in a tree, at any depth, in the order in which they are written. -/
def calls : (e : Entry) → e.Tree → List Call
  | literal, _ => []
  | argument, a => a.calls
  | source, d => d.calls
  | sink, t => t.calls

end Entry

section Calls

variable {c : Call}

mutual

theorem value_calls_wellFormed : ∀ {v : Value}, v.WellFormed → c ∈ v.calls → c.WellFormed
  | .literal _, _, h => nomatch h
  | .call _, hv, h => call_calls_wellFormed hv h

theorem argument_calls_wellFormed : ∀ {a : Argument}, a.WellFormed → c ∈ a.calls → c.WellFormed
  | .positional _, ha, h => value_calls_wellFormed ha h
  | .keyword _ _, ha, h => value_calls_wellFormed ha.2 h

theorem call_calls_wellFormed : ∀ {d : Call}, d.WellFormed → c ∈ d.calls → c.WellFormed
  | ⟨_, _⟩, hd, h => by
    rcases List.mem_cons.1 h with rfl | h
    · exact hd
    · exact arguments_calls_wellFormed hd.2.1 h

theorem arguments_calls_wellFormed : ∀ {as : List Argument}, Argument.AllWellFormed as →
    c ∈ Argument.allCalls as → c.WellFormed
  | [], _, h => nomatch h
  | _ :: _, has, h => by
    rcases List.mem_append.1 h with h | h
    · exact argument_calls_wellFormed has.1 h
    · exact arguments_calls_wellFormed has.2 h

end

theorem source_calls_wellFormed : ∀ {d : Source}, d.WellFormed → c ∈ d.calls → c.WellFormed
  | .name _, _, h => nomatch h
  | .call _, hd, h => call_calls_wellFormed hd h

mutual

theorem sink_calls_wellFormed : ∀ {t : Sink}, t.WellFormed → c ∈ t.calls → c.WellFormed
  | .name _, _, h => nomatch h
  | .call _, ht, h => call_calls_wellFormed ht h
  | .decorated _ _, ht, h => by
    rcases List.mem_append.1 h with h | h
    · exact source_calls_wellFormed ht.1 h
    · exact sink_calls_wellFormed ht.2 h
  | .fanOut _, ht, h => sinks_calls_wellFormed ht.2 h
  | .failover _ _, ht, h => by
    rcases List.mem_append.1 h with h | h
    · exact sink_calls_wellFormed ht.1 h
    · exact sink_calls_wellFormed ht.2 h
  | .block _ _, ht, h => by
    rcases List.mem_append.1 h with h | h
    · exact call_calls_wellFormed ht.1 h
    · exact sink_calls_wellFormed ht.2 h

theorem sinks_calls_wellFormed : ∀ {ts : List Sink}, Sink.AllWellFormed ts →
    c ∈ Sink.allCalls ts → c.WellFormed
  | [], _, h => nomatch h
  | _ :: _, hts, h => by
    rcases List.mem_append.1 h with h | h
    · exact sink_calls_wellFormed hts.1 h
    · exact sinks_calls_wellFormed hts.2 h

end

theorem Entry.calls_wellFormed : ∀ {e : Entry} {t : e.Tree}, e.WellFormed t → c ∈ e.calls t →
    c.WellFormed
  | literal, _, _, h => nomatch h
  | argument, _, ha, h => argument_calls_wellFormed ha h
  | source, _, hd, h => source_calls_wellFormed hd h
  | sink, _, ht, h => sink_calls_wellFormed ht h

mutual

theorem value_calls_within : ∀ {v : Value}, c ∈ v.calls → c.tokens <:+: v.tokens
  | .literal _, h => nomatch h
  | .call _, h => call_calls_within h

theorem argument_calls_within : ∀ {a : Argument}, c ∈ a.calls → c.tokens <:+: a.tokens
  | .positional _, h => value_calls_within h
  | .keyword n _, h =>
    (value_calls_within h).trans (List.suffix_append [word n.toList, mark '='] _).isInfix

theorem call_calls_within : ∀ {d : Call}, c ∈ d.calls → c.tokens <:+: d.tokens
  | ⟨n, _⟩, h => by
    rcases List.mem_cons.1 h with rfl | h
    · exact List.infix_rfl
    · obtain ⟨ts, hts, hc⟩ := arguments_calls_within h
      exact (hc.trans (infix_separated hts)).trans ⟨[word n.toList, mark '('], [mark ')'], rfl⟩

theorem arguments_calls_within : ∀ {as : List Argument}, c ∈ Argument.allCalls as →
    ∃ ts ∈ Argument.allTokens as, c.tokens <:+: ts
  | [], h => nomatch h
  | _ :: _, h => by
    rcases List.mem_append.1 h with h | h
    · exact ⟨_, List.mem_cons_self, argument_calls_within h⟩
    · obtain ⟨ts, hts, hc⟩ := arguments_calls_within h
      exact ⟨ts, List.mem_cons_of_mem _ hts, hc⟩

end

theorem source_calls_within : ∀ {d : Source}, c ∈ d.calls → c.tokens <:+: d.tokens
  | .name _, h => nomatch h
  | .call _, h => call_calls_within h

mutual

theorem sink_calls_within : ∀ {t : Sink}, c ∈ t.calls → c.tokens <:+: t.tokens
  | .name _, h => nomatch h
  | .call _, h => call_calls_within h
  | .decorated d t, h => by
    rcases List.mem_append.1 h with h | h
    · exact (source_calls_within h).trans
        ⟨[mark '{'], arrow :: (t.tokens ++ [mark '}']), rfl⟩
    · exact (sink_calls_within h).trans
        ⟨mark '{' :: (d.tokens ++ [arrow]), [mark '}'], by simp [Sink.tokens]⟩
  | .fanOut ts, h => by
    obtain ⟨us, hus, hc⟩ := sinks_calls_within h
    exact (hc.trans (infix_separated hus)).trans ⟨[mark '['], [mark ']'], rfl⟩
  | .failover t u, h => by
    rcases List.mem_append.1 h with h | h
    · exact (sink_calls_within h).trans
        ⟨[mark '<'], mark '?' :: (u.tokens ++ [mark '>']), rfl⟩
    · exact (sink_calls_within h).trans
        ⟨mark '<' :: (t.tokens ++ [mark '?']), [mark '>'], by simp [Sink.tokens]⟩
  | .block d t, h => by
    rcases List.mem_append.1 h with h | h
    · exact (call_calls_within h).trans (List.prefix_append d.tokens _).isInfix
    · exact (sink_calls_within h).trans
        ⟨d.tokens ++ [mark '{'], [mark '}'], by simp [Sink.tokens]⟩

theorem sinks_calls_within : ∀ {ts : List Sink}, c ∈ Sink.allCalls ts →
    ∃ us ∈ Sink.allTokens ts, c.tokens <:+: us
  | [], h => nomatch h
  | _ :: _, h => by
    rcases List.mem_append.1 h with h | h
    · exact ⟨_, List.mem_cons_self, sink_calls_within h⟩
    · obtain ⟨us, hus, hc⟩ := sinks_calls_within h
      exact ⟨us, List.mem_cons_of_mem _ hus, hc⟩

end

/-- Every call stands among the tokens of the tree as one piece. -/
theorem Entry.calls_within : ∀ {e : Entry} {t : e.Tree}, c ∈ e.calls t → c.tokens <:+: e.tokens t
  | literal, _, h => nomatch h
  | argument, _, h => argument_calls_within h
  | source, _, h => source_calls_within h
  | sink, _, h => sink_calls_within h

end Calls

/-! ## The arguments of one call -/

section Arguments

variable {args : List Argument} {a : Argument} {n : String} {v : Value}

/-- The positional arguments are a beginning of the list, and only keyword arguments are left. -/
theorem positionalFirst_split (h : positionalFirst args) :
    ∃ ks, args = (args.filterMap Argument.positional?).map .positional ++ ks ∧
      ks.all Argument.isKeyword := by
  induction args with
  | nil => exact ⟨[], rfl, rfl⟩
  | cons a as ih =>
    cases a with
    | positional v =>
      obtain ⟨ks, has, hks⟩ := ih (by simpa [positionalFirst, Argument.isKeyword] using h)
      exact ⟨ks, by simpa [Argument.positional?] using has, hks⟩
    | keyword n v =>
      have hall : (Argument.keyword n v :: as).all Argument.isKeyword := h
      have hnone : (Argument.keyword n v :: as).filterMap Argument.positional? = [] := by
        refine List.filterMap_eq_nil_iff.2 fun a ha => ?_
        have hk := List.all_eq_true.1 hall a ha
        cases a with
        | positional => cases hk
        | keyword => rfl
      exact ⟨_, by rw [hnone, List.map_nil, List.nil_append], hall⟩

theorem Argument.keyword?_eq_some : a.keyword? n = some v ↔ a = .keyword n v := by
  cases a <;> simp [Argument.keyword?]

theorem Argument.keyword?_eq_none : a.keyword? n = none ↔ ∀ v, a ≠ .keyword n v := by
  simp only [Option.eq_none_iff_forall_ne_some, ne_eq, keyword?_eq_some]

end Arguments

namespace Call

variable {c : Call} {n : String} {v : Value}

theorem WellFormed.positionalFirst (h : c.WellFormed) : positionalFirst c.args := by
  obtain ⟨n, args⟩ := c
  exact h.2.2

/-- The first argument with the name counts. -/
theorem keyword?_eq_some : c.keyword? n = some v ↔ ∃ i : Nat, c.args[i]? = some (.keyword n v) ∧
    ∀ j < i, ∀ w, c.args[j]? ≠ some (.keyword n w) := by
  rw [keyword?, List.findSome?_eq_some_iff]
  refine ⟨fun h => ?_, fun h => ?_⟩
  · obtain ⟨as, a, bs, hargs, ha, has⟩ := h
    rw [Argument.keyword?_eq_some] at ha
    refine ⟨as.length, by simp [hargs, ha], fun j hj w hw => ?_⟩
    rw [hargs, List.getElem?_append_left hj] at hw
    exact Argument.keyword?_eq_none.1 (has _ (List.mem_of_getElem? hw)) w rfl
  · obtain ⟨i, hi, hfirst⟩ := h
    obtain ⟨hlt, ha⟩ := List.getElem?_eq_some_iff.1 hi
    refine ⟨c.args.take i, c.args[i], c.args.drop (i + 1), by simp, ?_, fun x hx => ?_⟩
    · rw [ha, Argument.keyword?_eq_some]
    · obtain ⟨j, hj, rfl⟩ := List.mem_take_iff_getElem.1 hx
      refine Argument.keyword?_eq_none.2 fun w hw => hfirst j (by omega) w ?_
      rw [← hw, List.getElem?_eq_getElem]

theorem keyword?_eq_none :
    c.keyword? n = none ↔ ∀ (i : Nat) (v : Value), c.args[i]? ≠ some (.keyword n v) := by
  rw [keyword?, List.findSome?_eq_none_iff]
  refine ⟨fun h i v hi => ?_, fun h a ha => ?_⟩
  · exact Argument.keyword?_eq_none.1 (h _ (List.mem_of_getElem? hi)) v rfl
  · obtain ⟨i, hi⟩ := List.mem_iff_getElem?.1 ha
    refine Argument.keyword?_eq_none.2 fun v hv => h i v ?_
    rw [hi, hv]

/-- The positional arguments come first, and a keyword leads to the value of the first argument
behind them that is written with it. -/
structure Parted (c : Call) : Prop where
  args_eq : c.args = c.positional.map .positional ++ c.args.drop c.positional.length
  keywords : ∀ a ∈ c.args.drop c.positional.length, a.isKeyword
  positional_get : ∀ i < c.positional.length, c.args[i]? = c.positional[i]?.map .positional
  keyword_eq_some : ∀ n v, c.keyword? n = some v ↔
    ∃ i ≥ c.positional.length, c.args[i]? = some (.keyword n v) ∧
      ∀ j ≥ c.positional.length, j < i → ∀ w, c.args[j]? ≠ some (.keyword n w)
  keyword_eq_none : ∀ n, c.keyword? n = none ↔
    ∀ i ≥ c.positional.length, ∀ v, c.args[i]? ≠ some (.keyword n v)

/-- A list that is in order falls into its positional arguments and its keywords. -/
theorem parted_of_positionalFirst (h : positionalFirst c.args) : c.Parted := by
  obtain ⟨ks, hargs, hks⟩ := positionalFirst_split h
  have hargs : c.args = c.positional.map .positional ++ ks := hargs
  have hdrop : c.args.drop c.positional.length = ks := by
    rw [hargs]
    exact List.drop_left' (List.length_map _)
  have hget (i : Nat) (hi : i < c.positional.length) :
      c.args[i]? = c.positional[i]?.map .positional := by
    rw [hargs, List.getElem?_append_left (by rwa [List.length_map]), List.getElem?_map]
  -- What is found under a keyword is behind the positional arguments, as it is none of them.
  have hbehind {i : Nat} {n : String} {v : Value} (hi : c.args[i]? = some (.keyword n v)) :
      c.positional.length ≤ i := by
    by_contra hlt
    rw [hget i (by omega)] at hi
    simp at hi
  refine ⟨?_, ?_, hget, fun n v => ?_, fun n => ?_⟩
  · rw [hdrop]
    exact hargs
  · rw [hdrop]
    simpa using hks
  · rw [keyword?_eq_some]
    refine ⟨fun ⟨i, hi, hj⟩ => ⟨i, hbehind hi, hi, fun j _ => hj j⟩,
      fun ⟨i, _, hi, hj⟩ => ⟨i, hi, fun j hji w hw => hj j (hbehind hw) hji w hw⟩⟩
  · rw [keyword?_eq_none]
    exact ⟨fun h i _ => h i, fun h i v hi => h i (hbehind hi) v hi⟩

end Call

namespace Entry

/-- Every call that is read, wherever it is in a tree, stands in the text with its arguments in
their order, and its accessors part them. A text that has a positional argument behind a keyword one
in any of its lists is refused. -/
theorem calls_parted :
    (∀ (e : Entry) (text : String) (t : e.Tree), e.parse text = .ok t → ∀ c ∈ e.calls t,
      c.tokens <:+: split text.toList ∧ c.Parted) ∧
    ∀ (e : Entry) (text : String) (u : e.Tree), e.Spells (fun _ => true) text.toList u →
      (∃ c ∈ e.calls u, ∃ n v w, List.Sublist [.keyword n v, .positional w] c.args) →
      e.Refuses text := by
  refine ⟨fun e text t h c hc => ?_, fun e text u h ⟨c, hc, n, v, w, hlist⟩ => ?_⟩
  · obtain ⟨ht, hs⟩ := parse_eq_ok_iff_split.1 h
    rw [hs]
    exact ⟨calls_within hc, Call.parted_of_positionalFirst (calls_wellFormed ht hc).positionalFirst⟩
  · refine refuses_of_forall_ne fun t ht => ?_
    -- Whatever else the text were read as, it would have the same tokens, which are in order.
    obtain ⟨hw, hs⟩ := parse_eq_ok_iff_split.1 ht
    have ho := tokens_inOrder hw
    rw [← hs, h.split_eq] at ho
    obtain ⟨s, rest, -, hat, -⟩ := h
    have hc := (calls_wellFormed (wellFormed_of_inOrder hat ho) hc).positionalFirst
    have hk := List.pairwise_iff_forall_sublist.1 (positionalFirst_iff.1 hc) hlist rfl
    cases hk

/-- A keyword that is given twice in a call below a decorator, and a list out of order below another
call. -/
theorem calls_parted_nested :
    Call.Parted ⟨"g", [.positional (.literal (.int "1" 1)), .positional (.call ⟨"h", []⟩),
      .keyword "k" (.literal (.int "3" 3)), .keyword "k" (.literal (.int "4" 4))]⟩ ∧
    Call.tokens ⟨"g", [.positional (.literal (.int "1" 1)), .positional (.call ⟨"h", []⟩),
      .keyword "k" (.literal (.int "3" 3)), .keyword "k" (.literal (.int "4" 4))]⟩ <:+:
        split "\x7bf(g(1, h(), k=3, k=4)) => a\x7d".toList ∧
    source.Refuses "g(f(k=1,2))" := by
  obtain ⟨hread, hrefused⟩ := calls_parted
  have h : sink.parse "\x7bf(g(1, h(), k=3, k=4)) => a\x7d" = .ok (.decorated (.call ⟨"f",
      [.positional (.call ⟨"g", [.positional (.literal (.int "1" 1)), .positional (.call ⟨"h", []⟩),
        .keyword "k" (.literal (.int "3" 3)), .keyword "k" (.literal (.int "4" 4))]⟩)]⟩)
      (.name "a")) := rfl
  obtain ⟨htokens, hparted⟩ := hread sink _ _ h _ (List.mem_cons_of_mem _ List.mem_cons_self)
  refine ⟨hparted, htokens, ?_⟩
  have hname (c : Char) (hc : isNameStart c) (s : List Char) :
      NameAt (c :: s) (String.ofList [c]) s := @NameAt.mk c [] s hc rfl
  have hdigit (c : Char) (hc : c.isDigit) (hn : Numeral.value 10 [c] < 1 <<< 63) (s : List Char) :
      ∃ l, Literal.At (c :: s) l s := ⟨_, @Literal.At.decimal [c] s nofun (by simp [hc]) hn⟩
  obtain ⟨l, hl⟩ := hdigit '1' rfl (by decide) [',', '2', ')', ')']
  obtain ⟨m, hm⟩ := hdigit '2' rfl (by decide) [')', ')']
  have hf : Call.At (fun _ => true) "f(k=1,2))".toList
      ⟨"f", [.keyword "k" (.literal l), .positional (.literal m)]⟩ [')'] :=
    .mk (hname 'f' rfl _) (.refl _) (.refl _)
      (.cons (.keyword (hname 'k' rfl _) (.refl _) (.refl _) (.literal hl))
        (.cons (.refl _) (.refl _) (.positional (.literal hm)) .nil)) rfl (.refl _)
  have hg : Call.At (fun _ => true) "g(f(k=1,2))".toList ⟨"g", [.positional (.call
      ⟨"f", [.keyword "k" (.literal l), .positional (.literal m)]⟩)]⟩ [] :=
    .mk (hname 'g' rfl _) (.refl _) (.refl _) (.cons (.positional (.call hf)) .nil) rfl (.refl _)
  exact hrefused source _ _ ⟨_, [], .refl _, .call hg, .refl _⟩
    ⟨_, List.mem_cons_of_mem _ List.mem_cons_self, "k", _, _, List.Sublist.refl _⟩

end Entry

end Pipeline
