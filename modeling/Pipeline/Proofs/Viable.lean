import Pipeline.Proofs.ArgumentOrder
import Pipeline.Proofs.Extent

/-!
# Beginnings of texts

A text is viable where another one behind it makes it a text of some tree (`Viable`). What has begun
can always be completed: a tree by the rest of its own form, with a name or a number in place of any
part that is missing (`viable_call`, `viable_decorated`, and so on). Only an argument list may be
past help, if it has to be in order; `Fair` says that the tokens so far allow for it, and then the
next argument can be chosen to be in order too (`viable_list_concat`).
-/

namespace Pipeline

open Token

/-- Some text that goes on from `q` is one of a tree. -/
def Viable {α : Type} (A : List Char → α → List Char → Prop) (q : List Char) : Prop :=
  ∃ x a, TextOf A (q ++ x) a

/-- The order does not matter, or `ts` is in order behind some open lists. -/
def Fair (order : List Argument → Bool) (ts : List Token) : Prop :=
  (∀ as, order as) ∨ ∃ lists, inOrder lists ts

/-- The same where `ts` stands at the beginning of a list. -/
def FairList (order : List Argument → Bool) (ts : List Token) : Prop :=
  (∀ as, order as) ∨ ∃ lists, inOrder (.positional :: lists) ts

section Fair

variable {order : List Argument → Bool} {ts us : List Token} {q q' : List Char}

/-- What is fair for the tokens so far is fair for those behind any of them. -/
theorem Fair.append (h : Fair order (ts ++ us)) : Fair order us :=
  h.imp_right fun ⟨_, h⟩ => ⟨_, inOrder_append h⟩

theorem FairList.fair (h : FairList order ts) : Fair order ts :=
  h.imp_right fun ⟨_, h⟩ => ⟨_, h⟩

theorem Fair.of_split (h : Fair order (split q)) (ts : List Token)
    (hs : split q = ts ++ split q') : Fair order (split q') := by
  rw [hs] at h
  exact h.append

end Fair

/-- A keyword argument. -/
def KeywordAt (order : List Argument → Bool) (s : List Char) (a : Argument) (rest : List Char) :
    Prop :=
  Argument.At order s a rest ∧ a.isKeyword

/-- Arguments and the parenthesis behind them. -/
def ListAt (order : List Argument → Bool) (s : List Char) (args : List Argument)
    (rest : List Char) : Prop :=
  ∃ s₁, ArgumentsAt order s args s₁ ∧ order args ∧ Blanks s₁ (')' :: rest)

variable {order : List Argument → Bool} {n : String} {b b' q : List Char}

/-! ## Words -/

theorem isName_singleton {c : Char} (hc : isNameStart c) : IsName (String.ofList [c]) := by
  have h : NameAt (c :: ([] ++ [])) (String.ofList [c]) [] := .mk hc rfl
  rwa [IsName, String.toList_ofList]

theorem isName_a : IsName "a" :=
  isName_singleton (c := 'a') rfl

theorem all_isBlank_nil : ([] : List Char).all isBlank :=
  rfl

/-- Any text may go on with a literal where one can stand. -/
theorem viable_literal_nil : Viable Literal.At [] := by
  refine ⟨['1'], .int "1" 1, fun r => ?_⟩
  exact .decimal (List.cons_ne_nil '1' []) rfl (by decide)

theorem viable_hex {x : Char} (hx : x = 'x' ∨ x = 'X') : Viable Literal.At ['0', x] := by
  refine ⟨['1'], .int (String.ofList ['0', x, '1']) 1, fun r => ?_⟩
  exact .hex hx (List.cons_ne_nil '1' []) rfl (by decide)

/-- A string can be closed wherever no escape is open. -/
theorem viable_string {b : List Char} (hb : StringBody b) : Viable Literal.At ('"' :: b) := by
  refine ⟨['"'], .string (String.ofList ('"' :: (b ++ ['"']))), fun r => ?_⟩
  have h : Literal.At ('"' :: (b ++ '"' :: r)) _ r := .string hb
  simpa using h

/-! ## Arguments -/

section Arguments

variable {args : List Argument} {a : Argument} {s s₁ s₂ s₃ rest : List Char}

theorem Viable.value (h : Viable Literal.At q) : Viable (Value.At order) q := by
  obtain ⟨x, l, h⟩ := h
  exact ⟨x, .literal l, fun r => .literal (h r)⟩

theorem Viable.value_call (h : Viable (Call.At order) q) : Viable (Value.At order) q := by
  obtain ⟨x, c, h⟩ := h
  exact ⟨x, .call c, fun r => .call (h r)⟩

theorem Viable.positional (h : Viable (Value.At order) q) : Viable (Argument.At order) q := by
  obtain ⟨x, v, h⟩ := h
  exact ⟨x, .positional v, fun r => .positional (h r)⟩

theorem Viable.argument (h : Viable (KeywordAt order) q) : Viable (Argument.At order) q := by
  obtain ⟨x, a, h⟩ := h
  exact ⟨x, a, fun r => (h r).1⟩

/-- A keyword argument can be completed where its value can. -/
theorem viable_keyword (hn : IsName n) (hb : b.all isBlank) (hb' : b'.all isBlank)
    (h : Viable (Value.At order) q) :
    Viable (KeywordAt order) (n.toList ++ (b ++ '=' :: (b' ++ q))) := by
  obtain ⟨x, v, h⟩ := h
  have ha := textOf_keyword hn hb hb' h
  exact ⟨x, .keyword n v, fun r => ⟨by simpa using ha r, rfl⟩⟩

theorem viable_keyword_nil : Viable (KeywordAt order) [] := by
  obtain ⟨x, a, h⟩ :=
    viable_keyword isName_a all_isBlank_nil all_isBlank_nil viable_literal_nil.value
  exact ⟨_, a, h⟩

theorem MoreArgumentsAt.concat : ∀ {as : List Argument} {s s₁ : List Char},
    MoreArgumentsAt order s as s₁ → Blanks s₁ (',' :: s₂) → Blanks s₂ s₃ →
    Argument.At order s₃ a rest → MoreArgumentsAt order s (as ++ [a]) rest
  | [], _, _, .nil, hb, hb', ha => .cons hb hb' ha .nil
  | _ :: _, _, _, .cons hb₁ hb₂ ha' has, hb, hb', ha => .cons hb₁ hb₂ ha' (has.concat hb hb' ha)

/-- An argument behind a comma goes to the end of the list. -/
theorem ArgumentsAt.concat (h : ArgumentsAt order s args s₁) (hne : args ≠ [])
    (hb : Blanks s₁ (',' :: s₂)) (hb' : Blanks s₂ s₃) (ha : Argument.At order s₃ a rest) :
    ArgumentsAt order s (args ++ [a]) rest := by
  cases h with
  | nil => exact absurd rfl hne
  | cons h h' => exact .cons h (h'.concat hb hb' ha)

theorem textOf_list (ha : TextOf (ArgumentsAt order) q args) (ho : order args)
    (hb : b.all isBlank) : TextOf (ListAt order) (q ++ (b ++ [')'])) args := by
  intro r
  refine ⟨b ++ ')' :: r, ?_, ho, blanks_append hb _⟩
  simpa using ha (b ++ ')' :: r)

theorem viable_list (ha : TextOf (ArgumentsAt order) q args) (ho : order args)
    (hb : b.all isBlank) : Viable (ListAt order) (q ++ b) :=
  ⟨[')'], args, by simpa using textOf_list ha ho hb⟩

theorem viable_list_singleton (h : Viable (Argument.At order) q) (ho : ∀ a, order [a]) :
    Viable (ListAt order) q := by
  obtain ⟨x, a, h⟩ := h
  have hn : TextOf (MoreArgumentsAt order) [] [] := fun _ => .nil
  have hl := textOf_list (textOf_arguments h hn) (ho a) all_isBlank_nil
  exact ⟨x ++ [')'], [a], by simpa using hl⟩

theorem viable_parens (hb : b.all isBlank) (h : Viable (ListAt order) q) :
    Viable (ParensAt order) ('(' :: (b ++ q)) := by
  obtain ⟨x, args, h⟩ := h
  refine ⟨x, args, fun r => ?_⟩
  obtain ⟨s₁, ha, ho, hr⟩ := h r
  refine ⟨_, _, s₁, rfl, ?_, ha, ho, hr⟩
  simpa using blanks_append hb ((q ++ x) ++ r)

theorem viable_parens_nil (ho : order []) : Viable (ParensAt order) [] := by
  have hn : TextOf (ArgumentsAt order) [] [] := fun _ => .nil
  have hl := viable_list hn ho all_isBlank_nil
  obtain ⟨x, args, h⟩ := viable_parens all_isBlank_nil hl
  exact ⟨_, args, h⟩

theorem viable_call (hn : IsName n) (hb : b.all isBlank) (h : Viable (ParensAt order) q) :
    Viable (Call.At order) (n.toList ++ (b ++ q)) := by
  obtain ⟨x, args, h⟩ := h
  have hc := textOf_call hn hb h
  exact ⟨x, ⟨n, args⟩, by simpa using hc⟩

/-- A call can always be begun if it may go without arguments. -/
theorem viable_call_nil (ho : order []) : Viable (Call.At order) [] := by
  obtain ⟨x, c, h⟩ := viable_call isName_a all_isBlank_nil (viable_parens_nil ho)
  exact ⟨_, c, h⟩

end Arguments

/-! ## Lists in order -/

section Lists

variable {args : List Argument} {r : List Char}

/-- The list so far is in order, and with it whatever comes behind. -/
theorem fair_arguments (hpf : ∀ as, positionalFirst as → order as)
    (hq : TextOf (ArgumentsAt positionalFirst) q args) (hr : Stops isWordPart r)
    (hf : FairList order (split (q ++ r))) :
    order args ∧ ((∀ as, order as) ∨
      ∃ lists, positionalFirst args ∧ inOrder (Stage.behind args :: lists) (split r)) := by
  rcases hf with ho | ⟨lists, h⟩
  · exact ⟨ho args, .inl ho⟩
  · rw [arguments_split args (hq r) hr] at h
    obtain ⟨ho, h⟩ := inOrder_arguments (arguments_wellFormed args (hq r)) h
    exact ⟨hpf args ho, .inr ⟨lists, ho, h⟩⟩

/-- One more argument can be added, if need be a keyword one. -/
theorem viable_list_concat (hpf : ∀ as, positionalFirst as → order as)
    (hargs : TextOf (ArgumentsAt order) q args) (hne : args ≠ []) (hb : b.all isBlank)
    (hb' : b'.all isBlank)
    (ho : (∀ as, order as) ∨
      ∃ lists, positionalFirst args ∧ inOrder (Stage.before args :: lists) (split r))
    (ha : Viable (Argument.At order) r)
    (hk : positionalAhead (split r) = false → Viable (KeywordAt order) r) :
    Viable (ListAt order) (q ++ (b ++ ',' :: (b' ++ r))) := by
  -- The next argument is chosen so that it may stand behind those that are there.
  have hx : ∃ x a, TextOf (Argument.At order) (r ++ x) a ∧ order (args ++ [a]) := by
    rcases ho with ho | ⟨lists, ho, h⟩
    · obtain ⟨x, a, ha⟩ := ha
      exact ⟨x, a, ha, ho _⟩
    · cases hany : args.any Argument.isKeyword
      · obtain ⟨x, a, ha⟩ := ha
        exact ⟨x, a, ha, hpf _ (positionalFirst_append_singleton.2 ⟨ho, .inr hany⟩)⟩
      · -- Behind a keyword it has to be one as well.
        rw [Stage.before, if_pos hany] at h
        obtain ⟨x, a, ha⟩ := hk (not_positionalAhead h)
        refine ⟨x, a, fun s => (ha s).1, hpf _ ?_⟩
        exact positionalFirst_append_singleton.2 ⟨ho, .inl (ha []).2⟩
  obtain ⟨x, a, ha, ho⟩ := hx
  have hl : TextOf (ArgumentsAt order) (q ++ (b ++ ',' :: (b' ++ (r ++ x)))) (args ++ [a]) := by
    intro s
    have h := (hargs _).concat hne (blanks_append hb _) (blanks_append hb' _) (ha s)
    simpa using h
  have ht := textOf_list hl ho all_isBlank_nil
  exact ⟨x ++ [')'], args ++ [a], by simpa using ht⟩

end Lists

/-! ## Sources and sinks -/

section Sinks

variable {b₁ b₂ b₃ q' : List Char} {c : Char} {d : Source} {t : Sink} {ts : List Sink}

theorem Viable.source (h : Viable (Call.At order) q) : Viable (Source.At order) q := by
  obtain ⟨x, c, h⟩ := h
  exact ⟨x, .call c, fun r => .call (h r)⟩

theorem Viable.sink (h : Viable (Source.At order) q) : Viable (Sink.At order) q := by
  obtain ⟨x, d, h⟩ := h
  cases d with
  | name n =>
    refine ⟨x, .name n, fun r => ?_⟩
    cases h r with
    | name hn => exact .name hn
  | call c =>
    refine ⟨x, .call c, fun r => ?_⟩
    cases h r with
    | call hc => exact .call hc

theorem viable_sink_nil : Viable (Sink.At order) [] :=
  ⟨['a'], .name "a", fun r => .name (textOf_name isName_a r)⟩

theorem Viable.before (h : Viable (Sink.At order) q) (c : Char) :
    Viable (SinkBefore order c) q := by
  obtain ⟨x, t, h⟩ := h
  have ht := textOf_before h all_isBlank_nil c
  exact ⟨x ++ [c], t, by simpa using ht⟩

theorem viable_before (ht : TextOf (Sink.At order) q t) (hb : b.all isBlank) (c : Char) :
    Viable (SinkBefore order c) (q ++ b) :=
  ⟨[c], t, by simpa using textOf_before ht hb c⟩

theorem viable_before_nil (c : Char) : Viable (SinkBefore order c) [] :=
  viable_sink_nil.before c

theorem viable_decorated (hb₁ : b₁.all isBlank) (hd : TextOf (Source.At order) q d)
    (hb₂ : b₂.all isBlank) (hb₃ : b₃.all isBlank) (h : Viable (SinkBefore order '}') q') :
    Viable (Sink.At order) ('{' :: (b₁ ++ (q ++ (b₂ ++ '=' :: '>' :: (b₃ ++ q'))))) := by
  obtain ⟨x, t, h⟩ := h
  have ht := textOf_decorated hb₁ hd hb₂ hb₃ h
  exact ⟨x, .decorated d t, by simpa using ht⟩

/-- A decorator that is done lacks the arrow and the child. -/
theorem viable_decorated_arrow (hb₁ : b₁.all isBlank) (hd : TextOf (Source.At order) q d)
    (hb₂ : b₂.all isBlank) : Viable (Sink.At order) ('{' :: (b₁ ++ (q ++ b₂))) := by
  obtain ⟨x, t, h⟩ := viable_decorated hb₁ hd hb₂ all_isBlank_nil (viable_before_nil '}')
  exact ⟨'=' :: '>' :: x, t, by simpa using h⟩

theorem viable_decorator (hb₁ : b₁.all isBlank) (h : Viable (Source.At order) q) :
    Viable (Sink.At order) ('{' :: (b₁ ++ q)) := by
  obtain ⟨x, d, hd⟩ := h
  obtain ⟨x', t, h⟩ := viable_decorated_arrow hb₁ hd all_isBlank_nil
  exact ⟨x ++ x', t, by simpa using h⟩

theorem viable_failover (hb : b.all isBlank) (ht : TextOf (SinkBefore order '?') q t)
    (hb' : b'.all isBlank) (h : Viable (SinkBefore order '>') q') :
    Viable (Sink.At order) ('<' :: (b ++ (q ++ (b' ++ q')))) := by
  obtain ⟨x, u, h⟩ := h
  have hu := textOf_failover hb ht hb' h
  exact ⟨x, .failover t u, by simpa using hu⟩

/-- Both the rest of the primary and the whole backup are made up. -/
theorem viable_primary (hb : b.all isBlank) (h : Viable (SinkBefore order '?') q) :
    Viable (Sink.At order) ('<' :: (b ++ q)) := by
  obtain ⟨x, t, ht⟩ := h
  obtain ⟨x', u, h⟩ := viable_failover hb ht all_isBlank_nil (viable_before_nil '>')
  exact ⟨x ++ x', u, by simpa using h⟩

theorem viable_block {c : Call} (hc : TextOf (Call.At order) q c) (hb : b.all isBlank)
    (hb' : b'.all isBlank) (h : Viable (SinkBefore order '}') q') :
    Viable (Sink.At order) (q ++ (b ++ '{' :: (b' ++ q'))) := by
  obtain ⟨x, t, h⟩ := h
  have ht := textOf_block hc hb hb' h
  exact ⟨x, .block c t, by simpa using ht⟩

theorem viable_fanOut (hb : b.all isBlank) (ht : TextOf (Sink.At order) q t)
    (hts : TextOf (MoreSinksAt order) q' ts) (hb' : b'.all isBlank) :
    Viable (Sink.At order) ('[' :: (b ++ (q ++ (q' ++ b')))) :=
  ⟨[']'], .fanOut (t :: ts), by simpa using textOf_fanOut hb ht hts hb'⟩

theorem viable_child (hb : b.all isBlank) (h : Viable (Sink.At order) q) :
    Viable (Sink.At order) ('[' :: (b ++ q)) := by
  obtain ⟨x, t, ht⟩ := h
  have hn : TextOf (MoreSinksAt order) [] [] := fun _ => .nil
  have hs := textOf_fanOut hb ht hn all_isBlank_nil
  exact ⟨x ++ [']'], .fanOut [t], by simpa using hs⟩

theorem MoreSinksAt.concat {s₂ s₃ rest : List Char} : ∀ {ts : List Sink} {s s₁ : List Char},
    MoreSinksAt order s ts s₁ → Blanks s₁ (',' :: s₂) → Blanks s₂ s₃ →
    Sink.At order s₃ t rest → MoreSinksAt order s (ts ++ [t]) rest
  | [], _, _, .nil, hb, hb', ht => .cons hb hb' ht .nil
  | _ :: _, _, _, .cons hb₁ hb₂ ht' hts, hb, hb', ht => .cons hb₁ hb₂ ht' (hts.concat hb hb' ht)

/-- A further child can be begun behind the children that are done. -/
theorem viable_fanOut_concat {r : List Char} (hb : b.all isBlank)
    (ht : TextOf (Sink.At order) q t) (hts : TextOf (MoreSinksAt order) q' ts)
    (hb₁ : b₁.all isBlank) (hb₂ : b₂.all isBlank) (h : Viable (Sink.At order) r) :
    Viable (Sink.At order) ('[' :: (b ++ (q ++ (q' ++ (b₁ ++ ',' :: (b₂ ++ r)))))) := by
  obtain ⟨x, u, hu⟩ := h
  have hts' : TextOf (MoreSinksAt order) (q' ++ (b₁ ++ ',' :: (b₂ ++ (r ++ x)))) (ts ++ [u]) := by
    intro s
    have h := (hts _).concat (blanks_append hb₁ _) (blanks_append hb₂ _) (hu s)
    simpa using h
  have hs := textOf_fanOut hb ht hts' all_isBlank_nil
  exact ⟨x ++ [']'], _, by simpa using hs⟩

end Sinks

end Pipeline
