import Pipeline.Proofs.Failing
import Pipeline.Proofs.Viable

/-!
# Where reading stops

Whenever a rule fails, what it has read up to there is the beginning of some text of a tree, so the
position of an error marks where the text could have gone on otherwise (`parse_error_viable`). The
induction is on rounds. What goes into it for values is `Halts`: besides, a value that has failed
for good has begun as a positional argument, which is where the order of arguments comes in.
-/

namespace Pipeline

open Token

namespace Rule

variable {order : List Argument → Bool} {s rest : List Char} {e : Failure}

/-! ## Words -/

theorem name_text {n : String} (h : name s = .ok (n, rest)) : IsName n ∧ s = n.toList ++ rest := by
  obtain ⟨hn, -⟩ := name_eq_ok.1 h
  exact nameAt_iff.1 hn

/-- Where a literal fails, what has been read of it can still become one. -/
theorem literal_viable (h : literal s = .error e) : ∃ q, s = q ++ e.rest ∧ q.head? ≠ some '>' ∧
    (q = [] ∨ positionalAhead (split q)) ∧ Viable Literal.At q := by
  obtain ⟨e', rfl, hc⟩ := literal_error_cases h
  rcases hc with rfl | ⟨x, s₁, e₁, hx, rfl, hn, rfl⟩ | ⟨-, rfl⟩ | ⟨s₁, rfl, -, rfl⟩
  · exact ⟨[], rfl, nofun, .inl rfl, viable_literal_nil⟩
  · have he : e₁.rest = s₁ := by
      rcases natural_eq_error.1 hn with ⟨-, rfl⟩ | ⟨-, -, rfl⟩
      · rfl
      · rfl
    refine ⟨['0', x], congrArg ('0' :: x :: ·) he.symm, nofun, .inr ?_, viable_hex hx⟩
    rcases hx with rfl | rfl
    · rfl
    · rfl
  · exact ⟨[], rfl, nofun, .inl rfl, viable_literal_nil⟩
  · obtain ⟨hs, hb⟩ := body_sound (s := s₁) rfl
    refine ⟨'"' :: (Quoted.body s₁).1, congrArg ('"' :: ·) hs, nofun, .inr ?_, viable_string hb⟩
    simp [split, positionalAhead, isLiteralStart]

/-- A mark and the blanks around it. -/
theorem split_between (c : Char) {b b' : List Char} (hb : b.all isBlank) (hb' : b'.all isBlank)
    (hc : isMark c) (ha : c ≠ '=') (q : List Char) :
    split (b ++ c :: (b' ++ q)) = mark c :: split q :=
  split_behind_mark (blanks_append hb _) (blanks_append hb' _) hc fun h => absurd h ha

/-! ## Arguments -/

section Calls

variable {v : Rule Value}

/-- What holds of a rule for values, and of one more round of it. -/
structure Halts (order : List Argument → Bool) (v : Rule Value) : Prop where
  leavesEnd : v.LeavesEnd
  sound : ∀ s w rest, v s = .ok (w, rest) → Value.At positionalFirst s w rest
  viable : ∀ s e, v s = .error e → ∃ q, s = q ++ e.rest ∧ q.head? ≠ some '>' ∧
    (e.committed → q = [] ∨ positionalAhead (split q)) ∧
    (Fair order (split q) → Viable (Value.At order) q)

/-- An argument fails where it can still be completed, if its values do. -/
theorem argumentOf_viable (hv : Halts order v) (h : argumentOf v s = .error e) :
    ∃ q, s = q ++ e.rest ∧ (Fair order (split q) → Viable (Argument.At order) q) ∧
      (e.committed → Fair order (split q) → positionalAhead (split q) = false →
        Viable (KeywordAt order) q) := by
  rcases argumentOf_eq_error.1 h with ⟨n, s₁, s₂, e', hn, hs₁, he, rfl⟩ | ⟨he, -⟩
  · obtain ⟨hw, rfl⟩ := name_text hn
    obtain ⟨b, hb, rfl⟩ := blanks_of_dropWhile hs₁
    obtain ⟨b', hb', hs₂⟩ := blanks_dropWhile s₂
    obtain ⟨q, hq, hgt, -, hqv⟩ := hv.viable _ _ he
    have hs : split (n.toList ++ (b ++ '=' :: (b' ++ q))) =
        [word n.toList, mark '='] ++ split q := by
      rw [split_name (textOf_name hw _) (stops_mark (blanks_append hb _) rfl),
        split_behind_mark (blanks_append hb _) (blanks_append hb' _) rfl
          fun _ => head_ne_of_blanks (blanks_append hb' _) rfl hgt]
      rfl
    have hk : Fair order (split (n.toList ++ (b ++ '=' :: (b' ++ q)))) →
        Viable (KeywordAt order) (n.toList ++ (b ++ '=' :: (b' ++ q))) :=
      fun hf => viable_keyword hw hb hb' (hqv (hf.of_split [word n.toList, mark '='] hs))
    refine ⟨_, ?_, fun hf => (hk hf).argument, fun _ hf _ => hk hf⟩
    rw [hs₂, hq]
    simp [Failure.commit]
  · obtain ⟨q, hq, -, hc, hqv⟩ := hv.viable s e he
    refine ⟨q, hq, fun hf => (hqv hf).positional, fun hcom _ hp => ?_⟩
    rcases hc hcom with rfl | hp'
    · exact viable_keyword_nil
    · rw [hp] at hp'
      cases hp'

theorem items_argumentOf_error_cases (hv : Halts order v)
    (h : items (argumentOf v) s = .error e) : e.committed ∧
    (argumentOf v s = .error e ∨ ∃ args s₁ s₂, args ≠ [] ∧ ArgumentsAt positionalFirst s args s₁ ∧
      Blanks s₁ (',' :: s₂) ∧ argumentOf v (s₂.dropWhile isBlank) = .error e) := by
  rcases items_eq_error.1 h with ⟨h', hc⟩ | ⟨a, s₁, ha, h'⟩
  · exact ⟨hc, .inl h'⟩
  · have hm := moreItems_error_cases (M := MoreArgumentsAt positionalFirst)
      (leavesEnd_argumentOf hv.leavesEnd) (fun s => .nil)
      (fun s s₁ s₂ s₃ rest a as hb hb' ha has => .cons hb hb' (argumentOf_sound hv.sound ha) has) h'
    obtain ⟨hc, as, s₂, s₃, has, hs₂, he⟩ := hm
    have hl := ArgumentsAt.cons (argumentOf_sound hv.sound ha) has
    exact ⟨hc, .inr ⟨a :: as, s₂, s₃, List.cons_ne_nil a as, hl, blanks_of_dropWhile hs₂, he⟩⟩

/-- A list that is read to its end could be closed there, if its order is right. -/
theorem list_viable (hpf : ∀ as, positionalFirst as → order as) {args : List Argument}
    {s₁ : List Char} (ha : ArgumentsAt positionalFirst s args s₁) (hb : Blanks s₁ rest) :
    ∃ q, s = q ++ rest ∧ (FairList order (split q) → Viable (ListAt order) q) := by
  obtain ⟨q, rfl, hq⟩ := arguments_extent (fun _ => id) args ha
  obtain ⟨b, hb, rfl⟩ := hb
  have hs : Stops isWordPart b := Blanks.stops_word ⟨b, hb, (List.append_nil b).symm⟩ stops_nil
  refine ⟨q ++ b, (List.append_assoc ..).symm, fun hf => ?_⟩
  exact viable_list (fun r => (hq r).mono hpf) (fair_arguments hpf hq hs hf).1 hb

theorem items_argumentOf_viable (hpf : ∀ as, positionalFirst as → order as) (hv : Halts order v)
    (h : items (argumentOf v) s = .error e) :
    ∃ q, s = q ++ e.rest ∧ (FairList order (split q) → Viable (ListAt order) q) := by
  obtain ⟨hc, h' | ⟨args, s₁, s₂, hne, ha, hb, h'⟩⟩ := items_argumentOf_error_cases hv h
  · obtain ⟨q, hq, hqv, -⟩ := argumentOf_viable hv h'
    refine ⟨q, hq, fun hf => viable_list_singleton (hqv hf.fair) fun a => hpf [a] ?_⟩
    cases a with
    | positional => rfl
    | keyword => rfl
  · obtain ⟨q, rfl, hq⟩ := arguments_extent (fun _ => id) args ha
    obtain ⟨b, hb, rfl⟩ := hb
    obtain ⟨b', hb', hs₂⟩ := blanks_dropWhile s₂
    obtain ⟨q', hq', hqv, hqk⟩ := argumentOf_viable hv h'
    have hs := split_between ',' hb hb' rfl (by decide) q'
    refine ⟨q ++ (b ++ ',' :: (b' ++ q')), ?_, fun hf => ?_⟩
    · rw [hs₂, hq']
      simp
    · have hstop := stops_mark (blanks_append hb (',' :: (b' ++ q'))) rfl
      have hn : (∀ as, order as) ∨ ∃ lists, positionalFirst args ∧
          inOrder (Stage.before args :: lists) (split q') := by
        refine (fair_arguments hpf hq hstop hf).2.imp_right fun ⟨lists, ho, hl⟩ => ⟨lists, ho, ?_⟩
        rw [hs] at hl
        have hl' := inOrder_cons hl
        rwa [advance_comma] at hl'
      have hf' : Fair order (split q') := hn.imp_right fun ⟨_, _, hl⟩ => ⟨_, hl⟩
      exact viable_list_concat hpf (fun r => (hq r).mono hpf) hne hb hb' hn (hqv hf') (hqk hc hf')

/-- A list fails at one of its arguments, at its end because of the order, or behind it. -/
theorem argumentsOf_viable (hpf : ∀ as, positionalFirst as → order as) (hv : Halts order v)
    (h : argumentsOf v s = .error e) :
    ∃ q, s = q ++ e.rest ∧ ((e.committed = false ∧ q = []) ∨ ∃ q', q = '(' :: q') ∧
      (Fair order (split q) → Viable (ParensAt order) q) := by
  rcases argumentsOf_eq_error.1 h with ⟨-, rfl⟩ | ⟨s₁, e', rfl, rfl, h'⟩
  · exact ⟨[], rfl, .inl ⟨rfl, rfl⟩, fun _ => viable_parens_nil (hpf [] rfl)⟩
  · -- Either an argument is wrong, or all that is wrong is their order or the mark behind them.
    have hl : ∃ q, s₁.dropWhile isBlank = q ++ e'.rest ∧
        (FairList order (split q) → Viable (ListAt order) q) := by
      rcases h' with h' | ⟨args, s₂, h', hc⟩
      · rcases argumentListOf_eq_error.1 h' with hi | ⟨args, s₂, hi, -, rfl⟩
        · exact items_argumentOf_viable hpf hv hi
        · exact list_viable hpf (items_argumentOf_sound hv.sound hi) (.refl _)
      · obtain ⟨-, rfl⟩ := closing_eq_error.1 hc
        have ha := items_argumentOf_sound hv.sound (argumentListOf_eq_ok.1 h').1
        exact list_viable hpf ha (blanks_dropWhile s₂)
    obtain ⟨q, hq, hqv⟩ := hl
    obtain ⟨b, hb, hs₁⟩ := blanks_dropWhile s₁
    have hs : split ('(' :: (b ++ q)) = mark '(' :: split q :=
      split_opening '(' (blanks_append hb _) rfl (by decide)
    refine ⟨'(' :: (b ++ q), ?_, .inr ⟨_, rfl⟩, fun hf => viable_parens hb (hqv ?_)⟩
    · rw [hs₁, hq]
      simp [Failure.commit]
    · rw [hs] at hf
      obtain hf | ⟨lists, hl⟩ := hf
      · exact .inl hf
      · exact .inr ⟨lists, inOrder_cons hl⟩

theorem callOf_viable (hpf : ∀ as, positionalFirst as → order as) (hv : Halts order v)
    (h : callOf v s = .error e) :
    ∃ q, s = q ++ e.rest ∧ q.head? ≠ some '>' ∧ (e.committed → positionalAhead (split q)) ∧
      (Fair order (split q) → Viable (Call.At order) q) := by
  rcases callOf_eq_error.1 h with h' | ⟨n, s₁, hn, h'⟩
  · obtain ⟨-, rfl⟩ := name_eq_error.1 h'
    exact ⟨[], rfl, nofun, nofun, fun _ => viable_call_nil (hpf [] rfl)⟩
  · obtain ⟨hw, rfl⟩ := name_text hn
    obtain ⟨b, hb, hs₁⟩ := blanks_dropWhile s₁
    obtain ⟨q, hq, hc, hqv⟩ := argumentsOf_viable hpf hv h'
    obtain ⟨c, cs, hcs, hstart⟩ := (textOf_name hw (b ++ q)).exists_start
    -- The name is a token by itself, for blanks or a parenthesis end it.
    have hstop : Stops isWordPart (b ++ q) := by
      rcases hc with ⟨-, rfl⟩ | ⟨q', rfl⟩
      · exact (blanks_append hb []).stops_word stops_nil
      · exact stops_mark (blanks_append hb _) rfl
    have hs : split (n.toList ++ (b ++ q)) = word n.toList :: split q := by
      rw [split_name (textOf_name hw _) hstop, split_blanks (blanks_append hb q)]
    refine ⟨n.toList ++ (b ++ q), ?_, ?_, fun hcom => ?_, fun hf => ?_⟩
    · rw [hs₁, hq]
      simp
    · rw [hcs, List.head?_cons]
      rintro h
      cases h
      cases hstart
    · rcases hc with ⟨hc, -⟩ | ⟨q', rfl⟩
      · rw [hcom] at hc
        cases hc
      · rw [hs, split_opening '(' (.refl q') rfl (by decide)]
        simp [positionalAhead]
    · exact viable_call hw hb (hqv (hf.of_split [word n.toList] hs))

theorem valueOf_halts (hpf : ∀ as, positionalFirst as → order as) (hv : Halts order v) :
    Halts order (valueOf v) := by
  refine ⟨leavesEnd_valueOf hv.leavesEnd, fun _ _ _ => valueOf_sound hv.sound, fun s e h => ?_⟩
  obtain ⟨e', rfl, ⟨h', hc⟩ | ⟨-, h'⟩⟩ := valueOf_eq_error.1 h
  · obtain ⟨q, hq, hgt, hp, hqv⟩ := literal_viable h'
    exact ⟨q, hq, hgt, fun _ => hp, fun _ => hqv.value⟩
  · obtain ⟨q, hq, hgt, hp, hqv⟩ := callOf_viable hpf hv h'
    exact ⟨q, hq, hgt, fun hc => .inr (hp hc), fun hf => (hqv hf).value_call⟩

/-- A value fails where it can still be completed. -/
theorem value_halts (hpf : ∀ as, positionalFirst as → order as) : Halts order value := by
  have hn : ∀ n, Halts order (rounds valueOf n) := by
    intro n
    induction n with
    | zero =>
      refine ⟨leavesEnd_rounds (fun _ => leavesEnd_valueOf) 0, nofun, fun s e h => ?_⟩
      cases h
      exact ⟨[], rfl, nofun, fun _ => .inl rfl, fun _ => viable_literal_nil.value⟩
    | succ n ih => exact valueOf_halts hpf ih
  exact ⟨leavesEnd_value, fun _ _ _ => value_sound, fun s e h => (hn _).viable s e h⟩

end Calls

/-! ## Sources and sinks -/

section Sinks

variable {k : Rule Sink} {c : Char}

/-- What has been read before `rest` is the beginning of a text, as far as argument lists allow. -/
def StopsWithin {α : Type} (order : List Argument → Bool)
    (A : List Char → α → List Char → Prop) (s rest : List Char) : Prop :=
  ∃ q, s = q ++ rest ∧ (Fair order (split q) → Viable A q)

theorem source_stops (hpf : ∀ as, positionalFirst as → order as) (h : source s = .error e) :
    StopsWithin order (Source.At order) s e.rest := by
  have hc : call s = .error e := by
    rcases source_eq_error.1 h with h | ⟨n, s₁, hn, h, -⟩
    · exact callOf_eq_error.2 (.inl h)
    · exact callOf_eq_error.2 (.inr ⟨n, s₁, hn, h⟩)
  obtain ⟨q, hq, -, -, hqv⟩ := callOf_viable hpf (value_halts hpf) hc
  exact ⟨q, hq, fun hf => (hqv hf).source⟩

/-- What holds of a rule for sinks, and of one more round of it. -/
structure SinkHalts (order : List Argument → Bool) (k : Rule Sink) : Prop where
  leavesEnd : k.LeavesEnd
  sound : ∀ s t rest, k s = .ok (t, rest) → Sink.At positionalFirst s t rest
  stops : ∀ s e, k s = .error e → StopsWithin order (Sink.At order) s e.rest

theorem failsBefore_stops (hpf : ∀ as, positionalFirst as → order as) (hk : SinkHalts order k)
    (h : FailsBefore c k s e) : StopsWithin order (SinkBefore order c) s e.rest := by
  rcases h with h | ⟨t, s₁, ht, h⟩
  · obtain ⟨q, hq, hqv⟩ := hk.stops s e h
    exact ⟨q, hq, fun hf => (hqv hf).before c⟩
  · obtain ⟨-, rfl⟩ := closing_eq_error.1 h
    obtain ⟨q, rfl, -, hq⟩ := sink_extent (fun _ => id) t (hk.sound _ _ _ ht)
    obtain ⟨b, hb, hs₁⟩ := blanks_dropWhile s₁
    refine ⟨q ++ b, ?_, fun _ => viable_before (fun r => (hq r).mono hpf) hb c⟩
    rw [List.append_assoc]
    exact congrArg (q ++ ·) hs₁

theorem decoratedOf_stops (hpf : ∀ as, positionalFirst as → order as) (hk : SinkHalts order k)
    (h : decoratedOf k s = .error e) (hc : e.committed) :
    StopsWithin order (Sink.At order) s e.rest := by
  rcases decoratedOf_eq_error.1 h with ⟨-, rfl⟩ | ⟨s₁, e', rfl, rfl, h'⟩
  · cases hc
  show StopsWithin order (Sink.At order) ('{' :: s₁) e'.rest
  obtain ⟨b₁, hb₁, hs₁⟩ := blanks_dropWhile s₁
  rcases h' with h' | ⟨d, s₂, hd, h'⟩
  · obtain ⟨q, hq, hqv⟩ := source_stops hpf h'
    have hs : split ('{' :: (b₁ ++ q)) = mark '{' :: split q :=
      split_opening '{' (blanks_append hb₁ _) rfl (by decide)
    refine ⟨'{' :: (b₁ ++ q), ?_, fun hf => viable_decorator hb₁ (hqv (hf.of_split [mark '{'] hs))⟩
    rw [hs₁, hq]
    simp
  -- From here on the decorator is complete, and what is missing is behind it.
  obtain ⟨q, hq, -, hqd⟩ := source_extent (fun _ => id) d (source_sound hd)
  rcases h' with h' | ⟨s₃, hs₃, h'⟩
  · -- No arrow: nothing of the child has been read, and any child will do.
    obtain ⟨-, rfl⟩ := arrow_eq_error.1 h'
    obtain ⟨b₂, hb₂, hs₂⟩ := blanks_dropWhile s₂
    refine ⟨'{' :: (b₁ ++ (q ++ b₂)), ?_,
      fun _ => viable_decorated_arrow hb₁ (fun r => (hqd r).mono hpf) hb₂⟩
    simp only [Failure.expecting, List.cons_append, List.append_assoc]
    rw [← hs₂, ← hq, ← hs₁]
  · obtain ⟨q', hq', hqv⟩ := failsBefore_stops hpf hk h'
    obtain ⟨b₂, hb₂, rfl⟩ := blanks_of_dropWhile hs₃
    obtain ⟨b₃, hb₃, hs₃'⟩ := blanks_dropWhile s₃
    have hs : split ('{' :: (b₁ ++ (q ++ (b₂ ++ '=' :: '>' :: (b₃ ++ q'))))) =
        (mark '{' :: (d.tokens ++ [Token.arrow])) ++ split q' := by
      rw [split_opening '{' (blanks_append hb₁ _) rfl (by decide),
        source_split (hqd _) (stops_mark (blanks_append hb₂ _) rfl),
        split_blanks (blanks_append hb₂ _), split, split_blanks (blanks_append hb₃ _)]
      simp
    refine ⟨_, ?_, fun hf => viable_decorated hb₁ (fun r => (hqd r).mono hpf) hb₂ hb₃
      (hqv (hf.of_split _ hs))⟩
    rw [hs₁, hq, hs₃', hq']
    simp

theorem moreSinks_cons (hk : ∀ s t rest, k s = .ok (t, rest) → Sink.At positionalFirst s t rest)
    (s s₁ s₂ s₃ rest : List Char) (t : Sink) (ts : List Sink) (hb : Blanks s (',' :: s₁))
    (hb' : Blanks s₁ s₂) (ht : k s₂ = .ok (t, s₃)) (hts : MoreSinksAt positionalFirst s₃ ts rest) :
    MoreSinksAt positionalFirst s (t :: ts) rest :=
  .cons hb hb' (hk _ _ _ ht) hts

/-- A fan-out fails at a child behind the first one, `t`. -/
theorem moreSinks_stops (hpf : ∀ as, positionalFirst as → order as) (hk : SinkHalts order k)
    {t : Sink} (ht : Sink.At positionalFirst s t rest) (h : moreItems k rest = .error e)
    {b : List Char} (hb : b.all isBlank) :
    StopsWithin order (Sink.At order) ('[' :: (b ++ s)) e.rest := by
  obtain ⟨-, ts, s₃, s₄, hts, hs₃, h'⟩ := moreItems_error_cases hk.leavesEnd
    (fun _ => MoreSinksAt.nil) (moreSinks_cons hk.sound) h
  obtain ⟨q, rfl, -, hqt⟩ := sink_extent (fun _ => id) t ht
  obtain ⟨q', rfl, hqts⟩ := moreSinks_extent (fun _ => id) ts hts
  obtain ⟨b₁, hb₁, rfl⟩ := blanks_of_dropWhile hs₃
  obtain ⟨b₂, hb₂, hs₄⟩ := blanks_dropWhile s₄
  obtain ⟨r, hr, hrv⟩ := hk.stops _ _ h'
  have hm : Stops isWordPart (b₁ ++ ',' :: (b₂ ++ r)) := stops_mark (blanks_append hb₁ _) rfl
  have hs : split ('[' :: (b ++ (q ++ (q' ++ (b₁ ++ ',' :: (b₂ ++ r)))))) =
      (mark '[' :: (t.tokens ++ ((Sink.allTokens ts).flatMap (mark ',' :: ·) ++ [mark ',']))) ++
        split r := by
    rw [split_opening '[' (blanks_append hb _) rfl (by decide),
      sink_split t (hqt _) (stops_moreSinks (hqts _) hm), moreSinks_split ts (hqts _) hm,
      split_between ',' hb₁ hb₂ rfl (by decide)]
    simp
  refine ⟨_, ?_, fun hf => viable_fanOut_concat hb (fun r => (hqt r).mono hpf)
    (fun r => (hqts r).mono hpf) hb₁ hb₂ (hrv (hf.of_split _ hs))⟩
  rw [hs₄, hr]
  simp

theorem fanOutOf_stops (hpf : ∀ as, positionalFirst as → order as) (hk : SinkHalts order k)
    (h : fanOutOf k s = .error e) (hc : e.committed) :
    StopsWithin order (Sink.At order) s e.rest := by
  rcases fanOutOf_eq_error.1 h with ⟨-, rfl⟩ | ⟨s₁, e', rfl, rfl, h'⟩
  · cases hc
  show StopsWithin order (Sink.At order) ('[' :: s₁) e'.rest
  obtain ⟨b, hb, hs₁⟩ := blanks_dropWhile s₁
  rcases h' with h' | ⟨ts, s₂, h', hcl⟩
  · rcases items₁_eq_error.1 h' with h' | ⟨t, s₂, ht, h'⟩
    · obtain ⟨q, hq, hqv⟩ := hk.stops _ _ h'
      have hs : split ('[' :: (b ++ q)) = mark '[' :: split q :=
        split_opening '[' (blanks_append hb _) rfl (by decide)
      refine ⟨'[' :: (b ++ q), ?_, fun hf => viable_child hb (hqv (hf.of_split [mark '['] hs))⟩
      rw [hs₁, hq]
      simp
    · rw [hs₁]
      exact moreSinks_stops hpf hk (hk.sound _ _ _ ht) h' hb
  · obtain ⟨-, rfl⟩ := closing_eq_error.1 hcl
    obtain ⟨t, ts, s₃, rfl, ht, hts⟩ := items₁_eq_ok.1 h'
    obtain ⟨q, hq, -, hqt⟩ := sink_extent (fun _ => id) t (hk.sound _ _ _ ht)
    have hm := moreItems_sound (fun _ => MoreSinksAt.nil) (moreSinks_cons hk.sound) hts
    obtain ⟨q', rfl, hqts⟩ := moreSinks_extent (fun _ => id) ts hm
    obtain ⟨b', hb', hs₂⟩ := blanks_dropWhile s₂
    refine ⟨'[' :: (b ++ (q ++ (q' ++ b'))), ?_, fun _ => viable_fanOut hb
      (fun r => (hqt r).mono hpf) (fun r => (hqts r).mono hpf) hb'⟩
    simp only [Failure.expecting, List.cons_append, List.append_assoc]
    rw [← hs₂, ← hq, ← hs₁]

theorem failoverOf_stops (hpf : ∀ as, positionalFirst as → order as) (hk : SinkHalts order k)
    (h : failoverOf k s = .error e) (hc : e.committed) :
    StopsWithin order (Sink.At order) s e.rest := by
  rcases failoverOf_eq_error.1 h with ⟨-, rfl⟩ | ⟨s₁, e', rfl, rfl, h'⟩
  · cases hc
  show StopsWithin order (Sink.At order) ('<' :: s₁) e'.rest
  obtain ⟨b, hb, hs₁⟩ := blanks_dropWhile s₁
  rcases h' with h' | ⟨t, s₂, s₃, ht, hs₂, h'⟩
  · obtain ⟨q, hq, hqv⟩ := failsBefore_stops hpf hk h'
    have hs : split ('<' :: (b ++ q)) = mark '<' :: split q :=
      split_opening '<' (blanks_append hb _) rfl (by decide)
    refine ⟨'<' :: (b ++ q), ?_, fun hf => viable_primary hb (hqv (hf.of_split [mark '<'] hs))⟩
    rw [hs₁, hq]
    simp
  · obtain ⟨q, hq, -, hqt⟩ := sink_extent (fun _ => id) t (hk.sound _ _ _ ht)
    obtain ⟨b₁, hb₁, rfl⟩ := blanks_of_dropWhile hs₂
    obtain ⟨b₂, hb₂, hs₃⟩ := blanks_dropWhile s₃
    obtain ⟨q', hq', hqv⟩ := failsBefore_stops hpf hk h'
    have hs : split ('<' :: (b ++ (q ++ (b₁ ++ '?' :: (b₂ ++ q'))))) =
        (mark '<' :: (t.tokens ++ [mark '?'])) ++ split q' := by
      rw [split_opening '<' (blanks_append hb _) rfl (by decide),
        sink_split t (hqt _) (stops_mark (blanks_append hb₁ _) rfl),
        split_between '?' hb₁ hb₂ rfl (by decide)]
      simp
    refine ⟨'<' :: (b ++ (q ++ (b₁ ++ '?' :: (b₂ ++ q')))), ?_, fun hf => ?_⟩
    · rw [hs₁, hq, hs₃, hq']
      simp
    · have hv := viable_failover hb (textOf_before (fun r => (hqt r).mono hpf) hb₁ '?') hb₂
        (hqv (hf.of_split _ hs))
      simpa using hv

theorem namedOf_stops (hpf : ∀ as, positionalFirst as → order as) (hk : SinkHalts order k)
    (h : namedOf k s = .error e) : StopsWithin order (Sink.At order) s e.rest := by
  rcases namedOf_eq_error.1 h with h' | ⟨c, s₁, hc, h'⟩
  · obtain ⟨q, hq, hqv⟩ := source_stops hpf h'
    exact ⟨q, hq, fun hf => (hqv hf).sink⟩
  · obtain ⟨s₂, e', hs₂, rfl, hb'⟩ := bodyOf_eq_error.1 h'
    obtain ⟨q, rfl, -, hqc⟩ := call_extent (fun _ => id) c (call_sound hc)
    obtain ⟨b, hb, rfl⟩ := blanks_of_dropWhile hs₂
    obtain ⟨b', hbl, hs₂'⟩ := blanks_dropWhile s₂
    obtain ⟨q', hq', hqv⟩ := failsBefore_stops hpf hk hb'
    have hs : split (q ++ (b ++ '{' :: (b' ++ q'))) = (c.tokens ++ [mark '{']) ++ split q' := by
      rw [call_split c (hqc _),
        split_between '{' hb hbl rfl (by decide)]
      simp
    refine ⟨_, ?_, fun hf => viable_block (fun r => (hqc r).mono hpf) hb hbl
      (hqv (hf.of_split _ hs))⟩
    rw [hs₂', hq']
    simp [Failure.commit]

theorem sinkOf_halts (hpf : ∀ as, positionalFirst as → order as) (hk : SinkHalts order k) :
    SinkHalts order (sinkOf k) := by
  refine ⟨leavesEnd_sinkOf hk.leavesEnd, fun _ _ _ => sinkOf_sound hk.sound, fun s e h => ?_⟩
  obtain ⟨e', rfl, hc⟩ := sinkOf_error_cases h
  show StopsWithin order (Sink.At order) s e'.rest
  rcases hc with ⟨h', hc⟩ | ⟨h', hc⟩ | ⟨h', hc⟩ | h'
  · exact decoratedOf_stops hpf hk h' hc
  · exact fanOutOf_stops hpf hk h' hc
  · exact failoverOf_stops hpf hk h' hc
  · exact namedOf_stops hpf hk h'

/-- A sink fails where it can still be completed. -/
theorem sink_halts (hpf : ∀ as, positionalFirst as → order as) : SinkHalts order sink := by
  have hn : ∀ n, SinkHalts order (rounds sinkOf n) := by
    intro n
    induction n with
    | zero =>
      refine ⟨leavesEnd_rounds (fun _ => leavesEnd_sinkOf) 0, nofun, fun s e h => ?_⟩
      cases h
      exact ⟨[], rfl, fun _ => viable_sink_nil⟩
    | succ n ih => exact sinkOf_halts hpf ih
  exact ⟨leavesEnd_sink, fun _ _ _ => sink_sound, fun s e h => (hn _).stops s e h⟩

end Sinks

end Rule

end Pipeline
