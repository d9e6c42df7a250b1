import Pipeline.Proofs.BrokenLiteral

/-!
# Where failures come from

Either a rule fails at a literal that has begun and comes where one is due, or what is wrong lies
outside all literals: a name, a value or a mark is missing, or arguments are out of order. The rules
around the place put their notes on the failure in both cases, so that it never leaves without one
(`Rule.Fails`, `Entry.rule_fails`). The induction is on the length of the text, since a nested sink
or value starts behind what opens it.
-/

namespace Pipeline

namespace Note

/-- The marks that a list or a sink cannot do without. -/
def marks : List String :=
  ["=>", ")", "\x7d", "]", "?", ">"]

/-- What is noted around values: marks, and what the grammar has where something begins. -/
def OfArgument (n : Note) : Prop :=
  n ∈ [expected .name, expected .value, expected .positionalFirst] ∨
    ∃ t ∈ marks, n = expected (.token t)

/-- What is noted around sinks: also that one was to be read. -/
def OfSink (n : Note) : Prop :=
  n = label .sink ∨ n.OfArgument

end Note

namespace Rule

variable {D D' : String → Prop} {N N' : Note → Prop} {s s' : List Char} {f : Failure}

/-- A failure at a literal behind a text in `D`, or else one that has no cause but what its notes
say. The notes of the rules around are in `N`. -/
inductive Fails (D : String → Prop) (N : Note → Prop) (s : List Char) (f : Failure) : Prop
  | atLiteral {q : String} {s₀ : List Char} {f₀ : Failure} {ns : List Note} : D q →
    s = q.toList ++ s₀ → literal s₀ = .error f₀ → f₀.committed → (∀ n ∈ ns, N n) →
    f = f₀.notedAll ns → Fails D N s f
  | elsewhere : f.notes ≠ [] → (∀ n ∈ f.notes, N n) → f.cause = none → Fails D N s f

theorem fails_expecting {x : Expectation} (hx : N (.expected x)) : Fails D N s (.expecting x s') :=
  .elsewhere (List.cons_ne_nil _ _) (by simpa [Failure.expecting] using hx) rfl

theorem fails_literal {q : String} (hq : D q) (hs : s = q.toList ++ s') (h : literal s' = .error f)
    (hc : f.committed) : Fails D N s f := by
  have hns : ∀ n ∈ [], N n := nofun
  exact .atLiteral hq hs h hc hns f.notedAll_nil.symm

theorem Fails.mono (h : Fails D N s f) (hD : ∀ q, D q → D' q) (hN : ∀ n, N n → N' n) :
    Fails D' N' s f := by
  cases h with
  | atLiteral hq hs hf hc hns he =>
    exact .atLiteral (hD _ hq) hs hf hc (fun n hn => hN n (hns n hn)) he
  | elsewhere hne hns hf => exact .elsewhere hne (fun n hn => hN n (hns n hn)) hf

theorem Fails.behind {p : String} (h : Fails D N s' f) (hs : s = p.toList ++ s')
    (hD : ∀ q, D q → D' (p ++ q)) : Fails D' N s f := by
  cases h with
  | atLiteral hq hs' hf hc hns he =>
    refine .atLiteral (hD _ hq) ?_ hf hc hns he
    rw [hs, hs', String.toList_append, List.append_assoc]
  | elsewhere hne hns hf => exact .elsewhere hne hns hf

theorem Fails.commit (h : Fails D N s f) : Fails D N s f.commit := by
  cases h with
  | atLiteral hq hs hf hc hns he =>
    refine .atLiteral hq hs hf hc hns ?_
    rw [he]
    exact Failure.commit_of_committed (f := Failure.notedAll _ _) hc
  | elsewhere hne hns hf => exact .elsewhere hne hns hf

theorem Fails.noted {n : Note} (h : Fails D N s f) (hn : N n) : Fails D N s (f.noted n) := by
  cases h with
  | @atLiteral q s₀ f₀ ns hq hs hf hc hns he =>
    have hns' : ∀ m ∈ ns ++ [n], N m := List.forall_mem_append.2 ⟨hns, by simpa using hn⟩
    exact .atLiteral hq hs hf hc hns' (by rw [he, Failure.noted_notedAll])
  | elsewhere hne hns hf =>
    have hns' : ∀ m ∈ (f.noted n).notes, N m :=
      List.forall_mem_append.2 ⟨hns, by simpa using hn⟩
    exact .elsewhere (by simp [Failure.noted]) hns' hf

end Rule

/-! ## What is read before a failure -/

namespace Entry

variable {e : Entry} {s s₁ rest : List Char} {f : Failure}

/-- What a rule has read is a text that parses by itself. -/
theorem exists_text_before {t : e.Tree} (h : e.rule (s.dropWhile isBlank) = .ok (t, s₁))
    (hb : Blanks s₁ rest) : ∃ p : String, e.parse p = .ok t ∧ s = p.toList ++ rest := by
  obtain ⟨b, hb₁, hs⟩ := blanks_dropWhile s
  obtain ⟨q, hq, -, hqt⟩ := at_extent (fun _ => id) (rule_sound h)
  obtain ⟨b', hb', rfl⟩ := hb
  refine ⟨String.ofList (b ++ (q ++ b')), ?_, ?_⟩
  · rw [parse_eq_ok, String.toList_ofList]
    exact spells_of_textOf hb₁ hqt hb'
  · rw [String.toList_ofList, List.append_assoc, List.append_assoc, ← hq]
    exact hs

theorem toList_listed_append_singleton (ts : List String) (t : String) :
    (listed (ts ++ [t])).toList = (listed ts).toList ++ (t.toList ++ [',']) := by
  induction ts with
  | nil => simp [listed]
  | cons t' ts ih => simp [toList_listed_cons, ih]

/-- With a text put in front, there are texts up to `rest`, and commas between them. -/
def ListedUpTo (e : Entry) (s rest : List Char) : Prop :=
  ∀ t : String, (∃ u, e.parse t = .ok u) → ∃ ts t', (∀ t ∈ ts, ∃ u, e.parse t = .ok u) ∧
    (∃ u, e.parse t' = .ok u) ∧ t.toList ++ s = (listed ts).toList ++ (t'.toList ++ rest)

theorem reads_append_blanks {t : String} {b : List Char} (hb : b.all isBlank)
    (ht : ∃ u, e.parse t = .ok u) : ∃ u, e.parse (String.ofList (t.toList ++ b)) = .ok u := by
  obtain ⟨u, hu⟩ := ht
  exact ⟨u, (parse_append_blanks hb).2 hu⟩

theorem ListedUpTo.cons {s₂ s₃ : List Char} {u : e.Tree} (hb : Blanks s (',' :: s₁))
    (hb' : Blanks s₁ s₂) (hu : e.rule s₂ = .ok (u, s₃)) (h : ListedUpTo e s₃ rest) :
    ListedUpTo e s rest := by
  intro t ht
  obtain ⟨b, hb, rfl⟩ := hb
  rw [← hb'.dropWhile_eq (rule_sound hu).stops_blank] at hu
  obtain ⟨p, hp, rfl⟩ := exists_text_before hu (.refl s₃)
  obtain ⟨ts, t', hts, ht', he⟩ := h p ⟨u, hp⟩
  refine ⟨String.ofList (t.toList ++ b) :: ts, t', ?_, ht', ?_⟩
  · exact List.forall_mem_cons.2 ⟨reads_append_blanks hb ht, hts⟩
  · rw [toList_listed_cons, List.append_assoc, List.cons_append, ← he]
    simp

/-- Items behind the first fail where the text in front is a list of texts. -/
theorem moreItems_opened {t : e.Tree} (hi : e.rule.LeavesEnd)
    (ht : e.rule (s.dropWhile isBlank) = .ok (t, s₁)) (h : Rule.moreItems e.rule s₁ = .error f) :
    ∃ ts s₂, (∀ t ∈ ts, ∃ u, e.parse t = .ok u) ∧ s = (listed ts).toList ++ s₂ ∧
      e.rule (s₂.dropWhile isBlank) = .error f := by
  obtain ⟨-, as, s₂, s₃, hm, hs₂, hf⟩ := Rule.moreItems_error_cases
    (M := fun s _ rest => ListedUpTo e s rest) hi (fun s t ht => ⟨[], t, nofun, ht, rfl⟩)
    (fun _ _ _ _ _ _ _ hb hb' hu hm => .cons hb hb' hu hm) h
  obtain ⟨p, hp, rfl⟩ := exists_text_before ht (.refl s₁)
  obtain ⟨ts, t', hts, ht', he⟩ := hm p ⟨t, hp⟩
  obtain ⟨b, hb, rfl⟩ := blanks_of_dropWhile hs₂
  refine ⟨ts ++ [String.ofList (t'.toList ++ b)], s₃, ?_, ?_, hf⟩
  · exact List.forall_mem_append.2 ⟨hts, by simpa using reads_append_blanks hb ht'⟩
  · rw [he, toList_listed_append_singleton]
    simp

theorem items₁_opened (hi : e.rule.LeavesEnd)
    (h : Rule.items₁ e.rule (s.dropWhile isBlank) = .error f) : ∃ ts s₂,
    (∀ t ∈ ts, ∃ u, e.parse t = .ok u) ∧ s = (listed ts).toList ++ s₂ ∧
      e.rule (s₂.dropWhile isBlank) = .error f := by
  rcases Rule.items₁_eq_error.1 h with h | ⟨t, s₁, ht, h⟩
  · exact ⟨[], s, nofun, rfl, h⟩
  · exact moreItems_opened hi ht h

theorem items_opened (hi : e.rule.LeavesEnd)
    (h : Rule.items e.rule (s.dropWhile isBlank) = .error f) : ∃ ts s₂,
    (∀ t ∈ ts, ∃ u, e.parse t = .ok u) ∧ s = (listed ts).toList ++ s₂ ∧
      e.rule (s₂.dropWhile isBlank) = .error f := by
  rcases Rule.items_eq_error.1 h with ⟨h, -⟩ | ⟨t, s₁, ht, h⟩
  · exact ⟨[], s, nofun, rfl, h⟩
  · exact moreItems_opened hi ht h

end Entry

/-! ## Values and arguments -/

namespace Rule

open Entry

variable {s : List Char} {f : Failure}

theorem ofArgument_value : (Note.expected .value).OfArgument :=
  .inl (by simp)

theorem ofArgument_token {t : String} (ht : t ∈ Note.marks) :
    (Note.expected (.token t)).OfArgument :=
  .inr ⟨t, ht, rfl⟩

/-- An argument fails in its value. -/
theorem argument_fails_of (hv : ∀ s' : List Char, s'.length ≤ s.length → ∀ f,
      value (s'.dropWhile isBlank) = .error f → Fails ValueDue Note.OfArgument s' f)
    (h : argument (s.dropWhile isBlank) = .error f) :
    Fails ArgumentDue Note.OfArgument s f := by
  rcases argumentOf_eq_error.1 h with ⟨n, s₁, s₂, e, hn, hs₁, he, rfl⟩ | ⟨he, -⟩
  · obtain ⟨b, hb, hs⟩ := blanks_dropWhile s
    obtain ⟨hw, hs'⟩ := name_text hn
    obtain ⟨b', hb', rfl⟩ := blanks_of_dropWhile hs₁
    have hs : s = (String.ofList b ++ n ++ String.ofList b' ++ "=").toList ++ s₂ := by
      rw [hs, hs']
      simp
    have hlen : s₂.length ≤ s.length := by
      rw [hs, List.length_append]
      omega
    refine ((hv s₂ hlen e he).behind hs fun q hq => ?_).commit
    exact .keyword (by simpa using hb) hw (by simpa using hb') hq
  · exact (hv s (Nat.le_refl _) f he).mono (fun _ => .positional) fun _ => id

/-- A call fails at its name, at its arguments or behind them, or because it has none. -/
theorem call_fails_of (ha : ∀ s' : List Char, s'.length < s.length → ∀ f,
      argument (s'.dropWhile isBlank) = .error f → Fails ArgumentDue Note.OfArgument s' f)
    (h : call (s.dropWhile isBlank) = .error f) :
    (∃ s', f = .here s') ∨ Fails SourceDue Note.OfArgument s f := by
  rcases callOf_eq_error.1 h with h | ⟨n, s₁, hn, h⟩
  · rw [(name_eq_error.1 h).2]
    exact .inr (fails_expecting (.inl (by simp)))
  rcases argumentsOf_eq_error.1 h with ⟨-, rfl⟩ | ⟨s₂, e, hs₁, rfl, h'⟩
  · exact .inl ⟨_, rfl⟩
  refine .inr (Fails.commit ?_)
  rcases h' with h | ⟨args, s₃, -, h⟩
  · rcases argumentListOf_eq_error.1 h with h | ⟨args, s₃, -, -, rfl⟩
    · -- The failure is that of an argument, which starts behind the opening parenthesis.
      obtain ⟨ts, s₃, hts, rfl, hf⟩ :=
        items_opened (e := .argument) (leavesEnd_argumentOf leavesEnd_value) h
      obtain ⟨b, hb, hs⟩ := blanks_dropWhile s
      obtain ⟨hw, hs'⟩ := name_text hn
      obtain ⟨b', hb', rfl⟩ := blanks_of_dropWhile hs₁
      have hs :
          s = (String.ofList b ++ n ++ String.ofList b' ++ "(" ++ listed ts).toList ++ s₃ := by
        rw [hs, hs']
        simp
      have hlen : s₃.length < s.length := by
        rw [hs]
        simp
        omega
      refine (ha s₃ hlen e hf).behind hs fun q hq => .mk ?_ hq
      exact .mk (by simpa using hb) hw (by simpa using hb') hts
    · exact fails_expecting (.inl (by simp))
  · -- The closing parenthesis is missing.
    rw [(closing_eq_error.1 h).2]
    exact fails_expecting (ofArgument_token (by decide))

/-- A value fails at a literal that was due, or for want of something around it. The induction is on
the length of the text, since an argument list is read behind its opening mark. -/
theorem value_fails : ∀ {s : List Char} {f : Failure}, value (s.dropWhile isBlank) = .error f →
    Fails ValueDue Note.OfArgument s f := by
  intro s f h
  induction hn : s.length using Nat.strongRecOn generalizing s f with
  | ind n ih =>
    have ha : ∀ s' : List Char, s'.length < s.length → ∀ f,
        argument (s'.dropWhile isBlank) = .error f →
        Fails ArgumentDue Note.OfArgument s' f := by
      intro s' hs' f h
      refine argument_fails_of (fun s'' hs'' f h => ih s''.length ?_ h rfl) h
      omega
    rw [value_eq] at h
    obtain ⟨e, rfl, ⟨h, hc⟩ | ⟨-, h⟩⟩ := valueOf_eq_error.1 h
    · obtain ⟨b, hb, hs⟩ := blanks_dropWhile s
      have hq : ValueDue (String.ofList b) := .here (by simpa using hb)
      exact (fails_literal hq (by simpa using hs) h hc).noted ofArgument_value
    · rcases call_fails_of ha h with ⟨s', rfl⟩ | h
      · exact fails_expecting ofArgument_value
      · exact (h.mono (fun _ ⟨hp, hq⟩ => .inCall hp hq) fun _ => id).noted ofArgument_value

theorem argument_fails (h : argument (s.dropWhile isBlank) = .error f) :
    Fails ArgumentDue Note.OfArgument s f :=
  argument_fails_of (fun _ _ _ => value_fails) h

theorem source_fails (h : source (s.dropWhile isBlank) = .error f) :
    Fails SourceDue Note.OfArgument s f := by
  have hcall : call (s.dropWhile isBlank) = .error f := by
    rcases source_eq_error.1 h with h | ⟨n, s₁, hn, h, -⟩
    · exact callOf_eq_error.2 (.inl h)
    · exact callOf_eq_error.2 (.inr ⟨n, s₁, hn, h⟩)
  rcases call_fails_of (fun _ _ _ => argument_fails) hcall with ⟨s', rfl⟩ | hf
  · -- A name need not have arguments behind it.
    rcases source_eq_error.1 h with h | ⟨-, -, -, -, hc⟩
    · cases (name_eq_error.1 h).2
    · cases hc
  · exact hf

/-! ## Sinks -/

section Sinks

variable {c : Char} (hk : ∀ s' : List Char, s'.length < s.length → ∀ f,
  sink (s'.dropWhile isBlank) = .error f → Fails SinkDue Note.OfSink s' f)

theorem ofSink_token {t : String} (ht : t ∈ Note.marks) :
    (Note.expected (.token t)).OfSink :=
  .inr (ofArgument_token ht)

include hk

theorem failsBefore_fails {p : String} {s' : List Char} (hp : OpensSink p)
    (hs : s = p.toList ++ s') (hlen : s'.length < s.length) (hc : c ∈ ['}', '?', '>'])
    (h : FailsBefore c sink (s'.dropWhile isBlank) f) : Fails SinkDue Note.OfSink s f := by
  rcases h with h | ⟨t, s₁, -, h⟩
  · exact (hk s' hlen f h).behind hs fun _ => .inSink hp
  · rw [(closing_eq_error.1 h).2]
    refine fails_expecting (ofSink_token ?_)
    simp only [List.mem_cons, List.not_mem_nil, or_false] at hc
    rcases hc with rfl | rfl | rfl <;> decide

theorem decorated_fails_of (hr : decoratedOf sink (s.dropWhile isBlank) = .error f)
    (hc : f.committed) : Fails SinkDue Note.OfSink s f := by
  rcases decoratedOf_eq_error.1 hr with ⟨-, rfl⟩ | ⟨s₁, e, hs₁, rfl, h'⟩
  · cases hc
  refine Fails.commit ?_
  obtain ⟨b, hb, rfl⟩ := blanks_of_dropWhile hs₁
  rcases h' with h | ⟨d, s₂, hd, h⟩
  · refine ((source_fails h).mono (fun _ => id) fun _ => .inr).behind
      (p := String.ofList b ++ "\x7b") (by simp) fun q hq => ?_
    exact .decorator (by simpa using hb) hq
  rcases h with h | ⟨s₃, hs₂, h⟩
  · rw [(arrow_eq_error.1 h).2]
    exact fails_expecting (ofSink_token (by decide))
  · obtain ⟨t, ht, rfl⟩ := exists_text_before (e := .source) hd (blanks_of_dropWhile hs₂)
    refine failsBefore_fails hk (.decorated (b := String.ofList b) (by simpa using hb) ht)
      (by simp) ?_ (by simp) h
    simp
    omega

theorem fanOut_fails_of (hr : fanOutOf sink (s.dropWhile isBlank) = .error f)
    (hc : f.committed) : Fails SinkDue Note.OfSink s f := by
  rcases fanOutOf_eq_error.1 hr with ⟨-, rfl⟩ | ⟨s₁, e, hs₁, rfl, h'⟩
  · cases hc
  refine Fails.commit ?_
  obtain ⟨b, hb, rfl⟩ := blanks_of_dropWhile hs₁
  rcases h' with h | ⟨ts, s₂, -, h⟩
  · obtain ⟨ts, s₂, hts, rfl, hf⟩ := items₁_opened (e := .sink) leavesEnd_sink h
    have hs : b ++ '[' :: ((listed ts).toList ++ s₂) =
        (String.ofList b ++ "[" ++ listed ts).toList ++ s₂ := by simp
    have hlen : s₂.length < (b ++ '[' :: ((listed ts).toList ++ s₂)).length := by
      simp
      omega
    exact (hk s₂ hlen e hf).behind hs fun _ => .inSink (.fanOut (by simpa using hb) hts)
  · rw [(closing_eq_error.1 h).2]
    exact fails_expecting (ofSink_token (by decide))

theorem failover_fails_of (hr : failoverOf sink (s.dropWhile isBlank) = .error f)
    (hc : f.committed) : Fails SinkDue Note.OfSink s f := by
  rcases failoverOf_eq_error.1 hr with ⟨-, rfl⟩ | ⟨s₁, e, hs₁, rfl, h'⟩
  · cases hc
  refine Fails.commit ?_
  obtain ⟨b, hb, rfl⟩ := blanks_of_dropWhile hs₁
  rcases h' with h | ⟨t, s₂, s₃, ht, hs₂, h⟩
  · refine failsBefore_fails hk (.primary (b := String.ofList b) (by simpa using hb)) (by simp)
      ?_ (by simp) h
    simp
    omega
  · obtain ⟨p, hp, rfl⟩ := exists_text_before (e := .sink) ht (blanks_of_dropWhile hs₂)
    refine failsBefore_fails hk (.backup (b := String.ofList b) (by simpa using hb) hp) (by simp)
      ?_ (by simp) h
    simp
    omega

theorem named_fails_of (hr : namedOf sink (s.dropWhile isBlank) = .error f) :
    Fails SinkDue Note.OfSink s f := by
  rcases namedOf_eq_error.1 hr with h | ⟨c, s₁, hcall, h⟩
  · exact (source_fails h).mono (fun _ => .head) fun _ => .inr
  · obtain ⟨s₂, e, hs₁, rfl, hf⟩ := bodyOf_eq_error.1 h
    have hsource := source_eq_ok.2 (.inr ⟨c, rfl, hcall⟩)
    obtain ⟨t, ht, rfl⟩ := exists_text_before (e := .source) hsource (blanks_of_dropWhile hs₁)
    refine (failsBefore_fails hk (.block ht) (by simp) ?_ (by simp) hf).commit
    simp
    omega

end Sinks

/-- A sink fails at a literal that was due at any depth of it, or for want of something outside all
literals. -/
theorem sink_fails : ∀ {s : List Char} {f : Failure}, sink (s.dropWhile isBlank) = .error f →
    Fails SinkDue Note.OfSink s f := by
  intro s f h
  induction hn : s.length using Nat.strongRecOn generalizing s f with
  | ind n ih =>
    have hk : ∀ s' : List Char, s'.length < s.length → ∀ f,
        sink (s'.dropWhile isBlank) = .error f → Fails SinkDue Note.OfSink s' f :=
      fun s' hs' f h => ih s'.length (hn ▸ hs') h rfl
    rw [sink_eq] at h
    obtain ⟨e, rfl, h'⟩ := sinkOf_error_cases h
    refine Fails.noted ?_ (.inl rfl)
    rcases h' with ⟨h, hc⟩ | ⟨h, hc⟩ | ⟨h, hc⟩ | h
    · exact decorated_fails_of hk h hc
    · exact fanOut_fails_of hk h hc
    · exact failover_fails_of hk h hc
    · exact named_fails_of hk h

end Rule

namespace Entry

/-- What the rule of the entry may note, outside literals. -/
def MayNote : Entry → Note → Prop
  | literal => fun n => n = .label .literal
  | argument | source => Note.OfArgument
  | sink => Note.OfSink

theorem rule_fails : ∀ {e : Entry} {s : List Char} {f : Failure},
    e.rule (s.dropWhile isBlank) = .error f → Rule.Fails e.LiteralDue e.MayNote s f
  | literal, s, f, h => by
    obtain ⟨b, hb, hs⟩ := blanks_dropWhile s
    by_cases hc : f.committed
    · have hq : literal.LiteralDue (String.ofList b) := by simpa [LiteralDue] using hb
      exact Rule.fails_literal hq (by simpa using hs) h hc
    · obtain ⟨e, rfl, h'⟩ := Rule.literal_error_cases h
      rcases h' with rfl | ⟨_, _, _, -, -, -, rfl⟩ | ⟨-, rfl⟩ | ⟨_, -, -, rfl⟩
      · exact .elsewhere (List.cons_ne_nil _ _) (by simp [Failure.here, Failure.noted, MayNote]) rfl
      · exact absurd rfl hc
      · exact absurd rfl hc
      · exact absurd rfl hc
  | argument, _, _, h => Rule.argument_fails h
  | source, _, _, h => Rule.source_fails h
  | sink, _, _, h => Rule.sink_fails h

end Entry

end Pipeline
