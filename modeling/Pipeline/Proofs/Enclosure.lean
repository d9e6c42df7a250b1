import Pipeline.Proofs.ErrorPosition

/-!
# Errors inside openings

What has been opened in front of a text has no part in how the text fails for good. No rule around
the one that fails turns to another alternative, so an opened sink or call only adds its own note
and moves the error by its length in bytes (`sink_behind`, `argument_behind`), and any number of
them, one inside the other, do so in turn (`rule_behind_all`). The notes of sinks are labels, of
which the first alone is reported; those of calls say what was expected and pile up
(`committed_error_enclosed`).
-/

namespace Pipeline

namespace Failure

theorem commit_of_committed {f : Failure} (hc : f.committed) : f.commit = f := by
  rw [commit, ← hc]

/-- What `k` rules, one around the other, make of a failure if each adds the same note. -/
def notedTimes (f : Failure) (n : Note) (k : Nat) : Failure :=
  { f with notes := f.notes ++ List.replicate k n }

theorem noted_notedTimes (f : Failure) (n : Note) (k : Nat) :
    (f.notedTimes n k).noted n = f.notedTimes n (k + 1) := by
  simp only [noted, notedTimes, List.append_assoc, List.replicate_succ']

end Failure

namespace Entry

/-- Texts with a comma behind each. -/
def listed (ts : List String) : String :=
  String.join (ts.map (· ++ ","))

/-- The beginning of a sink, up to where a sink inside it comes next. -/
inductive OpensSink : String → Prop
  | decorated {b t : String} {d : Source} : b.toList.all isBlank → source.parse t = .ok d →
    OpensSink (b ++ "\x7b" ++ t ++ "=>")
  | fanOut {b : String} {ts : List String} : b.toList.all isBlank →
    (∀ t ∈ ts, ∃ u, sink.parse t = .ok u) → OpensSink (b ++ "[" ++ listed ts)
  | primary {b : String} : b.toList.all isBlank → OpensSink (b ++ "<")
  | backup {b t : String} {u : Sink} : b.toList.all isBlank → sink.parse t = .ok u →
    OpensSink (b ++ "<" ++ t ++ "?")
  | block {t : String} {c : Call} : source.parse t = .ok (.call c) → OpensSink (t ++ "\x7b")

/-- The beginning of a call, up to where an argument comes next. -/
inductive OpensCall : String → Prop
  | mk {b n b' : String} {ts : List String} : b.toList.all isBlank → IsName n →
    b'.toList.all isBlank → (∀ t ∈ ts, ∃ a, argument.parse t = .ok a) →
    OpensCall (b ++ n ++ b' ++ "(" ++ listed ts)

theorem toList_listed_cons (t : String) (ts : List String) :
    (listed (t :: ts)).toList = t.toList ++ ',' :: (listed ts).toList := by
  simp [listed]

/-! ## In front of a delimiter -/

section Before

variable {e : Entry} {t : e.Tree} {text : String} {c : Char}

/-- A text that can be read alone has its tree in front of any other. -/
theorem at_front (h : e.parse text = .ok t) (rest : List Char) : ∃ s,
    e.At positionalFirst ((text.toList ++ rest).dropWhile isBlank) t s ∧ Blanks s rest := by
  obtain ⟨b, q, b', htext, hb, hb', -, hq⟩ := (parse_eq_ok.1 h).exists_textOf fun _ => id
  have hs : text.toList ++ rest = b ++ (q ++ (b' ++ rest)) := by simp [htext]
  have ht := hq (b' ++ rest)
  refine ⟨b' ++ rest, ?_, blanks_append hb' rest⟩
  rwa [hs, (blanks_append hb _).dropWhile_eq ht.stops_blank]

theorem rule_before (h : e.parse text = .ok t) (hc : isDelimiter c) (rest : List Char) :
    ∃ s, e.rule ((text.toList ++ c :: rest).dropWhile isBlank) = .ok (t, s) ∧
      s.dropWhile isBlank = c :: rest := by
  obtain ⟨s, ht, hs⟩ := at_front h (c :: rest)
  exact ⟨s, rule_complete ht (hs.free hc), hs.mark (isMark_cases (isMark_of_isDelimiter hc)).1⟩

/-- What follows a call does not matter. -/
theorem call_before {d : Call} (h : source.parse text = .ok (.call d)) (rest : List Char) :
    ∃ s, Rule.call ((text.toList ++ '{' :: rest).dropWhile isBlank) = .ok (d, s) ∧
      s.dropWhile isBlank = '{' :: rest := by
  obtain ⟨s, ht, hs⟩ := at_front h ('{' :: rest)
  cases ht with
  | call hd => exact ⟨s, Rule.call_complete d hd, hs.mark rfl⟩

end Before

/-! ## Items -/

section Items

variable {e : Entry} {s : List Char} {f : Failure} {ts : List String}

/-- One that fails for good, behind items that are read. -/
theorem moreItems_fails (hi : e.rule.LeavesEnd) (hf : e.rule (s.dropWhile isBlank) = .error f)
    (hc : f.committed) : ∀ {ts : List String} {x : List Char},
    (∀ t ∈ ts, ∃ u, e.parse t = .ok u) →
    x.dropWhile isBlank = ',' :: ((listed ts).toList ++ s) → Rule.moreItems e.rule x = .error f
  | [], x, _, hx => by
    have hn : Rule.nextItem e.rule x = .error f := Rule.nextItem_eq_error.2 (.inr ⟨s, hx, hf⟩)
    rw [Rule.moreItems_eq hi]
    exact Rule.bind_eq_error.2 (.inl (Rule.optional_eq_error.2 ⟨hn, hc⟩))
  | t :: ts, x, hts, hx => by
    rw [List.forall_mem_cons] at hts
    obtain ⟨⟨u, hu⟩, hts⟩ := hts
    rw [toList_listed_cons, List.append_assoc, List.cons_append] at hx
    obtain ⟨x', ha, hx'⟩ := rule_before hu (c := ',') rfl ((listed ts).toList ++ s)
    have hn : Rule.nextItem e.rule x = .ok (u, x') := Rule.nextItem_eq_ok.2 ⟨_, hx, ha⟩
    have hmore := moreItems_fails hi hf hc hts hx'
    rw [Rule.moreItems_eq hi]
    exact Rule.bind_eq_error.2 (.inr ⟨some u, x', Rule.optional_of_ok hn,
      Rule.bind_eq_error.2 (.inl hmore)⟩)

/-- A committed failure in any item of a list is the list's. -/
theorem items₁_fails (hi : e.rule.LeavesEnd) (hts : ∀ t ∈ ts, ∃ u, e.parse t = .ok u)
    (hf : e.rule (s.dropWhile isBlank) = .error f) (hc : f.committed) :
    Rule.items₁ e.rule (((listed ts).toList ++ s).dropWhile isBlank) = .error f := by
  cases ts with
  | nil => exact Rule.items₁_eq_error.2 (.inl hf)
  | cons t ts =>
    rw [List.forall_mem_cons] at hts
    obtain ⟨⟨u, hu⟩, hts⟩ := hts
    obtain ⟨x, ha, hx⟩ := rule_before hu (c := ',') rfl ((listed ts).toList ++ s)
    rw [toList_listed_cons, List.append_assoc, List.cons_append]
    exact Rule.items₁_eq_error.2 (.inr ⟨u, x, ha, moreItems_fails hi hf hc hts hx⟩)

theorem items_fails (hi : e.rule.LeavesEnd) (hts : ∀ t ∈ ts, ∃ u, e.parse t = .ok u)
    (hf : e.rule (s.dropWhile isBlank) = .error f) (hc : f.committed) :
    Rule.items e.rule (((listed ts).toList ++ s).dropWhile isBlank) = .error f := by
  have h := Rule.items₁_eq_error.1 (items₁_fails hi hts hf hc)
  exact Rule.items_eq_error.2 (h.imp_left fun h => ⟨h, hc⟩)

end Items

end Entry

/-! ## One opening -/

namespace Rule

variable {s s₁ s₂ : List Char} {f : Failure}

theorem decorated_fails {d : Source} (hd : source (s.dropWhile isBlank) = .ok (d, s₁))
    (ha : s₁.dropWhile isBlank = '=' :: '>' :: s₂) (hf : sink (s₂.dropWhile isBlank) = .error f)
    (hc : f.committed) : sink ('{' :: s) = .error (f.noted (.label .sink)) := by
  have h : decoratedOf sink ('{' :: s) = .error f := decoratedOf_eq_error.2
    (.inr ⟨s, f, rfl, (f.commit_of_committed hc).symm, .inr ⟨d, s₁, hd, .inr ⟨s₂, ha, .inl hf⟩⟩⟩)
  rw [sink_eq]
  exact noting_eq_error.2 ⟨f, orElse_eq_error.2 (.inl ⟨h, hc⟩), rfl⟩

theorem sinkOf_fanOut_fails {k : Rule Sink} (hi : items₁ k (s.dropWhile isBlank) = .error f) :
    sinkOf k ('[' :: s) = .error (f.commit.noted (.label .sink)) := by
  have h : fanOutOf k ('[' :: s) = .error f.commit :=
    fanOutOf_eq_error.2 (.inr ⟨s, f, rfl, rfl, .inl hi⟩)
  rw [sinkOf_eq, noting_eq_error]
  simp only [orElse_eq_error, declines_decoratedOf]
  exact ⟨_, .inr ⟨by simp, .inl ⟨h, rfl⟩⟩, rfl⟩

theorem fanOut_fails (hi : items₁ sink (s.dropWhile isBlank) = .error f) (hc : f.committed) :
    sink ('[' :: s) = .error (f.noted (.label .sink)) := by
  rw [sink_eq, sinkOf_fanOut_fails hi, f.commit_of_committed hc]

theorem failover_fails (h : FailsBefore '?' sink (s.dropWhile isBlank) f ∨
      ∃ t s₁ s₂, sink (s.dropWhile isBlank) = .ok (t, s₁) ∧ s₁.dropWhile isBlank = '?' :: s₂ ∧
        FailsBefore '>' sink (s₂.dropWhile isBlank) f) (hc : f.committed) :
    sink ('<' :: s) = .error (f.noted (.label .sink)) := by
  have h : failoverOf sink ('<' :: s) = .error f :=
    failoverOf_eq_error.2 (.inr ⟨s, f, rfl, (f.commit_of_committed hc).symm, h⟩)
  rw [sink_eq, sinkOf_eq, noting_eq_error]
  simp only [orElse_eq_error, declines_decoratedOf, declines_fanOutOf]
  exact ⟨f, .inr ⟨by simp, .inr ⟨by simp, .inl ⟨h, hc⟩⟩⟩, rfl⟩

/-- What starts with a name has none of the bracketed forms. -/
theorem named_fails {n : String} (hs : name s = .ok (n, s₁)) (h : namedOf sink s = .error f) :
    sink s = .error (f.noted (.label .sink)) := by
  obtain ⟨c, cs, rfl, hstart⟩ := (name_eq_ok.1 hs).1.exists_start
  have hne : c ≠ '{' ∧ c ≠ '[' ∧ c ≠ '<' := by
    refine ⟨?_, ?_, ?_⟩ <;> rintro rfl <;> cases hstart
  rw [sink_eq, sinkOf_eq, noting_eq_error]
  simp only [orElse_eq_error, declines_decoratedOf, declines_fanOutOf, declines_failoverOf,
    List.head?_cons, ne_eq, Option.some.injEq]
  exact ⟨f, .inr ⟨hne.1, .inr ⟨hne.2.1, .inr ⟨hne.2.2, h⟩⟩⟩, rfl⟩

theorem block_fails {c : Call} (hs : call s = .ok (c, s₁)) (hs₁ : s₁.dropWhile isBlank = '{' :: s₂)
    (hf : sink (s₂.dropWhile isBlank) = .error f) (hc : f.committed) :
    sink s = .error (f.noted (.label .sink)) := by
  have hb : bodyOf sink s₁ = .error f :=
    bodyOf_eq_error.2 ⟨s₂, f, hs₁, (f.commit_of_committed hc).symm, .inl hf⟩
  obtain ⟨n, args, x, -, hn, -⟩ := callOf_eq_ok.1 hs
  exact named_fails hn (namedOf_eq_error.2 (.inr ⟨c, s₁, hs, hb⟩))

theorem call_fails {n : String} (hs : name s = .ok (n, s₁))
    (hs₁ : s₁.dropWhile isBlank = '(' :: s₂)
    (hi : items argument (s₂.dropWhile isBlank) = .error f) (hc : f.committed) :
    call s = .error f := by
  have ha : argumentsOf value (s₁.dropWhile isBlank) = .error f := argumentsOf_eq_error.2
    (.inr ⟨s₂, f, hs₁, (f.commit_of_committed hc).symm,
      .inl (argumentListOf_eq_error.2 (.inl hi))⟩)
  exact callOf_eq_error.2 (.inr ⟨n, s₁, hs, ha⟩)

theorem value_of_call_fails {n : String} (hs : name s = .ok (n, s₁)) (h : call s = .error f) :
    value s = .error (f.noted (.expected .value)) := by
  have hl := declines_literal (name_eq_ok.1 hs).1.stops_literal
  rw [value_eq]
  exact valueOf_eq_error.2 ⟨f, rfl, .inr ⟨hl, h⟩⟩

end Rule

namespace Entry

section Opening

variable {s : List Char} {f : Failure} {p : String}

/-- Behind what opens a sink, a committed failure of the inner sink gains one label. -/
theorem sink_behind (hp : OpensSink p) (hf : Rule.sink (s.dropWhile isBlank) = .error f)
    (hc : f.committed) :
    Rule.sink ((p.toList ++ s).dropWhile isBlank) = .error (f.noted (.label .sink)) := by
  cases hp with
  | @decorated b t d hb ht =>
    obtain ⟨x, hd, hx⟩ := rule_before ht (c := '=') rfl ('>' :: s)
    have hs : (b ++ "\x7b" ++ t ++ "=>").toList ++ s =
        b.toList ++ '{' :: (t.toList ++ '=' :: '>' :: s) := by simp
    rw [hs, (blanks_append hb _).mark rfl]
    exact Rule.decorated_fails hd hx hf hc
  | @fanOut b ts hb hts =>
    have hs : (b ++ "[" ++ listed ts).toList ++ s =
        b.toList ++ '[' :: ((listed ts).toList ++ s) := by simp
    rw [hs, (blanks_append hb _).mark rfl]
    exact Rule.fanOut_fails (items₁_fails (e := sink) Rule.leavesEnd_sink hts hf hc) hc
  | @primary b hb =>
    have hs : (b ++ "<").toList ++ s = b.toList ++ '<' :: s := by simp
    rw [hs, (blanks_append hb _).mark rfl]
    exact Rule.failover_fails (.inl (.inl hf)) hc
  | @backup b t u hb ht =>
    obtain ⟨x, hu, hx⟩ := rule_before ht (c := '?') rfl s
    have hs : (b ++ "<" ++ t ++ "?").toList ++ s =
        b.toList ++ '<' :: (t.toList ++ '?' :: s) := by simp
    rw [hs, (blanks_append hb _).mark rfl]
    exact Rule.failover_fails (.inr ⟨u, x, s, hu, hx, .inl hf⟩) hc
  | @block t c ht =>
    obtain ⟨x, hcall, hx⟩ := call_before ht s
    have hs : (t ++ "\x7b").toList ++ s = t.toList ++ '{' :: s := by simp
    rw [hs]
    exact Rule.block_fails hcall hx hf hc

/-- Behind what opens a call, a committed failure of the argument is the call's as it is. -/
theorem call_behind (hp : OpensCall p) (hf : Rule.argument (s.dropWhile isBlank) = .error f)
    (hc : f.committed) : ∃ n s₁ s₂,
    Rule.name ((p.toList ++ s).dropWhile isBlank) = .ok (n, s₁) ∧
      s₁.dropWhile isBlank = '(' :: s₂ ∧
      Rule.call ((p.toList ++ s).dropWhile isBlank) = .error f := by
  obtain @⟨b, n, b', ts, hb, hn, hb', hts⟩ := hp
  have hs : (b ++ n ++ b' ++ "(" ++ listed ts).toList ++ s =
      b.toList ++ (n.toList ++ (b'.toList ++ '(' :: ((listed ts).toList ++ s))) := by simp
  have hopen := blanks_append hb' ('(' :: ((listed ts).toList ++ s))
  have hname := textOf_name hn (b'.toList ++ '(' :: ((listed ts).toList ++ s))
  have hstop := (hopen.stops_word (stops_cons.2 rfl)).mono fun _ => isWordPart_of_isNamePart
  have hi := items_fails (e := argument) (Rule.leavesEnd_argumentOf Rule.leavesEnd_value) hts hf hc
  have hn' := Rule.name_eq_ok.2 ⟨hname, hstop⟩
  rw [hs, (blanks_append hb _).dropWhile_eq hname.stops_blank]
  exact ⟨n, _, _, hn', hopen.mark rfl, Rule.call_fails hn' (hopen.mark rfl) hi hc⟩

/-- The name is taken for that of a keyword first, but no equals sign follows it. -/
theorem argument_behind (hp : OpensCall p) (hf : Rule.argument (s.dropWhile isBlank) = .error f)
    (hc : f.committed) :
    Rule.argument ((p.toList ++ s).dropWhile isBlank) = .error (f.noted (.expected .value)) := by
  obtain ⟨n, s₁, s₂, hn, hs₁, h⟩ := call_behind hp hf hc
  have hs₁' : (s₁.dropWhile isBlank).head? ≠ some '=' := by simp [hs₁]
  exact Rule.argumentOf_eq_error.2
    (.inr ⟨Rule.value_of_call_fails hn h, .inr ⟨n, s₁, hn, hs₁'⟩⟩)

end Opening

/-! ## Any number of openings -/

section Openings

variable {e : Entry} {s : List Char} {f : Failure} {n : Note}

/-- One opener after the other: the innermost is first to add its note. -/
theorem rule_behind_all {O : String → Prop}
    (step : ∀ {p : String} {s : List Char} {f : Failure}, O p →
      e.rule (s.dropWhile isBlank) = .error f → f.committed →
      e.rule ((p.toList ++ s).dropWhile isBlank) = .error (f.noted n))
    (hf : e.rule (s.dropWhile isBlank) = .error f) (hc : f.committed) :
    ∀ {ps : List String}, (∀ p ∈ ps, O p) →
    e.rule (((String.join ps).toList ++ s).dropWhile isBlank) = .error (f.notedTimes n ps.length)
  | [], _ => by
    simpa [Failure.notedTimes] using hf
  | p :: ps, hps => by
    rw [List.forall_mem_cons] at hps
    have h := step hps.1 (rule_behind_all step hf hc hps.2) hc
    rwa [Failure.noted_notedTimes, ← List.append_assoc, ← String.toList_append,
      ← String.join_cons] at h

/-- What is in front of a text moves its error by as many bytes as it has. -/
theorem parse_error_behind {p text : String} {k : Nat}
    (hf : e.rule (text.toList.dropWhile isBlank) = .error f)
    (h : e.rule ((p.toList ++ text.toList).dropWhile isBlank) = .error (f.notedTimes n k)) :
    ∃ err err', e.parse text = .error err ∧ e.parse (p ++ text) = .error err' ∧
      err.fault = .unreadable f.notes f.cause ∧
      err'.fault = .unreadable (f.notes ++ List.replicate k n) f.cause ∧
      err'.position.offset = p.utf8ByteSize + err.position.offset := by
  obtain ⟨q, hq, -⟩ := rule_error_viable (fun _ => id) hf
  rw [← String.toList_append] at h
  refine ⟨_, _, parse_eq_error.2 (.inl ⟨f, hf, rfl⟩), parse_eq_error.2 (.inl ⟨_, h, rfl⟩), rfl,
    rfl, ?_⟩
  have hrest : (f.notedTimes n k).rest = f.rest := rfl
  rw [hrest, String.toList_append, hq, ← List.append_assoc, positionOf_append, positionOf_append,
    after_offset, after_offset, String.ofList_append, String.utf8ByteSize_append,
    String.ofList_toList]

end Openings

/-- Only the first label counts. -/
theorem report_append_labels (notes : List Note) (l l' : Label) (k : Nat) (cause : Option Cause) :
    report (notes ++ [.label l] ++ List.replicate k (.label l')) cause =
      report (notes ++ [.label l]) cause := by
  have hlabel : (notes ++ [Note.label l] ++ List.replicate k (Note.label l')).findSome?
      Note.label? = (notes ++ [Note.label l]).findSome? Note.label? := by
    simp only [List.findSome?_append, List.findSome?_singleton, Note.label?]
    rcases notes.findSome? Note.label? with _ | l₁
    · rfl
    · rfl
  have hexpected : (List.replicate k (Note.label l')).filterMap Note.expectation? = [] := by
    simp [List.filterMap_eq_nil_iff, List.mem_replicate, Note.expectation?]
  simp only [report, hlabel, List.filterMap_append, hexpected, List.append_nil]

/-- What fails for good does so behind any openings too, further on by as many bytes as these have.
A sink is silent about those around it, each call around an argument says that it expected one. -/
theorem committed_error_enclosed :
    (∀ (ps : List String) (s : String) (f : Failure), (∀ p ∈ ps, OpensSink p) →
      Rule.sink (s.toList.dropWhile isBlank) = .error f → f.committed →
      ∃ err err', sink.parse s = .error err ∧ sink.parse (String.join ps ++ s) = .error err' ∧
        err.fault = .unreadable f.notes f.cause ∧ err'.message = err.message ∧
        err'.position.offset = (String.join ps).utf8ByteSize + err.position.offset) ∧
    ∀ (ps : List String) (a : String) (f : Failure), (∀ p ∈ ps, OpensCall p) →
      Rule.argument (a.toList.dropWhile isBlank) = .error f → f.committed →
      ∃ err err', argument.parse a = .error err ∧
        argument.parse (String.join ps ++ a) = .error err' ∧
        err.fault = .unreadable f.notes f.cause ∧
        err'.fault =
          .unreadable (f.notes ++ List.replicate ps.length (.expected .value)) f.cause ∧
        err'.position.offset = (String.join ps).utf8ByteSize + err.position.offset := by
  refine ⟨fun ps s f hps hf hc => ?_, fun ps a f hps hf hc => ?_⟩
  · have hall := rule_behind_all (e := sink) (O := OpensSink) sink_behind hf hc hps
    obtain ⟨err, err', h, h', hfault, hfault', ho⟩ := parse_error_behind (e := sink) hf hall
    refine ⟨err, err', h, h', hfault, ?_, ho⟩
    rw [Rule.sink_eq] at hf
    obtain ⟨f', rfl, -⟩ := Rule.sinkOf_error_cases hf
    rw [SyntaxError.message, SyntaxError.message, hfault, hfault']
    exact report_append_labels f'.notes .sink .sink ps.length f'.cause
  · have hall := rule_behind_all (e := argument) (O := OpensCall) argument_behind hf hc hps
    exact parse_error_behind (e := argument) hf hall

/-- The sinks say no more than the numeral, each call repeats what it expected. -/
theorem committed_error_enclosed_overflow :
    (∃ err err', sink.parse "g(9223372036854775808)" = .error err ∧
      sink.parse "\x7b d =>[ a ,f() \x7b<g(9223372036854775808)" = .error err' ∧
      err.fault = .unreadable [.expected .integer, .label .literal, .expected .value, .label .sink]
        (some .overflow) ∧
      err'.message = err.message ∧ err'.position.offset = 17 + err.position.offset) ∧
    ∃ err err', argument.parse "9223372036854775808" = .error err ∧
      argument.parse "f(k=1,2,g (9223372036854775808" = .error err' ∧
      err.fault = .unreadable [.expected .integer, .label .literal, .expected .value]
        (some .overflow) ∧
      err'.fault = .unreadable [.expected .integer, .label .literal, .expected .value,
        .expected .value, .expected .value] (some .overflow) ∧
      err'.position.offset = 11 + err.position.offset := by
  refine ⟨committed_error_enclosed.1 ["\x7b d =>", "[ a ,", "f() \x7b", "<"]
      "g(9223372036854775808)" ⟨true, "9223372036854775808)".toList, _, some .overflow⟩ ?_ rfl rfl,
    committed_error_enclosed.2 ["f(k=1,2,", "g ("] "9223372036854775808"
      ⟨true, "9223372036854775808".toList, _, some .overflow⟩ ?_ rfl rfl⟩
  · have ha : sink.parse " a " = .ok (.name "a") := by rfl
    have hd : OpensSink "\x7b d =>" := @OpensSink.decorated "" " d " (.name "d") rfl rfl
    have ho : OpensSink "[ a ," := @OpensSink.fanOut "" [" a "] rfl (by simpa using ⟨_, ha⟩)
    have hf : OpensSink "f() \x7b" := @OpensSink.block "f() " ⟨"f", []⟩ rfl
    have hp : OpensSink "<" := @OpensSink.primary "" rfl
    simp [hd, ho, hf, hp]
  · have hk : argument.parse "k=1" = .ok (.keyword "k" (.literal (.int "1" 1))) := by rfl
    have h2 : argument.parse "2" = .ok (.positional (.literal (.int "2" 2))) := by rfl
    have hf : OpensCall "f(k=1,2," := @OpensCall.mk "" "f" "" ["k=1", "2"] rfl
      (isName_singleton (c := 'f') rfl) rfl (by simpa using ⟨⟨_, hk⟩, ⟨_, h2⟩⟩)
    have hg : OpensCall "g (" := @OpensCall.mk "" "g" " " [] rfl
      (isName_singleton (c := 'g') rfl) rfl (by simp)
    simp [hf, hg]

end Entry

end Pipeline
