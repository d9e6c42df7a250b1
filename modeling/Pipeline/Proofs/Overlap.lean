import Pipeline.Proofs.Split

/-!
# Where the entries overlap

A text may be readable as more than one entry, but then its trees are of one shape: a call is a
source, a sink and an argument, a bare name is a source and a sink, and a literal is an argument
(`parse_call_iff`, `parse_name_iff`, `parse_literal_iff`). Everything else belongs to one entry
alone. As the tokens of a text are those of its tree, two trees of one text start alike, and a
literal never starts like a name (`not_isName_of_literal`), nor does an equals sign stand behind the
name of a source or a sink (`not_bound_source`, `not_bound_sink`).
-/

namespace Pipeline

open Token (word mark)

namespace Sink

/-- Whether there are other sinks in it. -/
def isCompound : Sink → Bool
  | name _ | call _ => false
  | decorated .. | fanOut _ | failover .. | block .. => true

end Sink

namespace Entry

/-- The text is not of this entry. -/
def Refuses (e : Entry) (text : String) : Prop :=
  ∃ err, e.parse text = .error err

variable {text : String}

theorem refuses_of_forall_ne {e : Entry} (h : ∀ t, e.parse text ≠ .ok t) : e.Refuses text := by
  rcases hp : e.parse text with err | t
  · exact ⟨err, hp⟩
  · exact absurd hp (h t)

theorem Refuses.ne {e : Entry} (h : e.Refuses text) (t : e.Tree) : e.parse text ≠ .ok t := by
  obtain ⟨err, h⟩ := h
  rw [h]
  nofun

/-- Two trees of one text have the same tokens, whatever their entries are. -/
theorem tokens_eq_of_parse {e f : Entry} {t : e.Tree} {u : f.Tree} (ht : e.parse text = .ok t)
    (hu : f.parse text = .ok u) : e.tokens t = f.tokens u := by
  rw [← (parse_eq_ok_iff_split.1 ht).2, (parse_eq_ok_iff_split.1 hu).2]

/-! ## What is shared -/

/-- Trees that the grammar spells alike are read from the same texts. -/
theorem parse_iff_of_at {e f : Entry} {t : e.Tree} {u : f.Tree}
    (h : ∀ s rest, e.At positionalFirst s t rest ↔ f.At positionalFirst s u rest) :
    e.parse text = .ok t ↔ f.parse text = .ok u := by
  simp only [parse_eq_ok, Spells, h]

/-- A call is the same text as a source, a sink and a positional argument. -/
theorem parse_call_iff {c : Call} :
    (source.parse text = .ok (.call c) ↔ sink.parse text = .ok (.call c)) ∧
      (sink.parse text = .ok (.call c) ↔ argument.parse text = .ok (.positional (.call c))) := by
  refine ⟨parse_iff_of_at fun s rest => ⟨fun h => ?_, fun h => ?_⟩,
    parse_iff_of_at fun s rest => ⟨fun h => ?_, fun h => ?_⟩⟩
  · cases h with
    | call h => exact .call h
  · cases h with
    | call h => exact .call h
  · cases h with
    | call h => exact .positional (.call h)
  · cases h with
    | positional h =>
      cases h with
      | call h => exact .call h

theorem parse_name_iff {n : String} :
    source.parse text = .ok (.name n) ↔ sink.parse text = .ok (.name n) := by
  refine parse_iff_of_at fun s rest => ⟨fun h => ?_, fun h => ?_⟩
  · cases h with
    | name h => exact .name h
  · cases h with
    | name h => exact .name h

theorem parse_literal_iff {l : Literal} :
    argument.parse text = .ok (.positional (.literal l)) ↔ literal.parse text = .ok l := by
  refine parse_iff_of_at fun s rest => ⟨fun h => ?_, fun h => ?_⟩
  · cases h with
    | positional h =>
      cases h with
      | literal h => exact h
  · exact .positional (.literal h)

/-! ## What is not -/

/-- No literal is spelled like a name. -/
theorem not_isName_of_literal {l : Literal} {n : String} (hl : l.WellFormed)
    (h : l.text.toList = n.toList) : ¬ IsName n := by
  intro hn
  obtain ⟨c, cs, hcs, hc⟩ := NameAt.exists_start hn
  have hs := Literal.At.stops_name hl
  rw [h, hcs, Stops, List.head?_cons] at hs
  rw [hs c rfl] at hc
  cases hc

/-- The first word of a source is a name, and no equals sign comes next. -/
theorem not_bound_source {d : Source} (hd : d.WellFormed) {w : List Char} {ts : List Token}
    (h : d.tokens = word w :: ts) :
    (∃ n, IsName n ∧ w = n.toList) ∧ ts.head? ≠ some (mark '=') := by
  rcases d with n | ⟨n, args⟩
  · cases h
    exact ⟨⟨n, hd, rfl⟩, nofun⟩
  · cases h
    exact ⟨⟨n, hd.1, rfl⟩, nofun⟩

/-- A sink that starts with a word starts like a source. -/
theorem not_bound_sink {t : Sink} (ht : t.WellFormed) {w : List Char} {ts : List Token}
    (h : t.tokens = word w :: ts) :
    (∃ n, IsName n ∧ w = n.toList) ∧ ts.head? ≠ some (mark '=') := by
  cases t with
  | name n => exact not_bound_source (d := .name n) ht h
  | call c => exact not_bound_source (d := .call c) ht h
  | decorated => cases h
  | fanOut => cases h
  | failover => cases h
  | block c t =>
    obtain ⟨n, args⟩ := c
    cases h
    exact ⟨⟨n, ht.1.1, rfl⟩, nofun⟩

theorem refuses_of_literal {l : Literal} (h : literal.parse text = .ok l) :
    source.Refuses text ∧ sink.Refuses text := by
  have hl := (parse_eq_ok_iff_split.1 h).1
  refine ⟨refuses_of_forall_ne fun d hd => ?_, refuses_of_forall_ne fun t ht => ?_⟩
  · have hw := (parse_eq_ok_iff_split.1 hd).1
    obtain ⟨⟨n, hn, he⟩, -⟩ := not_bound_source hw (tokens_eq_of_parse h hd).symm
    exact not_isName_of_literal hl he hn
  · have hw := (parse_eq_ok_iff_split.1 ht).1
    obtain ⟨⟨n, hn, he⟩, -⟩ := not_bound_sink hw (tokens_eq_of_parse h ht).symm
    exact not_isName_of_literal hl he hn

/-- Only an argument has a name followed by the sign for equality. -/
theorem refuses_of_keyword {n : String} {v : Value}
    (h : argument.parse text = .ok (.keyword n v)) :
    literal.Refuses text ∧ source.Refuses text ∧ sink.Refuses text := by
  refine ⟨refuses_of_forall_ne fun l hl => ?_, refuses_of_forall_ne fun d hd => ?_,
    refuses_of_forall_ne fun t ht => ?_⟩
  · exact List.cons_ne_nil _ _ (List.cons.inj (tokens_eq_of_parse h hl)).2
  · have hw := (parse_eq_ok_iff_split.1 hd).1
    exact (not_bound_source hw (tokens_eq_of_parse h hd).symm).2 rfl
  · have hw := (parse_eq_ok_iff_split.1 ht).1
    exact (not_bound_sink hw (tokens_eq_of_parse h ht).symm).2 rfl

/-- An argument that is also a sink is a call. -/
theorem refuses_argument {t : Sink} (h : sink.parse text = .ok t) (ht : ∀ c, t ≠ .call c) :
    argument.Refuses text := by
  refine refuses_of_forall_ne fun a ha => ?_
  cases a with
  | positional v =>
    cases v with
    | literal l => exact (refuses_of_literal (parse_literal_iff.1 ha)).2.ne t h
    | call c =>
      have hc := parse_call_iff.2.2 ha
      rw [h] at hc
      cases hc
      exact ht c rfl
  | keyword n v => exact (refuses_of_keyword ha).2.2.ne t h

theorem refuses_literal {t : Sink} (h : sink.parse text = .ok t) : literal.Refuses text :=
  refuses_of_forall_ne fun _ hl => (refuses_of_literal hl).2.ne t h

theorem refuses_of_compound {t : Sink} (h : sink.parse text = .ok t) (ht : t.isCompound) :
    literal.Refuses text ∧ argument.Refuses text ∧ source.Refuses text := by
  refine ⟨refuses_literal h, refuses_argument h ?_, refuses_of_forall_ne fun d hd => ?_⟩
  · rintro c rfl
    cases ht
  · cases d with
    | name n =>
      have hn := parse_name_iff.1 hd
      rw [h] at hn
      cases hn
      cases ht
    | call c =>
      have hc := parse_call_iff.1.1 hd
      rw [h] at hc
      cases hc
      cases ht

/-- Calls are common to three entries, names to two, and literals to two; all other texts are of one
entry at most. -/
theorem parse_overlap (text : String) :
    (∀ c, (source.parse text = .ok (.call c) ↔ sink.parse text = .ok (.call c)) ∧
      (sink.parse text = .ok (.call c) ↔ argument.parse text = .ok (.positional (.call c)))) ∧
    (∀ n, source.parse text = .ok (.name n) ↔ sink.parse text = .ok (.name n)) ∧
    (∀ l, argument.parse text = .ok (.positional (.literal l)) ↔ literal.parse text = .ok l) ∧
    (∀ l, literal.parse text = .ok l → source.Refuses text ∧ sink.Refuses text) ∧
    (∀ n, source.parse text = .ok (.name n) ∨ sink.parse text = .ok (.name n) →
      literal.Refuses text ∧ argument.Refuses text) ∧
    (∀ n v, argument.parse text = .ok (.keyword n v) →
      literal.Refuses text ∧ source.Refuses text ∧ sink.Refuses text) ∧
    ∀ t, sink.parse text = .ok t → t.isCompound →
      literal.Refuses text ∧ argument.Refuses text ∧ source.Refuses text := by
  refine ⟨fun c => parse_call_iff, fun n => parse_name_iff, fun l => parse_literal_iff,
    fun l => refuses_of_literal, fun n h => ?_, fun n v => refuses_of_keyword,
    fun t => refuses_of_compound⟩
  have hs : sink.parse text = .ok (.name n) := h.elim parse_name_iff.1 id
  exact ⟨refuses_literal hs, refuses_argument hs nofun⟩

example : source.parse "f\t( k = 1 )" = .ok (.call ⟨"f", [.keyword "k" (.literal (.int "1" 1))]⟩) ∧
    argument.parse "f = g ( )" = .ok (.keyword "f" (.call ⟨"g", []⟩)) := ⟨rfl, rfl⟩

end Entry

end Pipeline
