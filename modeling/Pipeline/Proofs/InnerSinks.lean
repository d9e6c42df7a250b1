import Mathlib.Data.List.Lex
import Pipeline.Proofs.CanonicalRuns

/-!
# Sinks inside sinks

A sink inside another is written as it is written alone, so its text is a piece of the text around
it. The texts of the children of one sink are such pieces in their order, each with something in
front of it and the last with something behind it (`setIn_children`), and each is read back as the
child it was written for. A place in a sink is given by the indices of the children that lead to it.
The walk over the children comes to every place where there is a sink, and to each of them once, as
its places are in increasing order (`mem_walk`, `walk_pairwise_lt`).
-/

namespace Pipeline

/-- The parts occur in the text in this order, with something in front of each of them and behind
the last. -/
inductive SetIn : List (List Char) → List Char → Prop
  | nil {s : List Char} : s ≠ [] → SetIn [] s
  | cons {g p s : List Char} {ps : List (List Char)} : g ≠ [] → SetIn ps s →
    SetIn (p :: ps) (g ++ (p ++ s))

section SetIn

variable {ps : List (List Char)} {g p s : List Char}

theorem setIn_one (hg : g ≠ []) (hs : s ≠ []) : SetIn [p] (g ++ (p ++ s)) :=
  .cons hg (.nil hs)

theorem SetIn.infix_of_mem (h : SetIn ps s) (hp : p ∈ ps) : p <:+: s := by
  induction h with
  | nil => cases hp
  | @cons g q s ps _ _ ih =>
    rcases List.mem_cons.1 hp with rfl | hp
    · exact ⟨g, s, by simp⟩
    · exact (ih hp).trans ⟨g ++ q, [], by simp⟩

theorem setIn_commaSeparated (ps : List (List Char)) (hg : g ≠ []) (hs : s ≠ []) :
    SetIn (p :: ps) (g ++ (commaSeparated (p :: ps) ++ s)) := by
  induction ps generalizing g p with
  | nil => simpa [commaSeparated] using setIn_one (p := p) hg hs
  | cons q ps ih =>
    have h := SetIn.cons (p := p) hg (ih (g := [',', ' ']) (p := q) (List.cons_ne_nil _ _))
    simpa [commaSeparated] using h

end SetIn

namespace Sink

/-- The sink that is reached through the children with the indices in the list, one after the
other. -/
def at? : Sink → List Nat → Option Sink
  | t, [] => some t
  | t, i :: path =>
    match t.children[i]? with
    | none => none
    | some u => u.at? path

/-- The sink `u` is the one at a place in another, which is one of the sinks that the latter is
made of or lies within one of these. -/
inductive Within (u : Sink) : List Nat → Sink → Prop
  | self : Within u [] u
  | decorated {path : List Nat} {d : Source} {t : Sink} : Within u path t →
    Within u (0 :: path) (.decorated d t)
  | fanOut {path : List Nat} {i : Nat} {t : Sink} {ts : List Sink} : ts[i]? = some t →
    Within u path t → Within u (i :: path) (.fanOut ts)
  | primary {path : List Nat} {t t' : Sink} : Within u path t →
    Within u (0 :: path) (.failover t t')
  | backup {path : List Nat} {t t' : Sink} : Within u path t' →
    Within u (1 :: path) (.failover t t')
  | block {path : List Nat} {c : Call} {t : Sink} : Within u path t →
    Within u (0 :: path) (.block c t)

variable {t u v : Sink} {path path' : List Nat} {i j : Nat} {ts : List Sink} {empty : EmptyCall}

theorem at?_cons :
    t.at? (i :: path) = some v ↔ ∃ u, t.children[i]? = some u ∧ u.at? path = some v := by
  rw [at?]
  split
  · simp [*]
  · simp [*]

/-! ## The text of a child -/

theorem allChars_eq (ts : List Sink) : allChars empty ts = ts.map (·.chars empty) := by
  induction ts with
  | nil => rfl
  | cons t ts ih => rw [allChars, List.map_cons, ih]

/-- The children's texts stand in the sink's text in order, with something before, between and
after. -/
theorem setIn_children (empty : EmptyCall) : ∀ {t : Sink}, t.WellFormed →
    SetIn (t.children.map (·.chars empty)) (t.chars empty)
  | .name _, hn => .nil hn.endsInToken.ne_nil
  | .call c, _ => .nil c.endsInToken_padded.ne_nil
  | .decorated d t, _ => by
    have h := setIn_one (g := '{' :: ' ' :: (d.chars empty ++ [' ', '=', '>', ' ']))
      (p := t.chars empty) (s := [' ', '}']) nofun nofun
    simpa [children, chars] using h
  | .fanOut [], ht => absurd rfl ht.1
  | .fanOut (t :: ts), _ => by
    have h := setIn_commaSeparated (ts.map (·.chars empty)) (p := t.chars empty)
      (g := ['[', ' ']) (s := [' ', ']']) nofun nofun
    simpa [children, chars, allChars_eq] using h
  | .failover t u, _ => by
    have h := setIn_one (g := [' ', '?', ' ']) (p := u.chars empty) (s := [' ', '>']) nofun nofun
    have h' := SetIn.cons (g := ['<', ' ']) (p := t.chars empty) nofun h
    simpa [children, chars] using h'
  | .block c t, _ => by
    have h := setIn_one (g := c.padded empty ++ [' ', '{', ' ']) (p := t.chars empty)
      (s := [' ', '}']) (by simp) nofun
    simpa [children, chars] using h

theorem AllWellFormed.of_mem : ∀ {ts : List Sink}, AllWellFormed ts → u ∈ ts → u.WellFormed
  | [], _, hu => nomatch hu
  | t :: ts, ⟨ht, hts⟩, hu => by
    rcases List.mem_cons.1 hu with rfl | hu
    · exact ht
    · exact AllWellFormed.of_mem hts hu

theorem WellFormed.child (ht : t.WellFormed) (hu : u ∈ t.children) : u.WellFormed := by
  cases t with
  | name => cases hu
  | call => cases hu
  | decorated =>
    cases List.mem_singleton.1 hu
    exact ht.2
  | fanOut => exact AllWellFormed.of_mem ht.2 hu
  | failover =>
    rcases List.mem_pair.1 hu with rfl | rfl
    · exact ht.1
    · exact ht.2
  | block =>
    cases List.mem_singleton.1 hu
    exact ht.2

/-- What holds of a child in a well-formed sink holds of all sinks inside it. -/
theorem WellFormed.at? (ht : t.WellFormed) (empty : EmptyCall) (h : t.at? path = some u) :
    u.WellFormed ∧ u.chars empty <:+: t.chars empty := by
  induction path generalizing t with
  | nil =>
    cases h
    exact ⟨ht, List.infix_rfl⟩
  | cons i path ih =>
    obtain ⟨v, hv, h⟩ := at?_cons.1 h
    have hmem := List.mem_of_getElem? hv
    obtain ⟨hu, hin⟩ := ih (ht.child hmem) h
    exact ⟨hu, hin.trans ((setIn_children empty ht).infix_of_mem (List.mem_map_of_mem hmem))⟩

/-! ## The walk -/

/-- Following a path leads to the sink that is within there. -/
theorem at?_eq_some : t.at? path = some u ↔ Within u path t := by
  refine ⟨fun h => ?_, fun h => ?_⟩
  · induction path generalizing t with
    | nil =>
      cases h
      exact .self
    | cons i path ih =>
      obtain ⟨v, hv, h⟩ := at?_cons.1 h
      have hw := ih h
      cases t with
      | name => cases hv
      | call => cases hv
      | decorated =>
        rcases i with _ | i
        · cases hv
          exact .decorated hw
        · cases hv
      | fanOut => exact .fanOut hv hw
      | failover =>
        rcases i with _ | _ | i
        · cases hv
          exact .primary hw
        · cases hv
          exact .backup hw
        · cases hv
      | block =>
        rcases i with _ | i
        · cases hv
          exact .block hw
        · cases hv
  · induction h with
    | self => rfl
    | decorated _ ih => exact at?_cons.2 ⟨_, rfl, ih⟩
    | fanOut ht _ ih => exact at?_cons.2 ⟨_, ht, ih⟩
    | primary _ ih => exact at?_cons.2 ⟨_, rfl, ih⟩
    | backup _ ih => exact at?_cons.2 ⟨_, rfl, ih⟩
    | block _ ih => exact at?_cons.2 ⟨_, rfl, ih⟩

/-- The walk is the sink itself and then the walks through its children, one after the other. -/
theorem walk_eq (t : Sink) : t.walk = ([], t) :: walkFrom 0 t.children := by
  cases t with
  | name => rfl
  | call => rfl
  | decorated => simp [walk, children, walkFrom]
  | fanOut => rfl
  | failover => simp [walk, children, walkFrom]
  | block => simp [walk, children, walkFrom]

theorem walkFrom_eq (i : Nat) (ts : List Sink) :
    walkFrom i ts = (ts.zipIdx i).flatMap fun (u, j) => inChild j u.walk := by
  induction ts generalizing i with
  | nil => rfl
  | cons t ts ih => rw [walkFrom, ih, List.zipIdx_cons, List.flatMap_cons]

theorem mem_inChild {visits : List (List Nat × Sink)} : (path, u) ∈ inChild i visits ↔
    ∃ path', path = i :: path' ∧ (path', u) ∈ visits := by
  simp only [inChild, List.mem_map, Prod.mk.injEq, Prod.exists]
  refine ⟨fun h => ?_, fun h => ?_⟩
  · obtain ⟨path', _, h, rfl, rfl⟩ := h
    exact ⟨path', rfl, h⟩
  · obtain ⟨path', rfl, h⟩ := h
    exact ⟨path', u, h, rfl, rfl⟩

theorem mem_walkFrom : (path, v) ∈ walkFrom i ts ↔
    ∃ j u path', path = (i + j) :: path' ∧ ts[j]? = some u ∧ (path', v) ∈ u.walk := by
  induction ts generalizing i with
  | nil => simp [walkFrom]
  | cons t ts ih =>
    rw [walkFrom, List.mem_append, mem_inChild, ih]
    refine ⟨fun h => ?_, fun h => ?_⟩
    · rcases h with ⟨path', rfl, h⟩ | ⟨j, u, path', rfl, hu, h⟩
      · exact ⟨0, t, path', rfl, rfl, h⟩
      · exact ⟨j + 1, u, path', by rw [Nat.add_right_comm, Nat.add_assoc], hu, h⟩
    · obtain ⟨_ | j, u, path', rfl, hu, h⟩ := h
      · cases hu
        exact .inl ⟨path', rfl, h⟩
      · exact .inr ⟨j, u, path', by rw [Nat.add_right_comm, Nat.add_assoc], hu, h⟩

/-- The walk visits every sink at any depth, each under its own path. -/
theorem mem_walk : (path, u) ∈ t.walk ↔ t.at? path = some u := by
  induction path generalizing t with
  | nil =>
    rw [walk_eq, List.mem_cons, mem_walkFrom]
    simp [at?, eq_comm]
  | cons i path ih =>
    rw [walk_eq, List.mem_cons, mem_walkFrom, at?_cons]
    simp [← ih]

theorem sizeOf_lt_of_child (h : u ∈ t.children) : sizeOf u < sizeOf t := by
  cases t with
  | name => cases h
  | call => cases h
  | decorated =>
    cases List.mem_singleton.1 h
    simp only [decorated.sizeOf_spec]
    omega
  | fanOut ts =>
    have hlt : sizeOf u < sizeOf ts := List.sizeOf_lt_of_mem h
    simp only [fanOut.sizeOf_spec]
    omega
  | failover =>
    simp only [failover.sizeOf_spec]
    rcases List.mem_pair.1 h with rfl | rfl
    · omega
    · omega
  | block =>
    cases List.mem_singleton.1 h
    simp only [block.sizeOf_spec]
    omega

/-- A property that a sink has as soon as its children have it is one of all sinks. -/
theorem child_induction {P : Sink → Prop} (h : ∀ t : Sink, (∀ u ∈ t.children, P u) → P t)
    (t : Sink) : P t :=
  h t fun u _ => child_induction h u
termination_by t
decreasing_by exact sizeOf_lt_of_child ‹_›

theorem pairwise_lt_inChild {visits : List (List Nat × Sink)}
    (h : visits.Pairwise fun v w => v.1 < w.1) :
    (inChild i visits).Pairwise fun v w => v.1 < w.1 := by
  rw [inChild, List.pairwise_map]
  exact h.imp fun hlt => List.cons_lt_cons_iff.2 (.inr ⟨rfl, hlt⟩)

theorem pairwise_lt_walkFrom (h : ∀ t ∈ ts, t.walk.Pairwise fun v w => v.1 < w.1) (i : Nat) :
    (walkFrom i ts).Pairwise fun v w => v.1 < w.1 := by
  induction ts generalizing i with
  | nil => exact .nil
  | cons t ts ih =>
    obtain ⟨ht, hts⟩ := List.forall_mem_cons.1 h
    rw [walkFrom, List.pairwise_append]
    refine ⟨pairwise_lt_inChild ht, ih hts (i + 1), fun (p, u) hp (q, v) hq => ?_⟩
    obtain ⟨p, rfl, -⟩ := mem_inChild.1 hp
    obtain ⟨j, -, q, rfl, -⟩ := mem_walkFrom.1 hq
    exact List.cons_lt_cons_iff.2 (.inl (by omega))

/-- The walk visits a sink before its children, and an earlier child before a later one. -/
theorem walk_pairwise_lt (t : Sink) : t.walk.Pairwise fun v w => v.1 < w.1 := by
  induction t using child_induction with
  | h t ih =>
    rw [walk_eq, List.pairwise_cons]
    refine ⟨fun (p, u) hp => ?_, pairwise_lt_walkFrom ih 0⟩
    obtain ⟨j, -, q, rfl, -⟩ := mem_walkFrom.1 hp
    exact List.nil_lt_cons _ _

end Sink

namespace Entry

/-- Every sink inside one that is read can be cut out of the text: it stands there as it is written
alone, its children stand in it in their order and apart, and alone it is read as what it was. The
walk over the children visits all of them, outer before inner and left before right, and none
twice. -/
theorem parse_inner_sinks {text : String} {t : Sink} (h : sink.parse text = .ok t) :
    (∀ empty path u, t.at? path = some u →
      (sink.write empty u).toList <:+: (sink.write empty t).toList ∧
      SetIn (u.children.map fun v => (sink.write empty v).toList) (sink.write empty u).toList ∧
      sink.parse (sink.write empty u) = .ok u) ∧
    (∀ path u, t.at? path = some u ↔ Sink.Within u path t) ∧
    (∀ path u, (path, u) ∈ t.walk ↔ Sink.Within u path t) ∧
    t.walk.Pairwise (fun v w => v.1 < w.1) ∧
    ∀ u : Sink, u.walk =
      ([], u) :: u.children.zipIdx.flatMap fun (v, i) => Sink.inChild i v.walk := by
  have ht : t.WellFormed := wellFormed_of_parse h
  refine ⟨fun empty path u hu => ?_, fun path u => Sink.at?_eq_some,
    fun path u => Sink.mem_walk.trans Sink.at?_eq_some, t.walk_pairwise_lt, fun u => ?_⟩
  · obtain ⟨huw, hin⟩ := ht.at? empty hu
    simp only [write, String.toList_ofList]
    exact ⟨hin, Sink.setIn_children empty huw, parse_write (e := sink) huw empty⟩
  · rw [Sink.walk_eq, Sink.walkFrom_eq]

/-- A fan-out as the backup of another sink, with one child that has parentheses and one that has a
child of its own. -/
theorem parse_inner_sinks_backup :
    "[ f( ), \x7b d => b \x7d ]".toList <:+: "< a ? [ f( ), \x7b d => b \x7d ] >".toList ∧
    SetIn ["f( )".toList, "\x7b d => b \x7d".toList] "[ f( ), \x7b d => b \x7d ]".toList ∧
    sink.parse "[ f( ), \x7b d => b \x7d ]" =
      .ok (.fanOut [.call ⟨"f", []⟩, .decorated (.name "d") (.name "b")]) ∧
    Sink.Within (.name "b") [1, 1, 0]
      (.failover (.name "a") (.fanOut [.call ⟨"f", []⟩, .decorated (.name "d") (.name "b")])) := by
  have h : sink.parse "<a?[f(),\x7bd=>b\x7d]>" = .ok (.failover (.name "a")
      (.fanOut [.call ⟨"f", []⟩, .decorated (.name "d") (.name "b")])) := rfl
  obtain ⟨hcut, hplace, -⟩ := parse_inner_sinks h
  obtain ⟨hin, hset, hread⟩ := hcut .spaced [1] _ rfl
  exact ⟨hin, hset, hread, (hplace [1, 1, 0] _).1 rfl⟩

end Entry

end Pipeline
