import Mathlib.Data.List.Nodup
import Mathlib.Tactic.Common
import Pipeline.Json.Tidy

/-!
# Documents stand for trees faithfully

Every tree can be read back from its document, and a document is read as a tree exactly if the tidy
form of the document is the document of that tree (`Kind.ofJson_faithful`). Reading looks up members
by their names, tidying puts them in order; the two agree because a list of members is in order
exactly if each name is found with what it should hold (`restrict_eq_iff`). For the nested kinds the
induction is on documents, along the recursion of the readers.
-/

namespace Pipeline

open Json (restrict mapMember member?)

/-! ## Members -/

namespace Json

variable {ms : List (String × Json)} {name : String} {j : Json}

theorem member_cons_self (ha : ¬ ms.any (·.1 = name)) :
    member? name ((name, j) :: ms) = some j := by
  rw [member?, if_pos rfl, if_neg ha]

theorem member_cons_ne {k : String} (hk : ¬ k = name) :
    member? name ((k, j) :: ms) = member? name ms := by
  rw [member?, if_neg hk]

/-- A member is found only if its name occurs once. -/
theorem member_eq_some : member? name ms = some j ↔ ms.filter (·.1 = name) = [(name, j)] := by
  induction ms with
  | nil => simp [member?]
  | cons m ms ih =>
    obtain ⟨k, j'⟩ := m
    by_cases hk : k = name
    · subst hk
      have hany : ms.any (·.1 = k) = false ↔ ms.filter (·.1 = k) = [] := by
        simp [List.filter_eq_nil_iff]
      by_cases ha : ms.any (·.1 = k)
      · have hne : ms.filter (·.1 = k) ≠ [] := by
          intro h
          rw [hany.2 h] at ha
          cases ha
        simp [member?, ha, hne]
      · rw [Bool.not_eq_true] at ha
        simp [member?, ha, hany.1 ha]
    · simp [member?, hk, ih]

theorem member_map (f : String → Json → Json) :
    member? name (ms.map fun m => (m.1, f m.1 m.2)) = (member? name ms).map (f name) := by
  induction ms with
  | nil => rfl
  | cons m ms ih =>
    obtain ⟨k, j⟩ := m
    by_cases hk : k = name
    · subst hk
      by_cases ha : ms.any (·.1 = k)
      · simp [member?, List.any_map, Function.comp_def, ha]
      · simp [member?, List.any_map, Function.comp_def, ha]
    · simp [member?, hk, ih]

theorem member_mapMember {key : String} {f : Json → Json} :
    member? name (mapMember key f ms) =
      (member? name ms).map fun j => if name = key then f j else j :=
  member_map fun k j => if k = key then f j else j

theorem restrict_cons (name : String) (names : List String) :
    restrict (name :: names) ms = ms.filter (·.1 = name) ++ restrict names ms := by
  rw [restrict, List.flatMap_cons, restrict]

theorem filter_restrict_of_notMem : ∀ {names : List String}, name ∉ names →
    (restrict names ms).filter (·.1 = name) = []
  | [], _ => rfl
  | n :: names, h => by
    rw [List.mem_cons, not_or] at h
    have hn : (ms.filter (·.1 = n)).filter (·.1 = name) = [] := by
      simp only [List.filter_filter, List.filter_eq_nil_iff, Bool.and_eq_true, decide_eq_true_eq]
      rintro m - ⟨rfl, rfl⟩
      exact h.1 rfl
    rw [restrict_cons, List.filter_append, hn, filter_restrict_of_notMem h.2, List.append_nil]

/-- The members with the names of `fields` are `fields` exactly if each can be looked up. -/
theorem restrict_eq_iff (fields : List (String × Json)) (hd : (fields.map (·.1)).Nodup) :
    restrict (fields.map (·.1)) ms = fields ↔ ∀ f ∈ fields, member? f.1 ms = some f.2 := by
  induction fields with
  | nil => simp [restrict]
  | cons f fields ih =>
    obtain ⟨name, j⟩ := f
    rw [List.map_cons, List.nodup_cons] at hd
    rw [List.forall_mem_cons, ← ih hd.2, member_eq_some, List.map_cons, restrict_cons]
    refine ⟨fun h => ?_, fun h => ?_⟩
    · have hf : ms.filter (·.1 = name) = [(name, j)] := by
        have hn : fields.filter (·.1 = name) = [] := by
          simp only [List.filter_eq_nil_iff, decide_eq_true_eq]
          rintro m hm hk
          exact hd.1 (List.mem_map.2 ⟨m, hm, hk⟩)
        have h' := congrArg (List.filter (·.1 = name)) h
        simpa [List.filter_append, filter_restrict_of_notMem hd.1, hn] using h'
      rw [hf] at h
      exact ⟨hf, (List.cons.inj h).2⟩
    · rw [h.1, h.2]
      rfl

theorem restrict_one {a : String} {x : Json} :
    restrict [a] ms = [(a, x)] ↔ member? a ms = some x := by
  simpa using restrict_eq_iff [(a, x)] (List.nodup_singleton a)

theorem restrict_two {a b : String} {x y : Json} (h : a ≠ b) :
    restrict [a, b] ms = [(a, x), (b, y)] ↔ member? a ms = some x ∧ member? b ms = some y := by
  simpa using restrict_eq_iff [(a, x), (b, y)] (by simpa using h)

theorem str_eq_some {s : String} : j.str? = some s ↔ j = .str s := by
  cases j <;> simp [str?]

theorem int64_eq_some {n : Int64} : j.int64? = some n ↔ j = .int n.toInt := by
  cases j with
  | int m =>
    rw [int64?, Json.int.injEq]
    split_ifs with h
    · have hm : (Int64.ofInt m).toInt = m :=
        Int64.toInt_ofInt_of_le (Int.le_trans (by decide) h.1) (Int.lt_of_le_of_lt h.2 (by decide))
      rw [Option.some.injEq]
      refine ⟨fun hn => ?_, fun hn => ?_⟩
      · rw [← hn, hm]
      · rw [hn, Int64.ofInt_toInt]
    · refine ⟨nofun, fun hm => absurd ?_ h⟩
      rw [hm]
      exact ⟨n.minValue_le_toInt, n.toInt_le⟩
  | _ => simp [int64?]

end Json

open Json (member_cons_self member_cons_ne member_eq_some member_map member_mapMember restrict_one
  restrict_two str_eq_some int64_eq_some)

/-! ## From a tree and back -/

section RoundTrip

theorem literal_ofJson_toJson : ∀ l : Literal, Literal.ofJson? l.toJson = some l
  | .int text n => by
    have hn : (Json.int n.toInt).int64? = some n := int64_eq_some.2 rfl
    simp [Literal.toJson, Json.variant, Literal.ofJson?, member?, Json.str?, hn]
  | .double text => by simp [Literal.toJson, Json.variant, Literal.ofJson?, member?, Json.str?]
  | .string text => by simp [Literal.toJson, Json.variant, Literal.ofJson?, member?, Json.str?]

mutual

theorem value_ofJson_toJson : ∀ v : Value, Value.ofJson? v.toJson = some v
  | .literal l => by simp [Value.toJson, Json.variant, Value.ofJson?, literal_ofJson_toJson l]
  | .call c => by simp [Value.toJson, Json.variant, Value.ofJson?, call_ofJson_toJson c]

theorem argument_ofJson_toJson : ∀ a : Argument, Argument.ofJson? a.toJson = some a
  | .positional v => by
    simp [Argument.toJson, Json.variant, Argument.ofJson?, value_ofJson_toJson v]
  | .keyword name v => by
    simp [Argument.toJson, Json.variant, Argument.ofJson?, value_ofJson_toJson v]

theorem call_ofJson_toJson : ∀ c : Call, Call.ofJson? c.toJson = some c
  | ⟨name, args⟩ => by
    have hargs := arguments_ofJson_toJson args
    simp [Call.toJson, Call.ofJson?, member?, Json.str?, Argument.allOfMember?, hargs]

theorem arguments_ofJson_toJson : ∀ as : List Argument,
    Argument.allOfJson? (Argument.allToJson as) = some as
  | [] => rfl
  | a :: as => by
    have ha := argument_ofJson_toJson a
    have has := arguments_ofJson_toJson as
    simp [Argument.allToJson, Argument.allOfJson?, ha, has]

end

theorem source_ofJson_toJson : ∀ d : Source, Source.ofJson? d.toJson = some d
  | .name n => rfl
  | .call c => by simp [Source.toJson, Json.variant, Source.ofJson?, call_ofJson_toJson c]

mutual

theorem sink_ofJson_toJson : ∀ t : Sink, Sink.ofJson? t.toJson = some t
  | .name n => rfl
  | .call c => by simp [Sink.toJson, Json.variant, Sink.ofJson?, call_ofJson_toJson c]
  | .decorated d t => by
    have hd := source_ofJson_toJson d
    have ht := sink_ofJson_toJson t
    simp [Sink.toJson, Json.variant, Sink.ofJson?, member?, Sink.ofMember?, hd, ht]
  | .fanOut ts => by
    have hts := sinks_ofJson_toJson ts
    simp [Sink.toJson, Json.variant, Sink.ofJson?, hts]
  | .failover t u => by
    have ht := sink_ofJson_toJson t
    have hu := sink_ofJson_toJson u
    simp [Sink.toJson, Json.variant, Sink.ofJson?, Sink.ofMember?, ht, hu]
  | .block c t => by
    have hc := call_ofJson_toJson c
    have ht := sink_ofJson_toJson t
    simp [Sink.toJson, Json.variant, Sink.ofJson?, member?, Sink.ofMember?, hc, ht]

theorem sinks_ofJson_toJson : ∀ ts : List Sink, Sink.allOfJson? (Sink.allToJson ts) = some ts
  | [] => rfl
  | t :: ts => by
    have ht := sink_ofJson_toJson t
    have hts := sinks_ofJson_toJson ts
    simp [Sink.allToJson, Sink.allOfJson?, ht, hts]

end

end RoundTrip

/-! ## Reading is tidying -/

section Members

variable {name : String} {ms : List (String × Json)}

theorem Argument.tidyMembers_eq : ∀ ms : List (String × Json),
    Argument.tidyMembers name ms = mapMember name Argument.tidyList ms
  | [] => rfl
  | m :: ms => by
    rw [Argument.tidyMembers, tidyMembers_eq ms]
    rfl

theorem Argument.tidyList_eq_arr {j : Json} {js : List Json} :
    Argument.tidyList j = .arr js ↔ ∃ js', j = .arr js' ∧ Argument.tidyAll js' = js := by
  cases j <;> simp [Argument.tidyList]

theorem Argument.allOfMember_eq_some {as : List Argument} :
    Argument.allOfMember? name ms = some as ↔
      ∃ js, member? name ms = some (.arr js) ∧ Argument.allOfJson? js = some as := by
  induction ms with
  | nil => simp [Argument.allOfMember?, member?]
  | cons m ms ih =>
    obtain ⟨k, j⟩ := m
    by_cases hk : k = name
    · by_cases ha : ms.any (·.1 = name)
      · cases j <;> simp [Argument.allOfMember?, member?, hk, ha]
      · cases j <;> simp [Argument.allOfMember?, member?, hk, ha]
    · cases j <;> simp [Argument.allOfMember?, member?, hk, ih]

theorem Sink.tidyMembers_eq {names : List String} : ∀ ms : List (String × Json),
    Sink.tidyMembers names ms =
      ms.map fun m => (m.1, if m.1 ∈ names then Sink.tidy m.2 else m.2)
  | [] => rfl
  | m :: ms => by
    rw [Sink.tidyMembers, tidyMembers_eq ms]
    rfl

theorem Sink.member_tidyMembers {names : List String} :
    member? name (Sink.tidyMembers names ms) =
      (member? name ms).map fun j => if name ∈ names then Sink.tidy j else j := by
  rw [Sink.tidyMembers_eq]
  exact member_map fun k j => if k ∈ names then Sink.tidy j else j

theorem Sink.ofMember_eq_some {t : Sink} :
    Sink.ofMember? name ms = some t ↔ ∃ j, member? name ms = some j ∧ Sink.ofJson? j = some t := by
  induction ms with
  | nil => simp [Sink.ofMember?, member?]
  | cons m ms ih =>
    obtain ⟨k, j⟩ := m
    by_cases hk : k = name
    · by_cases ha : ms.any (·.1 = name)
      · simp [Sink.ofMember?, member?, hk, ha]
      · simp [Sink.ofMember?, member?, hk, ha]
    · simp [Sink.ofMember?, member?, hk, ih]

theorem Sink.ofMember_iff
    (h : ∀ j, member? name ms = some j → ∀ t, Sink.ofJson? j = some t ↔ Sink.tidy j = t.toJson)
    (t : Sink) :
    Sink.ofMember? name ms = some t ↔ (member? name ms).map Sink.tidy = some t.toJson := by
  rw [Sink.ofMember_eq_some, Option.map_eq_some_iff]
  exact exists_congr fun j => and_congr_right fun hj => h j hj t

end Members

section Tidy

/-- A document of none of the shapes that are read is not that of a tree, as this is read back. -/
theorem ofJson_iff_of_none {α : Type} {toJson : α → Json} {ofJson? : Json → Option α} {j j' : Json}
    {t : α} (h : ofJson? (toJson t) = some t) (hj : ofJson? j = none) (hj' : j' = j) :
    ofJson? j = some t ↔ j' = toJson t := by
  rw [hj, hj']
  refine ⟨nofun, fun ht => ?_⟩
  rw [← ht, hj] at h
  cases h

/-- The kinds of a literal differ in their tag, and the tidy document keeps the tag. -/
theorem literal_ofJson_iff (j : Json) (l : Literal) :
    Literal.ofJson? j = some l ↔ Literal.tidy j = l.toJson := by
  -- One case for each of the three members that make a literal, and one for the rest.
  fun_cases Literal.tidy j with
  | case1 ms =>
    cases l <;> simp [Literal.ofJson?, Literal.toJson, Json.variant, restrict_two,
      Option.bind_eq_some_iff, str_eq_some, int64_eq_some]
  | case2 ms =>
    cases l <;> simp [Literal.ofJson?, Literal.toJson, Json.variant, restrict_one,
      Option.bind_eq_some_iff, str_eq_some]
  | case3 ms =>
    cases l <;> simp [Literal.ofJson?, Literal.toJson, Json.variant, restrict_one,
      Option.bind_eq_some_iff, str_eq_some]
  | case4 j h₁ h₂ h₃ =>
    refine ofJson_iff_of_none (literal_ofJson_toJson l) ?_ rfl
    simp [Literal.ofJson?]

/-- A call that is written as an object, once its list of arguments is dealt with. -/
theorem call_object_ofJson_iff {ms : List (String × Json)}
    (h : ∀ js, member? "args" ms = some (.arr js) → ∀ as,
      Argument.allOfJson? js = some as ↔ Argument.tidyAll js = Argument.allToJson as) (c : Call) :
    Call.ofJson? (.obj ms) = some c ↔ Call.tidy (.obj ms) = c.toJson := by
  obtain ⟨name, args⟩ := c
  have hargs : (∃ js, member? "args" ms = some (.arr js) ∧ Argument.allOfJson? js = some args) ↔
      ∃ js, member? "args" ms = some (.arr js) ∧ Argument.tidyAll js = Argument.allToJson args :=
    exists_congr fun js => and_congr_right fun hj => h js hj args
  simp [Call.ofJson?, Call.tidy, Call.toJson, restrict_two, Option.bind_eq_some_iff, str_eq_some,
    Argument.tidyMembers_eq, member_mapMember, Argument.allOfMember_eq_some,
    Argument.tidyList_eq_arr, hargs]

/-- Induction along the documents of values, with one case for each shape. The list of arguments in
an object takes part once it has been looked up. -/
theorem value_document_induction {V C A : Json → Prop} {L : List Json → Prop}
    (literal : ∀ j, V (.obj [("literal", j)]))
    (call : ∀ j, C j → V (.obj [("call", j)]))
    (otherValue : ∀ j, (∀ j', j ≠ .obj [("literal", j')]) → (∀ j', j ≠ .obj [("call", j')]) → V j)
    (object : ∀ ms, (∀ js, member? "args" ms = some (.arr js) → L js) → C (.obj ms))
    (array : ∀ name js, L js → C (.arr [.str name, .arr js]))
    (otherCall : ∀ j, (∀ ms, j ≠ .obj ms) → (∀ name js, j ≠ .arr [.str name, .arr js]) → C j)
    (positional : ∀ j, V j → A (.obj [("positional", j)]))
    (keyword : ∀ name j, V j → A (.obj [("keyword", .arr [.str name, j])]))
    (otherArgument : ∀ j, (∀ j', j ≠ .obj [("positional", j')]) →
      (∀ name j', j ≠ .obj [("keyword", .arr [.str name, j'])]) → A j)
    (nil : L []) (cons : ∀ j js, A j → L js → L (j :: js)) :
    (∀ j, V j) ∧ (∀ j, C j) ∧ (∀ js, L js) ∧ ∀ j, A j := by
  have h := Value.ofJson?.mutual_induct V C L A
    (fun name ms => ∀ js, member? name ms = some (.arr js) → L js) literal call otherValue object
    array otherCall positional keyword otherArgument nil cons
  obtain ⟨hV, hC, hL, hA, -⟩ := h
    -- The lookup has come to the end.
    (fun name js hj => nomatch hj)
    -- A list has the name: another member may have it too, or it is the one.
    (fun k js ms ha js' hj => by simp [member?, ha] at hj)
    (fun k js ms ha ih js' hj => by
      rw [member_cons_self ha] at hj
      cases hj
      exact ih)
    -- A list has another name.
    (fun name k js ms hk ih js' hj => ih js' (by rwa [member_cons_ne hk] at hj))
    -- What is no list has the name, or another one.
    (fun k j ms hj js hjs => by
      by_cases ha : ms.any (·.1 = k)
      · simp [member?, ha] at hjs
      · rw [member_cons_self ha] at hjs
        exact absurd (Option.some.inj hjs) (hj js))
    (fun name k j ms _ hk ih js hjs => ih js (by rwa [member_cons_ne hk] at hjs))
  exact ⟨hV, hC, hL, hA⟩

/-- A document is read as a value exactly if it is that of the value when it is tidy, and so for the
other kinds that values are made of. -/
theorem value_ofJson_iff_both :
    (∀ j v, Value.ofJson? j = some v ↔ Value.tidy j = v.toJson) ∧
    (∀ j c, Call.ofJson? j = some c ↔ Call.tidy j = c.toJson) ∧
    (∀ js as, Argument.allOfJson? js = some as ↔ Argument.tidyAll js = Argument.allToJson as) ∧
    ∀ j a, Argument.ofJson? j = some a ↔ Argument.tidy j = a.toJson := by
  apply value_document_induction
  case literal =>
    intro j v
    cases v <;> simp [Value.ofJson?, Value.tidy, Value.toJson, Json.variant, literal_ofJson_iff]
  case call =>
    intro j ih v
    cases v <;> simp [Value.ofJson?, Value.tidy, Value.toJson, Json.variant, ih]
  case otherValue =>
    intro j h₁ h₂ v
    exact ofJson_iff_of_none (value_ofJson_toJson v) (by simp [Value.ofJson?])
      (by simp [Value.tidy])
  case object =>
    intro ms ih c
    exact call_object_ofJson_iff ih c
  case array =>
    intro name js ih c
    obtain ⟨name', args⟩ := c
    simp [Call.ofJson?, Call.tidy, Call.toJson, ih, and_comm]
  case otherCall =>
    intro j h₁ h₂ c
    exact ofJson_iff_of_none (call_ofJson_toJson c) (by simp [Call.ofJson?]) (by simp [Call.tidy])
  case positional =>
    intro j ih a
    cases a <;> simp [Argument.ofJson?, Argument.tidy, Argument.toJson, Json.variant, ih]
  case keyword =>
    intro name j ih a
    cases a <;>
      simp [Argument.ofJson?, Argument.tidy, Argument.toJson, Json.variant, ih, and_comm]
  case otherArgument =>
    intro j h₁ h₂ a
    exact ofJson_iff_of_none (argument_ofJson_toJson a) (by simp [Argument.ofJson?])
      (by simp [Argument.tidy])
  case nil =>
    intro as
    cases as <;> simp [Argument.allOfJson?, Argument.tidyAll, Argument.allToJson]
  case cons =>
    intro j js ih ih' as
    cases as <;>
      simp [Argument.allOfJson?, Argument.tidyAll, Argument.allToJson, Option.bind_eq_some_iff, ih,
        ih']

theorem source_ofJson_iff (j : Json) (d : Source) :
    Source.ofJson? j = some d ↔ Source.tidy j = d.toJson := by
  have hc := value_ofJson_iff_both.2.1
  by_cases hn : ∃ n, j = .obj [("ident", .str n)]
  · obtain ⟨n, rfl⟩ := hn
    cases d <;> simp [Source.ofJson?, Source.tidy, Source.toJson, Json.variant]
  by_cases hj : ∃ j', j = .obj [("call", j')]
  · obtain ⟨j, rfl⟩ := hj
    cases d <;> simp [Source.ofJson?, Source.tidy, Source.toJson, Json.variant, hc]
  have h₁ : ∀ n, j = .obj [("ident", .str n)] → False := fun n h => hn ⟨n, h⟩
  have h₂ : ∀ j', j = .obj [("call", j')] → False := fun j' h => hj ⟨j', h⟩
  exact ofJson_iff_of_none (source_ofJson_toJson d) (by simp [Source.ofJson?])
    (by simp [Source.tidy])

/-- Induction along the documents of sinks, with one case for each shape. -/
theorem sink_document_induction {S : Json → Prop} {L : List Json → Prop}
    (name : ∀ n, S (.obj [("simple", .str n)]))
    (call : ∀ j, S (.obj [("call", j)]))
    (decorated : ∀ ms, (∀ j, member? "child" ms = some j → S j) →
      S (.obj [("decorated", .obj ms)]))
    (fanOut : ∀ js, L js → S (.obj [("multi", .arr js)]))
    (failover : ∀ ms, (∀ j, member? "primary" ms = some j → S j) →
      (∀ j, member? "backup" ms = some j → S j) → S (.obj [("failover", .obj ms)]))
    (block : ∀ ms, (∀ j, member? "child" ms = some j → S j) → S (.obj [("block", .obj ms)]))
    (other : ∀ j, (∀ n, j ≠ .obj [("simple", .str n)]) → (∀ j', j ≠ .obj [("call", j')]) →
      (∀ ms, j ≠ .obj [("decorated", .obj ms)]) → (∀ js, j ≠ .obj [("multi", .arr js)]) →
      (∀ ms, j ≠ .obj [("failover", .obj ms)]) → (∀ ms, j ≠ .obj [("block", .obj ms)]) → S j)
    (nil : L []) (cons : ∀ j js, S j → L js → L (j :: js)) :
    (∀ j, S j) ∧ ∀ js, L js := by
  have h := Sink.ofJson?.mutual_induct S L (fun name ms => ∀ j, member? name ms = some j → S j)
    name call decorated fanOut failover block other nil cons
  obtain ⟨hS, hL, -⟩ := h
    -- The lookup has come to the end.
    (fun name j hj => nomatch hj)
    -- The first member has the name: another may have it too, or it is the one.
    (fun k j ms ha j' hj => by simp [member?, ha] at hj)
    (fun k j ms ha ih j' hj => by
      rw [member_cons_self ha] at hj
      cases hj
      exact ih)
    -- The first member has another name.
    (fun name k j ms hk ih j' hj => ih j' (by rwa [member_cons_ne hk] at hj))
  exact ⟨hS, hL⟩

/-- A document is read as a sink exactly if it is that of the sink when it is tidy. -/
theorem sink_ofJson_iff_both :
    (∀ j t, Sink.ofJson? j = some t ↔ Sink.tidy j = t.toJson) ∧
    ∀ js ts, Sink.allOfJson? js = some ts ↔ Sink.tidyAll js = Sink.allToJson ts := by
  have hc := value_ofJson_iff_both.2.1
  apply sink_document_induction
  case name =>
    intro n t
    cases t <;> simp [Sink.ofJson?, Sink.tidy, Sink.toJson, Json.variant]
  case call =>
    intro j t
    cases t <;> simp [Sink.ofJson?, Sink.tidy, Sink.toJson, Json.variant, hc]
  case decorated =>
    intro ms ih t
    cases t <;>
      simp [Sink.ofJson?, Sink.tidy, Sink.toJson, Json.variant, restrict_two, member_mapMember,
        Sink.member_tidyMembers, Sink.ofMember_iff ih, Option.bind_eq_some_iff, source_ofJson_iff]
  case fanOut =>
    intro js ih t
    cases t <;> simp [Sink.ofJson?, Sink.tidy, Sink.toJson, Json.variant, ih]
  case failover =>
    intro ms ih ih' t
    cases t <;>
      simp [Sink.ofJson?, Sink.tidy, Sink.toJson, Json.variant, restrict_two,
        Sink.member_tidyMembers, Sink.ofMember_iff ih, Sink.ofMember_iff ih',
        Option.bind_eq_some_iff]
  case block =>
    intro ms ih t
    cases t <;>
      simp [Sink.ofJson?, Sink.tidy, Sink.toJson, Json.variant, restrict_two, member_mapMember,
        Sink.member_tidyMembers, Sink.ofMember_iff ih, Option.bind_eq_some_iff, hc]
  case other =>
    intro j h₁ h₂ h₃ h₄ h₅ h₆ t
    exact ofJson_iff_of_none (sink_ofJson_toJson t) (by simp [Sink.ofJson?]) (by simp [Sink.tidy])
  case nil =>
    intro ts
    cases ts <;> simp [Sink.allOfJson?, Sink.tidyAll, Sink.allToJson]
  case cons =>
    intro j js ih ih' ts
    cases ts <;>
      simp [Sink.allOfJson?, Sink.tidyAll, Sink.allToJson, Option.bind_eq_some_iff, ih, ih']

end Tidy

/-! ## All kinds of trees -/

/-- What a document may stand for. -/
inductive Kind where
  | literal
  | value
  | argument
  | call
  | source
  | sink
deriving DecidableEq, Repr

namespace Kind

/-- What a document of this kind is read into. -/
@[reducible]
def Tree : Kind → Type
  | literal => Literal
  | value => Value
  | argument => Argument
  | call => Call
  | source => Source
  | sink => Sink

/-- The document of a tree. -/
def toJson : (k : Kind) → k.Tree → Json
  | literal => Literal.toJson
  | value => Value.toJson
  | argument => Argument.toJson
  | call => Call.toJson
  | source => Source.toJson
  | sink => Sink.toJson

/-- The tree that a document stands for. -/
def ofJson? : (k : Kind) → Json → Option k.Tree
  | literal => Literal.ofJson?
  | value => Value.ofJson?
  | argument => Argument.ofJson?
  | call => Call.ofJson?
  | source => Source.ofJson?
  | sink => Sink.ofJson?

/-- The document without the liberties that reading allows for this kind. -/
def tidy : Kind → Json → Json
  | literal => Literal.tidy
  | value => Value.tidy
  | argument => Argument.tidy
  | call => Call.tidy
  | source => Source.tidy
  | sink => Sink.tidy

theorem ofJson_toJson : ∀ (k : Kind) (t : k.Tree), k.ofJson? (k.toJson t) = some t
  | literal => literal_ofJson_toJson
  | value => value_ofJson_toJson
  | argument => argument_ofJson_toJson
  | call => call_ofJson_toJson
  | source => source_ofJson_toJson
  | sink => sink_ofJson_toJson

/-- A document is read as a tree exactly if tidying makes it the tree's own. -/
theorem ofJson_eq_some_iff : ∀ (k : Kind) (j : Json) (t : k.Tree),
    k.ofJson? j = some t ↔ k.tidy j = k.toJson t
  | literal => literal_ofJson_iff
  | value => value_ofJson_iff_both.1
  | argument => value_ofJson_iff_both.2.2.2
  | call => value_ofJson_iff_both.2.1
  | source => source_ofJson_iff
  | sink => sink_ofJson_iff_both.1

/-- No tree is lost in its document, and no document is read as a tree whose own document differs
from it in more than what is tidied. -/
theorem ofJson_faithful (k : Kind) :
    (∀ t, k.ofJson? (k.toJson t) = some t) ∧
    (∀ j t, k.ofJson? j = some t ↔ k.tidy j = k.toJson t) ∧
    (∀ j, k.ofJson? j = none ↔ ∀ t, k.tidy j ≠ k.toJson t) ∧
    ∀ j, ((k.ofJson? j).map k.toJson).bind k.ofJson? = k.ofJson? j := by
  refine ⟨k.ofJson_toJson, k.ofJson_eq_some_iff, fun j => ?_, fun j => ?_⟩
  · simp only [Option.eq_none_iff_forall_ne_some, ne_eq, k.ofJson_eq_some_iff]
  · rcases h : k.ofJson? j with _ | t
    · rfl
    · exact k.ofJson_toJson t

example : sink.tidy (.obj [("block", .obj [("child", .obj [("simple", .str "a")]),
      ("since", .null), ("header", .arr [.str "f", .arr []])])]) =
    sink.toJson (.block ⟨"f", []⟩ (.name "a")) := by rfl

end Kind

end Pipeline
