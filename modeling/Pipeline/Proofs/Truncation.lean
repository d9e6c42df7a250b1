import Pipeline.Proofs.Enclosure
import Pipeline.Proofs.LongestMatch

/-!
# Texts that are cut short

A beginning of a text that lacks more than blanks may be a text by itself, as `a` is one of `ab`.
But the rule reads a tree that ends in a bracket or a quote whatever follows it, so where such a
tree is read from the beginning it is read from the whole text too, and nothing but blanks can have
been cut off (`not_cutShort`). What is left are beginnings that end in a name, a number or, if a
block was to come, a call. There are none behind an opening bracket or quote
(`cutShort_refused`).
-/

namespace Pipeline

/-- The beginning `p` of the text lacks the last character that is no blank. -/
def CutShort (text p : String) : Prop :=
  ∃ x, text.toList = p.toList ++ x ∧ ¬ x.all isBlank

namespace Sink

/-- Whether the outermost bracket comes first, with nothing in front of it. -/
def isBracketed : Sink → Bool
  | name _ | call _ | block .. => false
  | decorated .. | fanOut _ | failover .. => true

end Sink

namespace Entry

/-! ## Trees that end in a bracket -/

section Front

variable {e : Entry} {text p : String} {t u : e.Tree}

/-- What is read from a beginning stands at the front of the text, where the rule starts. -/
theorem cutShort_at (hp : e.parse p = .ok u) (hc : CutShort text p) :
    ∃ rest, e.At positionalFirst (text.toList.dropWhile isBlank) u rest ∧ ¬ Blanks rest [] := by
  obtain ⟨x, hx, hne⟩ := hc
  obtain ⟨rest, hu, b, -, rfl⟩ := at_front hp x
  rw [← hx] at hu
  refine ⟨_, hu, fun hrest => hne ?_⟩
  obtain ⟨b', hb', he⟩ := hrest
  rw [List.append_nil] at he
  rw [← he, List.all_append, Bool.and_eq_true] at hb'
  exact hb'.2

theorem rule_of_parse (h : e.parse text = .ok t) :
    ∃ rest, e.rule (text.toList.dropWhile isBlank) = .ok (t, rest) ∧ Blanks rest [] := by
  obtain ⟨rest, hr, hb⟩ := parseChars_eq_ok.1 h
  exact ⟨rest, hr, blanks_of_dropWhile hb⟩

/-- If the rule reads the tree of the beginning whatever follows, only blanks have been cut off. -/
theorem not_cutShort (hclosed : ∀ s rest, e.At positionalFirst s u rest → e.rule s = .ok (u, rest))
    (h : e.parse text = .ok t) (hp : e.parse p = .ok u) : ¬ CutShort text p := by
  intro hc
  obtain ⟨rest, hu, hne⟩ := cutShort_at hp hc
  obtain ⟨rest', ht, hrest⟩ := rule_of_parse h
  rw [hclosed _ _ hu] at ht
  cases ht
  exact hne hrest

end Front

variable {text p : String}

theorem not_cutShort_of_compound {t u : Sink} (hu : u.isCompound) (h : sink.parse text = .ok t)
    (hp : sink.parse p = .ok u) : ¬ CutShort text p :=
  not_cutShort (e := sink) (fun _ _ hs => Rule.sink_of_compound hs hu) h hp

theorem not_cutShort_of_call {d : Source} {c : Call} (h : source.parse text = .ok d)
    (hp : source.parse p = .ok (.call c)) : ¬ CutShort text p :=
  not_cutShort (e := source) (fun _ _ hs => Rule.source_of_call hs) h hp

/-! ## Words -/

section Words

variable {s rest rest' : List Char}

/-- A literal that starts with a quote is a string. -/
theorem string_of_quote {l : Literal} (h : Literal.At ('"' :: s) l rest) :
    ∃ w, l = .string w := by
  generalize hs : '"' :: s = s' at h
  cases h with
  | @decimal ds _ hne hds =>
    obtain ⟨c, cs, rfl⟩ := List.exists_cons_of_ne_nil hne
    cases hs
    cases hds
  | hex => cases hs
  | @double ds _ _ hds =>
    rcases ds with _ | ⟨c, cs⟩
    · cases hs
    · cases hs
      cases hds
  | string => exact ⟨_, rfl⟩

/-- There are no parentheses in a name or around it. -/
theorem paren_not_mem_of_name {n : String} (h : source.parse p = .ok (.name n)) :
    '(' ∉ p.toList := by
  obtain ⟨s, rest, ⟨b, hb, hs⟩, hn, b', hb', rfl⟩ := parse_eq_ok.1 h
  cases hn with
  | name hn =>
    obtain ⟨cs, rfl, hcs⟩ := hn.exists_run
    intro hmem
    rw [hs, List.append_nil] at hmem
    rcases List.mem_append.1 hmem with hmem | hmem
    · cases List.all_eq_true.1 hb _ hmem
    rcases List.mem_append.1 hmem with hmem | hmem
    · cases List.all_eq_true.1 hcs _ hmem
    · cases List.all_eq_true.1 hb' _ hmem

/-- No sink that starts with a name is derived where a bracket comes first. -/
theorem isCompound_of_isBracketed {t u : Sink} (ht : t.isBracketed)
    (h : Sink.At positionalFirst s t rest) (hu : Sink.At positionalFirst s u rest') :
    u.isCompound := by
  have hstart : Stops isNameStart s := by
    cases h with
    | name | call | block => cases ht
    | decorated | fanOut | failover => exact stops_cons.2 rfl
  have hname {n : String} {s₁ : List Char} (hn : NameAt s n s₁) : False := by
    obtain ⟨c, cs, rfl, hc⟩ := hn.exists_start
    rw [stops_cons.1 hstart] at hc
    cases hc
  cases hu with
  | name hn => exact (hname hn).elim
  | call hc =>
    cases hc with
    | mk hn => exact (hname hn).elim
  | decorated | fanOut | failover | block => rfl

end Words

/-! ## What is refused -/

theorem bracketed_refuses {t : Sink} (h : sink.parse text = .ok t) (ht : t.isBracketed)
    (hc : CutShort text p) : sink.Refuses p := by
  refine refuses_of_forall_ne fun u hp => ?_
  obtain ⟨rest, hu, -⟩ := cutShort_at hp hc
  obtain ⟨rest', hr, -⟩ := rule_of_parse h
  exact not_cutShort_of_compound (isCompound_of_isBracketed ht (Rule.sink_sound hr) hu) h hp hc

theorem string_refuses {w : String} (h : literal.parse text = .ok (.string w))
    (hc : CutShort text p) : literal.Refuses p := by
  refine refuses_of_forall_ne fun m hp => ?_
  obtain ⟨rest, hm, -⟩ := cutShort_at hp hc
  obtain ⟨rest', hr, -⟩ := rule_of_parse h
  have hw := Rule.literal_sound hr
  obtain ⟨w', rfl⟩ : ∃ w', m = .string w' := by
    generalize text.toList.dropWhile isBlank = s at hm hw
    cases hw with
    | string => exact string_of_quote hm
  refine not_cutShort (fun s rest hs => ?_) h hp hc
  cases hs with
  | string hb => exact Rule.literal_of_string hb rest

/-- Of what an argument with a call may be cut down to, nothing is an argument. -/
theorem argument_refuses {a : Argument} {c : Call} (h : argument.parse text = .ok a)
    (ha : a.value = .call c) (hc : CutShort text p) : argument.Refuses p := by
  refine refuses_of_forall_ne fun b hp => ?_
  rcases hb : b.value with l | d
  · obtain ⟨rest, hat, -⟩ := cutShort_at hp hc
    obtain ⟨rest', hr, -⟩ := rule_of_parse h
    obtain ⟨s, hl, hv⟩ := Rule.value_of_argument hat hr
    rw [hb] at hl
    cases hl with
    | literal hl =>
      obtain ⟨m, hm, -⟩ := Rule.literal_of_value hl hv
      rw [ha] at hm
      cases hm
  · exact not_cutShort (e := argument) (fun _ _ hs => Rule.argument_of_call hs hb) h hp hc

theorem call_refuses {c : Call} (h : source.parse text = .ok (.call c)) (hp : '(' ∈ p.toList)
    (hc : CutShort text p) : source.Refuses p ∧ sink.Refuses p := by
  have hsource (d : Source) (hd : source.parse p = .ok d) : False := by
    cases d with
    | name n => exact paren_not_mem_of_name hd hp
    | call d => exact not_cutShort_of_call h hd hc
  refine ⟨refuses_of_forall_ne hsource, refuses_of_forall_ne fun t ht => ?_⟩
  cases t with
  | name n => exact hsource _ (parse_name_iff.2 ht)
  | call d => exact hsource _ (parse_call_iff.1.2 ht)
  | decorated | fanOut | failover | block =>
    exact not_cutShort_of_compound rfl (parse_call_iff.1.1 h) ht hc

section Block

variable {c : Call} {t : Sink}

/-- A block is the text of its header, and a brace behind it. -/
theorem exists_header (h : sink.parse text = .ok (.block c t)) :
    ∃ o : String, source.parse o = .ok (.call c) ∧ (o ++ "\x7b").toList <+: text.toList := by
  obtain ⟨s, rest, ⟨b, hb, hs⟩, hat, -⟩ := parse_eq_ok.1 h
  cases hat with
  | block hcall ho =>
    obtain ⟨q, rfl, -, hq⟩ := call_extent (fun _ => id) c hcall
    obtain ⟨b', hb', rfl⟩ := ho
    refine ⟨String.ofList (b ++ (q ++ b')), ?_, ?_⟩
    · rw [parse_eq_ok, String.toList_ofList]
      exact spells_of_textOf (e := source) hb (fun rest => .call (hq rest)) hb'
    · rw [hs]
      simp

/-- A block that is cut behind its opening brace is no sink; cut within the header it may be one. -/
theorem block_refuses {o : String} (h : sink.parse text = .ok (.block c t))
    (ho : source.parse o = .ok (.call c)) (hp : (o ++ "\x7b").toList <+: p.toList)
    (hc : CutShort text p) : sink.Refuses p := by
  -- Of the beginning itself, the header is one that has been cut short.
  have hheader : CutShort p o := by
    obtain ⟨x, hx⟩ := hp
    refine ⟨'{' :: x, ?_, by simp [isBlank]⟩
    rw [← hx]
    simp
  refine refuses_of_forall_ne fun u hu => ?_
  cases u with
  | name n => exact not_cutShort_of_call (parse_name_iff.2 hu) ho hheader
  | call d => exact not_cutShort_of_call (parse_call_iff.1.2 hu) ho hheader
  | decorated | fanOut | failover | block => exact not_cutShort_of_compound rfl h hu hc

end Block

/-- No cut behind an opening bracket or quote goes unnoticed, if it takes more than blanks. A
bracketed sink, an argument with a call and a string start with the opening or cannot do without it,
so no beginning of them is read; a call may be cut down to its name, and a block to its header. -/
theorem cutShort_refused (text : String) :
    (∀ t, sink.parse text = .ok t → t.isBracketed →
      ∀ p, CutShort text p → sink.Refuses p) ∧
    (∀ c, source.parse text = .ok (.call c) ∨ sink.parse text = .ok (.call c) →
      ∀ p, '(' ∈ p.toList → CutShort text p → source.Refuses p ∧ sink.Refuses p) ∧
    (∀ a c, argument.parse text = .ok a → a.value = .call c →
      ∀ p, CutShort text p → argument.Refuses p) ∧
    (∀ c t, sink.parse text = .ok (.block c t) →
      (∃ o : String, source.parse o = .ok (.call c) ∧ (o ++ "\x7b").toList <+: text.toList) ∧
      ∀ o p : String, source.parse o = .ok (.call c) → (o ++ "\x7b").toList <+: p.toList →
        CutShort text p → sink.Refuses p) ∧
    ∀ w, literal.parse text = .ok (.string w) → ∀ p, CutShort text p → literal.Refuses p := by
  refine ⟨fun t h ht p => bracketed_refuses h ht, fun c h p => ?_,
    fun a c h ha p => argument_refuses h ha, fun c t h => ?_, fun w h p => string_refuses h⟩
  · exact call_refuses (h.elim id parse_call_iff.1.2)
  · exact ⟨exists_header h, fun o p => block_refuses h⟩

/-- Cuts within an arrow, inside an argument, and behind the sink in a block, where the text up to
the brace is a call. -/
theorem cutShort_refused_within :
    sink.Refuses "\x7bd =" ∧
    (source.Refuses "f(g()" ∧ sink.Refuses "f(g()" ∧ argument.Refuses "f(g()") ∧
    (source.parse "f(\"\x7b\") " =
        .ok (.call ⟨"f", [.positional (.literal (.string "\"\x7b\""))]⟩) ∧
      sink.Refuses "f(\"\x7b\") \x7b a ") ∧
    literal.Refuses "\"a\\\"" := by
  refine ⟨?_, ?_, ?_, ?_⟩
  · have h : sink.parse "\x7bd => a\x7d " = .ok (.decorated (.name "d") (.name "a")) := rfl
    exact (cutShort_refused _).1 _ h rfl _ ⟨"> a\x7d ".toList, rfl, by decide⟩
  · have hs : source.parse "f(g())" = .ok (.call ⟨"f", [.positional (.call ⟨"g", []⟩)]⟩) := rfl
    have ha : argument.parse "f(g())" =
        .ok (.positional (.call ⟨"f", [.positional (.call ⟨"g", []⟩)]⟩)) := rfl
    have hc : CutShort "f(g())" "f(g()" := ⟨[')'], rfl, by decide⟩
    obtain ⟨h₁, h₂⟩ := (cutShort_refused _).2.1 _ (.inl hs) _ (by decide) hc
    exact ⟨h₁, h₂, (cutShort_refused _).2.2.1 _ _ ha rfl _ hc⟩
  · have ho : source.parse "f(\"\x7b\") " =
        .ok (.call ⟨"f", [.positional (.literal (.string "\"\x7b\""))]⟩) := rfl
    have h : sink.parse "f(\"\x7b\") \x7b a \x7d" = .ok (.block ⟨"f",
        [.positional (.literal (.string "\"\x7b\""))]⟩ (.name "a")) := rfl
    refine ⟨ho, ((cutShort_refused _).2.2.2.1 _ _ h).2 _ _ ho ?_ ⟨['}'], rfl, by decide⟩⟩
    exact ⟨[' ', 'a', ' '], rfl⟩
  · have h : literal.parse "\"a\\\"b\"" = .ok (.string "\"a\\\"b\"") := rfl
    exact (cutShort_refused _).2.2.2.2 _ h _ ⟨['b', '"'], rfl, by decide⟩

end Entry

end Pipeline
