import Pipeline.Proofs.Progress

/-!
# Rounds that reach nested ones behind what they read

A round reaches a nested one only on shorter ends of its own text (`Inward`): what the nested rule
does elsewhere makes no difference to it. So the bound on the rounds is never what stops a
recursion, and each recursive rule is one round of itself (`recursive_eq`, `value_eq`, `sink_eq`).

Of the two rules that a round of sinks takes (`sinkWith`), the one for values may be changed as
well: it is reached behind the name that starts a source or a sink, and inside a sink.
-/

namespace Pipeline

namespace Rule

variable {α β : Type}

/-- The two rules do the same on all texts shorter than `n`. -/
def AgreeBelow (n : Nat) (p q : Rule α) : Prop :=
  ∀ s : List Char, s.length < n → p s = q s

/-- A round reads something before it reaches a nested one. -/
def Guarded (f : Rule α → Rule β) : Prop :=
  ∀ n p q, LeavesEnd q → AgreeBelow n p q → AgreeBelow (n + 1) (f p) (f q)

/-- The two rules do the same on the ends of `s` that are shorter than `n`. -/
def AgreeOnEnds (s : List Char) (n : Nat) (p q : Rule α) : Prop :=
  ∀ t, t <:+ s → t.length < n → p t = q t

/-- A round reaches a nested one only on shorter ends of its own text. -/
def Inward (f : Rule α → Rule β) : Prop :=
  ∀ s n p q, LeavesEnd q → AgreeOnEnds s n p q → AgreeOnEnds s (n + 1) (f p) (f q)

/-- An inward round is guarded, since the shorter ends of a text are shorter texts. -/
theorem Inward.guarded {f : Rule α → Rule β} (hf : Inward f) : Guarded f :=
  fun n p q hq h s hs => hf s n p q hq (fun t _ ht => h t ht) s List.suffix_rfl hs

/-! ## Agreement on ends -/

section Agreement

variable {s : List Char} {n : Nat} {p q : Rule α} {f g : α → Rule β}

theorem AgreeOnEnds.refl (s : List Char) (n : Nat) (p : Rule α) : AgreeOnEnds s n p p :=
  fun _ _ _ => rfl

theorem AgreeOnEnds.bind_left (h : AgreeOnEnds s n p q) (f : α → Rule β) :
    AgreeOnEnds s n (p >>= f) (q >>= f) := by
  intro t hts ht
  show Rule.bind p f t = Rule.bind q f t
  unfold Rule.bind
  rw [h t hts ht]

/-- What follows a rule that leaves an end of the text is only asked about ends of the text. -/
theorem AgreeOnEnds.bind_right (hp : p.LeavesEnd) (hfg : ∀ a, AgreeOnEnds s n (f a) (g a)) :
    AgreeOnEnds s n (p >>= f) (p >>= g) := by
  intro t hts ht
  show Rule.bind p f t = Rule.bind p g t
  unfold Rule.bind
  split
  · rename_i a t₁ h
    exact hfg a t₁ (((hp t).1 a t₁ h).trans hts) (Nat.lt_of_le_of_lt (hp.length_le h) ht)
  · rfl

theorem AgreeOnEnds.bind (h : AgreeOnEnds s n p q) (hq : q.LeavesEnd)
    (hfg : ∀ a, AgreeOnEnds s n (f a) (g a)) : AgreeOnEnds s n (p >>= f) (q >>= g) :=
  fun t hts ht => (h.bind_left f t hts ht).trans (AgreeOnEnds.bind_right hq hfg t hts ht)

/-- Behind a rule that reads something it is enough to agree on texts shorter by one. -/
theorem AgreeOnEnds.after (hp : p.Forward) (hfg : ∀ a, AgreeOnEnds s n (f a) (g a)) :
    AgreeOnEnds s (n + 1) (p >>= f) (p >>= g) := by
  intro t hts ht
  show Rule.bind p f t = Rule.bind p g t
  unfold Rule.bind
  split
  · rename_i a t₁ h
    have hlt := hp.advances t a t₁ h
    exact hfg a t₁ (((hp.leavesEnd t).1 a t₁ h).trans hts) (by omega)
  · rfl

theorem AgreeOnEnds.commit (h : AgreeOnEnds s n p q) : AgreeOnEnds s n (commit p) (commit q) := by
  intro t hts ht
  unfold Rule.commit
  rw [h t hts ht]

theorem AgreeOnEnds.noting (h : AgreeOnEnds s n p q) (k : Note) :
    AgreeOnEnds s n (noting k p) (noting k q) := by
  intro t hts ht
  unfold Rule.noting
  rw [h t hts ht]

theorem AgreeOnEnds.orElse {p' q' : Rule α} (h : AgreeOnEnds s n p q)
    (h' : AgreeOnEnds s n p' q') : AgreeOnEnds s n (p <|> p') (q <|> q') := by
  intro t hts ht
  show Rule.orElse p p' t = Rule.orElse q q' t
  unfold Rule.orElse
  rw [h t hts ht, h' t hts ht]

theorem AgreeOnEnds.optional (h : AgreeOnEnds s n p q) :
    AgreeOnEnds s n p.optional q.optional := by
  intro t hts ht
  unfold Rule.optional
  rw [h t hts ht]

/-- Both rules have the same bound on their rounds, so the induction is on the rounds that are
left. -/
theorem AgreeOnEnds.recursive {f g : Rule α → Rule α}
    (hfg : ∀ p q, AgreeOnEnds s n p q → AgreeOnEnds s n (f p) (g q)) :
    AgreeOnEnds s n (recursive f) (recursive g) := by
  have hk : ∀ k, AgreeOnEnds s n (rounds f k) (rounds g k) := by
    intro k
    induction k with
    | zero => exact fun _ _ _ => rfl
    | succ k ih => exact hfg _ _ ih
  exact fun t hts ht => hk _ t hts ht

theorem AgreeOnEnds.nextItem (h : AgreeOnEnds s n p q) :
    AgreeOnEnds s n (nextItem p) (nextItem q) :=
  .bind_right leavesEnd_blanks fun _ =>
    .bind_right (leavesEnd_char _) fun _ => .bind_right leavesEnd_blanks fun _ => h

theorem AgreeOnEnds.moreItems (h : AgreeOnEnds s n p q) (hq : q.LeavesEnd) :
    AgreeOnEnds s n (moreItems p) (moreItems q) := by
  refine AgreeOnEnds.recursive fun more more' hmore => ?_
  refine h.nextItem.optional.bind (forward_nextItem hq).leavesEnd.optional fun o => ?_
  rcases o with _ | a
  · exact .refl s n _
  · exact hmore.bind_left _

theorem AgreeOnEnds.items (h : AgreeOnEnds s n p q) (hq : q.LeavesEnd) :
    AgreeOnEnds s n (items p) (items q) := by
  refine h.optional.bind hq.optional fun o => ?_
  rcases o with _ | a
  · exact .refl s n _
  · exact (h.moreItems hq).bind_left _

theorem AgreeOnEnds.items₁ (h : AgreeOnEnds s n p q) (hq : q.LeavesEnd) :
    AgreeOnEnds s n (items₁ p) (items₁ q) :=
  h.bind hq fun _ => (h.moreItems hq).bind_left _

end Agreement

/-! ## Recursion as one round of itself -/

section Unrolling

variable {f : Rule α → Rule α}

/-- On a text shorter than the bound, a higher bound makes no difference. -/
theorem rounds_agree (hf : Guarded f) (hl : ∀ p : Rule α, p.LeavesEnd → (f p).LeavesEnd) :
    ∀ n m, n ≤ m → AgreeBelow n (rounds f n) (rounds f m)
  | 0, _, _ => fun _ hs => absurd hs (Nat.not_lt_zero _)
  | n + 1, m, h => by
    obtain ⟨m, rfl⟩ : ∃ k, m = k + 1 := ⟨m - 1, by omega⟩
    exact hf n _ _ (leavesEnd_rounds hl m) (rounds_agree hf hl n m (by omega))

/-- The bound on the rounds grows with the text, so a guarded rule never reaches it and is one round
of itself. -/
theorem recursive_eq (hf : Guarded f) (hl : ∀ p : Rule α, p.LeavesEnd → (f p).LeavesEnd) :
    recursive f = f (recursive f) := by
  funext s
  have hs : AgreeBelow s.length (recursive f) (rounds f s.length) := by
    intro t ht
    exact rounds_agree hf hl (t.length + 1) s.length ht t (Nat.lt_succ_self _)
  exact (hf s.length _ _ (leavesEnd_rounds hl _) hs s (Nat.lt_succ_self _)).symm

end Unrolling

/-! ## Values -/

section Values

variable {v w : Rule Value} {s : List Char} {n : Nat}

theorem AgreeOnEnds.argumentOf (h : AgreeOnEnds s n v w) :
    AgreeOnEnds s n (argumentOf v) (argumentOf w) := by
  refine .orElse ?_ (h.bind_left _)
  exact .bind_right forward_name.leavesEnd fun _ => .bind_right leavesEnd_blanks fun _ =>
    .bind_right (leavesEnd_char _) fun _ => .bind_right leavesEnd_blanks fun _ =>
      h.commit.bind_left _

theorem AgreeOnEnds.argumentsOf (h : AgreeOnEnds s n v w) (hw : w.LeavesEnd) :
    AgreeOnEnds s n (argumentsOf v) (argumentsOf w) := by
  have hl : AgreeOnEnds s n (argumentListOf v) (argumentListOf w) :=
    (h.argumentOf.items (leavesEnd_argumentOf hw)).bind_left _
  exact .bind_right (leavesEnd_char _) fun _ => .bind_right leavesEnd_blanks fun _ =>
    (hl.bind_left _).commit

/-- A value reaches nested ones behind the name of its call only. -/
theorem inward_valueOf : Inward valueOf := by
  intro s n v w hw h
  have hc : AgreeOnEnds s (n + 1) (callOf v) (callOf w) :=
    .after forward_name fun _ => .bind_right leavesEnd_blanks fun _ =>
      (h.argumentsOf hw).bind_left _
  exact ((AgreeOnEnds.refl _ _ _).orElse (hc.bind_left _)).noting _

/-- A value is one round of itself. -/
theorem value_eq : value = valueOf value :=
  recursive_eq inward_valueOf.guarded fun _ => leavesEnd_valueOf

end Values

/-! ## Sinks -/

section Sinks

variable {v : Rule Value} {k l : Rule Sink} {s : List Char} {n : Nat}

theorem sourceOf_value : sourceOf value = source :=
  rfl

theorem sinkWith_value (k : Rule Sink) : sinkWith value k = sinkOf k :=
  rfl

theorem AgreeOnEnds.argumentsIfAnyOf (h : AgreeOnEnds s n v value) :
    AgreeOnEnds s n (argumentsIfAnyOf v) argumentsIfAny :=
  .optional <| .bind_right leavesEnd_blanks fun _ => h.argumentsOf leavesEnd_value

theorem AgreeOnEnds.sourceOf (h : AgreeOnEnds s n v value) :
    AgreeOnEnds s n (sourceOf v) source :=
  .bind_right forward_name.leavesEnd fun _ => h.argumentsIfAnyOf.bind_left _

theorem AgreeOnEnds.decoratedWith (hv : AgreeOnEnds s n v value) (hk : AgreeOnEnds s n k l) :
    AgreeOnEnds s (n + 1) (decoratedWith v k) (decoratedOf l) :=
  .after (forward_char _) fun _ => .bind_right leavesEnd_blanks fun _ => .commit <|
    hv.sourceOf.bind forward_source.leavesEnd fun _ => .bind_right leavesEnd_blanks fun _ =>
      .bind_right (leavesEnd_arrow.noting _) fun _ => .bind_right leavesEnd_blanks fun _ =>
        hk.bind_left _

theorem AgreeOnEnds.fanOutOf (h : AgreeOnEnds s n k l) (hl : l.LeavesEnd) :
    AgreeOnEnds s (n + 1) (fanOutOf k) (fanOutOf l) :=
  .after (forward_char _) fun _ => .bind_right leavesEnd_blanks fun _ => .commit <|
    (h.items₁ hl).bind_left _

theorem AgreeOnEnds.failoverOf (h : AgreeOnEnds s n k l) (hl : l.LeavesEnd) :
    AgreeOnEnds s (n + 1) (failoverOf k) (failoverOf l) :=
  .after (forward_char _) fun _ => .bind_right leavesEnd_blanks fun _ => .commit <|
    h.bind hl fun _ => .bind_right leavesEnd_blanks fun _ =>
      .bind_right (leavesEnd_closing _) fun _ => .bind_right leavesEnd_blanks fun _ =>
        h.bind_left _

theorem AgreeOnEnds.bodyOf (h : AgreeOnEnds s n k l) : AgreeOnEnds s n (bodyOf k) (bodyOf l) :=
  .optional <| .bind_right leavesEnd_blanks fun _ => .bind_right (leavesEnd_char _) fun _ =>
    .bind_right leavesEnd_blanks fun _ => (h.bind_left _).commit

theorem AgreeOnEnds.namedWith (hv : AgreeOnEnds s n v value) (hk : AgreeOnEnds s n k l) :
    AgreeOnEnds s (n + 1) (namedWith v k) (namedOf l) := by
  refine .after forward_name fun m =>
    hv.argumentsIfAnyOf.bind leavesEnd_argumentsIfAny fun o => ?_
  rcases o with _ | args
  · exact .refl s n _
  · exact hk.bodyOf.bind_left _

theorem AgreeOnEnds.sinkWith (hv : AgreeOnEnds s n v value) (hk : AgreeOnEnds s n k l)
    (hl : l.LeavesEnd) : AgreeOnEnds s (n + 1) (sinkWith v k) (sinkOf l) :=
  ((hv.decoratedWith hk).orElse ((hk.fanOutOf hl).orElse
    ((hk.failoverOf hl).orElse (hv.namedWith hk)))).noting _

theorem inward_sinkOf : Inward sinkOf := by
  intro s n k l hl h
  exact (AgreeOnEnds.refl s n value).sinkWith h hl

theorem sink_eq : sink = sinkOf sink :=
  recursive_eq inward_sinkOf.guarded fun _ => leavesEnd_sinkOf

end Sinks

end Rule

end Pipeline
