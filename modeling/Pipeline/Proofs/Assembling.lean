import Pipeline.Assembly
import Pipeline.Proofs.Decoding

/-!
# What steps make of a stack

A step looks no deeper than the nodes that it takes: with more nodes underneath it does the same
(`step_append`), and so do the steps of a run (`run_below`). A step that cannot be taken leaves the
stack as it is, so a run comes to the same without such steps (`run_taken`, `after_taken`).

Every tree whose literals can be read is put together from its parts (`Entry.builds_steps`), also
one that no text spells, such as a fan-out without children. So steps reach what texts do
(`Entry.steps_of_parse`).
-/

namespace Pipeline

namespace Assembly

variable {s : Step} {stack stack' below : Assembly} {a : Option Bool} {e : StepError}

/-! ## One step -/

section Operands

variable {α : Type} {f : Node → Option α} {n : Nat} {xs : List α}

theorem take?_append (h : take? f n stack = some (xs, stack')) :
    take? f n (stack ++ below) = some (xs, stack' ++ below) := by
  unfold take? at h ⊢
  split at h
  · cases h
  · rename_i hn
    have hle : n ≤ stack.length := Nat.le_of_not_lt hn
    obtain ⟨ys, hys, h⟩ := Option.map_eq_some_iff.1 h
    cases h
    rw [if_neg (by rw [List.length_append]; omega), List.take_append_of_le_length hle,
      List.drop_append_of_le_length hle, hys]
    rfl

theorem replace?_append {g : Node → Option Node} (h : replace? g stack = some stack') :
    replace? g (stack ++ below) = some (stack' ++ below) := by
  rcases stack with _ | ⟨x, stack⟩
  · cases h
  · obtain ⟨y, hy, rfl⟩ := Option.map_eq_some_iff.1 h
    exact Option.map_eq_some_iff.2 ⟨y, hy, rfl⟩

theorem join?_append {g : Node → Node → Option Node} (h : join? g stack = some stack') :
    join? g (stack ++ below) = some (stack' ++ below) := by
  rcases stack with _ | ⟨y, _ | ⟨x, stack⟩⟩
  · cases h
  · cases h
  · obtain ⟨z, hz, rfl⟩ := Option.map_eq_some_iff.1 h
    exact Option.map_eq_some_iff.2 ⟨z, hz, rfl⟩

end Operands

/-- A step takes what it needs from the top, if the stack has enough of it. -/
theorem build?_append (h : build? s stack = some stack') :
    build? s (stack ++ below) = some (stack' ++ below) := by
  cases s with
  | int | double | string | sourceName | sinkName =>
    cases h
    rfl
  | positional | keyword | sourceCall | sinkCall => exact replace?_append h
  | decorated | failover | block => exact join?_append h
  | call | fanOut =>
    obtain ⟨⟨xs, rest⟩, hx, rfl⟩ := Option.map_eq_some_iff.1 h
    exact Option.map_eq_some_iff.2 ⟨_, take?_append hx, rfl⟩
  | duplicate | drop =>
    rcases stack with _ | ⟨x, stack⟩
    · cases h
    · cases h
      rfl
  | parse | reparse | compare => cases h

/-- What a step can do: build a node, read one, read the top again, or compare. -/
theorem step_eq_ok : step s stack = .ok (stack', a) ↔
    (build? s stack = some stack' ∧ a = none) ∨
    (∃ r text x, s = .parse r text ∧ Node.parse r text = .ok x ∧ stack' = x :: stack ∧ a = none) ∨
    (∃ x y rest, s = .reparse ∧ stack = x :: rest ∧ Node.parse x.entry x.text = .ok y ∧
      stack' = y :: rest ∧ a = some (decide (x = y))) ∨
    ∃ x y rest, s = .compare ∧ stack = y :: x :: rest ∧ stack' = x :: rest ∧
      a = some (decide (x = y)) := by
  refine ⟨fun h => ?_, fun h => ?_⟩
  · unfold step at h
    split at h
    · rename_i r text
      split at h
      · rename_i x hx
        cases h
        exact .inr (.inl ⟨r, text, x, rfl, hx, rfl, rfl⟩)
      · cases h
    · rename_i x rest
      split at h
      · rename_i y hy
        cases h
        exact .inr (.inr (.inl ⟨x, y, rest, rfl, rfl, hy, rfl, rfl⟩))
      · cases h
    · rename_i y x rest
      cases h
      exact .inr (.inr (.inr ⟨x, y, rest, rfl, rfl, rfl, rfl⟩))
    · split at h
      · rename_i hb
        cases h
        exact .inl ⟨hb, rfl⟩
      · cases h
  · rcases h with ⟨hb, rfl⟩ | ⟨r, text, x, rfl, hx, rfl, rfl⟩ |
      ⟨x, y, rest, rfl, rfl, hy, rfl, rfl⟩ | ⟨x, y, rest, rfl, rfl, rfl, rfl⟩
    · cases s with
      | parse | reparse | compare => cases hb
      | _ => simp only [step, hb]
    · simp only [step, hx]
    · simp only [step, hy]
    · rfl

/-- Nodes below those that a step takes make no difference to it. -/
theorem step_append (h : step s stack = .ok (stack', a)) (below : Assembly) :
    step s (stack ++ below) = .ok (stack' ++ below, a) := by
  rcases step_eq_ok.1 h with ⟨hb, rfl⟩ | ⟨r, text, x, rfl, hx, rfl, rfl⟩ |
    ⟨x, y, rest, rfl, rfl, hy, rfl, rfl⟩ | ⟨x, y, rest, rfl, rfl, rfl, rfl⟩
  · exact step_eq_ok.2 (.inl ⟨build?_append hb, rfl⟩)
  · exact step_eq_ok.2 (.inr (.inl ⟨r, text, x, rfl, hx, rfl, rfl⟩))
  · exact step_eq_ok.2 (.inr (.inr (.inl ⟨x, y, rest ++ below, rfl, rfl, hy, rfl, rfl⟩)))
  · exact step_eq_ok.2 (.inr (.inr (.inr ⟨x, y, rest ++ below, rfl, rfl, rfl, rfl⟩)))

/-! ## Runs -/

/-- The stack that a step leaves, which is the one it found if it cannot be taken. -/
def left (s : Step) (stack : Assembly) : Assembly :=
  match step s stack with
  | .ok (stack, _) => stack
  | .error _ => stack

/-- The stack that the steps leave, one after the other. -/
def after : List Step → Assembly → Assembly
  | [], stack => stack
  | s :: steps, stack => after steps (left s stack)

/-- Those of the steps that can be taken, when each is tried on what the others have left. -/
def taken : List Step → Assembly → List Step
  | [], _ => []
  | s :: steps, stack =>
    match step s stack with
    | .ok (stack, _) => s :: taken steps stack
    | .error _ => taken steps stack

section Runs

variable {steps : List Step}

theorem run_cons_of_ok (h : step s stack = .ok (stack', a)) (steps : List Step) :
    run (s :: steps) stack = (.ok a, stack') :: run steps stack' := by
  rw [run, h]

theorem run_cons_of_error (h : step s stack = .error e) (steps : List Step) :
    run (s :: steps) stack = (.error e, stack) :: run steps stack := by
  rw [run, h]

theorem left_of_ok (h : step s stack = .ok (stack', a)) : left s stack = stack' := by
  rw [left, h]

theorem left_of_error (h : step s stack = .error e) : left s stack = stack := by
  rw [left, h]

/-- More steps go on from the stack that the first have left. -/
theorem run_append (steps steps' : List Step) (stack : Assembly) :
    run (steps ++ steps') stack = run steps stack ++ run steps' (after steps stack) := by
  induction steps generalizing stack with
  | nil => rfl
  | cons s steps ih =>
    rw [List.cons_append, after]
    rcases h : step s stack with e | ⟨stack', a⟩
    · rw [run_cons_of_error h, run_cons_of_error h, left_of_error h, ih, List.cons_append]
    · rw [run_cons_of_ok h, run_cons_of_ok h, left_of_ok h, ih, List.cons_append]

/-- A step that cannot be taken is reported with the stack that the steps before it have left. -/
theorem stack_of_run_error {i : Nat} (h : (run steps stack)[i]? = some (.error e, stack')) :
    stack' = after (steps.take i) stack := by
  induction steps generalizing stack i with
  | nil => cases h
  | cons s steps ih =>
    rcases hs : step s stack with e' | ⟨stack₁, a⟩
    · rw [run_cons_of_error hs] at h
      rcases i with _ | i
      · cases h
        rfl
      · rw [List.take_succ_cons, after, left_of_error hs]
        exact ih h
    · rw [run_cons_of_ok hs] at h
      rcases i with _ | i
      · cases h
      · rw [List.take_succ_cons, after, left_of_ok hs]
        exact ih h

/-- Without the steps that cannot be taken, the reports on the others are the same. -/
theorem run_taken (steps : List Step) (stack : Assembly) :
    run (taken steps stack) stack = (run steps stack).filter (·.1.isOk) := by
  induction steps generalizing stack with
  | nil => rfl
  | cons s steps ih =>
    rcases h : step s stack with e | ⟨stack', a⟩
    · rw [taken, h, run_cons_of_error h, ih]
      rfl
    · rw [taken, h]
      dsimp only
      rw [run_cons_of_ok h, run_cons_of_ok h, ih]
      rfl

/-- They leave the same stack, too. -/
theorem after_taken (steps : List Step) (stack : Assembly) :
    after (taken steps stack) stack = after steps stack := by
  induction steps generalizing stack with
  | nil => rfl
  | cons s steps ih =>
    rw [taken]
    rcases h : step s stack with e | ⟨stack', a⟩
    · rw [after, left_of_error h]
      exact ih stack
    · rw [after, after, left_of_ok h]
      exact ih stack'

/-- Nodes below those that the steps take make no difference to a run. -/
theorem run_below (h : ∀ r ∈ run steps stack, r.1.isOk) (below : Assembly) :
    run steps (stack ++ below) = (run steps stack).map fun r => (r.1, r.2 ++ below) := by
  induction steps generalizing stack with
  | nil => rfl
  | cons s steps ih =>
    rcases hs : step s stack with e | ⟨stack', a⟩
    · rw [run_cons_of_error hs] at h
      cases h _ List.mem_cons_self
    · rw [run_cons_of_ok hs] at h ⊢
      rw [run_cons_of_ok (step_append hs below), ih fun r hr => h r (List.mem_cons_of_mem _ hr)]
      rfl

end Runs

/-! ## Trees out of steps -/

/-- The steps can all be taken, none of them compares anything, and they leave `stack'`. -/
inductive Builds : List Step → Assembly → Assembly → Prop
  | nil (stack : Assembly) : Builds [] stack stack
  | cons {s : Step} {steps : List Step} {stack stack₁ stack' : Assembly} :
      step s stack = .ok (stack₁, none) → Builds steps stack₁ stack' →
      Builds (s :: steps) stack stack'

section Building

variable {steps steps' : List Step} {stack₁ : Assembly}

theorem Builds.append (h : Builds steps stack stack₁) (h' : Builds steps' stack₁ stack') :
    Builds (steps ++ steps') stack stack' := by
  induction h with
  | nil => exact h'
  | cons hs _ ih => exact .cons hs (ih h')

/-- The last step makes one node out of what the others have left. -/
theorem Builds.concat (h : Builds steps stack stack₁) (hb : build? s stack₁ = some stack') :
    Builds (steps ++ [s]) stack stack' :=
  h.append (.cons (step_eq_ok.2 (.inl ⟨hb, rfl⟩)) (.nil stack'))

theorem Builds.single (hb : build? s stack = some stack') : Builds [s] stack stack' :=
  (Builds.nil stack).concat hb

theorem Builds.after_eq (h : Builds steps stack stack') : after steps stack = stack' := by
  induction h with
  | nil => rfl
  | cons hs _ ih => rw [after, left_of_ok hs, ih]

theorem Builds.answer_eq (h : Builds steps stack stack') :
    ∀ r ∈ run steps stack, r.1 = .ok none := by
  induction h with
  | nil => exact fun _ hr => nomatch hr
  | cons hs _ ih =>
    rw [run_cons_of_ok hs]
    exact List.forall_mem_cons.2 ⟨rfl, ih⟩

/-- Nodes that were put on the stack one after the other are taken off in the order they came. -/
theorem take?_reverse {α : Type} {f : Node → Option α} {g : α → Node}
    (hfg : ∀ x, f (g x) = some x) (xs : List α) (stack : Assembly) :
    take? f xs.length ((xs.map g).reverse ++ stack) = some (xs, stack) := by
  have hm : (xs.map g).mapM f = some xs := by
    induction xs with
    | nil => rfl
    | cons x xs ih => simp [hfg, ih]
  have hl : (xs.map g).reverse.length = xs.length := by rw [List.length_reverse, List.length_map]
  rw [take?, if_neg (by rw [List.length_append]; omega), List.take_left' hl, List.drop_left' hl,
    List.reverse_reverse, hm]
  rfl

end Building

end Assembly

/-! ## Steps of a tree -/

mutual

/-- The steps that put a value together, from the inside to the outside. A literal is read. -/
def Value.steps : Value → List Step
  | .literal l => [.parse .literal l.text]
  | .call c => c.steps

/-- The value of an argument comes first. -/
def Argument.steps : Argument → List Step
  | .positional v => v.steps ++ [.positional]
  | .keyword n v => v.steps ++ [.keyword n]

/-- The arguments wait on the stack until the last of them is there. -/
def Call.steps : Call → List Step
  | ⟨n, args⟩ => Argument.allSteps args ++ [.call n args.length]

/-- One argument after the other. -/
def Argument.allSteps : List Argument → List Step
  | [] => []
  | a :: as => a.steps ++ Argument.allSteps as

end

namespace Source

/-- A bare name is one step, and a call becomes a source when it is complete. -/
def steps : Source → List Step
  | name n => [.sourceName n]
  | call c => c.steps ++ [.sourceCall]

end Source

mutual

/-- The parts of a sink in the order in which they are written, then the sink. -/
def Sink.steps : Sink → List Step
  | .name n => [.sinkName n]
  | .call c => c.steps ++ [.sinkCall]
  | .decorated d child => d.steps ++ child.steps ++ [.decorated]
  | .fanOut children => Sink.allSteps children ++ [.fanOut children.length]
  | .failover primary backup => primary.steps ++ backup.steps ++ [.failover]
  | .block c child => c.steps ++ child.steps ++ [.block]

/-- One sink after the other. -/
def Sink.allSteps : List Sink → List Step
  | [] => []
  | s :: ss => s.steps ++ Sink.allSteps ss

end

namespace Entry

/-- The steps that put a tree together. -/
def steps : (e : Entry) → e.Tree → List Step
  | literal, l => Value.steps (.literal l)
  | argument, a => a.steps
  | source, d => d.steps
  | sink, t => t.steps

end Entry

/-- A value as a node of its kind. -/
def Value.node : Value → Node
  | .literal l => .literal l
  | .call c => .call c

theorem Value.value?_node (v : Value) : v.node.value? = some v := by
  cases v with
  | literal => rfl
  | call => rfl

namespace Assembly

variable {stack : Assembly}

theorem builds_literal {l : Literal} (hl : l.WellFormed) (stack : Assembly) :
    Builds [.parse .literal l.text] stack (.literal l :: stack) := by
  have hp : Node.parse .literal l.text = .ok (.literal l) := by
    rw [Node.parse, (Entry.parse_eq_ok (e := .literal)).2 ⟨_, [], .refl _, hl, .refl []⟩]
    rfl
  exact .cons (step_eq_ok.2 (.inr (.inl ⟨_, _, _, rfl, hp, rfl, rfl⟩))) (.nil _)

mutual

/-- The value is one more node on the stack, whatever is there already. -/
theorem value_builds : ∀ (v : Value), (∀ l ∈ v.literals, l.WellFormed) → ∀ (stack : Assembly),
    Builds v.steps stack (v.node :: stack)
  | .literal l, h, stack => builds_literal (h l (List.mem_singleton_self l)) stack
  | .call c, h, stack => call_builds c h stack

theorem argument_builds : ∀ (a : Argument), (∀ l ∈ a.literals, l.WellFormed) →
    ∀ (stack : Assembly), Builds a.steps stack (.argument a :: stack)
  | .positional v, h, stack => (value_builds v h stack).concat <| by
    simp [build?, replace?, v.value?_node]
  | .keyword n v, h, stack => (value_builds v h stack).concat <| by
    simp [build?, replace?, v.value?_node]

theorem call_builds : ∀ (c : Call), (∀ l ∈ c.literals, l.WellFormed) → ∀ (stack : Assembly),
    Builds c.steps stack (.call c :: stack)
  | ⟨n, args⟩, h, stack => (arguments_build args h stack).concat <| by
    rw [build?, take?_reverse (g := Node.argument) fun _ => rfl]
    rfl

/-- Arguments pile up, the last on top. -/
theorem arguments_build : ∀ (as : List Argument),
    (∀ l ∈ Argument.allLiterals as, l.WellFormed) → ∀ (stack : Assembly),
    Builds (Argument.allSteps as) stack ((as.map Node.argument).reverse ++ stack)
  | [], _, stack => .nil stack
  | a :: as, h, stack => by
    have ha := argument_builds a (fun l hl => h l (List.mem_append_left _ hl)) stack
    have has := arguments_build as (fun l hl => h l (List.mem_append_right _ hl))
      (.argument a :: stack)
    rw [List.map_cons, List.reverse_cons, List.append_assoc]
    exact ha.append has

end

theorem source_builds : ∀ (d : Source), (∀ l ∈ d.literals, l.WellFormed) → ∀ (stack : Assembly),
    Builds d.steps stack (.source d :: stack)
  | .name _, _, _ => .single rfl
  | .call c, h, stack => (call_builds c h stack).concat rfl

mutual

theorem sink_builds : ∀ (t : Sink), (∀ l ∈ t.literals, l.WellFormed) → ∀ (stack : Assembly),
    Builds t.steps stack (.sink t :: stack)
  | .name _, _, _ => .single rfl
  | .call c, h, stack => (call_builds c h stack).concat rfl
  | .decorated d t, h, stack => by
    have hd := source_builds d (fun l hl => h l (List.mem_append_left _ hl)) stack
    have ht := sink_builds t (fun l hl => h l (List.mem_append_right _ hl)) (.source d :: stack)
    exact (hd.append ht).concat rfl
  | .fanOut ts, h, stack => (sinks_build ts h stack).concat <| by
    rw [build?, take?_reverse (g := Node.sink) fun _ => rfl]
    rfl
  | .failover t u, h, stack => by
    have ht := sink_builds t (fun l hl => h l (List.mem_append_left _ hl)) stack
    have hu := sink_builds u (fun l hl => h l (List.mem_append_right _ hl)) (.sink t :: stack)
    exact (ht.append hu).concat rfl
  | .block c t, h, stack => by
    have hc := call_builds c (fun l hl => h l (List.mem_append_left _ hl)) stack
    have ht := sink_builds t (fun l hl => h l (List.mem_append_right _ hl)) (.call c :: stack)
    exact (hc.append ht).concat rfl

theorem sinks_build : ∀ (ts : List Sink), (∀ l ∈ Sink.allLiterals ts, l.WellFormed) →
    ∀ (stack : Assembly), Builds (Sink.allSteps ts) stack ((ts.map Node.sink).reverse ++ stack)
  | [], _, stack => .nil stack
  | t :: ts, h, stack => by
    have ht := sink_builds t (fun l hl => h l (List.mem_append_left _ hl)) stack
    have hts := sinks_build ts (fun l hl => h l (List.mem_append_right _ hl)) (.sink t :: stack)
    rw [List.map_cons, List.reverse_cons, List.append_assoc]
    exact ht.append hts

end

end Assembly

/-- A tree is put on the stack by its steps, whatever the stack is. -/
theorem Entry.builds_steps {stack : Assembly} : ∀ {e : Entry} {t : e.Tree},
    (∀ l ∈ e.literals t, l.WellFormed) →
    Assembly.Builds (e.steps t) stack (Node.ofTree e t :: stack)
  | literal, l, h => Assembly.builds_literal (h l (List.mem_singleton_self l)) stack
  | argument, a, h => Assembly.argument_builds a h stack
  | source, d, h => Assembly.source_builds d h stack
  | sink, t, h => Assembly.sink_builds t h stack

/-- What is read from a text comes out of its steps as well, and none of them fails. -/
theorem Entry.steps_of_parse {e : Entry} {text : String} {t : e.Tree} (h : e.parse text = .ok t)
    (stack : Assembly) : Assembly.after (e.steps t) stack = Node.ofTree e t :: stack ∧
    ∀ r ∈ Assembly.run (e.steps t) stack, r.1 = .ok none := by
  have hb : Assembly.Builds (e.steps t) stack (Node.ofTree e t :: stack) :=
    builds_steps fun _ hl => literals_wellFormed (wellFormed_of_parse h) hl
  exact ⟨hb.after_eq, hb.answer_eq⟩

end Pipeline
