import Pipeline.Proofs.Split

/-!
# The order of arguments, token by token

Whether a positional argument comes after a keyword one shows from the tokens alone, also where some
lists are still open: `Token.inOrder` goes through them with a stack of the open lists. A value
leaves the stack as it was (`value_advance`), so only the arguments of a list count for its order,
and a list that is in order is so up to any of its arguments (`inOrder_arguments`).
-/

namespace Pipeline

/-- How far an open argument list has come. -/
inductive Stage where
  /-- There has been no keyword argument. -/
  | positional
  /-- A keyword argument is being read, or has been. -/
  | bound
  /-- Behind a keyword argument and the comma that follows it. -/
  | keyword
deriving DecidableEq, Repr

namespace Token

/-- The open argument lists behind a token, the innermost first. -/
def advance : List Stage → Token → List Stage
  | lists, mark '(' => .positional :: lists
  | _ :: lists, mark ')' => lists
  | _ :: lists, mark '=' => .bound :: lists
  | .bound :: lists, mark ',' => .keyword :: lists
  | lists, _ => lists

/-- Whether a positional argument begins here, with the first character of a literal or with a name
and the parenthesis behind it. -/
def positionalAhead : List Token → Bool
  | word w :: ts => w.head?.any isLiteralStart || ts.head? = some (mark '(')
  | _ => false

/-- Whether no positional argument begins behind a keyword one. -/
def inOrder : List Stage → List Token → Bool
  | _, [] => true
  | lists, t :: ts =>
    !(lists.head? = some .keyword && positionalAhead (t :: ts)) && inOrder (advance lists t) ts

section Scan

variable {lists : List Stage} {ts us : List Token} {t : Token}

theorem inOrder_cons_iff : inOrder lists (t :: ts) ↔
    (lists.head? = some .keyword → ¬ positionalAhead (t :: ts)) ∧
      inOrder (advance lists t) ts := by
  rw [inOrder, Bool.and_eq_true]
  refine and_congr_left fun _ => ?_
  cases positionalAhead (t :: ts) <;> simp

theorem inOrder_cons (h : inOrder lists (t :: ts)) : inOrder (advance lists t) ts :=
  (inOrder_cons_iff.1 h).2

theorem advance_word (lists : List Stage) (w : List Char) : advance lists (word w) = lists := by
  rcases lists with _ | ⟨_ | _ | _, lists⟩ <;> rfl

theorem inOrder_word {w : List Char} (hl : lists.head? ≠ some .keyword) (h : inOrder lists ts) :
    inOrder lists (word w :: ts) := by
  refine inOrder_cons_iff.2 ⟨fun hk => absurd hk hl, ?_⟩
  rwa [advance_word]

theorem inOrder_mark {c : Char} (h : inOrder (advance lists (mark c)) ts) :
    inOrder lists (mark c :: ts) :=
  inOrder_cons_iff.2 ⟨nofun, h⟩

/-- What is in order is so from any of its tokens on. -/
theorem inOrder_append (h : inOrder lists (ts ++ us)) : inOrder (ts.foldl advance lists) us := by
  induction ts generalizing lists with
  | nil => exact h
  | cons t ts ih => exact ih (inOrder_cons h)

theorem not_positionalAhead (h : inOrder (.keyword :: lists) ts) : positionalAhead ts = false := by
  cases ts with
  | nil => rfl
  | cons t ts => exact Bool.eq_false_iff.2 ((inOrder_cons_iff.1 h).1 rfl)

end Scan

end Token

open Token

/-! ## Trees leave the stack as it was -/

section Trees

mutual

/-- A value leaves the open lists as they were: each list that it opens is closed within it. -/
theorem value_advance : ∀ (v : Value) (lists : List Stage), v.tokens.foldl advance lists = lists
  | .literal _, _ => rfl
  | .call c, lists => call_advance c lists

/-- An argument has an effect on the innermost open list only. -/
theorem argument_advance : ∀ (a : Argument) (g : Stage) (lists : List Stage),
    a.tokens.foldl advance (g :: lists) = (if a.isKeyword then .bound else g) :: lists
  | .positional v, g, lists => value_advance v (g :: lists)
  | .keyword _ v, _, lists => value_advance v (.bound :: lists)

theorem call_advance : ∀ (c : Call) (lists : List Stage), c.tokens.foldl advance lists = lists
  | ⟨_, args⟩, lists => by
    obtain ⟨g, hg⟩ := arguments_advance args .positional lists
    simp only [Call.tokens, List.foldl_cons, List.foldl_append, List.foldl_nil, advance_word]
    rw [advance, hg, advance]

theorem arguments_advance : ∀ (as : List Argument) (g : Stage) (lists : List Stage),
    ∃ g', (separated (Argument.allTokens as)).foldl advance (g :: lists) = g' :: lists
  | [], g, _ => ⟨g, rfl⟩
  | a :: as, g, lists => by
    rw [Argument.allTokens, separated, List.foldl_append, argument_advance a]
    exact moreArguments_advance as _ lists

theorem moreArguments_advance : ∀ (as : List Argument) (g : Stage) (lists : List Stage),
    ∃ g', ((Argument.allTokens as).flatMap (mark ',' :: ·)).foldl advance (g :: lists) =
      g' :: lists
  | [], g, _ => ⟨g, rfl⟩
  | a :: as, g, lists => by
    have hc : ∃ g', advance (g :: lists) (mark ',') = g' :: lists := by
      cases g with
      | positional => exact ⟨_, rfl⟩
      | bound => exact ⟨_, rfl⟩
      | keyword => exact ⟨_, rfl⟩
    obtain ⟨g', hg⟩ := hc
    rw [Argument.allTokens, List.flatMap_cons, List.foldl_append, List.foldl_cons, hg,
      argument_advance a]
    exact moreArguments_advance as _ lists

end

end Trees

/-! ## Argument lists -/

/-- Behind a keyword argument there are only such. -/
theorem positionalFirst_iff {args : List Argument} :
    positionalFirst args ↔ args.Pairwise fun a b => a.isKeyword → b.isKeyword := by
  induction args with
  | nil => simp [positionalFirst]
  | cons a as ih =>
    cases h : a.isKeyword
    · simpa [positionalFirst, h] using ih
    · have hall : positionalFirst (a :: as) ↔ ∀ b ∈ as, b.isKeyword := by
        simp [positionalFirst, h]
      rw [hall, List.pairwise_cons]
      refine ⟨fun has => ⟨fun b hb _ => has b hb, ?_⟩, fun has b hb => has.1 b hb h⟩
      exact List.pairwise_of_forall_mem_list fun _ _ b hb _ => has b hb

theorem forall_isKeyword_iff {args : List Argument} {a : Argument} :
    (∀ b ∈ args, b.isKeyword → a.isKeyword) ↔
      a.isKeyword ∨ args.any Argument.isKeyword = false := by
  cases h : a.isKeyword <;> simp

/-- A list stays in order if the new argument is a keyword or no keyword is there yet. -/
theorem positionalFirst_append_singleton {args : List Argument} {a : Argument} :
    positionalFirst (args ++ [a]) ↔
      positionalFirst args ∧ (a.isKeyword ∨ args.any Argument.isKeyword = false) := by
  have hlast : (∀ b ∈ args, ∀ c ∈ [a], b.isKeyword → c.isKeyword) ↔
      a.isKeyword ∨ args.any Argument.isKeyword = false := by
    simpa using forall_isKeyword_iff
  rw [positionalFirst_iff, positionalFirst_iff, List.pairwise_append, hlast,
    and_iff_right (List.pairwise_singleton _ a)]

/-- A value's first tokens show that it is no keyword argument. -/
theorem positionalAhead_value {v : Value} (hv : v.WellFormed) (us : List Token) :
    positionalAhead (v.tokens ++ us) := by
  cases v with
  | literal l =>
    obtain ⟨c, cs, hs, hc⟩ := Literal.At.exists_start hv
    simp [Value.tokens, Literal.tokens, positionalAhead, hs, hc]
  | call c =>
    obtain ⟨n, args⟩ := c
    simp [Value.tokens, Call.tokens, positionalAhead]

namespace Stage

/-- The stage of a list in which `args` have been read. -/
def behind (args : List Argument) : Stage :=
  if args.any Argument.isKeyword then .bound else .positional

/-- The stage of the list before another argument. -/
def before (args : List Argument) : Stage :=
  if args.any Argument.isKeyword then .keyword else .positional

end Stage

section Lists

variable {lists : List Stage} {us : List Token} {a : Argument} {args : List Argument}

theorem advance_comma (args : List Argument) :
    advance (Stage.behind args :: lists) (mark ',') = Stage.before args :: lists := by
  cases h : args.any Argument.isKeyword <;> simp [Stage.behind, Stage.before, h, advance]

/-- One more argument. -/
theorem inOrder_argument (ha : a.WellFormed) (ho : positionalFirst args)
    (h : inOrder (Stage.before args :: lists) (a.tokens ++ us)) :
    positionalFirst (args ++ [a]) ∧ inOrder (Stage.behind (args ++ [a]) :: lists) us := by
  have hu := inOrder_append h
  rw [argument_advance] at hu
  cases a with
  | positional v =>
    cases hk : args.any Argument.isKeyword
    · refine ⟨positionalFirst_append_singleton.2 ⟨ho, .inr hk⟩, ?_⟩
      simpa [Stage.before, Stage.behind, hk, Argument.isKeyword] using hu
    · rw [Stage.before, if_pos hk] at h
      have hv := positionalAhead_value ha us
      rw [← Argument.tokens, not_positionalAhead h] at hv
      cases hv
  | keyword n v =>
    refine ⟨positionalFirst_append_singleton.2 ⟨ho, .inl rfl⟩, ?_⟩
    simpa [Stage.behind, Argument.isKeyword] using hu

theorem inOrder_moreArguments : ∀ {as args : List Argument}, Argument.AllWellFormed as →
    positionalFirst args →
    inOrder (Stage.behind args :: lists) ((Argument.allTokens as).flatMap (mark ',' :: ·) ++ us) →
    positionalFirst (args ++ as) ∧ inOrder (Stage.behind (args ++ as) :: lists) us
  | [], args, _, ho, h => by
    rw [List.append_nil]
    exact ⟨ho, h⟩
  | a :: as, args, hw, ho, h => by
    rw [Argument.allTokens, List.flatMap_cons, List.append_assoc, List.cons_append] at h
    have h' := inOrder_cons h
    rw [advance_comma] at h'
    obtain ⟨ho', h''⟩ := inOrder_argument hw.1 ho h'
    have hr := inOrder_moreArguments hw.2 ho' h''
    rwa [List.append_assoc] at hr

/-- All arguments of a list. -/
theorem inOrder_arguments {as : List Argument} (hw : Argument.AllWellFormed as)
    (h : inOrder (.positional :: lists) (separated (Argument.allTokens as) ++ us)) :
    positionalFirst as ∧ inOrder (Stage.behind as :: lists) us := by
  cases as with
  | nil => exact ⟨rfl, h⟩
  | cons a as =>
    rw [Argument.allTokens, separated, List.append_assoc] at h
    obtain ⟨ho, h'⟩ := inOrder_argument hw.1 (rfl : positionalFirst []) h
    exact inOrder_moreArguments hw.2 ho h'

example : inOrder [] (split "f(k=g(1),h".toList) ∧ ¬ inOrder [] (split "f(k=g(1),h(".toList) := by
  decide

end Lists

end Pipeline
