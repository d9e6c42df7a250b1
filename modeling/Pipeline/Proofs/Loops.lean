import Pipeline.Proofs.Agreement

/-!
# Loops

The items of a list and the characters between quotes are read in loops of one shape: parts are read
for as long as there is one (`loopOf`). Every part has a character at least (`Loops`), so a loop is
one round of itself, and a check that stops it where a part is empty never strikes
(`asserting_eq`).
-/

namespace Pipeline

namespace Rule

variable {α β : Type}

/-- One round of a loop that reads `part` for as long as it can. -/
def loopOf (part : Rule α) (f : α → β → β) (b : β) (loop : Rule β) : Rule β := do
  match ← part.optional with
  | none => pure b
  | some a => return f a (← loop)

/-- The loop goes on with `part` for as long as it can, each time a character at least. -/
structure Loops (part : Rule α) (f : α → β → β) (b : β) (loop : Rule β) : Prop where
  eq : loop = loopOf part f b loop
  advances : part.Advances

section LoopOf

variable {part : Rule α} {f : α → β → β} {b c : β} {loop : Rule β} {s s₁ rest : List Char} {a : α}

theorem loopOf_of_declines (h : part.Declines s) : loopOf part f b loop s = .ok (b, s) :=
  bind_eq_ok.2 ⟨none, s, optional_of_declines h, rfl⟩

theorem loopOf_of_ok (h : part s = .ok (a, s₁)) (h₁ : loop s₁ = .ok (c, rest)) :
    loopOf part f b loop s = .ok (f a c, rest) :=
  bind_eq_ok.2 ⟨some a, s₁, optional_of_ok h, bind_eq_ok.2 ⟨c, rest, h₁, rfl⟩⟩

theorem leavesEnd_loopOf (hp : part.LeavesEnd) (hl : loop.LeavesEnd) :
    (loopOf part f b loop).LeavesEnd := by
  refine hp.optional.bind fun o => ?_
  rcases o with _ | a
  · exact leavesEnd_pure _
  · exact hl.bind fun _ => leavesEnd_pure _

/-- A round of the loop reaches the next one only behind a part. -/
theorem guarded_loopOf (hp : part.Advances) : Guarded (loopOf part f b) := by
  intro n p q hq h s hs
  change Rule.bind _ _ s = Rule.bind _ _ s
  unfold Rule.bind
  rcases ho : part.optional s with e | ⟨_ | a, s₁⟩
  · rfl
  · rfl
  · rcases optional_eq_ok.1 ho with ⟨a', -, hn⟩ | ⟨h, -⟩
    · -- The nested round comes behind a part.
      have hlt := hp s a' s₁ hn
      change Rule.bind _ _ s₁ = Rule.bind _ _ s₁
      unfold Rule.bind
      rw [h s₁ (by omega)]
    · cases h

theorem loops_recursive (hp : part.Forward) : Loops part f b (recursive (loopOf part f b)) where
  eq := recursive_eq (guarded_loopOf hp.advances) fun _ => leavesEnd_loopOf hp.leavesEnd
  advances := hp.advances

end LoopOf

/-! ## The items of a list -/

section Items

variable {item : Rule α} {s s₁ rest : List Char} {a : α} {as : List α}

theorem moreItems_loops (hi : item.LeavesEnd) :
    Loops (nextItem item) List.cons [] (moreItems item) :=
  loops_recursive (forward_nextItem hi)

theorem moreItems_eq (hi : item.LeavesEnd) : moreItems item = do
    match ← (nextItem item).optional with
    | none => pure []
    | some a => return a :: (← moreItems item) :=
  (moreItems_loops hi).eq

theorem moreItems_of_declines (hi : item.LeavesEnd) (h : (nextItem item).Declines s) :
    moreItems item s = .ok ([], s) := by
  rw [(moreItems_loops hi).eq]
  exact loopOf_of_declines h

theorem moreItems_of_ok (hi : item.LeavesEnd) (h : nextItem item s = .ok (a, s₁))
    (h₁ : moreItems item s₁ = .ok (as, rest)) : moreItems item s = .ok (a :: as, rest) := by
  rw [(moreItems_loops hi).eq]
  exact loopOf_of_ok h h₁

/-- What stands between two items. -/
def separator : Rule Unit := do
  blanks
  char ','
  blanks

theorem forward_separator : separator.Forward :=
  .behind leavesEnd_blanks fun _ => (forward_char _).bind fun _ => leavesEnd_blanks

theorem bind_bind {γ : Type} (p : Rule α) (f : α → Rule β) (g : β → Rule γ) :
    (p >>= f) >>= g = p >>= fun a => f a >>= g := by
  funext s
  change Rule.bind (Rule.bind p f) g s = Rule.bind p (fun a => Rule.bind (f a) g) s
  unfold Rule.bind
  rcases p s with e | ⟨a, s₁⟩ <;> rfl

theorem nextItem_eq : nextItem item = separator >>= fun _ => item := by
  simp only [nextItem, separator, bind_bind]

end Items

/-! ## Quoted text -/

section Quoted

variable {s t rest : List Char} {c : Char}

/-- Reads any character. -/
def any : Rule Char
  | [] => fail []
  | c :: s => .ok (c, s)

/-- The characters of a quoted text that stand for themselves. -/
def isPlain (c : Char) : Bool :=
  c ≠ '"' && c ≠ '\\'

/-- A backslash with the character behind it, or all characters up to where one is not plain. -/
def quotedPart : Rule (List Char) :=
  (do
    char '\\'
    return ['\\', ← any]) <|>
  chars₁ isPlain

theorem any_eq_ok : any s = .ok (c, rest) ↔ s = c :: rest := by
  rcases s with _ | ⟨d, s⟩ <;> simp [any, fail]

theorem forward_any : any.Forward where
  leavesEnd s := by
    refine ⟨fun c rest h => ?_, fun e h => ?_⟩
    · rw [any_eq_ok.1 h]
      exact List.suffix_cons c rest
    · unfold any at h
      split at h
      · exact (leavesEnd_fail _).2 e h
      · cases h
  advances s c rest h := by
    rw [any_eq_ok.1 h]
    exact Nat.lt_succ_self _

theorem forward_quotedPart : quotedPart.Forward :=
  ((forward_char _).bind fun _ =>
    forward_any.leavesEnd.bind fun _ => leavesEnd_pure _).orElse (forward_chars₁ _)

theorem body_run (ht : t.all isPlain) (s : List Char) :
    Quoted.body (t ++ s) = (t ++ (Quoted.body s).1, (Quoted.body s).2) := by
  induction t with
  | nil => rfl
  | cons c t ih =>
    simp only [List.all_cons, Bool.and_eq_true] at ht
    obtain ⟨hc, ht⟩ := ht
    simp only [isPlain, ne_eq, Bool.and_eq_true, decide_eq_true_eq] at hc
    simp [Quoted.body, hc.1, hc.2, ih ht]

theorem body_of_quotedPart (h : quotedPart s = .ok (t, rest)) :
    Quoted.body s = (t ++ (Quoted.body rest).1, (Quoted.body rest).2) := by
  simp only [quotedPart, orElse_eq_ok, bind_eq_ok, char_eq_ok, any_eq_ok, pure_eq_ok] at h
  rcases h with ⟨-, s₁, rfl, c, s₂, rfl, rfl, rfl⟩ | ⟨-, h⟩
  · simp [Quoted.body]
  · obtain ⟨-, ht, hr⟩ := chars₁_eq_ok.1 h
    rw [run_append ht hr, body_run (all_run ht)]

theorem quotedPart_plain (hc : isPlain c) :
    quotedPart (c :: s) = .ok ((c :: s).takeWhile isPlain, (c :: s).dropWhile isPlain) := by
  have hslash : (char '\\').Declines (c :: s) := by
    refine declines_char.2 ?_
    rintro ⟨⟩
    cases hc
  refine orElse_eq_ok.2 (.inr ⟨declines_bind.2 (.inl hslash), chars₁_eq_ok.2 ⟨?_, rfl, rfl⟩⟩)
  rw [List.takeWhile_cons_of_pos hc]
  exact List.cons_ne_nil _ _

/-- Where there is no part, the body of the text is over. -/
theorem quotedPart_or (s : List Char) :
    (quotedPart.Declines s ∧ Quoted.body s = ([], s)) ∨ ∃ t rest, quotedPart s = .ok (t, rest) := by
  -- Cases: the end of the text, a backslash that ends it, a quote, an escape, any other character.
  fun_cases Quoted.body s with
  | case1 => exact .inl ⟨⟨_, rfl, rfl⟩, rfl⟩
  | case2 => exact .inl ⟨⟨_, rfl, rfl⟩, rfl⟩
  | case3 cs => exact .inl ⟨⟨_, rfl, rfl⟩, rfl⟩
  | case4 c cs => exact .inr ⟨['\\', c], cs, rfl⟩
  | case5 c cs hend hquote hslash =>
    have hc : c ≠ '\\' := by
      rcases cs with _ | ⟨d, ds⟩
      · exact fun hc => hend hc rfl
      · exact fun hc => hslash d ds hc rfl
    exact .inr ⟨_, _, quotedPart_plain (by simpa [isPlain, hc] using hquote)⟩

theorem quotedBody_loops : Loops quotedPart (· ++ ·) [] quotedBody where
  eq := by
    funext s
    rcases quotedPart_or s with ⟨hd, hs⟩ | ⟨t, rest, hp⟩
    · rw [loopOf_of_declines hd, quotedBody, hs]
    · rw [loopOf_of_ok hp rfl, quotedBody, body_of_quotedPart hp]
  advances := forward_quotedPart.advances

end Quoted

/-! ## Checks for an empty part -/

/-- Strikes if `p` succeeds without reading anything. -/
def asserting (p : Rule α) : Rule α := fun s =>
  match p s with
  | .ok (a, rest) => if rest.length = s.length then commit fail rest else .ok (a, rest)
  | .error e => .error e

/-- A rule that advances never trips the assertion that it does. -/
theorem asserting_eq {p : Rule α} (hp : p.Advances) : asserting p = p := by
  funext s
  unfold asserting
  split
  · rename_i a rest h
    rw [if_neg (Nat.ne_of_lt (hp s a rest h)), h]
  · rename_i e h
    rw [h]

end Rule

end Pipeline
