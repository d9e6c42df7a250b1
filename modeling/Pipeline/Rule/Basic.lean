import Pipeline.Rule.Failure
import Pipeline.Text.Character

/-!
# Rules

A rule reads the front of a text and hands on the rest, or fails. The choice `p <|> q` tries `q`
only after a failure of `p` to which `p` is not committed, and then the failure of `q` is the one
that counts. `optional` gives back all that it read when it fails without commitment.

A rule that occurs in itself is `recursive f`, where `f` makes one round of the rule out of the
rounds nested in it. If every nested round starts on a shorter text than the one around it, the
nesting never reaches the bound.
-/

namespace Pipeline

/-- What reads the front of a text: it gives a result and the rest of the text, or a failure. -/
def Rule (α : Type) : Type :=
  List Char → Except Failure (α × List Char)

namespace Rule

variable {α β : Type}

/-- Reads nothing. -/
protected def pure (a : α) : Rule α := fun s => .ok (a, s)

/-- The second rule goes on where the first has stopped. -/
protected def bind (p : Rule α) (f : α → Rule β) : Rule β := fun s =>
  match p s with
  | .ok (a, rest) => f a rest
  | .error e => .error e

instance : Monad Rule where
  pure := Rule.pure
  bind := Rule.bind

/-- Fails without commitment, in front of the text and with nothing to say. -/
def fail : Rule α := fun s =>
  .error { committed := false, rest := s, notes := [], cause := none }

/-- Makes every failure of `p` final. -/
def commit (p : Rule α) : Rule α := fun s =>
  match p s with
  | .ok r => .ok r
  | .error e => .error { e with committed := true }

/-- Adds `n` to what a failure of `p` says. -/
def noting (n : Note) (p : Rule α) : Rule α := fun s =>
  match p s with
  | .ok r => .ok r
  | .error e => .error { e with notes := e.notes ++ [n] }

/-- Tries `q` on the same text if `p` fails without commitment. What `p` has to say is then lost. -/
protected def orElse (p q : Rule α) : Rule α := fun s =>
  match p s with
  | .ok r => .ok r
  | .error e => if e.committed then .error e else q s

instance : OrElse (Rule α) where
  orElse p q := p.orElse (q ())

/-- Nothing has been read where `p` fails without commitment. -/
protected def optional (p : Rule α) : Rule (Option α) := fun s =>
  match p s with
  | .ok (a, rest) => .ok (some a, rest)
  | .error e => if e.committed then .error e else .ok (none, s)

/-! ## Characters -/

/-- One character, which is known beforehand. -/
def char (c : Char) : Rule Unit
  | [] => fail []
  | d :: s => if d = c then .ok ((), s) else fail (d :: s)

/-- The longest front of characters in `f`, which may be empty. -/
def chars (f : Char → Bool) : Rule (List Char) := fun s =>
  .ok (s.takeWhile f, s.dropWhile f)

/-- The longest front of characters in `f`, at least one. -/
def chars₁ (f : Char → Bool) : Rule (List Char) := fun s =>
  match s.takeWhile f with
  | [] => fail s
  | t => .ok (t, s.dropWhile f)

/-- Looks for a character in `f` and leaves it. -/
def ahead (f : Char → Bool) : Rule Unit
  | [] => fail []
  | c :: s => if f c then .ok ((), c :: s) else fail (c :: s)

/-- All blanks at the front, possibly none. -/
def blanks : Rule Unit := fun s =>
  .ok ((), s.dropWhile isBlank)

/-- A token of one character that nothing else may stand in for. -/
def closing (c : Char) : Rule Unit :=
  noting (.expected (.token (String.singleton c))) (char c)

/-! ## Repetition -/

/-- The failure of a recursion that has come to its bound. No alternative is tried. -/
def exhausted : Rule α := fun s =>
  .error { committed := true, rest := s, notes := [], cause := some .exhausted }

/-- At most `n` rounds of `f`, one inside the other. -/
def rounds (f : Rule α → Rule α) : Nat → Rule α
  | 0, s => exhausted s
  | n + 1, s => f (rounds f n) s

/-- The rule that has itself inside, with one round more than the text has characters. -/
def recursive (f : Rule α → Rule α) : Rule α := fun s =>
  rounds f (s.length + 1) s

/-- The next item of a list, behind a comma. -/
def nextItem (item : Rule α) : Rule α := do
  blanks
  char ','
  blanks
  item

/-- The items after the first. A comma that no item follows is not read. -/
def moreItems (item : Rule α) : Rule (List α) :=
  recursive fun more => do
    match ← (nextItem item).optional with
    | none => pure []
    | some a => return a :: (← more)

/-- One or more items with commas between them. -/
def items₁ (item : Rule α) : Rule (List α) := do
  let a ← item
  return a :: (← moreItems item)

/-- Items with commas between them, possibly none. -/
def items (item : Rule α) : Rule (List α) := do
  match ← item.optional with
  | none => pure []
  | some a => return a :: (← moreItems item)

end Rule

end Pipeline
