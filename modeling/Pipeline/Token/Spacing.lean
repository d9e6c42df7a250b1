import Pipeline.Canonical
import Pipeline.Token.Basic

/-!
# Spacing token by token

Canonical spacing can be had without a tree. Whether there is a blank between two tokens shows from
the two of them and from the number of parentheses around; `respaced` writes a sequence of tokens in
one pass, and for a text of an entry `e` the result is canonical if `outer` is `e.pads`.
-/

namespace Pipeline

namespace Entry

/-- Whether the outermost calls of a tree are padded. -/
def pads : Entry → Bool
  | literal | argument => false
  | source | sink => true

end Entry

namespace Token

/-- The number of parentheses that are open behind `t`, if `depth` are open before it. -/
def depthAfter (depth : Nat) (t : Token) : Nat :=
  if t = mark '(' then depth + 1
  else if t = mark ')' then depth - 1
  else depth

/-- Tokens that have a blank behind them whatever follows. -/
def blankAfter : Token → Bool
  | arrow => true
  | mark c => c ∈ ['{', '[', '<', '?', ',']
  | word _ => false

/-- Tokens that have a blank in front of them whatever stands there. -/
def blankBefore : Token → Bool
  | arrow => true
  | mark c => c ∈ ['}', ']', '>', '?']
  | word _ => false

/-- What stands between `t` and `u` where `depth` parentheses are open. The outermost ones are
padded if `outer` is set. -/
def gap (outer : Bool) (empty : EmptyCall) (depth : Nat) (t u : Token) : List Char :=
  let padded := outer && depth == 1
  let spaced :=
    if t = mark '(' ∧ u = mark ')' then padded && empty = .spaced
    else blankAfter t || blankBefore u || (t = mark ')' && u = mark '{')
      || (padded && (t = mark '(' || u = mark ')'))
  if spaced then [' '] else []

/-- The tokens behind `t`, with `depth` parentheses open behind it. -/
def respacedAfter (outer : Bool) (empty : EmptyCall) (t : Token) (depth : Nat) :
    List Token → List Char
  | [] => []
  | u :: us =>
    gap outer empty depth t u ++ u.chars ++ respacedAfter outer empty u (depthAfter depth u) us

/-- The tokens with canonical spacing, from left to right and without a tree. -/
def respaced (outer : Bool) (empty : EmptyCall) : List Token → List Char
  | [] => []
  | t :: ts => t.chars ++ respacedAfter outer empty t (depthAfter 0 t) ts

end Token

end Pipeline
