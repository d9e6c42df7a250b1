import Pipeline.Rule.Call
import Pipeline.Sink

/-!
# Reading sources and sinks

Each bracketed form of a sink commits at its opening bracket. A name followed by arguments is a
call, and the brace behind these, if there is one, opens a block.

Values occur in sinks at two places, in the arguments of a name and in the sinks inside. So a rule
around both takes two rules, `sinkWith value sink`, and `sinkOf sink` is that rule with values as
they are.
-/

namespace Pipeline.Rule

/-- The arguments of a name that may also stand alone. -/
def argumentsIfAnyOf (value : Rule Value) : Rule (Option (List Argument)) :=
  Rule.optional do
    blanks
    argumentsOf value

/-- The arguments of a name, if it has any. -/
def argumentsIfAny : Rule (Option (List Argument)) :=
  argumentsIfAnyOf value

theorem argumentsIfAny_eq : argumentsIfAny = Rule.optional (blanks >>= fun _ => arguments) :=
  rfl

/-- A name, which is a call if arguments follow it. -/
def sourceOf (value : Rule Value) : Rule Source := do
  let n ← name
  match ← argumentsIfAnyOf value with
  | none => return .name n
  | some args => return .call ⟨n, args⟩

/-- The source that a text starts with. -/
def source : Rule Source :=
  sourceOf value

/-- The two characters of `=>`, which nothing may part. -/
def arrow : Rule Unit
  | '=' :: '>' :: s => .ok ((), s)
  | s => fail s

/-- A decorator and its child in braces. A brace behind a call opens a block (`bodyOf`), one that
starts a sink opens a decorator. -/
def decoratedWith (value : Rule Value) (sink : Rule Sink) : Rule Sink := do
  char '{'
  blanks
  commit do
    let decorator ← sourceOf value
    blanks
    noting (.expected (.token "=>")) arrow
    blanks
    let child ← sink
    blanks
    closing '}'
    return .decorated decorator child

/-- A decorator and its child in braces, the child as `sink` reads it. -/
def decoratedOf (sink : Rule Sink) : Rule Sink :=
  decoratedWith value sink

/-- At least one sink in brackets, with commas between them. -/
def fanOutOf (sink : Rule Sink) : Rule Sink := do
  char '['
  blanks
  commit do
    let children ← items₁ sink
    blanks
    closing ']'
    return .fanOut children

/-- A primary sink and its backup in angle brackets. -/
def failoverOf (sink : Rule Sink) : Rule Sink := do
  char '<'
  blanks
  commit do
    let primary ← sink
    blanks
    closing '?'
    blanks
    let backup ← sink
    blanks
    closing '>'
    return .failover primary backup

/-- The body of a block, if there is one. -/
def bodyOf (sink : Rule Sink) : Rule (Option Sink) :=
  Rule.optional do
    blanks
    char '{'
    blanks
    commit do
      let child ← sink
      blanks
      closing '}'
      return child

/-- A sink that starts with its name. -/
def namedWith (value : Rule Value) (sink : Rule Sink) : Rule Sink := do
  let n ← name
  match ← argumentsIfAnyOf value with
  | none => return .name n
  | some args =>
    match ← bodyOf sink with
    | none => return .call ⟨n, args⟩
    | some child => return .block ⟨n, args⟩ child

/-- A sink that starts with its name, the child of a block as `sink` reads it. -/
def namedOf (sink : Rule Sink) : Rule Sink :=
  namedWith value sink

/-- One round of `sink` with values as `value` reads them. Each form but the last starts with its
own bracket, so at most one of them does more than decline. -/
def sinkWith (value : Rule Value) (sink : Rule Sink) : Rule Sink :=
  noting (.label .sink)
    (decoratedWith value sink <|> fanOutOf sink <|> failoverOf sink <|> namedWith value sink)

/-- One round of `sink`. -/
def sinkOf (sink : Rule Sink) : Rule Sink :=
  sinkWith value sink

theorem sinkOf_eq (sink : Rule Sink) : sinkOf sink =
    noting (.label .sink)
      (decoratedOf sink <|> fanOutOf sink <|> failoverOf sink <|> namedOf sink) :=
  rfl

/-- The sink that a text starts with. -/
def sink : Rule Sink :=
  recursive sinkOf

end Pipeline.Rule
