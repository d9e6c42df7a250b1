import Pipeline.Call
import Pipeline.Rule.Literal

/-!
# Reading values, arguments and calls

Values occur in calls and calls are values, so the rules here come in two forms: `callOf v` reads a
call with values as `v` reads them, and `call` with values as they are. The opening parenthesis
commits to an argument list, an equals sign behind a name to a keyword argument.
-/

namespace Pipeline.Rule

/-- A keyword argument is tried first, as its name could also start a call. -/
def argumentOf (value : Rule Value) : Rule Argument :=
  (do
    let n ← name
    blanks
    char '='
    blanks
    return .keyword n (← commit value)) <|>
  (do return .positional (← value))

/-- Refused behind its last argument if a positional one comes after a keyword one. -/
def argumentListOf (value : Rule Value) : Rule (List Argument) := do
  let args ← items (argumentOf value)
  if positionalFirst args then return args
  else noting (.expected .positionalFirst) fail

/-- An argument list in its parentheses. -/
def argumentsOf (value : Rule Value) : Rule (List Argument) := do
  char '('
  blanks
  commit do
    let args ← argumentListOf value
    blanks
    closing ')'
    return args

/-- A name and its arguments, which it must have. -/
def callOf (value : Rule Value) : Rule Call := do
  let n ← name
  blanks
  return ⟨n, ← argumentsOf value⟩

/-- One round of `value`. -/
def valueOf (value : Rule Value) : Rule Value :=
  noting (.expected .value)
    ((do return .literal (← literal)) <|> (do return .call (← callOf value)))

/-- The value that a text starts with. -/
def value : Rule Value :=
  recursive valueOf

/-- The argument that a text starts with. -/
def argument : Rule Argument :=
  argumentOf value

/-- The argument list that a text starts with, in its parentheses. -/
def arguments : Rule (List Argument) :=
  argumentsOf value

/-- The call that a text starts with. -/
def call : Rule Call :=
  callOf value

end Pipeline.Rule
