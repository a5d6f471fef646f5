namespace TreeScribe.Flow

/-- `whenTrue` and `whenFalse` stand for the result of a condition just evaluated: the variable is
assigned if it holds, or if it does not. -/
inductive Status where
  | unreachable | potential | assigned | whenTrue | whenFalse
  deriving DecidableEq, Repr

namespace Status

def merge (a b : Status) : Status :=
  if a = b then a
  else if a = unreachable then b
  else if b = unreachable then a
  else potential

/-- What is left when the result of a condition is not looked at. -/
def clean : Status → Status
  | whenTrue | whenFalse => potential
  | s => s

def ifTrue : Status → Status
  | whenTrue => assigned
  | whenFalse => potential
  | s => s

def ifFalse : Status → Status
  | whenTrue => potential
  | whenFalse => assigned
  | s => s

def negate : Status → Status
  | whenTrue => whenFalse
  | whenFalse => whenTrue
  | s => s

def andThen (a b : Status) : Status :=
  if a = assigned ∨ b = assigned ∧ a = whenFalse then assigned
  else if b = assigned ∨ b = whenTrue then whenTrue
  else if a = whenFalse ∧ b = whenFalse then whenFalse
  else potential

def orElse (a b : Status) : Status :=
  if a = assigned ∨ b = assigned ∧ a = whenTrue then assigned
  else if b = assigned ∨ b = whenFalse then whenFalse
  else if a = whenTrue ∧ b = whenTrue then whenTrue
  else potential

def all : List Status := [unreachable, potential, assigned, whenTrue, whenFalse]

def name : Status → String
  | unreachable => "CodeUnreachable"
  | potential => "PotentiallyAssigned"
  | assigned => "DefinitelyAssigned"
  | whenTrue => "AssignedAfterTrueExpression"
  | whenFalse => "AssignedAfterFalseExpression"

end Status

end TreeScribe.Flow
