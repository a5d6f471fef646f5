namespace TreeScribe

structure Poll where
  interval : Nat
  count : Nat
  deriving DecidableEq, Repr

namespace Poll

/-- An interval of zero is read as one. -/
def every (interval : Nat) : Poll := ⟨max interval 1, 0⟩

def tick (p : Poll) : Bool × Poll :=
  if p.count + 1 ≥ p.interval then (true, ⟨p.interval, 0⟩) else (false, ⟨p.interval, p.count + 1⟩)

end Poll

def cancelledMessage : String := "operation was cancelled"

end TreeScribe
