import TreeScribe.Flow.Assignment.Transfer

namespace TreeScribe.Flow.Assignment

namespace Scope

def within (a : Assignment) (variableName : String) (cancelled : Bool) : Nat → Scope
  | 0 => ⟨a, variableName, cancelled, fun _ status => return status⟩
  | depth + 1 =>
    ⟨a, variableName, cancelled,
      fun i status => (within a variableName cancelled depth).expression i status⟩

/-- No expression is deeper than its tree has nodes. -/
def full (a : Assignment) (variableName : String) (cancelled : Bool) : Scope :=
  within a variableName cancelled a.tree.size

def incoming (x : Point) (s : State) : Status :=
  x.incoming.foldl (fun status e => status.merge (s.edges.getD e .unreachable)) .unreachable

/-- One turn; the answer says whether a place was queued. -/
def step (c : Scope) : Run Bool := do
  let s ← get
  match s.queue with
  | [] => return false
  | place :: queue =>
    set { s with queue }
    c.tick
    let s ← get
    c.setPoint place (incoming (c.analysis.pointAt place) s)
    return true

/-- Turns as long as a place is queued. A run that never comes to rest has no answer. -/
def turns (c : Scope) (s : State) : Option (Except FlowError Unit × State) :=
  match c.step.run s with
  | (.ok true, s) => c |>.turns s
  | (.ok false, s) => some (.ok (), s)
  | (.error x, s) => some (.error x, s)
partial_fixpoint

end Scope

/-- Analyzes a variable over the range. The state is also changed by a run that fails. -/
def analyze (a : Assignment) (s : State) (variableName : String) (initial : Status)
    (cancelled : Bool) : Option (Except FlowError Unit × State) :=
  let c := Scope.full a variableName cancelled
  if a.graph.order.isEmpty then some (.ok (), a.clear s)
  else
    match (c.setPoint s.first initial).run (a.clear s) with
    | (.ok _, s) => c.turns s
    | (.error x, s) => some (.error x, s)

end TreeScribe.Flow.Assignment
