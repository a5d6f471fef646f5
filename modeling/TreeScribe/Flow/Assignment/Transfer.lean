import TreeScribe.Flow.Assignment.Basic

namespace TreeScribe.Flow.Assignment

abbrev Run := ExceptT FlowError (StateM State)

structure Scope where
  analysis : Assignment
  variableName : String
  cancelled : Bool
  /-- the status after an expression, from the status before it -/
  eval : NodeId → Status → Run Status

namespace Scope

def tree (c : Scope) : Tree := c.analysis.tree

def child (c : Scope) (i : NodeId) (r : Role) : NodeId := c.tree.child i r

def tick (c : Scope) : Run Unit := do
  let s ← get
  let (look, poll) := s.poll.tick
  set { s with poll }
  if look && c.cancelled then throw .cancelled

/-- Places in the range are looked at again when a status before them changes. -/
def enqueue (c : Scope) (p : PointId) (s : State) : State :=
  match c.analysis.placeOf p with
  | some n => if s.first ≤ n ∧ n ≤ s.last then { s with queue := s.queue ++ [n] } else s
  | none => s

/-- An edge never becomes unreachable again. -/
def setEdge (c : Scope) (status : Status) (s : State) (e : EdgeId) : State :=
  let status := status.clean
  if s.edges.getD e .unreachable = status ∨ status = .unreachable then s
  else c.enqueue (c.analysis.graph.edge e).target { s with edges := s.edges.setIfInBounds e status }

def setEdges (c : Scope) (x : Point) (status : Edge → Status) (s : State) : State :=
  x.outgoing.foldl (fun s e => c.setEdge (status (c.analysis.graph.edge e)) s e) s

def leavingEdges (c : Scope) (i : NodeId) : List EdgeId :=
  (List.range c.analysis.graph.edges.size).filter fun e =>
    (c.analysis.graph.edge e).leaves.contains i

/-- Gives the status at the end of a finally block to the edges through it that are open. -/
def replayFinally (c : Scope) (i : NodeId) (status : Status) (s : State) : State :=
  (c.leavingEdges i).foldl
    (fun s e => if s.edges.getD e .unreachable = .potential then c.setEdge status s e else s) s

def conditionEdge (status : Status) (e : Edge) : Status :=
  match e.kind with
  | .whenTrue => status.ifTrue.clean
  | .whenFalse => status.ifFalse.clean
  | .normal | .jump => status.clean

def isFinally (c : Scope) (i : NodeId) : Bool := c.tree.role i = .finallyBlock

def finish (c : Scope) (i : NodeId) (status : Status) (s : State) : State :=
  match c.tree.parent i with
  | some try_ => if c.isFinally i ∧ (status = .assigned ∨ status = .potential)
      then c.replayFinally try_ status s else s
  | none => s

def evalAll (c : Scope) : List NodeId → Status → Run Status
  | [], status => return status
  | i :: rest, status => do c.evalAll rest (← c.eval i status)

def statement (c : Scope) (i : NodeId) (status : Status) : Run Status :=
  match c.tree.kind i with
  | .statement .expression | .statement .return_ | .statement .throw | .statement .yieldReturn
  | .statement .lock | .statement .switch => c.eval (c.child i .expression) status
  | .statement (.locals _) | .statement .fixed => c.evalAll (c.tree.childrenIn i .variable_) status
  | .statement .usingResource =>
    let resource := c.child i .resource
    if (c.tree.kind resource).isExpression then c.eval resource status else return status
  | _ => return status

def condition (c : Scope) (x : Point) (status : Status) : Run Unit := do
  let status ← c.eval (c.child x.next .condition) status
  modify (c.setEdges x (conditionEdge status))

/-- A loop over a collection assigns its variable before every turn. -/
def iteration (c : Scope) (x : Point) (status : Status) : Run Unit := do
  let status ← c.eval (c.child x.next .inExpression) status
  let status := if c.tree.name x.next = c.variableName then .assigned else status.clean
  modify (c.setEdges x fun _ => status)

def entering (c : Scope) (x : Point) (status : Status) : Run Unit := do
  let status ← if status = .assigned then pure .assigned
    else do pure (← c.statement x.next status).clean
  modify (c.setEdges x fun _ => status)

/-- Carries the status of a point on to its outgoing edges. -/
def carry (c : Scope) (x : Point) (status : Status) : Run Unit :=
  match x.kind with
  | .start | .between =>
    if c.tree.kind x.next = .statement .branch then c.condition x status else c.entering x status
  | .stop => modify fun s => c.setEdges x (fun _ => status) (c.finish x.previous status s)
  | .condition =>
    if c.tree.kind x.next = .statement .foreachLoop then c.iteration x status
    else c.condition x status

def setPoint (c : Scope) (place : Nat) (status : Status) : Run Unit := do
  let s ← get
  if s.points.getD place .unreachable = status then return
  set { s with points := s.points.setIfInBounds place status }
  c.carry (c.analysis.pointAt place) status

def condition? (c : Scope) (i : NodeId) : Option Bool := c.analysis.resolver.condition? c.tree i

def children (c : Scope) : List NodeId → Status → Run Status
  | [], status => return status
  | i :: rest, status => do
    c.tick
    if (c.tree.kind i).isStatement then c.children rest status
    else c.children rest (← c.eval i status).clean

def isVariable (c : Scope) (i : NodeId) : Bool :=
  c.tree.kind i = .expression .identifier && c.tree.name i = c.variableName

def assignment (c : Scope) (left right : NodeId) (status : Status) : Run Status := do
  if c.isVariable left then
    let _ ← c.eval right status
    return .assigned
  let status ← c.eval left status
  if right = .null then return status.clean
  return (← c.eval right status.clean).clean

def logicalAnd (c : Scope) (left right : NodeId) (status : Status) : Run Status := do
  match c.condition? left with
  | some true => c.eval right status
  | some false => return status
  | none =>
    let first ← c.eval left status
    return first.andThen (← c.eval right first.ifTrue)

def logicalOr (c : Scope) (left right : NodeId) (status : Status) : Run Status := do
  match c.condition? left with
  | some false => c.eval right status
  | some true => return status
  | none =>
    let first ← c.eval left status
    return first.orElse (← c.eval right first.ifFalse)

/-- The right operand of `??` may not be evaluated at all. -/
def coalesce (c : Scope) (left right : NodeId) (status : Status) : Run Status := do
  if c.analysis.resolver c.tree left = some .null then c.eval right status
  else
    let status := (← c.eval left status).clean
    let _ ← c.eval right status
    return status

def conditional (c : Scope) (i : NodeId) (status : Status) : Run Status := do
  let condition := c.child i .condition
  let positive := c.child i .trueExpression
  let negative := c.child i .falseExpression
  match c.condition? condition with
  | some true => c.eval positive status
  | some false => c.eval negative status
  | none =>
    let status ← c.eval condition status
    let first := (← c.eval positive status.ifTrue).clean
    return first.merge (← c.eval negative status.ifFalse).clean

/-- The body of a function starts with the status where the function is created. -/
def function (c : Scope) (i : NodeId) (status : Status) : Run Status := do
  let body := c.child i .body
  if (c.tree.kind body).isStatement then
    match c.analysis.beginOf body with
    | some place => c.setPoint place status
    | none => throw (.unknown c.tree body)
  else
    let _ ← c.eval body status
  return status

/-- A use counts once. Names with type arguments are no variables. -/
def use (c : Scope) (i : NodeId) (status : Status) : Run Status := do
  let s ← get
  if status ≠ .assigned ∧ c.isVariable i ∧ !c.tree.hasChild i .typeArgument ∧
    !s.uses.contains i then
    set { s with uses := i :: s.uses }
  return status

def declared (c : Scope) (i : NodeId) (status : Status) : Run Status := do
  if !c.tree.hasChild i .initializer then return status
  let status ← c.eval (c.child i .initializer) status
  return if c.tree.name i = c.variableName then .assigned else status

def expression (c : Scope) (i : NodeId) (status : Status) : Run Status :=
  match c.tree.kind i with
  | .null => return status
  | .expression (.assignment .assign) => c.assignment (c.child i .left) (c.child i .right) status
  | .expression (.direction .out) => c.assignment (c.child i .expression) .null status
  | .expression .parenthesized | .expression .checked | .expression .unchecked =>
    c.eval (c.child i .expression) status
  | .expression (.binary .condAnd) => c.logicalAnd (c.child i .left) (c.child i .right) status
  | .expression (.binary .condOr) => c.logicalOr (c.child i .left) (c.child i .right) status
  | .expression (.binary .coalesce) => c.coalesce (c.child i .left) (c.child i .right) status
  | .expression (.unary .not) => do return (← c.eval (c.child i .expression) status).negate
  | .expression .conditional => c.conditional i status
  | .expression (.anonymousMethod ..) | .expression (.lambda _) => c.function i status
  | .expression .identifier => c.use i status
  | .part .variable_ => c.declared i status
  | _ => c.children (c.tree.children i) status

end Scope

end TreeScribe.Flow.Assignment
