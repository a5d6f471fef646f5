import TreeScribe.Flow.Draft

namespace TreeScribe.Flow.Plan

open Drawing

def entered (c : Plan) (targets : Targets) (i : NodeId) (source : Option PointId) (kind : EdgeKind)
    (isTaken : Bool) : Drawing (Option PointId) := do
  let entry ← startPoint i
  if isTaken then joinIf source entry kind
  c.draw targets i entry

def branch (c : Plan) (targets : Targets) (i : NodeId) (source : Option PointId) :
    Drawing (Option PointId) := do
  let condition := c.condition (c.child i .condition)
  let positive ← c.entered targets (c.child i .trueStatement) source .whenTrue
    (condition != some false)
  let negative ← c.entered targets (c.child i .falseStatement) source .whenFalse
    (condition != some true)
  let stop ← c.listedEnd i
  joinIf positive (some stop) .normal
  if negative.isSome then joinIf negative (some stop) .normal
  else if condition != some true then joinIf source (some stop) .whenFalse
  return some stop

/-- The labels of a section; the one without a value is the default. -/
def caseValues (c : Plan) (section_ : NodeId) : List NodeId :=
  (c.tree.childrenIn section_ .caseLabel).map fun label => c.child label .expression

def lastSection (c : Plan) (sections : List NodeId) (p : NodeId → Bool) : Option NodeId :=
  (sections.filter fun s => (c.caseValues s).any p).getLast?

def isDefault (value : NodeId) : Bool := value = .null

def isCaseOf (c : Plan) (v : Constant) (value : NodeId) : Bool :=
  !isDefault value && (c.constant value).any (v.agrees ·)

/-- The section that a switch with a known value enters. -/
def chosenSection (c : Plan) (v : Constant) (sections : List NodeId) : Option NodeId :=
  (c.lastSection sections (c.isCaseOf v)).or (c.lastSection sections isDefault)

def drawSections (c : Plan) (targets : Targets) (source : NodeId → Option PointId) :
    List NodeId → Drawing (List (NodeId × Option PointId))
  | [] => return []
  | s :: rest => do
    let first := (← get).listed.size
    let _ ← c.statements targets (source s) (c.tree.childrenIn s .statement)
    let start := (← get).listed[first]?
    return (s, start) :: (← c.drawSections targets source rest)

def jumpSection (c : Plan) (sections : List NodeId) (jump : NodeId) : Option NodeId :=
  if c.tree.kind jump = .statement .gotoCase then
    (c.constant (c.child jump .expression)).bind fun v => c.lastSection sections (c.isCaseOf v)
  else c.lastSection sections isDefault

/-- Jumps that find no section, or a section without points, go behind the switch. -/
def joinCaseJumps (c : Plan) (starts : List (NodeId × Option PointId)) (stop : PointId) :
    List PointId → Drawing Unit
  | [] => return
  | p :: rest => do
    let section_ := c.jumpSection (starts.map (·.1)) ((← get).graph.point p).next
    let _ ← join p ((section_.bind fun s => (starts.lookup s).join).getD stop) .jump
    c.joinCaseJumps starts stop rest

def switch (c : Plan) (targets : Targets) (i : NodeId) (source : Option PointId) :
    Drawing (Option PointId) := do
  let sections := c.tree.childrenIn i .switchSection
  let value := c.constant (c.child i .expression)
  let chosen := value.bind fun v => c.chosenSection v sections
  let outer := (← get).caseJumps
  modify fun d => { d with caseJumps := [] }
  let stop ← c.endPoint i
  let starts ← c.drawSections { targets with onBreak := some stop }
    (fun s => if value.isNone || chosen = some s then source else none) sections
  if (c.lastSection sections isDefault).isNone && chosen.isNone then
    joinIf source (some stop) .normal
  let jumps := (← get).caseJumps.reverse
  modify fun d => { d with caseJumps := outer }
  c.joinCaseJumps starts stop jumps
  list stop
  return some stop

def leaveLoop (condition : Option Bool) (at_ stop : PointId) : Drawing Unit :=
  if condition != some true then joinIf (some at_) (some stop) .whenFalse else return

def whileLoop (c : Plan) (i : NodeId) (source : Option PointId) : Drawing (Option PointId) := do
  let stop ← c.endPoint i
  let test ← conditionPoint i
  list test
  joinIf source (some test) .normal
  let condition := c.condition (c.child i .condition)
  let last ← c.entered ⟨some stop, some test⟩ (c.child i .embeddedStatement) (some test) .whenTrue
    (condition != some false)
  joinIf last (some test) .normal
  leaveLoop condition test stop
  list stop
  return some stop

def doLoop (c : Plan) (i : NodeId) (source : Option PointId) : Drawing (Option PointId) := do
  let stop ← c.endPoint i
  let test ← conditionPoint i
  let body := c.child i .embeddedStatement
  let first ← startPoint body
  joinIf source first .normal
  let last ← c.draw ⟨some stop, some test⟩ body first
  joinIf last (some test) .normal
  let condition := c.condition (c.child i .condition)
  if condition != some false then joinIf (some test) first .whenTrue
  leaveLoop condition test stop
  list test
  list stop
  return some stop

/-- A loop without a condition goes on forever. -/
def forLoop (c : Plan) (targets : Targets) (i : NodeId) (source : Option PointId) :
    Drawing (Option PointId) := do
  let source ← c.statements targets source (c.tree.childrenIn i .forInitializer)
  let stop ← c.endPoint i
  let test ← conditionPoint i
  list test
  joinIf source (some test) .normal
  let listed := (← get).listed.size
  let iterated ← c.statements targets none (c.tree.childrenIn i .forIterator)
  let next ← match iterated with
    | some p => do
      let _ ← join p test .normal
      pure ((← get).listed.getD listed test)
    | none => pure test
  let body := c.child i .embeddedStatement
  let first ← startPoint body
  let last ← c.draw ⟨some stop, some next⟩ body first
  joinIf last (some next) .normal
  let condition :=
    if c.child i .condition = .null then some true else c.condition (c.child i .condition)
  if condition != some false then joinIf (some test) first .whenTrue
  leaveLoop condition test stop
  list stop
  return some stop

def foreachLoop (c : Plan) (i : NodeId) (source : Option PointId) : Drawing (Option PointId) := do
  let stop ← c.endPoint i
  let test ← conditionPoint i
  list test
  joinIf source (some test) .normal
  let last ← c.embedded ⟨some stop, some test⟩ (c.child i .embeddedStatement) (some test)
  joinIf last (some test) .normal
  let _ ← join test stop .normal
  list stop
  return some stop

/-- Draws the try block and the bodies of the clauses; with a finally block, their ends leave the
statement through it. -/
def drawGuarded (c : Plan) (targets : Targets) (i : NodeId) (source : Option PointId)
    (stop : PointId) : List NodeId → Drawing Unit
  | [] => return
  | body :: rest => do
    match ← c.embedded targets body source with
    | some last => do
      let e ← join last stop .normal
      if c.tree.hasChild i .finallyBlock then
        modify fun d => { d with graph := d.graph.leaving e [i] }
    | none => pure ()
    c.drawGuarded targets i source stop rest

def tryCatch (c : Plan) (targets : Targets) (i : NodeId) (source : Option PointId) :
    Drawing (Option PointId) := do
  let stop ← c.endPoint i
  let bodies := (c.tree.childrenIn i .catchClause).map fun clause => c.child clause .body
  c.drawGuarded targets i source stop (c.child i .tryBlock :: bodies)
  if c.tree.hasChild i .finallyBlock then
    let _ ← c.embedded targets (c.child i .finallyBlock) source
  list stop
  return some stop

def wrapped (c : Plan) (targets : Targets) (i : NodeId) (r : Role) (source : Option PointId) :
    Drawing (Option PointId) := do
  c.reachedEnd i (← c.embedded targets (c.child i r) source)

def usingResource (c : Plan) (targets : Targets) (i : NodeId) (source : Option PointId) :
    Drawing (Option PointId) := do
  let resource := c.child i .resource
  let source ← if (c.tree.kind resource).isStatement then c.embedded targets resource source
    else pure source
  c.wrapped targets i .embeddedStatement source

def jump (c : Plan) (i : NodeId) (source target : Option PointId) : Drawing (Option PointId) := do
  joinIf source target .jump
  return some (← c.listedEnd i)

def label (c : Plan) (i : NodeId) (source : Option PointId) : Drawing (Option PointId) := do
  let stop ← c.listedEnd i
  joinIf source (some stop) .normal
  modify fun d => { d with labels := (c.tree.name i, stop) :: d.labels }
  return some stop

def goto (c : Plan) (i : NodeId) (source : Option PointId) : Drawing (Option PointId) := do
  modify fun d => { d with gotos := source.toList ++ d.gotos }
  return some (← c.listedEnd i)

def caseJump (c : Plan) (i : NodeId) (source : Option PointId) : Drawing (Option PointId) := do
  modify fun d => { d with caseJumps := source.toList ++ d.caseJumps }
  return some (← c.listedEnd i)

def block (c : Plan) (targets : Targets) (i : NodeId) (source : Option PointId) :
    Drawing (Option PointId) := do
  c.reachedEnd i (← c.statements targets source (c.tree.childrenIn i .statement))

def statement (c : Plan) (targets : Targets) (i : NodeId) (source : Option PointId) :
    StatementKind → Drawing (Option PointId)
  | .block => c.block targets i source
  | .empty | .expression | .locals _ | .yieldReturn => c.reachedEnd i source
  | .label => c.label i source
  | .branch => c.branch targets i source
  | .switch => c.switch targets i source
  | .whileLoop => c.whileLoop i source
  | .doLoop => c.doLoop i source
  | .forLoop => c.forLoop targets i source
  | .foreachLoop => c.foreachLoop i source
  | .gotoCase | .gotoDefault => c.caseJump i source
  | .goto => c.goto i source
  | .break_ => c.jump i source targets.onBreak
  | .continue_ => c.jump i source targets.onContinue
  | .return_ | .throw | .yieldBreak => do return some (← c.listedEnd i)
  | .tryCatch => c.tryCatch targets i source
  | .checked | .unchecked | .unsafeBlock => c.wrapped targets i .body source
  | .lock | .fixed => c.wrapped targets i .embeddedStatement source
  | .usingResource => c.usingResource targets i source

def node (c : Plan) (targets : Targets) (i : NodeId) (source : Option PointId) :
    Drawing (Option PointId) :=
  match c.tree.kind i with
  | .null => return none
  | .statement k => c.statement targets i source k
  | _ => throw (.unknown c.tree i)

end TreeScribe.Flow.Plan
