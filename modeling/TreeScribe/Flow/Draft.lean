import TreeScribe.Cancellation
import TreeScribe.Flow.Constant
import TreeScribe.Flow.Error
import TreeScribe.Flow.Graph

namespace TreeScribe.Flow

structure Draft where
  graph : Graph
  /-- points listed so far -/
  listed : Array PointId
  /-- last label first -/
  labels : List (String × PointId)
  /-- points of `goto` statements, last one first -/
  gotos : List PointId
  /-- points of jumps to cases of the current switch, last one first -/
  caseJumps : List PointId
  poll : Poll

structure Targets where
  onBreak : Option PointId
  onContinue : Option PointId
  deriving DecidableEq

abbrev Drawing := StateT Draft (Except FlowError)

structure Setting where
  resolver : Resolver
  /-- whether only literals count as constants -/
  onlyLiterals : Bool
  cancelled : Bool

structure Plan where
  tree : Tree
  root : NodeId
  setting : Setting
  /-- draws a statement entered at a point, and answers the point behind it -/
  draw : Targets → NodeId → Option PointId → Drawing (Option PointId)

def drawInterval : Nat := 64

namespace Drawing

def list (p : PointId) : Drawing Unit := modify fun d => { d with listed := d.listed.push p }

def add (previous next : NodeId) (kind : PointKind) : Drawing PointId := do
  let d ← get
  let (p, graph) := d.graph.addPoint previous next kind
  set { d with graph }
  return p

def join (source target : PointId) (kind : EdgeKind) : Drawing EdgeId := do
  let d ← get
  let (e, graph) := d.graph.connect source target kind
  set { d with graph }
  return e

def joinIf (source target : Option PointId) (kind : EdgeKind) : Drawing Unit :=
  match source, target with
  | some s, some t => do let _ ← join s t kind
  | _, _ => pure ()

def startPoint (i : NodeId) : Drawing (Option PointId) := do
  if i = .null then return none
  let p ← add .null i .start
  list p
  return some p

def conditionPoint (i : NodeId) : Drawing PointId := add .null i .condition

end Drawing

namespace Setting

def constant (s : Setting) (t : Tree) (i : NodeId) : Option Constant :=
  if i = .null then none
  else
    match s.onlyLiterals, t.kind i with
    | false, _ | _, .expression (.literal _) | _, .expression .nullRef => s.resolver t i
    | _, _ => none

def condition (s : Setting) (t : Tree) (i : NodeId) : Option Bool :=
  (s.constant t i).bind (·.toBool?)

end Setting

namespace Plan

def constant (c : Plan) (i : NodeId) : Option Constant := c.setting.constant c.tree i

def condition (c : Plan) (i : NodeId) : Option Bool := c.setting.condition c.tree i

def child (c : Plan) (i : NodeId) (r : Role) : NodeId := c.tree.child i r

def tick (c : Plan) : Drawing Unit := do
  let d ← get
  let (look, poll) := d.poll.tick
  set { d with poll }
  if look && c.setting.cancelled then throw .cancelled

def following (c : Plan) (i : NodeId) : NodeId :=
  if i = c.root then .null
  else
    match (c.tree.siblingsAfter i).find? fun s => c.tree.role s = c.tree.role i with
    | some s => if (c.tree.kind s).isStatement then s else .null
    | none => .null

def endPoint (c : Plan) (i : NodeId) : Drawing PointId :=
  let next := c.following i
  Drawing.add i next (if next = .null then .stop else .between)

def listedEnd (c : Plan) (i : NodeId) : Drawing PointId := do
  let p ← c.endPoint i
  Drawing.list p
  return p

def reachedEnd (c : Plan) (i : NodeId) (source : Option PointId) : Drawing (Option PointId) := do
  let p ← c.listedEnd i
  Drawing.joinIf source (some p) .normal
  return some p

def drawList (c : Plan) (targets : Targets) (source : Option PointId) :
    Option PointId → List NodeId → Drawing (Option PointId)
  | current, [] => return current.or source
  | current, i :: rest => do
    c.tick
    let entry ← match current with
      | some p => pure (some p)
      | none => do
        let entry ← Drawing.startPoint i
        Drawing.joinIf source entry .normal
        pure entry
    c.drawList targets source (← c.draw targets i entry) rest

def statements (c : Plan) (targets : Targets) (source : Option PointId) (nodes : List NodeId) :
    Drawing (Option PointId) :=
  c.drawList targets source none nodes

/-- The body of a statement; an absent one has no effect. -/
def embedded (c : Plan) (targets : Targets) (i : NodeId) (source : Option PointId) :
    Drawing (Option PointId) := do
  if i = .null then return source
  c.tick
  let entry ← Drawing.startPoint i
  Drawing.joinIf source entry .normal
  c.draw targets i entry

end Plan

end TreeScribe.Flow
