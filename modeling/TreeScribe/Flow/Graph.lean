import TreeScribe.Tree.Basic

namespace TreeScribe.Flow

abbrev PointId := Nat

abbrev EdgeId := Nat

inductive PointKind where
  | start | between | stop | condition
  deriving DecidableEq, Repr

def PointKind.name : PointKind → String
  | start => "StartNode"
  | between => "BetweenStatements"
  | stop => "EndNode"
  | condition => "LoopCondition"

inductive EdgeKind where
  | normal | whenTrue | whenFalse | jump
  deriving DecidableEq, Repr

/-- `previous` and `next` are the statements before and after a point, or the null node. -/
structure Point where
  previous : NodeId
  next : NodeId
  kind : PointKind
  outgoing : List EdgeId
  incoming : List EdgeId
  deriving DecidableEq

/-- `leaves` are the try statements with a finally block that an edge leaves, innermost first. -/
structure Edge where
  source : PointId
  target : PointId
  kind : EdgeKind
  leaves : List NodeId
  deriving DecidableEq

structure Graph where
  points : Array Point
  edges : Array Edge
  order : List PointId
  deriving DecidableEq

namespace Graph

def empty : Graph := ⟨#[], #[], []⟩

def point (g : Graph) (p : PointId) : Point := g.points.getD p ⟨.null, .null, .start, [], []⟩

def edge (g : Graph) (e : EdgeId) : Edge := g.edges.getD e ⟨0, 0, .normal, []⟩

def entry (g : Graph) : Option PointId := g.order.head?

def addPoint (g : Graph) (previous next : NodeId) (kind : PointKind) : PointId × Graph :=
  (g.points.size, { g with points := g.points.push ⟨previous, next, kind, [], []⟩ })

def connect (g : Graph) (source target : PointId) (kind : EdgeKind) : EdgeId × Graph :=
  let e := g.edges.size
  let points := g.points.modify source fun p => { p with outgoing := p.outgoing ++ [e] }
  let points := points.modify target fun p => { p with incoming := p.incoming ++ [e] }
  (e, { g with points, edges := g.edges.push ⟨source, target, kind, []⟩ })

def leaving (g : Graph) (e : EdgeId) (tries : List NodeId) : Graph :=
  { g with edges := g.edges.modify e fun x => { x with leaves := x.leaves ++ tries } }

end Graph

end TreeScribe.Flow
