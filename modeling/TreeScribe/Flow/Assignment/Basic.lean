import TreeScribe.Flow.Build
import TreeScribe.Flow.Dot
import TreeScribe.Flow.Status

namespace TreeScribe.Flow

/-- The bodies of the functions created in an expression, which are statements; the functions inside
them are not looked for. -/
def functionBodiesWithin (t : Tree) : Nat → NodeId → List NodeId
  | 0, _ => []
  | fuel + 1, i =>
    match t.kind i with
    | .statement _ => []
    | .expression (.lambda _) | .expression (.anonymousMethod ..) =>
      if (t.kind (t.child i .body)).isStatement then [t.child i .body] else []
    | _ => (t.children i).flatMap (functionBodiesWithin t fuel)

def functionBodies (t : Tree) (i : NodeId) : List NodeId :=
  (t.children i).flatMap (functionBodiesWithin t t.size)

def bodiesAt (t : Tree) (x : Point) : List NodeId :=
  match x.kind with
  | .start | .between => functionBodies t x.next
  | .stop | .condition => []

def drawAll (t : Tree) (s : Setting) : List NodeId → Graph → Except FlowError (List PointId × Graph)
  | [], g => return ([], g)
  | i :: rest, g => do
    let (order, g) ← g.draw t i s
    let (orders, g) ← drawAll t s rest g
    return (order ++ orders, g)

/-- Lists the points of nested functions behind the points where the functions are created. -/
def spliceWithin (t : Tree) (s : Setting) :
    Nat → List PointId → Graph → Except FlowError (List PointId × Graph)
  | 0, order, g => return (order, g)
  | fuel + 1, order, g => do
    let (lists, g) ← order.foldlM (fun ((lists, g) : List (List PointId) × Graph) p => do
      let (nested, g) ← drawAll t s (bodiesAt t (g.point p)) g
      let (nested, g) ← spliceWithin t s fuel nested g
      return ((p :: nested) :: lists, g)) ([], g)
    return (lists.reverse.flatten, g)

def Graph.ofNested (t : Tree) (root : NodeId) (s : Setting) : Except FlowError Graph := do
  let (order, g) ← Graph.empty.draw t root s
  let (order, g) ← spliceWithin t s t.size order g
  return { g with order }

structure Assignment where
  tree : Tree
  resolver : Resolver
  graph : Graph

namespace Assignment

def ofStatement (t : Tree) (root : NodeId) (s : Setting) : Except FlowError Assignment :=
  (Graph.ofNested t root s).map fun g => ⟨t, s.resolver, g⟩

def points (a : Assignment) : List Point := a.graph.order.map a.graph.point

def lastPlace? (a : Assignment) (p : Point → Bool) : Option Nat :=
  (a.points.mapIdx fun n x => if p x then some n else none).reverse.findSome? id

def enters (i : NodeId) (x : Point) : Bool :=
  match x.kind with
  | .start | .between => x.next = i
  | .stop | .condition => false

def ends (i : NodeId) (x : Point) : Bool :=
  match x.kind with
  | .between | .stop => x.previous = i
  | .start | .condition => false

def tests (i : NodeId) (x : Point) : Bool := x.kind = .condition && x.next = i

def beginOf (a : Assignment) (i : NodeId) : Option Nat := a.lastPlace? (enters i)

def endOf (a : Assignment) (i : NodeId) : Option Nat := a.lastPlace? (ends i)

def conditionOf (a : Assignment) (i : NodeId) : Option Nat := a.lastPlace? (tests i)

def placeOf (a : Assignment) (p : PointId) : Option Nat := a.graph.order.idxOf? p

def pointAt (a : Assignment) (place : Nat) : Point := a.graph.point (a.graph.order.getD place 0)

structure State where
  /-- by place in the order -/
  points : Array Status
  /-- by number -/
  edges : Array Status
  first : Nat
  last : Nat
  /-- uses where the variable need not be assigned, last one first -/
  uses : List NodeId
  /-- places whose incoming edges have changed -/
  queue : List Nat
  poll : Poll

def interval : Nat := 128

def start (a : Assignment) : State where
  points := Array.replicate a.graph.order.length .unreachable
  edges := Array.replicate a.graph.edges.size .unreachable
  first := 0
  last := a.graph.order.length - 1
  uses := []
  queue := []
  poll := .every interval

def clear (a : Assignment) (s : State) : State := { a.start with first := s.first, last := s.last }

/-- Restricts the points that are looked at again. An inclusive start is before its statement and an
exclusive one behind it; an inclusive end is behind its statement and an exclusive one before it. -/
def restrict (a : Assignment) (s : State) (first last : NodeId)
    (startInclusive endInclusive : Bool) : Except FlowError State :=
  match if startInclusive then a.beginOf first else a.endOf first,
    if endInclusive then a.endOf last else a.beginOf last with
  | some m, some n =>
    if n < m then .error (.invalidRange (.reversed first last))
    else .ok { s with first := m, last := n }
  | _, _ => .error (.invalidRange (.unknown first last))

def statusAt (a : Assignment) (s : State) (i : NodeId) (place : Option Nat) :
    Except FlowError Status :=
  match place with
  | some n => .ok (s.points.getD n .unreachable)
  | none => .error (.unknown a.tree i)

def before (a : Assignment) (s : State) (i : NodeId) : Except FlowError Status :=
  a.statusAt s i (a.beginOf i)

def after (a : Assignment) (s : State) (i : NodeId) : Except FlowError Status :=
  a.statusAt s i (a.endOf i)

def beforeCondition (a : Assignment) (s : State) (i : NodeId) : Except FlowError Status :=
  a.statusAt s i (a.conditionOf i)

def unassignedUses (s : State) : List NodeId := s.uses.reverse

def dot (a : Assignment) (s : State) : String :=
  Dot.write a.tree a.graph a.graph.order
    (fun p => (a.placeOf p).map fun n => (s.points.getD n .unreachable).name)
    (fun e => some (s.edges.getD e .unreachable).name)

end Assignment

end TreeScribe.Flow
