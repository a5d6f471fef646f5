import TreeScribe.Cancellation
import TreeScribe.Flow.Error
import TreeScribe.Flow.Graph

namespace TreeScribe.Flow

/-- Whether an invocation calls the function that is analyzed. -/
abbrev Detector := Tree → NodeId → Bool

namespace Detector

def never : Detector := fun _ _ => false

/-- What is always evaluated when an expression is. -/
def evaluated (t : Tree) (i : NodeId) : List NodeId :=
  match t.kind i with
  | .expression (.lambda _) | .expression (.anonymousMethod ..) => []
  | .expression .conditional => [t.child i .condition]
  | .expression (.binary .condAnd) | .expression (.binary .condOr)
  | .expression (.binary .coalesce) => [t.child i .left]
  | _ => t.children i

def callsWithin (d : Detector) (t : Tree) : Nat → NodeId → Bool
  | 0, _ => false
  | fuel + 1, i =>
    !(t.kind i).isStatement &&
      (t.kind i = .expression .invocation && d t i || (evaluated t i).any (d.callsWithin t fuel))

def calls (d : Detector) (t : Tree) (i : NodeId) : Bool := d.callsWithin t t.size i

/-- Whether a statement always makes a recursive call itself, outside the statements in it. -/
def isRecursive (d : Detector) (t : Tree) (i : NodeId) : Bool :=
  ((t.children i).filter fun c => !(t.kind c).isStatement).any (d.calls t)

def halts (d : Option Detector) (t : Tree) (i : NodeId) : Bool := d.any (·.isRecursive t i)

end Detector

structure Search where
  stack : List PointId
  found : List PointId
  statements : List NodeId
  ends : List NodeId
  poll : Poll

structure Reachable where
  statements : List NodeId
  ends : List NodeId

namespace Search

/-- The cancellation is looked at once in this many points. -/
def interval : Nat := 256

def push (s : Search) (p : PointId) : Search :=
  if s.found.contains p then s else { s with stack := p :: s.stack, found := p :: s.found }

/-- Notes the statement that ends at a point. A label is reached when its end is. -/
def noteEnd (t : Tree) (i : NodeId) (s : Search) : Search :=
  if i = .null then s
  else
    { s with
      ends := i :: s.ends
      statements := if t.kind i = .statement .label then i :: s.statements else s.statements }

def noteStart (i : NodeId) (s : Search) : Search :=
  if i = .null then s else { s with statements := i :: s.statements }

def expand (g : Graph) (x : Point) (s : Search) : Search :=
  x.outgoing.foldl (fun s e => s.push (g.edge e).target) s

def visit (t : Tree) (g : Graph) (halts : NodeId → Bool) (p : PointId) (s : Search) : Search :=
  let x := g.point p
  let s := (s.noteEnd t x.previous).noteStart x.next
  if x.next ≠ .null ∧ halts x.next then s else s.expand g x

/-- Every point is put on the stack once, so that there are no more turns than points. -/
def run (t : Tree) (g : Graph) (halts : NodeId → Bool) (cancelled : Bool) :
    Nat → Search → Except FlowError Search
  | 0, s => .ok s
  | fuel + 1, s =>
    match s.stack with
    | [] => .ok s
    | p :: stack =>
      let (look, poll) := s.poll.tick
      if look && cancelled then .error .cancelled
      else run t g halts cancelled fuel (visit t g halts p { s with stack, poll })

end Search

namespace Reachable

def ofSearch (t : Tree) (g : Graph) (halts : NodeId → Bool) (cancelled : Bool) :
    Except FlowError Reachable :=
  match g.entry with
  | none => .ok ⟨[], []⟩
  | some p =>
    (Search.run t g halts cancelled g.points.size ⟨[p], [p], [], [], .every Search.interval⟩).map
      fun s => ⟨s.statements, s.ends⟩

def ofGraph (t : Tree) (g : Graph) (d : Option Detector) (cancelled : Bool) :
    Except FlowError Reachable :=
  ofSearch t g (Detector.halts d t) cancelled

def isReachable (r : Reachable) (i : NodeId) : Bool := r.statements.contains i

def isEndReachable (r : Reachable) (i : NodeId) : Bool := r.ends.contains i

end Reachable

end TreeScribe.Flow
