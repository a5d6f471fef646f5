import TreeScribe.Tree.Kind
import TreeScribe.Tree.Marks
import TreeScribe.Tree.Role

namespace TreeScribe

/-- A detached node keeps the role it had last. -/
structure Node where
  kind : Kind
  role : Role
  parent : Option NodeId
  firstChild : Option NodeId
  lastChild : Option NodeId
  prevSibling : Option NodeId
  nextSibling : Option NodeId
  deriving DecidableEq

def Node.detached (kind : Kind) : Node := ⟨kind, .root, none, none, none, none, none⟩

structure Tree where
  nodes : Array Node
  placements : Placements
  marks : Marks

def followWithin (link : NodeId → Option NodeId) : Nat → Option NodeId → List NodeId
  | fuel + 1, some i => i :: followWithin link fuel (link i)
  | _, _ => []

namespace Tree

def empty : Tree := ⟨#[.detached .null], ∅, .empty⟩

def size (t : Tree) : Nat := t.nodes.size

def isEmpty (t : Tree) : Bool := t.size ≤ 1

def node (t : Tree) (i : NodeId) : Node := t.nodes.getD i (.detached .null)

def kind (t : Tree) (i : NodeId) : Kind := (t.node i).kind

def role (t : Tree) (i : NodeId) : Role := (t.node i).role

def parent (t : Tree) (i : NodeId) : Option NodeId := (t.node i).parent

def firstChild (t : Tree) (i : NodeId) : Option NodeId := (t.node i).firstChild

def lastChild (t : Tree) (i : NodeId) : Option NodeId := (t.node i).lastChild

def nextSibling (t : Tree) (i : NodeId) : Option NodeId := (t.node i).nextSibling

def prevSibling (t : Tree) (i : NodeId) : Option NodeId := (t.node i).prevSibling

/-- The nodes met by following a link; no tree has more nodes than it allocated. -/
def follow (t : Tree) (link : NodeId → Option NodeId) (start : Option NodeId) : List NodeId :=
  followWithin link t.size start

def children (t : Tree) (i : NodeId) : List NodeId := t.follow t.nextSibling (t.firstChild i)

def siblingsAfter (t : Tree) (i : NodeId) : List NodeId := t.follow t.nextSibling (t.nextSibling i)

def childrenIn (t : Tree) (i : NodeId) (r : Role) : List NodeId :=
  (t.children i).filter fun c => t.role c = r

def child (t : Tree) (i : NodeId) (r : Role) : NodeId := (t.childrenIn i r).headD .null

def hasChild (t : Tree) (i : NodeId) (r : Role) : Bool := t.child i r != .null

def ancestors (t : Tree) (i : NodeId) : List NodeId := t.follow t.parent (t.parent i)

def isAncestorOrSelf (t : Tree) (a i : NodeId) : Bool := i == a || (t.ancestors i).contains a

/-- Takes nodes off a stack, the top first, and puts the children of each in its place. -/
def walkWithin (t : Tree) : Nat → List NodeId → List NodeId
  | fuel + 1, i :: stack => i :: t.walkWithin fuel (t.children i ++ stack)
  | _, _ => []

def descendants (t : Tree) (i : NodeId) : List NodeId := t.walkWithin t.size (t.children i)

def nextNodeWithin (t : Tree) : Nat → NodeId → Option NodeId
  | 0, _ => none
  | fuel + 1, i =>
    match t.nextSibling i with
    | some n => some n
    | none => (t.parent i).bind (t.nextNodeWithin fuel)

def nextNode (t : Tree) (i : NodeId) : Option NodeId := t.nextNodeWithin t.size i

def name (t : Tree) (i : NodeId) : String :=
  match t.kind i with
  | .identifier name _ => name
  | _ =>
    match t.kind (t.child i .identifier) with
    | .identifier name _ => name
    | _ => ""

def alloc (t : Tree) (kind : Kind) : NodeId × Tree :=
  (t.size, { t with nodes := t.nodes.push (.detached kind) })

def update (t : Tree) (i : NodeId) (f : Node → Node) : Tree :=
  { t with nodes := t.nodes.modify i f }

/-- The null node keeps its kind: the answer says whether the kind was set. -/
def setKind (t : Tree) (i : NodeId) (kind : Kind) : Bool × Tree :=
  if i = .null then (false, t) else (true, t.update i fun n => { n with kind := kind })

def mapPlacements (t : Tree) (f : Placements → Placements) : Tree :=
  { t with placements := f t.placements }

def mapMarks (t : Tree) (f : Marks → Marks) : Tree := { t with marks := f t.marks }

end Tree

end TreeScribe
