import TreeScribe.Sink.Call
import TreeScribe.Tree.Attach

namespace TreeScribe

inductive Entry where
  | node (node : NodeId)
  | token (role : Role) (range : TextRange)
  | modifier (modifiers : Modifiers) (range : TextRange)
  deriving DecidableEq

/-- Nodes that consist of one token take its range; the others reach from their first token to their
last. -/
inductive Extent where
  | literal | nullRef | thisRef | baseRef | primitiveType | empty | error | tokens
  deriving DecidableEq, Repr

def Extent.ofKind : Kind → Extent
  | .expression (.literal _) => literal
  | .expression .nullRef => nullRef
  | .expression .thisRef => thisRef
  | .expression .baseRef => baseRef
  | .expression .error => error
  | .type (.primitive _) => primitiveType
  | .statement .empty => empty
  | _ => tokens

structure OpenNode where
  node : NodeId
  extent : Extent
  /-- where the first token of the node starts -/
  first : Option Location
  /-- last entry first -/
  entries : List Entry

/-- Notes for every node which children and which tokens it wrote, in order, and which range each
took. A sink that keeps places is asked for them. -/
structure Recording (W : Type) where
  inner : W
  /-- innermost first -/
  opened : List OpenNode
  /-- the entries of every finished node, last finished first -/
  plan : List (NodeId × List Entry)
  /-- last one first -/
  located : List (NodeId × TextRange)

namespace Recording

variable {W : Type} [Sink W]

def new {W : Type} (inner : W) : Recording W := ⟨inner, [], [], []⟩

def addEntry {W : Type} (w : Recording W) (e : Entry) : Recording W :=
  match w.opened with
  | [] => w
  | o :: outer => { w with opened := { o with entries := e :: o.entries } :: outer }

def locate {W : Type} (w : Recording W) (i : NodeId) (r : TextRange) : Recording W :=
  { w with located := (i, r) :: w.located }

/-- Sets the first token of the open nodes that have none; the nodes around one that has one have
one too. -/
def noteFirst (l : Location) : List OpenNode → List OpenNode
  | [] => []
  | o :: outer =>
    if o.first.isSome then o :: outer else { o with first := some l } :: noteFirst l outer

def note {W : Type} (w : Recording W) (r : TextRange) : Recording W :=
  { w with opened := noteFirst r.start w.opened }

def isInside {W : Type} (w : Recording W) (e : Extent) : Bool :=
  match w.opened with
  | [] => false
  | o :: _ => o.extent = e

def locateOpen {W : Type} (w : Recording W) (r : TextRange) : Recording W :=
  match w.opened with
  | [] => w
  | o :: _ => w.locate o.node r

def locateIf {W : Type} (w : Recording W) (e : Extent) (r : TextRange) : Recording W :=
  if w.isInside e then w.locateOpen r else w

def started (t : Tree) (w : Recording W) (i : NodeId) : Recording W :=
  let w := w.addEntry (.node i)
  { w with
    inner := Sink.put t w.inner (.start i)
    opened := ⟨i, .ofKind (t.kind i), none, []⟩ :: w.opened }

def extentOf (o : OpenNode) (last : Option TextRange) : Option TextRange :=
  match o.extent, o.first, last with
  | .tokens, some first, some last =>
    if h : first.offset ≤ last.stop.offset then some ⟨first, last.stop, h⟩ else none
  | _, _, _ => none

def finished (t : Tree) (w : Recording W) (i : NodeId) : Recording W :=
  let w := match w.opened with
    | [] => w
    | o :: outer =>
      { w with
        opened := outer
        plan := (o.node, o.entries.reverse) :: w.plan
        located := match extentOf o (Sink.lastRange w.inner) with
          | some r => (o.node, r) :: w.located
          | none => w.located }
  { w with inner := Sink.put t w.inner (.finish i) }

def recordToken {W : Type} (w : Recording W) (r : TextRange) : Call → Recording W
  | .identifier i => if i = .null then w else (w.addEntry (.node i)).locate i r
  | .keyword (.token text) _ => w.addEntry (.token (.token text) r)
  | .keyword .modifier word =>
    match Modifier.ofKeyword? word with
    | some m => w.addEntry (.modifier (.single m) r)
    | none => w
  | .keyword _ "this" => w.locateIf .thisRef r
  | .keyword _ "base" => w.locateIf .baseRef r
  | .token role _ =>
    if w.isInside .empty then w.locateOpen r
    else if role.isToken then w.addEntry (.token role r)
    else w
  | .literal _ => if w.isInside .literal then w.locateOpen r else w.locateIf .nullRef r
  | .primitiveType _ => w.locateIf .primitiveType r
  | _ => w

/-- An identifier counts as a child also where the sink keeps no places. -/
def recordUnplaced {W : Type} (w : Recording W) : Call → Recording W
  | .identifier i => if i = .null then w else w.addEntry (.node i)
  | _ => w

def commentRange (start stop : Option Location) : Option TextRange :=
  match start, stop with
  | some start, some stop => if h : start.offset ≤ stop.offset then some ⟨start, stop, h⟩ else none
  | _, _ => none

def put (t : Tree) (w : Recording W) (c : Call) : Recording W :=
  let passed : Recording W := { w with inner := Sink.put t w.inner c }
  match c with
  | .start i => w.started t i
  | .finish i => w.finished t i
  | .identifier _ | .keyword .. | .token .. | .literal _ | .primitiveType _ =>
    match Sink.lastRange passed.inner with
    | some r => (passed.note r).recordToken r c
    | none => passed.recordUnplaced c
  | .special (.comment ..) =>
    match commentRange (Sink.location w.inner) (Sink.location passed.inner) with
    | some r => (passed.note r).locateIf .error r
    | none => passed
  | .special (.directive ..) | .space | .indent | .unindent | .newLine => passed

end Recording

instance {W : Type} [Sink W] : Sink (Recording W) where
  put := Recording.put
  location w := Sink.location w.inner
  lastRange w := Sink.lastRange w.inner

namespace Tree

def isTokenNode (t : Tree) (i : NodeId) : Bool :=
  match t.kind i with
  | .token | .modifier _ => true
  | _ => false

/-- Splits a list before the members that `p` holds for: each such member with the run before it,
and the run at the end. -/
def runsBefore (p : NodeId → Bool) :
    List NodeId → List NodeId → List (NodeId × List NodeId) × List NodeId
  | run, [] => ([], run.reverse)
  | run, i :: l =>
    if p i then
      let (runs, last) := runsBefore p [] l
      ((i, run.reverse) :: runs, last)
    else runsBefore p (i :: run) l

def reattach (t : Tree) (parent : NodeId) (nodes : List NodeId) : Except AttachError Tree :=
  nodes.foldlM (fun t i => t.addChild parent (t.role i) i) t

def addTokenNode (t : Tree) (parent : NodeId) (kind : Kind) (role : Role) (r : TextRange) :
    Except AttachError Tree := do
  let (i, t) := t.alloc kind
  return (← t.addChild parent role i).mapPlacements (·.setRange i r)

def attachEntry (parent : NodeId) (runs : List (NodeId × List NodeId)) (t : Tree) :
    Entry → Except AttachError Tree
  | .node i =>
    match runs.lookup i with
    | some run => if (t.parent i).isSome then .ok t else t.reattach parent (run ++ [i])
    | none => .ok t
  | .token role r => t.addTokenNode parent .token role r
  | .modifier m r => t.addTokenNode parent (.modifier m) .modifier r

def arrange (t : Tree) (parent : NodeId) (entries : List Entry) : Except AttachError Tree := do
  let t := ((t.children parent).filter t.isTokenNode).foldl detach t
  let children := t.children parent
  let (runs, last) := runsBefore (fun i => entries.contains (.node i)) [] children
  let t ← entries.foldlM (attachEntry parent runs) (children.foldl detach t)
  t.reattach parent last

end Tree

/-- Changes the tree as recorded, and gives back the sink inside. -/
def Recording.apply {W : Type} (w : Recording W) (t : Tree) : Except AttachError (W × Tree) := do
  let t ← w.plan.reverse.foldlM (fun t (i, entries) => t.arrange i entries) t
  return (w.inner, w.located.reverse.foldl (fun t (i, r) => t.mapPlacements (·.setRange i r)) t)

end TreeScribe
