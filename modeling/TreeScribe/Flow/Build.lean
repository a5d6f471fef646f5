import TreeScribe.Flow.Statement

namespace TreeScribe.Flow

namespace Plan

def drawWithin (t : Tree) (root : NodeId) (s : Setting) :
    Nat → Targets → NodeId → Option PointId → Drawing (Option PointId)
  | 0, _, _, _ => return none
  | fuel + 1, targets, i, source => node ⟨t, root, s, drawWithin t root s fuel⟩ targets i source

end Plan

/-- Of labels with one name the last counts; a `goto` without a label has no edge. -/
def joinGotos (t : Tree) : List PointId → Drawing Unit
  | [] => return
  | p :: rest => do
    let d ← get
    Drawing.joinIf (some p) (d.labels.lookup (t.name (d.graph.point p).next)) .jump
    joinGotos t rest

def isTry (t : Tree) (i : NodeId) : Bool := t.kind i = .statement .tryCatch

/-- The try statements with a finally block around `source` that are not around `target`, innermost
first. -/
def leftTries (t : Tree) (source target : NodeId) : List NodeId :=
  if t.parent source = t.parent target then []
  else
    let outer := (t.ancestors target).filter (isTry t)
    (((t.ancestors source).filter (isTry t)).takeWhile (!outer.contains ·)).filter
      (t.hasChild · .finallyBlock)

/-- What a jump leaves: it goes from the statement behind its source to the one before its target,
or else behind it. -/
def jumpLeaves (t : Tree) (g : Graph) (e : Edge) : List NodeId :=
  let target := g.point e.target
  leftTries t (g.point e.source).next
    (if target.previous = .null then target.next else target.previous)

def markLeaves (t : Tree) (g : Graph) (e : EdgeId) : Graph :=
  if (g.edge e).kind = .jump then g.leaving e (jumpLeaves t g (g.edge e)) else g

def markFrom (t : Tree) (g : Graph) (first : EdgeId) : Graph :=
  ((List.range g.edges.size).drop first).foldl (markLeaves t) g

def Graph.draw (g : Graph) (t : Tree) (root : NodeId) (s : Setting) :
    Except FlowError (List PointId × Graph) := do
  if !(t.kind root).isStatement then throw (.unknown t root)
  let drawing : Drawing Unit := do
    let _ ← Plan.drawWithin t root s t.size ⟨none, none⟩ root (← Drawing.startPoint root)
    joinGotos t (← get).gotos.reverse
  let (_, d) ← drawing.run ⟨g, #[], [], [], [], .every drawInterval⟩
  return (d.listed.toList, markFrom t d.graph g.edges.size)

def Graph.ofStatement (t : Tree) (root : NodeId) (s : Setting) : Except FlowError Graph := do
  let (order, g) ← Graph.empty.draw t root s
  return { g with order }

end TreeScribe.Flow
