import TreeScribe.Tree.Basic

namespace TreeScribe

inductive AttachError where
  | nullParent
  | attached (child : NodeId)
  | cycle (child : NodeId)
  | notChild (node parent : NodeId)
  deriving DecidableEq, Repr

def AttachError.message : AttachError → String
  | nullParent => "cannot add children to the null node"
  | attached child => child.toText ++ " already has a parent"
  | cycle child => child.toText ++ " cannot become its own descendant"
  | notChild node parent => node.toText ++ " is not a child of " ++ parent.toText

namespace Tree

def checkAttachable (t : Tree) (parent child : NodeId) : Except AttachError Unit :=
  if parent = .null then .error .nullParent
  else if (t.parent child).isSome then .error (.attached child)
  else if t.isAncestorOrSelf child parent then .error (.cycle child)
  else .ok ()

def setAfter (t : Tree) (parent : NodeId) (prev i : Option NodeId) : Tree :=
  match prev with
  | some prev => t.update prev fun n => { n with nextSibling := i }
  | none => t.update parent fun n => { n with firstChild := i }

def setBefore (t : Tree) (parent : NodeId) (next i : Option NodeId) : Tree :=
  match next with
  | some next => t.update next fun n => { n with prevSibling := i }
  | none => t.update parent fun n => { n with lastChild := i }

def link (t : Tree) (parent : NodeId) (role : Role) (prev next : Option NodeId) (child : NodeId) :
    Tree :=
  ((t.update child fun n =>
      { n with
        role := role, parent := some parent, prevSibling := prev, nextSibling := next }).setAfter
    parent prev (some child)).setBefore parent next (some child)

def addChild (t : Tree) (parent : NodeId) (role : Role) (child : NodeId) :
    Except AttachError Tree :=
  if child = .null then .ok t
  else do
    t.checkAttachable parent child
    return t.link parent role (t.lastChild parent) none child

/-- Inserts before `next`, or at the end without it. -/
def insertBefore (t : Tree) (parent : NodeId) (next : Option NodeId) (role : Role)
    (child : NodeId) : Except AttachError Tree :=
  match next with
  | none => t.addChild parent role child
  | some next =>
    if child = .null then .ok t
    else if t.parent next ≠ some parent then .error (.notChild next parent)
    else do
      t.checkAttachable parent child
      return t.link parent role (t.prevSibling next) (some next) child

/-- Inserts before the node that follows `prev`, or at the start without `prev`. -/
def insertAfter (t : Tree) (parent : NodeId) (prev : Option NodeId) (role : Role) (child : NodeId) :
    Except AttachError Tree :=
  t.insertBefore parent
    (match prev with
      | some prev => t.nextSibling prev
      | none => t.firstChild parent)
    role child

/-- Unlinks a node from its parent; the node keeps its role and its children. -/
def detach (t : Tree) (i : NodeId) : Tree :=
  match t.parent i with
  | none => t
  | some p =>
    ((t.setAfter p (t.prevSibling i) (t.nextSibling i)).setBefore
      p (t.nextSibling i) (t.prevSibling i)).update i
      fun n => { n with parent := none, prevSibling := none, nextSibling := none }

def replace (t : Tree) (old new : NodeId) : Except AttachError Tree :=
  match t.parent old with
  | none => .ok t
  | some parent => (t.detach old).insertBefore parent (t.nextSibling old) (t.role old) new

/-- Detaches `old`, builds its replacement with `f`, and puts that in the place and role of `old`.
`f` may attach `old` inside the replacement. -/
def replaceWith (t : Tree) (old : NodeId) (f : Tree → NodeId → Except AttachError (NodeId × Tree)) :
    Except AttachError (NodeId × Tree) := do
  let (new, u) ← f (t.detach old) old
  match t.parent old with
  | none => return (new, u)
  | some parent => return (new, ← u.insertBefore parent (t.nextSibling old) (t.role old) new)

end Tree

end TreeScribe
