import TreeScribe.Tree.Attach

namespace TreeScribe

abbrev Build := StateT Tree (Except AttachError)

namespace Build

def alloc (kind : Kind) : Build NodeId := modifyGet fun t => t.alloc kind

def attach (parent : NodeId) (role : Role) (child : NodeId) : Build Unit := do
  set (← (← get).addChild parent role child)

def attachAll (parent : NodeId) (role : Role) : List NodeId → Build Unit
  | [] => pure ()
  | child :: children => do
    attach parent role child
    attachAll parent role children

def attachEach (parent : NodeId) : List (Role × NodeId) → Build Unit
  | [] => pure ()
  | (role, child) :: children => do
    attach parent role child
    attachEach parent children

def attachAfter (parent : NodeId) (prev : Option NodeId) (role : Role) (child : NodeId) :
    Build Unit := do
  set (← (← get).insertAfter parent prev role child)

def node (kind : Kind) (children : List (Role × NodeId)) : Build NodeId := do
  let i ← alloc kind
  attachEach i children
  return i

def identifier (name : String) : Build NodeId := alloc (.identifier name false)

def verbatimIdentifier (name : String) : Build NodeId := alloc (.identifier name true)

def comment (kind : CommentKind) (content : String) : Build NodeId :=
  alloc (.special (.comment kind content))

def directive (kind : DirectiveKind) (argument : String) : Build NodeId :=
  alloc (.special (.directive kind argument))

def specialRole : Kind → Role
  | .special (.directive ..) => .directive
  | _ => .comment

/-- Inserts a comment or directive before a sibling; a node without parent has none. -/
def insertSpecialBefore (next special : NodeId) : Build Unit := do
  let t ← get
  match t.parent next with
  | none => pure ()
  | some parent => set (← t.insertBefore parent (some next) (specialRole (t.kind special)) special)

def appendSpecial (parent special : NodeId) : Build Unit := do
  attach parent (specialRole ((← get).kind special)) special

end Build

end TreeScribe
