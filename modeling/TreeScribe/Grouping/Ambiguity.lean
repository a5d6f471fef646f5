import TreeScribe.Grouping.Parentheses

namespace TreeScribe.Ambiguity

/-- How a text behind a `<` reads so far: with this many angles open, or decided. -/
inductive Reading where
  | opened (level : Nat)
  | decided (ambiguous : Bool)
  deriving DecidableEq, Repr

/-- The number of open angles behind an operator, if it can stand among type arguments. -/
def levelAfter? (level : Nat) : BinaryOperator → Option Nat
  | .less => some (level + 1)
  | .greater => if 1 ≤ level then some (level - 1) else none
  | .shiftRight => if 2 ≤ level then some (level - 2) else none
  | _ => none

def readOperator (t : Tree) (operand : Nat → NodeId → Reading) (level : Nat) (op : BinaryOperator)
    (right : NodeId) : Reading :=
  match levelAfter? level op with
  | none => .decided false
  | some 0 => .decided (t.kind right = .expression .parenthesized)
  | some level => operand level right

def readWithin (t : Tree) : Nat → Nat → NodeId → Reading
  | 0, _, _ => .decided false
  | fuel + 1, level, i =>
    match t.kind i with
    | .expression .identifier | .expression .typeReference => .opened level
    | .expression .member => readWithin t fuel level (t.child i .target)
    | .expression (.binary op) =>
      match readWithin t fuel level (t.child i .left) with
      | .opened level => readOperator t (readWithin t fuel) level op (t.child i .right)
      | decided => decided
    | _ => .decided false

def read (t : Tree) (level : Nat) (i : NodeId) : Reading := readWithin t t.size level i

def nextOperand (t : Tree) (i : NodeId) : Option NodeId :=
  (t.siblingsAfter i).find? fun s =>
    match t.kind s with
    | .token | .modifier _ | .special _ => false
    | _ => true

def binaryOperator? (t : Tree) (i : NodeId) : Option BinaryOperator :=
  match t.kind i with
  | .expression (.binary op) => some op
  | _ => none

/-- Where reading goes on behind a node: at the operator to its right, at a later sibling, or behind
its parent. -/
inductive Onward where
  | operator (op : BinaryOperator) (parent : NodeId)
  | sibling (node : NodeId)
  | parent (node : NodeId)
  | nowhere
  deriving DecidableEq

def onward (t : Tree) (i : NodeId) : Onward :=
  match (t.parent i).bind fun p => (binaryOperator? t p).map fun op => (op, p) with
  | some (op, p) =>
    if t.role i = .left then .operator op p else outward
  | none => outward
where
  outward : Onward :=
    match nextOperand t i, t.parent i with
    | some s, _ => .sibling s
    | none, some p => .parent p
    | none, none => .nowhere

def isAmbiguousFrom (t : Tree) : Nat → Nat → NodeId → Bool
  | 0, _, _ => false
  | fuel + 1, level, i =>
    match onward t i with
    | .nowhere => false
    | .parent p => isAmbiguousFrom t fuel level p
    | .operator op p =>
      match readOperator t (read t) level op (t.child p .right) with
      | .decided b => b
      | .opened level => isAmbiguousFrom t fuel level p
    | .sibling s =>
      match read t level s with
      | .decided b => b
      | .opened level => isAmbiguousFrom t fuel level s

/-- Whether a `<` comparison reads as the start of type arguments that a call follows. Reading only
goes forward in document order. -/
def isAmbiguous (t : Tree) (i : NodeId) : Bool :=
  match read t 1 (t.child i .right) with
  | .decided b => b
  | .opened level => isAmbiguousFrom t t.size level i

def found (t : Tree) (root : NodeId) : List NodeId :=
  (t.descendants root).filter fun i =>
    t.kind i = .expression (.binary .less) &&
      (t.parent i).all (t.kind · != .expression .parenthesized) && isAmbiguous t i

def resolve (t : Tree) (root : NodeId) : Grouped := Grouped.wrapAll ⟨t, 0⟩ (found t root)

end TreeScribe.Ambiguity
