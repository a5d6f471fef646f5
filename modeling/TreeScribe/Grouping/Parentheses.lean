import TreeScribe.Grouping.Precedence
import TreeScribe.Tree.Attach

namespace TreeScribe

namespace Tree

def enclose (t : Tree) (i : NodeId) : Except AttachError (NodeId × Tree) := do
  let (p, t) := t.alloc (.expression .parenthesized)
  return (p, ← t.addChild p .expression i)

/-- Puts an attached node into new parentheses, which take its place and role. Nothing can refuse
them there. -/
def parenthesize (t : Tree) (i : NodeId) : Tree :=
  ((t.replaceWith i enclose).toOption.map (·.2)).getD t

end Tree

structure Grouped where
  tree : Tree
  added : Nat

namespace Grouped

def wrap (g : Grouped) (i : NodeId) : Grouped := ⟨g.tree.parenthesize i, g.added + 1⟩

def wrapAll (g : Grouped) (nodes : List NodeId) : Grouped := nodes.foldl wrap g

end Grouped

namespace Parentheses

abbrev Operand := NodeId × Precedence

def isCast (t : Tree) (i : NodeId) : Bool := t.kind i = .expression .cast

def isBinary (t : Tree) (i : NodeId) (op : BinaryOperator) : Bool :=
  t.kind i = .expression (.binary op)

def isDirection (t : Tree) (i : NodeId) : Bool :=
  match t.kind i with
  | .expression (.direction _) => true
  | _ => false

def valueOperand (t : Tree) (readable : Bool) (i : NodeId) : Operand :=
  (i, if readable && !isDirection t i then .conditionalEnd else .assignment)

/-- Casts of casts and unary operators on casts need no parentheses. -/
def prefixedOperand (t : Tree) (readable : Bool) (i : NodeId) (level : Precedence) : List Operand :=
  if isCast t i then [] else [(i, if readable then .conditionalEnd else level)]

/-- Operators group to the left, but `??` to the right. Readers get parentheses around the operands
of logical and bitwise operators, unless the same operator goes on to the left. -/
def binaryOperands (t : Tree) (readable : Bool) (op : BinaryOperator) (left right : NodeId) :
    List Operand :=
  let level := Precedence.ofBinary op
  if op = .coalesce then
    if readable then
      [(left, .conditionalEnd),
        (right, if isBinary t right .coalesce then level else .conditionalEnd)]
    else [(left, level.tighter), (right, level)]
  else if readable && level < .equality then
    let boost : Precedence := if op.isBitwise then .unary else .equality
    [(left, if isBinary t left op then level else boost), (right, boost)]
  else [(left, level), (right, level.tighter)]

def operands (t : Tree) (readable : Bool) (i : NodeId) : List Operand :=
  match t.kind i with
  | .expression .member | .expression .invocation | .expression .indexer =>
    [(t.child i .target, .primary)]
  | .expression (.unary _) => prefixedOperand t readable (t.child i .expression) (t.precedence i)
  | .expression .cast => prefixedOperand t readable (t.child i .expression) .unary
  | .expression (.binary op) => binaryOperands t readable op (t.child i .left) (t.child i .right)
  | .expression .isType | .expression .asType =>
    [(t.child i .expression, if readable then .conditionalEnd else .relational)]
  | .expression .conditional =>
    let level (l : Precedence) : Precedence := if readable then .conditionalEnd else l
    [(t.child i .condition, level Precedence.conditional.tighter),
      (t.child i .trueExpression, level .conditional),
      (t.child i .falseExpression, level .conditional)]
  | .expression (.assignment _) =>
    [(t.child i .left, Precedence.assignment.tighter), valueOperand t readable (t.child i .right)]
  | .expression .named => [valueOperand t readable (t.child i .expression)]
  | .part .variable_ =>
    let value := t.child i .initializer
    if (t.kind value).isExpression then [valueOperand t readable value] else []
  | _ => []

/-- Types that read like expressions in parentheses. -/
def readsAsExpression (t : Tree) (i : NodeId) : Bool :=
  match t.kind i with
  | .type (.member doubleColon) => !doubleColon
  | .type .simple => true
  | _ => false

/-- Whether an operand behind a type in parentheses would be read as a subtraction or the like. -/
def readsOn (t : Tree) (i : NodeId) : Bool :=
  match t.kind i with
  | .expression (.unary op) => op ≠ .not
  | .expression (.literal v) => v.isNegative
  | _ => false

/-- Whether an operand would be read as part of something else, however tightly it binds. -/
def isMisread (t : Tree) (readable : Bool) (parent i : NodeId) : Bool :=
  match t.kind parent with
  | .expression .indexer =>
    t.kind i = .expression .arrayCreate && (readable || !t.hasChild i .initializer)
  | .expression .cast => readsAsExpression t (t.child parent .type) && readsOn t i
  | _ => false

def needsParens (t : Tree) (readable : Bool) (parent : NodeId) (o : Operand) : Bool :=
  o.1 != .null && (t.precedence o.1 < o.2 || isMisread t readable parent o.1)

def isLambdaOrQuery : Kind → Bool
  | .expression (.lambda _) | .expression .query => true
  | _ => false

/-- Whether a lambda or query stands where it would swallow what follows it. -/
def isSwallowing (t : Tree) (readable : Bool) (i : NodeId) : Bool :=
  isLambdaOrQuery (t.kind i) &&
    match (t.parent i).map t.kind with
    | some (.expression (.binary _)) => t.role i = .left || readable
    | some (.expression .isType) | some (.expression .asType) => true
    | some (.expression (.unary _)) => readable
    | _ => false

def visit (readable : Bool) (root : NodeId) (g : Grouped) (i : NodeId) : Grouped :=
  let g :=
    g.wrapAll (((operands g.tree readable i).filter (needsParens g.tree readable i)).map (·.1))
  if i ≠ root ∧ isSwallowing g.tree readable i then g.wrap i else g

/-- A node is handled before its children, those that were put into parentheses included. -/
def walk (readable : Bool) (root : NodeId) : Nat → Grouped → NodeId → Grouped
  | 0, g, _ => g
  | fuel + 1, g, i =>
    let g := visit readable root g i
    (g.tree.children i).foldl (walk readable root fuel) g

/-- Adds the parentheses that the nodes below `root` need. Parentheses at most double the depth of a
tree. -/
def insert (t : Tree) (root : NodeId) (readable : Bool) : Grouped :=
  walk readable root (2 * t.size) ⟨t, 0⟩ root

end Parentheses

end TreeScribe
