import TreeScribe.Tree.Basic

namespace TreeScribe

inductive Precedence where
  | assignment | conditional | coalescing | condOr | condAnd | bitOr | bitXor | bitAnd
  | equality | relational | shift | additive | multiplicative | unary | queryOrLambda
  | conditionalEnd | primary
  deriving DecidableEq, Repr

namespace Precedence

def all : List Precedence :=
  [assignment, conditional, coalescing, condOr, condAnd, bitOr, bitXor, bitAnd, equality,
    relational, shift, additive, multiplicative, unary, queryOrLambda, conditionalEnd, primary]

def level : Precedence → Nat
  | assignment => 1
  | conditional => 2
  | coalescing => 3
  | condOr => 4
  | condAnd => 5
  | bitOr => 6
  | bitXor => 7
  | bitAnd => 8
  | equality => 9
  | relational => 10
  | shift => 11
  | additive => 12
  | multiplicative => 13
  | unary => 14
  | queryOrLambda => 15
  | conditionalEnd => 16
  | primary => 17

def tighter : Precedence → Precedence
  | assignment => conditional
  | conditional => coalescing
  | coalescing => condOr
  | condOr => condAnd
  | condAnd => bitOr
  | bitOr => bitXor
  | bitXor => bitAnd
  | bitAnd => equality
  | equality => relational
  | relational => shift
  | shift => additive
  | additive => multiplicative
  | multiplicative => unary
  | unary => queryOrLambda
  | queryOrLambda => conditionalEnd
  | conditionalEnd | primary => primary

instance : LT Precedence := ⟨fun a b => a.level < b.level⟩

instance (a b : Precedence) : Decidable (a < b) := inferInstanceAs (Decidable (a.level < b.level))

def ofBinary : BinaryOperator → Precedence
  | .multiply | .divide | .remainder => multiplicative
  | .add | .subtract => additive
  | .shiftLeft | .shiftRight => shift
  | .greater | .greaterEqual | .less | .lessEqual => relational
  | .equal | .notEqual => equality
  | .bitAnd => bitAnd
  | .bitXor => bitXor
  | .bitOr => bitOr
  | .condAnd => condAnd
  | .condOr => condOr
  | .coalesce => coalescing

def ofUnary : UnaryOperator → Precedence
  | .postIncrement | .postDecrement | .conditionalAccess => primary
  | .conditionalEnd => conditionalEnd
  | _ => unary

/-- The start of a query binds tighter than the operators around it. -/
def ofExpression : ExpressionKind → Precedence
  | .query => queryOrLambda
  | .unary op => ofUnary op
  | .cast => unary
  | .literal v => if v.isNegative then unary else primary
  | .binary op => ofBinary op
  | .isType | .asType => relational
  | .conditional | .direction _ => conditional
  | .assignment _ | .lambda _ => assignment
  | _ => primary

def ofKind : Kind → Precedence
  | .expression k => ofExpression k
  | _ => primary

end Precedence

def Tree.precedence (t : Tree) (i : NodeId) : Precedence := .ofKind (t.kind i)

end TreeScribe
