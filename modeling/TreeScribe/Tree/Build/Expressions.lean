import TreeScribe.Tree.Build.Types

namespace TreeScribe.Build

def identifierExpression (name : String) : Build NodeId := do
  let name ← identifier name
  node (.expression .identifier) [(.identifier, name)]

def genericIdentifier (name : String) (typeArguments : List NodeId) : Build NodeId := do
  let i ← identifierExpression name
  attachAll i .typeArgument typeArguments
  return i

def literal (value : Literal) : Build NodeId := alloc (.expression (.literal value))

def nullLiteral : Build NodeId := alloc (.expression .nullRef)

def thisRef : Build NodeId := alloc (.expression .thisRef)

def baseRef : Build NodeId := alloc (.expression .baseRef)

def binary (operator : BinaryOperator) (left right : NodeId) : Build NodeId :=
  node (.expression (.binary operator)) [(.left, left), (.right, right)]

def unary (operator : UnaryOperator) (operand : NodeId) : Build NodeId :=
  node (.expression (.unary operator)) [(.expression, operand)]

def assign (operator : AssignmentOperator) (left right : NodeId) : Build NodeId :=
  node (.expression (.assignment operator)) [(.left, left), (.right, right)]

def conditional (condition whenTrue whenFalse : NodeId) : Build NodeId :=
  node (.expression .conditional)
    [(.condition, condition), (.trueExpression, whenTrue), (.falseExpression, whenFalse)]

def cast (type operand : NodeId) : Build NodeId :=
  node (.expression .cast) [(.type, type), (.expression, operand)]

def asType (operand type : NodeId) : Build NodeId :=
  node (.expression .asType) [(.expression, operand), (.type, type)]

def isType (operand type : NodeId) : Build NodeId :=
  node (.expression .isType) [(.expression, operand), (.type, type)]

def invocation (target : NodeId) (arguments : List NodeId) : Build NodeId := do
  let i ← node (.expression .invocation) [(.target, target)]
  attachAll i .argument arguments
  return i

def member (target : NodeId) (name : String) : Build NodeId := do
  let name ← identifier name
  node (.expression .member) [(.target, target), (.identifier, name)]

def genericMember (target : NodeId) (name : String) (typeArguments : List NodeId) :
    Build NodeId := do
  let i ← member target name
  attachAll i .typeArgument typeArguments
  return i

def call (target : NodeId) (name : String) (arguments : List NodeId) : Build NodeId := do
  invocation (← member target name) arguments

def indexer (target : NodeId) (arguments : List NodeId) : Build NodeId := do
  let i ← node (.expression .indexer) [(.target, target)]
  attachAll i .argument arguments
  return i

def parenthesized (inner : NodeId) : Build NodeId :=
  node (.expression .parenthesized) [(.expression, inner)]

def lambda (parameters : List NodeId) (body : NodeId) (isAsync : Bool) : Build NodeId := do
  let i ← alloc (.expression (.lambda isAsync))
  attachAll i .parameter parameters
  attach i .body body
  return i

def anonymousMethod (parameters : Option (List NodeId)) (body : NodeId) (isAsync : Bool) :
    Build NodeId := do
  let i ← alloc (.expression (.anonymousMethod isAsync parameters.isSome))
  attachAll i .parameter (parameters.getD [])
  attach i .body body
  return i

def objectCreate (type : NodeId) (arguments : List NodeId) (initializer : NodeId) :
    Build NodeId := do
  let i ← node (.expression .objectCreate) [(.type, type)]
  attachAll i .argument arguments
  attach i .initializer initializer
  return i

def arrayCreate (elementType : NodeId) (arguments : List NodeId) (specifiers : List Nat)
    (initializer : NodeId) : Build NodeId := do
  let i ← node (.expression .arrayCreate) [(.type, elementType)]
  attachAll i .argument arguments
  attachSpecifiers i specifiers
  attach i .initializer initializer
  return i

def arrayInitializer (elements : List NodeId) : Build NodeId := do
  let i ← alloc (.expression .arrayInitializer)
  attachAll i .expression elements
  return i

def named (name : String) (value : NodeId) : Build NodeId := do
  let name ← identifier name
  node (.expression .named) [(.identifier, name), (.expression, value)]

def typeOf (type : NodeId) : Build NodeId := node (.expression .typeOf) [(.type, type)]

def defaultValue (type : NodeId) : Build NodeId := node (.expression .defaultValue) [(.type, type)]

def sizeOf (type : NodeId) : Build NodeId := node (.expression .sizeOf) [(.type, type)]

def typeReference (type : NodeId) : Build NodeId :=
  node (.expression .typeReference) [(.type, type)]

def checkedExpression (inner : NodeId) : Build NodeId :=
  node (.expression .checked) [(.expression, inner)]

def uncheckedExpression (inner : NodeId) : Build NodeId :=
  node (.expression .unchecked) [(.expression, inner)]

def direction (d : Direction) (inner : NodeId) : Build NodeId :=
  node (.expression (.direction d)) [(.expression, inner)]

def query (clauses : List NodeId) : Build NodeId := do
  let i ← alloc (.expression .query)
  attachAll i .queryClause clauses
  return i

def fromClause (type : NodeId) (name : String) (source : NodeId) : Build NodeId := do
  let name ← identifier name
  node (.part .fromClause) [(.type, type), (.identifier, name), (.expression, source)]

def letClause (name : String) (value : NodeId) : Build NodeId := do
  let name ← identifier name
  node (.part .letClause) [(.identifier, name), (.expression, value)]

def whereClause (condition : NodeId) : Build NodeId :=
  node (.part .whereClause) [(.condition, condition)]

def orderClause (orderings : List NodeId) : Build NodeId := do
  let i ← alloc (.part .orderClause)
  attachAll i .queryOrdering orderings
  return i

def ordering (key : NodeId) (descending : Bool) : Build NodeId :=
  node (.part (.ordering descending)) [(.expression, key)]

def selectClause (value : NodeId) : Build NodeId :=
  node (.part .selectClause) [(.expression, value)]

def errorExpression : Build NodeId := alloc (.expression .error)

end TreeScribe.Build
