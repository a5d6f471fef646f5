import TreeScribe.Tree.Build.Statements

namespace TreeScribe.Build

def compilationUnit (members : List NodeId) : Build NodeId := do
  let i ← alloc (.part .compilationUnit)
  attachAll i .member members
  return i

def usingDirective (namespaceName : String) : Build NodeId := do
  let type ← dottedType namespaceName
  node (.part .usingDirective) [(.type, type)]

def namespaceBlock (name : String) (members : List NodeId) : Build NodeId := do
  let name ← identifier name
  let i ← node (.part .namespaceBlock) [(.identifier, name)]
  attachAll i .member members
  return i

def typeDeclaration (classType : ClassType) (modifiers : Modifiers) (name : String)
    (baseTypes members : List NodeId) : Build NodeId := do
  let name ← identifier name
  let i ← node (.entity (.type classType modifiers)) [(.identifier, name)]
  attachAll i .baseType baseTypes
  attachAll i .member members
  return i

def enumMember (name : String) (value : NodeId) : Build NodeId := do
  let name ← identifier name
  node (.entity (.enumMember .none)) [(.identifier, name), (.initializer, value)]

def field (modifiers : Modifiers) (type : NodeId) (items : List NodeId) : Build NodeId := do
  let i ← node (.entity (.field modifiers)) [(.type, type)]
  attachAll i .variable_ items
  return i

def property (modifiers : Modifiers) (type : NodeId) (name : String) (getter setter : NodeId) :
    Build NodeId := do
  let name ← identifier name
  node (.entity (.property modifiers))
    [(.type, type), (.identifier, name), (.getter, getter), (.setter, setter)]

/-- An accessor without body is written `get;` or `set;`. -/
def accessor (kind : AccessorKind) (modifiers : Modifiers) (body : NodeId) : Build NodeId :=
  node (.entity (.accessor kind modifiers)) [(.body, body)]

/-- A method without body is abstract or belongs to an interface. -/
def method (modifiers : Modifiers) (returnType : NodeId) (name : String) (parameters : List NodeId)
    (body : NodeId) : Build NodeId := do
  let name ← identifier name
  let i ← node (.entity (.method modifiers)) [(.type, returnType), (.identifier, name)]
  attachAll i .parameter parameters
  attach i .body body
  return i

def constructor (modifiers : Modifiers) (name : String) (parameters : List NodeId)
    (initializer body : NodeId) : Build NodeId := do
  let name ← identifier name
  let i ← node (.entity (.constructor modifiers)) [(.identifier, name)]
  attachAll i .parameter parameters
  attach i .initializer initializer
  attach i .body body
  return i

def constructorCall (kind : ConstructorCall) (arguments : List NodeId) : Build NodeId := do
  let i ← alloc (.part (.constructorCall kind))
  attachAll i .argument arguments
  return i

/-- A parameter of a lambda may have no type. -/
def parameter (modifier : ParameterModifier) (type : NodeId) (name : String) (default : NodeId) :
    Build NodeId := do
  let name ← identifier name
  node (.part (.parameter modifier)) [(.type, type), (.identifier, name), (.defaultValue, default)]

def plainParameter (type : NodeId) (name : String) : Build NodeId := parameter .none type name .null

def typeParameter (name : String) : Build NodeId := do
  let name ← identifier name
  node (.part .typeParameter) [(.identifier, name)]

def attachTypeParameters (declaration prev : NodeId) : List String → Build Unit
  | [] => pure ()
  | name :: names => do
    let i ← typeParameter name
    attachAfter declaration (if prev = .null then none else some prev) .typeParameter i
    attachTypeParameters declaration i names

def addTypeParameters (declaration : NodeId) (names : List String) : Build Unit := do
  attachTypeParameters declaration ((← get).child declaration .identifier) names

def attributeItem (type : NodeId) (arguments : List NodeId) : Build NodeId := do
  let i ← node (.part .attributeItem) [(.type, type)]
  attachAll i .argument arguments
  return i

def attributeSection (target : Option String) (attributes : List NodeId) : Build NodeId := do
  let i ← alloc (.part (.attributeSection target))
  attachAll i .attributeItem attributes
  return i

def attachFirst (declaration : NodeId) : List NodeId → Build Unit
  | [] => pure ()
  | i :: rest => do
    attachAfter declaration none .attributeSection i
    attachFirst declaration rest

def addAttributeSections (declaration : NodeId) (sections : List NodeId) : Build Unit :=
  attachFirst declaration sections.reverse

end TreeScribe.Build
