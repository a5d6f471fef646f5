import TreeScribe.Tree.Build.Basic

namespace TreeScribe.Build

def simpleType (name : String) (typeArguments : List NodeId) : Build NodeId := do
  let name ← identifier name
  let i ← node (.type .simple) [(.identifier, name)]
  attachAll i .typeArgument typeArguments
  return i

def memberType (target : NodeId) (name : String) (typeArguments : List NodeId) : Build NodeId := do
  let name ← identifier name
  let i ← node (.type (.member false)) [(.target, target), (.identifier, name)]
  attachAll i .typeArgument typeArguments
  return i

def aliasQualifiedType (alias_ name : String) : Build NodeId := do
  let target ← simpleType alias_ []
  let name ← identifier name
  node (.type (.member true)) [(.target, target), (.identifier, name)]

def primitiveType (keyword : String) : Build NodeId := alloc (.type (.primitive keyword))

def arraySpecifier (dimensions : Nat) : Build NodeId :=
  alloc (.part (.arraySpecifier (max dimensions 1)))

def attachSpecifiers (parent : NodeId) : List Nat → Build Unit
  | [] => pure ()
  | dimensions :: rest => do
    attach parent .arraySpecifier (← arraySpecifier dimensions)
    attachSpecifiers parent rest

def composedType (base : NodeId) (nullable : Bool) (pointerRank : Nat) (arrays : List Nat) :
    Build NodeId := do
  let i ← node (.type (.composed nullable pointerRank)) [(.type, base)]
  attachSpecifiers i arrays
  return i

def memberTypes (type : NodeId) : List String → Build NodeId
  | [] => pure type
  | name :: names => do
    memberTypes (← memberType type name []) names

def dotted (text : String) : List String :=
  (text.toList.splitOn '.').map String.ofList

def dottedType (text : String) : Build NodeId :=
  match dotted text with
  | [] => simpleType "" []
  | name :: names => do
    memberTypes (← simpleType name []) names

end TreeScribe.Build
