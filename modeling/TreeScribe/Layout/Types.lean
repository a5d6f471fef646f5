import TreeScribe.Layout.Basic

namespace TreeScribe.Layout.Context

def simpleType (c : Context) (i : NodeId) : Layout := node i (c.name i ++ c.typeArguments i)

def memberType (c : Context) (i : NodeId) (doubleColon : Bool) : Layout :=
  node i (c.required i .target ++ token (if doubleColon then "::" else ".") ++ c.name i ++
    c.typeArguments i)

def primitiveType (i : NodeId) (word : String) : Layout := node i [.write (.primitiveType word)]

def composedType (c : Context) (i : NodeId) (nullable : Bool) (pointerRank : Nat) : Layout :=
  node i (c.required i .type ++ when nullable (token "?") ++
    (List.replicate pointerRank (token "*")).flatten ++
    (c.childrenIn i .arraySpecifier).flatMap c.visit)

def arraySpecifier (i : NodeId) (dimensions : Nat) : Layout :=
  node i (token "[" ++ (List.replicate (dimensions - 1) (token ",")).flatten ++ token "]")

def type (c : Context) (i : NodeId) : TypeKind → Layout
  | .simple => c.simpleType i
  | .member doubleColon => c.memberType i doubleColon
  | .primitive word => primitiveType i word
  | .composed nullable pointerRank => c.composedType i nullable pointerRank

end TreeScribe.Layout.Context
