import TreeScribe.Layout.Basic

namespace TreeScribe.Layout

def attributeTargets : List String :=
  ["assembly", "module", "field", "event", "method", "param", "property", "return", "type"]

/-- Members of one group stand together; a change of group is reported. -/
inductive MemberGroup where
  | field | property | constructor | method | type | other
  deriving DecidableEq, Repr

def MemberGroup.ofKind : Kind → MemberGroup
  | .entity (.field _) => field
  | .entity (.property _) => property
  | .entity (.constructor _) => constructor
  | .entity (.method _) => method
  | .entity (.type ..) => type
  | _ => other

namespace Context

def isUsing (c : Context) (i : NodeId) : Bool := c.tree.kind i = .part .usingDirective

def linesBetweenTopLevel (c : Context) (previous i : NodeId) : Nat :=
  if c.isUsing previous then (if c.isUsing i then 0 else c.policy.linesAfterUsings.toNat)
  else c.policy.linesBetweenTypes.toNat

def joined (c : Context) (between : NodeId → NodeId → Layout) : Option NodeId → List NodeId → Layout
  | _, [] => []
  | previous, i :: rest =>
    .tick :: (previous.map fun p => between p i).getD [] ++ c.visit i ++
      c.joined between (some i) rest

def topLevelMembers (c : Context) (i : NodeId) : Layout :=
  c.joined (fun p m => newLines (c.linesBetweenTopLevel p m)) none (c.childrenIn i .member)

def usingDirective (c : Context) (i : NodeId) : Layout :=
  node i (keyword "using" ++ space ++ c.required i .type ++ c.semicolon i)

def namespaceBlock (c : Context) (i : NodeId) : Layout :=
  let style := c.policy.namespaceBrace
  node i (keyword "namespace" ++ space ++ c.name i ++ openBrace style (c.tree.braceKind i) true ++
    outdentedUnless c.policy.indentNamespace (c.topLevelMembers i) ++ closeBrace style true ++
    newLine)

def declared (c : Context) (i : NodeId) (m : Modifiers) : Layout := c.attributes i ++ modifiers m

def baseTypes (c : Context) (i : NodeId) : Layout :=
  let bases := c.childrenIn i .baseType
  when (!bases.isEmpty) (space ++ token ":" ++ space ++ c.commaSeparated bases)

def enumMembers (c : Context) (members : List NodeId) : Layout :=
  c.separated (fun _ => c.comma false ++ newLine) members ++
    when (!members.isEmpty) (c.trailingComma members.getLast? ++ newLine)

def isField (c : Context) (i : NodeId) : Bool := MemberGroup.ofKind (c.tree.kind i) = .field

def betweenMembers (c : Context) (previous i : NodeId) : Layout :=
  when (MemberGroup.ofKind (c.tree.kind previous) ≠ MemberGroup.ofKind (c.tree.kind i))
    [.separator] ++
    newLines (if c.isField previous && c.isField i then c.policy.linesBetweenFields.toNat
      else c.policy.linesBetweenMembers.toNat)

def typeDeclaration (c : Context) (i : NodeId) (classType : ClassType) (m : Modifiers) : Layout :=
  let style := c.policy.classTypeBrace classType
  let members := c.childrenIn i .member
  node i (c.declared i m ++ keyword classType.keyword ++ space ++ c.name i ++ c.typeParameters i ++
    c.baseTypes i ++ openBrace style (c.tree.braceKind i) true ++
    outdentedUnless c.policy.indentClass
      (if classType = .enum then c.enumMembers members
        else c.joined c.betweenMembers none members) ++
    closeBrace style true ++ newLine)

def enumMember (c : Context) (i : NodeId) (m : Modifiers) : Layout :=
  node i (c.declared i m ++ c.name i ++ c.optionalValue i .initializer)

def field (c : Context) (i : NodeId) (m : Modifiers) : Layout :=
  node i (c.declared i m ++ c.required i .type ++ space ++
    c.commaSeparated (c.childrenIn i .variable_) ++ c.semicolon i)

def accessors (c : Context) (i : NodeId) : Layout := c.visitIn i .getter ++ c.visitIn i .setter

def propertyBody (c : Context) (i : NodeId) : Layout :=
  let kind := c.tree.braceKind i
  if c.isSingleLineProperty i then
    openBrace .endOfLine kind false ++ space ++ c.accessors i ++ closeBrace .endOfLine false
  else
    openBrace c.policy.propertyBrace kind true ++ c.accessors i ++
      closeBrace c.policy.propertyBrace true

def property (c : Context) (i : NodeId) (m : Modifiers) : Layout :=
  node i (c.declared i m ++ c.required i .type ++ space ++ c.name i ++ c.propertyBody i ++ newLine)

def accessor (c : Context) (i : NodeId) (kind : AccessorKind) (m : Modifiers) : Layout :=
  let isProperty : Kind → Bool
    | .entity (.property _) => true
    | _ => false
  c.needParent i "a property" isProperty ++
    node i (c.declared i m ++
      keyword (match kind with
        | .get => "get"
        | .set => "set") ++
      c.functionBody c.policy.accessorBrace i)

def parameterList (c : Context) (i : NodeId) : Layout :=
  c.parenList c.policy.methodDeclarationParens (c.childrenIn i .parameter)

def method (c : Context) (i : NodeId) (m : Modifiers) : Layout :=
  node i (c.declared i m ++ c.required i .type ++ space ++ c.name i ++ c.typeParameters i ++
    c.parameterList i ++ c.functionBody c.policy.methodBrace i)

def constructor (c : Context) (i : NodeId) (m : Modifiers) : Layout :=
  node i (c.declared i m ++ c.name i ++ c.parameterList i ++
    when (c.has i .initializer) (newLine ++ indent ++ c.visitIn i .initializer ++ unindent) ++
    c.functionBody c.policy.constructorBrace i)

def constructorCall (c : Context) (i : NodeId) (kind : ConstructorCall) : Layout :=
  node i (token ":" ++ space ++
    keyword (match kind with
      | .base => "base"
      | .this => "this") ++
    c.arguments i)

def parameterModifier : ParameterModifier → Layout
  | .none => []
  | .ref => keyword "ref" ++ space
  | .out => keyword "out" ++ space
  | .params => keyword "params" ++ space
  | .this => keyword "this" ++ space

def parameter (c : Context) (i : NodeId) (m : ParameterModifier) : Layout :=
  node i (c.attributes i ++ parameterModifier m ++
    when (c.has i .type) (c.visitIn i .type ++ space) ++ c.name i ++
    c.optionalValue i .defaultValue)

def typeParameter (c : Context) (i : NodeId) : Layout := node i (c.attributes i ++ c.name i)

def attributeTarget (i : NodeId) : Option String → Layout
  | none => []
  | some name => when (!attributeTargets.contains name) (fail i (.unknownTarget name))

/-- Sections of parameters stay on the line; the others end it. -/
def isInlineSection (c : Context) (i : NodeId) : Bool :=
  c.tree.hasParent i fun
    | .part (.parameter _) | .part .typeParameter => true
    | _ => false

def attributeSection (c : Context) (i : NodeId) (target : Option String) : Layout :=
  attributeTarget i target ++
    node i (token "[" ++ (target.map fun name => keyword name ++ token ":" ++ space).getD [] ++
      c.commaSeparated (c.childrenIn i .attributeItem) ++ token "]" ++
      if c.isInlineSection i then space else newLine)

/-- An attribute without arguments has parentheses only if the tree holds them. -/
def attributeItem (c : Context) (i : NodeId) : Layout :=
  node i (c.required i .type ++
    when (c.has i .argument || c.has i (.token "(")) (c.arguments i))

def variableInitializer (c : Context) (i : NodeId) : Layout :=
  node i (c.name i ++ c.optionalValue i .initializer)

def entity (c : Context) (i : NodeId) : EntityKind → Layout
  | .type classType m => c.typeDeclaration i classType m
  | .enumMember m => c.enumMember i m
  | .field m => c.field i m
  | .property m => c.property i m
  | .accessor kind m => c.accessor i kind m
  | .method m => c.method i m
  | .constructor m => c.constructor i m

end Context

end TreeScribe.Layout
