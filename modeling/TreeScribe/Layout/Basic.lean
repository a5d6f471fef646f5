import TreeScribe.Layout.Command
import TreeScribe.Policy.Basic

namespace TreeScribe

namespace Tree

def parentKind? (t : Tree) (i : NodeId) : Option Kind := (t.parent i).map t.kind

def hasParent (t : Tree) (i : NodeId) (p : Kind → Bool) : Bool := (t.parentKind? i).any p

end Tree

namespace Kind

/-- Kinds whose body is left by `return`. -/
def isFunction : Kind → Bool
  | entity (.method _) | entity (.constructor _) | entity (.accessor ..) => true
  | expression (.lambda _) | expression (.anonymousMethod ..) => true
  | _ => false

def isLoop : Kind → Bool
  | statement .whileLoop | statement .doLoop | statement .forLoop | statement .foreachLoop => true
  | _ => false

def braceKind : Kind → BraceKind
  | part .namespaceBlock => .namespace_
  | entity (.type ..) => .type
  | entity (.method _) | entity (.constructor _) => .method
  | entity (.property _) => .property
  | entity (.accessor ..) => .accessor
  | expression (.lambda _) | expression (.anonymousMethod ..) => .anonymousMethod
  | statement .whileLoop | statement .doLoop | statement .forLoop | statement .foreachLoop => .loop
  | statement .branch => .conditional
  | statement .switch | part .switchSection => .switch
  | statement .tryCatch | part .catchClause => .try_
  | statement .lock => .lock
  | statement .usingResource => .usingResource
  | statement .fixed => .fixed
  | statement .checked | statement .unchecked => .checked
  | statement .unsafeBlock => .unsafeBlock
  | expression .arrayInitializer | expression .objectCreate => .initializer
  | _ => .block

end Kind

namespace Tree

def braceKind (t : Tree) (i : NodeId) : BraceKind :=
  if t.kind i = .statement .block then ((t.parentKind? i).map Kind.braceKind).getD .block
  else (t.kind i).braceKind

def enclosingFunction (t : Tree) (i : NodeId) : Option NodeId :=
  (t.ancestors i).find? fun a => (t.kind a).isFunction

def enclosingInFunction (t : Tree) (p : Kind → Bool) (i : NodeId) : Option NodeId :=
  ((t.ancestors i).takeWhile fun a => !(t.kind a).isFunction).find? fun a => p (t.kind a)

def breakTarget (t : Tree) (i : NodeId) : Option NodeId :=
  t.enclosingInFunction (fun k => k.isLoop || k = .statement .switch) i

def continueTarget (t : Tree) (i : NodeId) : Option NodeId := t.enclosingInFunction Kind.isLoop i

end Tree

namespace Policy

def classTypeBrace (p : Policy) : ClassType → BraceStyle
  | .class_ => p.classBrace
  | .struct => p.structBrace
  | .interface => p.interfaceBrace
  | .enum => p.enumBrace

def blockBrace (p : Policy) : Option Kind → BraceStyle
  | some (.expression (.lambda _)) | some (.expression (.anonymousMethod ..)) =>
    p.anonymousMethodBrace
  | some (.entity (.constructor _)) => p.constructorBrace
  | some (.entity (.method _)) => p.methodBrace
  | some (.entity (.accessor ..)) => p.accessorBrace
  | _ => p.statementBrace

end Policy

namespace Layout

structure Context where
  tree : Tree
  policy : Policy
  /-- the layout of a whole node; that of the null node is empty -/
  visit : NodeId → Layout

/-- An opening brace; `body` says whether an indented body follows on lines of its own. -/
def openBrace (style : BraceStyle) (kind : BraceKind) (body : Bool) : Layout :=
  (match style with
    | .endOfLine | .bannerStyle => [.gap, .openBrace kind]
    | .endOfLineWithoutSpace => [.openBrace kind]
    | .nextLine => [.freshLine, .openBrace kind]
    | .nextLineShifted | .nextLineShifted2 => .freshLine :: indent ++ [.openBrace kind]) ++
  when body (when (style ≠ .nextLineShifted) indent ++ newLine)

def closeBrace (style : BraceStyle) (body : Bool) : Layout :=
  match style with
  | .endOfLine | .endOfLineWithoutSpace | .nextLine => when body unindent ++ [.closeBrace]
  | .bannerStyle => .closeBrace :: when body unindent
  | .nextLineShifted => .closeBrace :: unindent
  | .nextLineShifted2 => when body unindent ++ .closeBrace :: unindent

def outdentedUnless (b : Bool) (l : Layout) : Layout := when (!b) unindent ++ l ++ when (!b) indent

def keywordPlacement : KeywordPlacement → Layout
  | .sameLine => space
  | .newLine => newLine

namespace Context

def child (c : Context) (i : NodeId) (r : Role) : NodeId := c.tree.child i r

def has (c : Context) (i : NodeId) (r : Role) : Bool := c.tree.hasChild i r

def childrenIn (c : Context) (i : NodeId) (r : Role) : List NodeId := c.tree.childrenIn i r

/-- Nothing, or a failure where a child is absent. -/
def need (c : Context) (i : NodeId) (r : Role) : Layout := when (!c.has i r) (fail i (.missing r))

def visitIn (c : Context) (i : NodeId) (r : Role) : Layout := c.visit (c.child i r)

def required (c : Context) (i : NodeId) (r : Role) : Layout := c.need i r ++ c.visitIn i r

def needParent (c : Context) (i : NodeId) (place : String) (p : Kind → Bool) : Layout :=
  when (!c.tree.hasParent i p) (fail i (.misplaced place))

def name (c : Context) (i : NodeId) : Layout :=
  c.need i .identifier ++ [.write (.identifier (c.child i .identifier))]

def comma (c : Context) (spaceAfter : Bool) : Layout :=
  spaceIf c.policy.comma.before ++ token "," ++ spaceIf (spaceAfter && c.policy.comma.after)

def trailingComma (c : Context) : Option NodeId → Layout
  | none => []
  | some last =>
    match (c.tree.siblingsAfter last).find? fun s => !(c.tree.role s).isSpecial with
    | none => []
    | some next => when (c.tree.role next = .token ",") (c.comma false)

def separated (c : Context) (separator : Nat → Layout) (nodes : List NodeId) : Layout :=
  (nodes.mapIdx fun n i => .tick :: when (n ≠ 0) (separator n) ++ c.visit i).flatten

def commaSeparated (c : Context) (nodes : List NodeId) : Layout :=
  c.separated (fun _ => c.comma true) nodes

def run (c : Context) (nodes : List NodeId) : Layout := nodes.flatMap fun i => .tick :: c.visit i

def enclosedList (c : Context) (opening closing : String) (within : Bool) (nodes : List NodeId) :
    Layout :=
  token opening ++ when (!nodes.isEmpty) (spaced within (c.commaSeparated nodes)) ++ token closing

def parenList (c : Context) (p : ParenSpacing) (nodes : List NodeId) : Layout :=
  spaceIf p.before ++ c.enclosedList "(" ")" p.within nodes

def arguments (c : Context) (i : NodeId) : Layout :=
  c.parenList c.policy.methodCallParens (c.childrenIn i .argument)

def parens (p : ParenSpacing) (l : Layout) : Layout :=
  spaceIf p.before ++ token "(" ++ spaced p.within l ++ token ")"

def angleList (c : Context) (nodes : List NodeId) : Layout :=
  when (!nodes.isEmpty) (c.enclosedList "<" ">" false nodes)

def typeArguments (c : Context) (i : NodeId) : Layout := c.angleList (c.childrenIn i .typeArgument)

def typeParameters (c : Context) (i : NodeId) : Layout :=
  c.angleList (c.childrenIn i .typeParameter)

def attributes (c : Context) (i : NodeId) : Layout :=
  (c.childrenIn i .attributeSection).flatMap c.visit

def modifiers (m : Modifiers) : Layout :=
  m.toList.flatMap fun m => .write (.keyword .modifier m.keyword) :: space

def equals (c : Context) : Layout := spaced c.policy.aroundAssignment (token "=")

def optionalValue (c : Context) (i : NodeId) (r : Role) : Layout :=
  when (c.has i r) (c.equals ++ c.visitIn i r)

def binding (c : Context) (i : NodeId) : Layout := c.name i ++ c.equals ++ c.required i .expression

/-- Whether a property is written on one line: the policy asks for it, and no accessor has a body or
attributes. -/
def isSingleLineProperty (c : Context) (i : NodeId) : Bool :=
  c.policy.autoProperty = .singleLine &&
    ([.getter, .setter].map (c.child i)).all fun a =>
      a = .null || !c.has a .body && !c.has a .attributeSection

def isSingleLineAccessor (c : Context) (i : NodeId) : Bool :=
  match c.tree.kind i with
  | .entity (.accessor ..) => (c.tree.parent i).any c.isSingleLineProperty
  | _ => false

/-- The semicolon of a statement or declaration. Statements inside a `for` header or a resource have
none. -/
def semicolon (c : Context) (i : NodeId) : Layout :=
  match c.tree.role i with
  | .forInitializer | .forIterator | .resource => []
  | _ => token ";" ++ if c.isSingleLineAccessor i then space else newLine

def block (c : Context) (style : BraceStyle) (i : NodeId) : Layout :=
  node i (openBrace style (c.tree.braceKind i) true ++ c.run (c.childrenIn i .statement) ++
    closeBrace style true)

def functionBody (c : Context) (style : BraceStyle) (i : NodeId) : Layout :=
  if c.has i .body then c.block style (c.child i .body) ++ newLine else c.semicolon i

end Context

end Layout

end TreeScribe
