import TreeScribe.Layout.Basic

namespace TreeScribe

namespace Tree

def previousLink (t : Tree) (i : NodeId) : Option NodeId :=
  let target := t.child i .target
  let inner := t.child target .target
  if t.kind target = .expression .invocation ∧ t.kind inner = .expression .member then some inner
  else none

def callChainWithin (t : Tree) : Nat → NodeId → Nat
  | 0, _ => 0
  | bound + 1, i =>
    match t.previousLink i with
    | some link => t.callChainWithin bound link + 1
    | none => 0

/-- The number of calls of members that a member reference stands behind, counted up to four. -/
def callChain (t : Tree) (i : NodeId) : Nat := t.callChainWithin 4 i

def isMemberInitializer (t : Tree) (i : NodeId) : Bool :=
  t.kind i = .expression .arrayInitializer &&
    match t.parentKind? i with
    | some (.expression .objectCreate) => t.role i = .initializer
    | some (.expression .named) => t.role i = .expression
    | _ => false

def isSimpleElement (t : Tree) (i : NodeId) : Bool :=
  match t.kind i with
  | .expression .nullRef | .expression .thisRef | .expression (.literal _)
  | .expression .identifier => true
  | .expression .member =>
    match t.kind (t.child i .target) with
    | .expression .thisRef | .expression .identifier | .expression .baseRef => true
    | _ => false
  | _ => false

/-- Whether an element takes a line of its own even when it is alone. -/
def isLargeElement (t : Tree) (i : NodeId) : Bool :=
  match t.kind i with
  | .expression (.anonymousMethod ..) | .expression (.lambda _) => true
  | .expression .objectCreate | .expression .named => true
  | _ => false

end Tree

namespace Layout.Context

def chainBreak : Nat := 3

def elementsPerLine : Nat := 10

def identifier (c : Context) (i : NodeId) : Layout := node i (c.name i ++ c.typeArguments i)

def literal (i : NodeId) (v : Literal) : Layout := node i [.write (.literal v)]

def selfReference (c : Context) (i : NodeId) (word : String) : Layout :=
  node i [.write (.keyword (c.tree.role i) word)]

def infixPair (c : Context) (i : NodeId) (around : Bool) (operator : String) : Layout :=
  node i (c.need i .left ++ c.need i .right ++
    c.visitIn i .left ++ spaced around (token operator) ++ c.visitIn i .right)

def unary (c : Context) (i : NodeId) (op : UnaryOperator) : Layout :=
  node i (c.need i .expression ++
    (if op = .await then keyword op.token ++ space
      else when (!op.isPostfix && op.token ≠ "") (token op.token)) ++
    c.visitIn i .expression ++ when op.isPostfix (token op.token))

def sides (s : SideSpacing) (l : Layout) : Layout := spaceIf s.before ++ l ++ spaceIf s.after

def conditional (c : Context) (i : NodeId) : Layout :=
  node i (c.need i .condition ++ c.need i .trueExpression ++ c.need i .falseExpression ++
    c.visitIn i .condition ++ sides c.policy.question (token "?") ++
    c.visitIn i .trueExpression ++ sides c.policy.colon (token ":") ++ c.visitIn i .falseExpression)

def cast (c : Context) (i : NodeId) : Layout :=
  node i (c.need i .type ++ c.need i .expression ++
    parens ⟨false, c.policy.withinCast⟩ (c.visitIn i .type) ++ spaceIf c.policy.afterCast ++
    c.visitIn i .expression)

def typeTest (c : Context) (i : NodeId) (word : String) : Layout :=
  node i (c.need i .expression ++ c.need i .type ++
    c.visitIn i .expression ++ space ++ keyword word ++ space ++ c.visitIn i .type)

/-- The outermost call of a broken chain ends its indentation. -/
def invocation (c : Context) (i : NodeId) : Layout :=
  let target := c.child i .target
  node i (c.required i .target ++ c.arguments i ++
    when (!c.tree.hasParent i (· = .expression .member) &&
      c.tree.kind target = .expression .member && chainBreak ≤ c.tree.callChain target) unindent)

/-- The third link of a chain starts its indentation, and each later one takes a line. A link that
is not called ends the indentation itself. -/
def member (c : Context) (i : NodeId) : Layout :=
  let length := c.tree.callChain i
  let breaks := chainBreak ≤ length
  node i (c.required i .target ++
    when breaks (when (length = chainBreak) indent ++ newLine) ++
    token "." ++ c.name i ++ c.typeArguments i ++
    when (breaks && !c.tree.hasParent i (· = .expression .invocation)) unindent)

def indexer (c : Context) (i : NodeId) : Layout :=
  node i (c.required i .target ++ spaceIf c.policy.brackets.before ++
    c.enclosedList "[" "]" c.policy.brackets.within (c.childrenIn i .argument))

def parenthesized (c : Context) (i : NodeId) : Layout :=
  node i (c.need i .expression ++ parens ⟨false, c.policy.withinParens⟩ (c.visitIn i .expression))

/-- A single parameter without type or modifier needs no parentheses. -/
def isBareParameter (c : Context) (i : NodeId) : Bool :=
  c.tree.kind i = .part (.parameter .none) && !c.has i .type

def lambdaParameters (c : Context) (i : NodeId) : Layout :=
  match c.childrenIn i .parameter with
  | [p] =>
    if c.isBareParameter p then c.visit p
    else c.enclosedList "(" ")" c.policy.methodDeclarationParens.within [p]
  | parameters => c.enclosedList "(" ")" c.policy.methodDeclarationParens.within parameters

def asyncMark (isAsync : Bool) : Layout := when isAsync (keyword "async" ++ space)

def lambda (c : Context) (i : NodeId) (isAsync : Bool) : Layout :=
  node i (asyncMark isAsync ++ c.lambdaParameters i ++
    spaced c.policy.aroundArrow (token "=>") ++ c.required i .body)

def anonymousMethod (c : Context) (i : NodeId) (isAsync hasParameterList : Bool) : Layout :=
  node i (asyncMark isAsync ++ keyword "delegate" ++
    when hasParameterList
      (c.parenList c.policy.methodDeclarationParens (c.childrenIn i .parameter)) ++
    c.required i .body)

/-- Empty argument lists are written unless an initializer follows; the tree may hold their
parenthesis. -/
def objectCreate (c : Context) (i : NodeId) : Layout :=
  let arguments := c.childrenIn i .argument
  node i (keyword "new" ++ c.required i .type ++
    when (!arguments.isEmpty || !c.has i .initializer || c.has i (.token "(")) (c.arguments i) ++
    c.visitIn i .initializer)

def arrayCreate (c : Context) (i : NodeId) : Layout :=
  let arguments := c.childrenIn i .argument
  node i (keyword "new" ++ c.visitIn i .type ++
    when (!arguments.isEmpty) (c.enclosedList "[" "]" c.policy.brackets.within arguments) ++
    (c.childrenIn i .arraySpecifier).flatMap c.visit ++ c.visitIn i .initializer)

def elementBreak (always : Bool) (n : Nat) : Layout :=
  if always || n % elementsPerLine = 0 then newLine else space

def elements (c : Context) (i : NodeId) (elements : List NodeId) : Layout :=
  let always := c.policy.arrayWrapping = .wrapAlways ||
    1 < elements.length && elements.any (!c.tree.isSimpleElement ·) ||
    elements.any c.tree.isLargeElement
  let wrapped := always || elementsPerLine < elements.length
  let style := if wrapped then c.policy.arrayInitializerBrace else .endOfLine
  let edge := if wrapped then newLine else space
  openBrace style (c.tree.braceKind i) wrapped ++ when (!wrapped) space ++
    c.separated (fun n => c.comma false ++ elementBreak always n) elements ++
    c.trailingComma elements.getLast? ++ edge ++ closeBrace style wrapped

/-- An initializer of one element inside a member initializer needs no braces, if the tree holds
none and the element could not be read as an assignment to a member. -/
def isBareElement (c : Context) (i element : NodeId) : Bool :=
  (c.tree.parent i).any c.tree.isMemberInitializer &&
    c.tree.kind element ≠ .expression (.assignment .assign) && !c.has i (.token "\x7b")

def arrayInitializer (c : Context) (i : NodeId) : Layout :=
  node i (match c.childrenIn i .expression with
    | [element] => if c.isBareElement i element then c.visit element else c.elements i [element]
    | elements => c.elements i elements)

def typeOperator (c : Context) (i : NodeId) (word : String) : Layout :=
  node i (c.need i .type ++ keyword word ++ parens c.policy.typeofParens (c.visitIn i .type))

def overflowCheck (c : Context) (i : NodeId) (word : String) : Layout :=
  node i (c.need i .expression ++ keyword word ++
    parens c.policy.checkedParens (c.visitIn i .expression))

def direction (c : Context) (i : NodeId) (d : Direction) : Layout :=
  node i (c.need i .expression ++
    keyword (match d with
      | .out => "out"
      | .ref => "ref") ++
    space ++ c.visitIn i .expression)

/-- A comment takes the place of an expression that could not be built. -/
def placeholder (i : NodeId) : Layout := node i [.write (.special (.comment .block " error "))]

def query (c : Context) (i : NodeId) : Layout :=
  node i (indent ++ c.separated (fun _ => newLine) (c.childrenIn i .queryClause) ++ unindent)

def expression (c : Context) (i : NodeId) : ExpressionKind → Layout
  | .identifier => c.identifier i
  | .literal v => literal i v
  | .nullRef => literal i .null
  | .thisRef => c.selfReference i "this"
  | .baseRef => c.selfReference i "base"
  | .binary op => c.infixPair i c.policy.aroundBinary op.token
  | .unary op => c.unary i op
  | .assignment op => c.infixPair i c.policy.aroundAssignment op.token
  | .conditional => c.conditional i
  | .cast => c.cast i
  | .asType => c.typeTest i "as"
  | .isType => c.typeTest i "is"
  | .invocation => c.invocation i
  | .member => c.member i
  | .indexer => c.indexer i
  | .parenthesized => c.parenthesized i
  | .lambda isAsync => c.lambda i isAsync
  | .anonymousMethod isAsync hasParameterList => c.anonymousMethod i isAsync hasParameterList
  | .objectCreate => c.objectCreate i
  | .arrayCreate => c.arrayCreate i
  | .arrayInitializer => c.arrayInitializer i
  | .named => node i (c.binding i)
  | .typeOf => c.typeOperator i "typeof"
  | .defaultValue => c.typeOperator i "default"
  | .sizeOf => c.typeOperator i "sizeof"
  | .typeReference => node i (c.required i .type)
  | .checked => c.overflowCheck i "checked"
  | .unchecked => c.overflowCheck i "unchecked"
  | .direction d => c.direction i d
  | .query => c.query i
  | .error => placeholder i

end Layout.Context

end TreeScribe
