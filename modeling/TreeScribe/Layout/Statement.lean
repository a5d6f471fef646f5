import TreeScribe.Layout.Basic

namespace TreeScribe.Layout.Context

/-- The body of a statement: a block behind the header, anything else one level in on the next line.
`placement` says what follows the braces of a block. -/
def embedded (c : Context) (i : NodeId) (placement : KeywordPlacement) : Layout :=
  if i = .null then newLine
  else if c.tree.kind i = .statement .block then
    c.block c.policy.statementBrace i ++ keywordPlacement placement
  else newLine ++ indent ++ c.visit i ++ unindent

def embeddedBody (c : Context) (i : NodeId) : Layout :=
  c.embedded (c.child i .embeddedStatement) .newLine

def blockStatement (c : Context) (i : NodeId) : Layout :=
  c.block (c.policy.blockBrace (c.tree.parentKind? i)) i ++
    when (!c.tree.hasParent i Kind.isExpression) newLine

def expressionStatement (c : Context) (i : NodeId) : Layout :=
  node i (c.required i .expression ++ c.semicolon i)

def locals (c : Context) (i : NodeId) : Layout :=
  c.required i .type ++ space ++ c.commaSeparated (c.childrenIn i .variable_)

def variableStatement (c : Context) (i : NodeId) (m : Modifiers) : Layout :=
  node i (modifiers m ++ c.locals i ++ c.semicolon i)

/-- A label at the end of a list labels an empty statement. -/
def label (c : Context) (i : NodeId) : Layout :=
  node i (c.name i ++ token ":" ++
    when (!(c.tree.siblingsAfter i).any fun s => c.tree.role s = c.tree.role i) (token ";") ++
    newLine)

def branch (c : Context) (i : NodeId) : Layout :=
  let positive := c.child i .trueStatement
  let negative := c.child i .falseStatement
  node i (keyword "if" ++ c.need i .condition ++
    parens c.policy.ifParens (c.visitIn i .condition) ++
    if negative = .null then c.embedded positive .newLine
    else c.embedded positive c.policy.elsePlacement ++ keyword "else" ++
      if c.tree.kind negative = .statement .branch then space ++ c.visit negative
      else c.embedded negative .newLine)

def whileLoop (c : Context) (i : NodeId) : Layout :=
  node i (keywordOf "while" (some i) ++ c.need i .condition ++
    parens c.policy.whileParens (c.visitIn i .condition) ++ c.embeddedBody i)

def doLoop (c : Context) (i : NodeId) : Layout :=
  node i (keywordOf "do" (some i) ++
    c.embedded (c.child i .embeddedStatement) c.policy.whilePlacement ++
    keywordOf "while" (some i) ++ c.need i .condition ++
    parens c.policy.whileParens (c.visitIn i .condition) ++ c.semicolon i)

def forHeader (c : Context) (i : NodeId) : Layout :=
  let iterators := c.childrenIn i .forIterator
  let semicolon := spaceIf c.policy.forSemicolon.before ++ token ";"
  c.commaSeparated (c.childrenIn i .forInitializer) ++ semicolon ++
    spaceIf c.policy.forSemicolon.after ++ c.visitIn i .condition ++ semicolon ++
    when (!iterators.isEmpty) (spaceIf c.policy.forSemicolon.after ++ c.commaSeparated iterators)

def forLoop (c : Context) (i : NodeId) : Layout :=
  node i (keywordOf "for" (some i) ++ parens c.policy.forParens (c.forHeader i) ++ c.embeddedBody i)

def foreachLoop (c : Context) (i : NodeId) : Layout :=
  node i (keywordOf "foreach" (some i) ++
    parens c.policy.foreachParens (c.required i .type ++ space ++ c.name i ++ space ++
      keyword "in" ++ space ++ c.required i .inExpression) ++
    c.embeddedBody i)

def switch (c : Context) (i : NodeId) : Layout :=
  let style := c.policy.statementBrace
  node i (keywordOf "switch" (some i) ++ c.need i .expression ++
    parens c.policy.switchParens (c.visitIn i .expression) ++
    openBrace style (c.tree.braceKind i) true ++
    outdentedUnless c.policy.indentSwitch (c.run (c.childrenIn i .switchSection)) ++
    closeBrace style true ++ newLine)

/-- Labels on lines of their own; a section of one block continues the last label's line. -/
def labels (c : Context) (nodes : List NodeId) : Layout :=
  (nodes.mapIdx fun n i => when (n ≠ 0) newLine ++ c.visit i).flatten

def isSingleBlock (c : Context) : List NodeId → Bool
  | [i] => c.tree.kind i = .statement .block
  | _ => false

def switchSection (c : Context) (i : NodeId) : Layout :=
  let statements := c.childrenIn i .statement
  let isBlock := c.isSingleBlock statements
  let indented := c.policy.indentCase && !isBlock
  c.needParent i "a switch statement" (· = .statement .switch) ++
    node i (c.labels (c.childrenIn i .caseLabel) ++ when indented indent ++
      when (!isBlock) newLine ++ c.run statements ++ when indented unindent)

def caseLabel (c : Context) (i : NodeId) : Layout :=
  c.needParent i "a switch section" (· = .part .switchSection) ++
    node i ((if c.has i .expression then keyword "case" ++ space ++ c.visitIn i .expression
      else keyword "default") ++ token ":")

def jump (c : Context) (i : NodeId) (l : Layout) : Layout := node i (l ++ c.semicolon i)

def optionalOperand (c : Context) (i : NodeId) : Layout :=
  when (c.has i .expression) (space ++ c.visitIn i .expression)

def return_ (c : Context) (i : NodeId) : Layout :=
  c.jump i (keywordOf "return" (c.tree.enclosingFunction i) ++ c.optionalOperand i)

def yield (c : Context) (i : NodeId) (word : String) : Layout :=
  keywordOf "yield" (c.tree.enclosingFunction i) ++ space ++
    keywordOf word (c.tree.enclosingFunction i)

def tryCatch (c : Context) (i : NodeId) : Layout :=
  let style := c.policy.statementBrace
  node i (keyword "try" ++ c.need i .tryBlock ++ c.block style (c.child i .tryBlock) ++
    ((c.childrenIn i .catchClause).flatMap fun clause =>
      keywordPlacement c.policy.catchPlacement ++ c.visit clause) ++
    when (c.has i .finallyBlock) (keywordPlacement c.policy.finallyPlacement ++ keyword "finally" ++
      c.block style (c.child i .finallyBlock)) ++
    newLine)

def caughtType (c : Context) (i : NodeId) : Layout :=
  parens c.policy.catchParens (c.visitIn i .type ++ when (c.has i .identifier) (space ++ c.name i))

def catchClause (c : Context) (i : NodeId) : Layout :=
  c.needParent i "a try statement" (· = .statement .tryCatch) ++
    node i (keyword "catch" ++ when (c.has i .type) (c.caughtType i) ++ c.need i .body ++
      c.block c.policy.statementBrace (c.child i .body))

def markedBlock (c : Context) (i : NodeId) (word : String) : Layout :=
  node i (keyword word ++ c.need i .body ++
    c.block c.policy.statementBrace (c.child i .body) ++ newLine)

def lock (c : Context) (i : NodeId) : Layout :=
  node i (keyword "lock" ++ c.need i .expression ++
    parens c.policy.lockParens (c.visitIn i .expression) ++ c.embeddedBody i)

def usingResource (c : Context) (i : NodeId) : Layout :=
  node i (keyword "using" ++ c.need i .resource ++
    parens c.policy.usingParens (c.visitIn i .resource) ++ c.embeddedBody i)

def fixed (c : Context) (i : NodeId) : Layout :=
  node i (keyword "fixed" ++ parens c.policy.fixedParens (c.locals i) ++ c.embeddedBody i)

def statement (c : Context) (i : NodeId) : StatementKind → Layout
  | .block => c.blockStatement i
  | .expression => c.expressionStatement i
  | .locals m => c.variableStatement i m
  | .empty => node i (c.semicolon i)
  | .branch => c.branch i
  | .whileLoop => c.whileLoop i
  | .doLoop => c.doLoop i
  | .forLoop => c.forLoop i
  | .foreachLoop => c.foreachLoop i
  | .switch => c.switch i
  | .break_ => c.jump i (keywordOf "break" (c.tree.breakTarget i))
  | .continue_ => c.jump i (keywordOf "continue" (c.tree.continueTarget i))
  | .goto => c.jump i (keyword "goto" ++ space ++ c.name i)
  | .gotoCase =>
    c.jump i (keyword "goto" ++ space ++ keyword "case" ++ space ++ c.required i .expression)
  | .gotoDefault => c.jump i (keyword "goto" ++ space ++ keyword "default")
  | .return_ => c.return_ i
  | .throw => c.jump i (keyword "throw" ++ c.optionalOperand i)
  | .tryCatch => c.tryCatch i
  | .checked => c.markedBlock i "checked"
  | .unchecked => c.markedBlock i "unchecked"
  | .lock => c.lock i
  | .usingResource => c.usingResource i
  | .fixed => c.fixed i
  | .unsafeBlock => c.markedBlock i "unsafe"
  | .yieldReturn => c.jump i (c.yield i "return" ++ space ++ c.required i .expression)
  | .yieldBreak => c.jump i (c.yield i "break")
  | .label => c.label i

end TreeScribe.Layout.Context
