import TreeScribe.Tree.Build.Expressions

namespace TreeScribe.Build

def block (statements : List NodeId) : Build NodeId := do
  let i ← alloc (.statement .block)
  attachAll i .statement statements
  return i

def expressionStatement (expression : NodeId) : Build NodeId :=
  node (.statement .expression) [(.expression, expression)]

def declared (name : String) (initializer : NodeId) : Build NodeId := do
  let name ← identifier name
  node (.part .variable_) [(.identifier, name), (.initializer, initializer)]

def localsWith (modifiers : Modifiers) (type : NodeId) (items : List NodeId) : Build NodeId := do
  let i ← node (.statement (.locals modifiers)) [(.type, type)]
  attachAll i .variable_ items
  return i

def locals (type : NodeId) (items : List NodeId) : Build NodeId :=
  localsWith .none type items

def localVariable (type : NodeId) (name : String) (initializer : NodeId) : Build NodeId := do
  locals type [← declared name initializer]

def emptyStatement : Build NodeId := alloc (.statement .empty)

def branch (condition whenTrue whenFalse : NodeId) : Build NodeId :=
  node (.statement .branch)
    [(.condition, condition), (.trueStatement, whenTrue), (.falseStatement, whenFalse)]

def whileLoop (condition body : NodeId) : Build NodeId :=
  node (.statement .whileLoop) [(.condition, condition), (.embeddedStatement, body)]

def doLoop (body condition : NodeId) : Build NodeId :=
  node (.statement .doLoop) [(.embeddedStatement, body), (.condition, condition)]

def forLoop (initializers : List NodeId) (condition : NodeId) (iterators : List NodeId)
    (body : NodeId) : Build NodeId := do
  let i ← alloc (.statement .forLoop)
  attachAll i .forInitializer initializers
  attach i .condition condition
  attachAll i .forIterator iterators
  attach i .embeddedStatement body
  return i

def foreachLoop (type : NodeId) (name : String) (source body : NodeId) : Build NodeId := do
  let name ← identifier name
  node (.statement .foreachLoop)
    [(.type, type), (.identifier, name), (.inExpression, source), (.embeddedStatement, body)]

def switch (expression : NodeId) (sections : List NodeId) : Build NodeId := do
  let i ← node (.statement .switch) [(.expression, expression)]
  attachAll i .switchSection sections
  return i

def switchSection (labels statements : List NodeId) : Build NodeId := do
  let i ← alloc (.part .switchSection)
  attachAll i .caseLabel labels
  attachAll i .statement statements
  return i

/-- A label without value is the default label. -/
def caseLabel (value : NodeId) : Build NodeId := node (.part .caseLabel) [(.expression, value)]

def breakStatement : Build NodeId := alloc (.statement .break_)

def continueStatement : Build NodeId := alloc (.statement .continue_)

def goto (label : String) : Build NodeId := do
  let name ← identifier label
  node (.statement .goto) [(.identifier, name)]

def gotoCase (value : NodeId) : Build NodeId := node (.statement .gotoCase) [(.expression, value)]

def gotoDefault : Build NodeId := alloc (.statement .gotoDefault)

def returnStatement (value : NodeId) : Build NodeId :=
  node (.statement .return_) [(.expression, value)]

def throwStatement (value : NodeId) : Build NodeId :=
  node (.statement .throw) [(.expression, value)]

def tryCatch (tryBlock : NodeId) (catches : List NodeId) (finallyBlock : NodeId) :
    Build NodeId := do
  let i ← node (.statement .tryCatch) [(.tryBlock, tryBlock)]
  attachAll i .catchClause catches
  attach i .finallyBlock finallyBlock
  return i

def catchClause (type : NodeId) (variableName : Option String) (body : NodeId) : Build NodeId := do
  let name ← match variableName with
    | some name => identifier name
    | none => pure .null
  node (.part .catchClause) [(.type, type), (.identifier, name), (.body, body)]

def checkedStatement (body : NodeId) : Build NodeId := node (.statement .checked) [(.body, body)]

def uncheckedStatement (body : NodeId) : Build NodeId :=
  node (.statement .unchecked) [(.body, body)]

def unsafeStatement (body : NodeId) : Build NodeId := node (.statement .unsafeBlock) [(.body, body)]

def lockStatement (expression body : NodeId) : Build NodeId :=
  node (.statement .lock) [(.expression, expression), (.embeddedStatement, body)]

def usingStatement (resource body : NodeId) : Build NodeId :=
  node (.statement .usingResource) [(.resource, resource), (.embeddedStatement, body)]

def fixedStatement (type : NodeId) (items : List NodeId) (body : NodeId) : Build NodeId := do
  let i ← node (.statement .fixed) [(.type, type)]
  attachAll i .variable_ items
  attach i .embeddedStatement body
  return i

def yieldReturn (value : NodeId) : Build NodeId :=
  node (.statement .yieldReturn) [(.expression, value)]

def yieldBreak : Build NodeId := alloc (.statement .yieldBreak)

def label (name : String) : Build NodeId := do
  let name ← identifier name
  node (.statement .label) [(.identifier, name)]

end TreeScribe.Build
