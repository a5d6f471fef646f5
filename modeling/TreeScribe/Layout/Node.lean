import TreeScribe.Layout.Declaration
import TreeScribe.Layout.Expression
import TreeScribe.Layout.Query
import TreeScribe.Layout.Statement
import TreeScribe.Layout.Types

namespace TreeScribe.Layout

namespace Context

def part (c : Context) (i : NodeId) : PartKind → Layout
  | .compilationUnit => node i (c.topLevelMembers i)
  | .usingDirective => c.usingDirective i
  | .namespaceBlock => c.namespaceBlock i
  | .constructorCall kind => c.constructorCall i kind
  | .parameter m => c.parameter i m
  | .typeParameter => c.typeParameter i
  | .attributeSection target => c.attributeSection i target
  | .attributeItem => c.attributeItem i
  | .variable_ => c.variableInitializer i
  | .arraySpecifier dimensions => arraySpecifier i dimensions
  | .switchSection => c.switchSection i
  | .caseLabel => c.caseLabel i
  | .catchClause => c.catchClause i
  | .fromClause => c.fromClause i
  | .letClause => c.letClause i
  | .whereClause => c.whereClause i
  | .orderClause => c.orderClause i
  | .ordering descending => c.ordering i descending
  | .selectClause => c.selectClause i

/-- Identifiers, tokens, comments and directives are written by their parents alone. -/
def kind (c : Context) (i : NodeId) : Kind → Layout
  | .null => []
  | .identifier .. | .token | .modifier _ | .special _ => fail i .notVisited
  | .entity k => c.entity i k
  | .part k => c.part i k
  | .type k => c.type i k
  | .statement k => c.statement i k
  | .expression k => c.expression i k

end Context

def ofNodeWithin (t : Tree) (p : Policy) : Nat → NodeId → Layout
  | 0, _ => []
  | fuel + 1, i => Context.kind ⟨t, p, ofNodeWithin t p fuel⟩ i (t.kind i)

def ofNode (t : Tree) (p : Policy) (i : NodeId) : Layout := ofNodeWithin t p t.size i

end TreeScribe.Layout
