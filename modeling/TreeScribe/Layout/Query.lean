import TreeScribe.Layout.Basic

namespace TreeScribe.Layout.Context

def fromClause (c : Context) (i : NodeId) : Layout :=
  node i (keyword "from" ++ space ++ when (c.has i .type) (c.visitIn i .type ++ space) ++
    c.name i ++ space ++ keyword "in" ++ space ++ c.required i .expression)

def letClause (c : Context) (i : NodeId) : Layout := node i (keyword "let" ++ space ++ c.binding i)

def whereClause (c : Context) (i : NodeId) : Layout :=
  node i (keyword "where" ++ space ++ c.required i .condition)

def orderClause (c : Context) (i : NodeId) : Layout :=
  node i (keyword "orderby" ++ space ++ c.commaSeparated (c.childrenIn i .queryOrdering))

def ordering (c : Context) (i : NodeId) (descending : Bool) : Layout :=
  c.needParent i "an orderby clause" (· = .part .orderClause) ++
    node i (c.required i .expression ++ when descending (space ++ keyword "descending"))

def selectClause (c : Context) (i : NodeId) : Layout :=
  node i (keyword "select" ++ space ++ c.required i .expression)

end TreeScribe.Layout.Context
