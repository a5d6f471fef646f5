import TreeScribe.Tree.Basic

namespace TreeScribe.Keyword

def everywhere : List String :=
  ["abstract", "as", "base", "bool", "break", "byte", "case", "catch", "char", "checked",
    "class", "const", "continue", "decimal", "default", "delegate", "do", "double", "else",
    "enum", "event", "explicit", "extern", "false", "finally", "fixed", "float", "for",
    "foreach", "goto", "if", "implicit", "in", "int", "interface", "internal", "is", "lock",
    "long", "namespace", "new", "null", "object", "operator", "out", "override", "params",
    "private", "protected", "public", "readonly", "ref", "return", "sbyte", "sealed", "short",
    "sizeof", "stackalloc", "static", "string", "struct", "switch", "this", "throw", "true",
    "try", "typeof", "uint", "ulong", "unchecked", "unsafe", "ushort", "using", "virtual",
    "void", "volatile", "while"]

def insideQuery : List String :=
  ["from", "where", "join", "on", "equals", "into", "let", "orderby", "ascending",
    "descending", "select", "group", "by"]

def asyncFunction? : Kind → Option Bool
  | .expression (.lambda isAsync) => some isAsync
  | .expression (.anonymousMethod isAsync _) => some isAsync
  | .entity k => some (k.modifiers.has .asyncCode)
  | _ => none

def isContextual (word : String) : List Kind → Bool
  | [] => false
  | kind :: outer =>
    if kind = .expression .query ∧ insideQuery.contains word then true
    else if word = "await" then (asyncFunction? kind).getD (isContextual word outer)
    else isContextual word outer

def isKeyword (t : Tree) (word : String) (context : NodeId) : Bool :=
  everywhere.contains word || isContextual word ((t.ancestors context).map t.kind)

end TreeScribe.Keyword
