namespace TreeScribe

/-- `root` is the role of a node that was never attached. -/
inductive Role where
  | root
  | identifier | comment | directive
  | attributeSection | attributeItem | modifier
  | type | baseType | typeArgument | typeParameter | parameter | argument
  | member | body | getter | setter
  | variable_ | initializer | expression | condition
  | trueStatement | falseStatement | embeddedStatement | statement
  | forInitializer | forIterator | inExpression | resource
  | switchSection | caseLabel | tryBlock | catchClause | finallyBlock
  | target | left | right | trueExpression | falseExpression
  | arraySpecifier | queryClause | queryOrdering | defaultValue
  | token (text : String)
  deriving DecidableEq, Repr

namespace Role

def isSpecial : Role → Bool
  | comment | directive => true
  | _ => false

def isToken : Role → Bool
  | token _ => true
  | _ => false

def name : Role → String
  | root => "Root"
  | identifier => "Identifier"
  | comment => "Comment"
  | directive => "PreProcessorDirective"
  | attributeSection => "AttributeSection"
  | attributeItem => "Attribute"
  | modifier => "Modifier"
  | type => "Type"
  | baseType => "BaseType"
  | typeArgument => "TypeArgument"
  | typeParameter => "TypeParameter"
  | parameter => "Parameter"
  | argument => "Argument"
  | member => "Member"
  | body => "Body"
  | getter => "Getter"
  | setter => "Setter"
  | variable_ => "Variable"
  | initializer => "Initializer"
  | expression => "Expression"
  | condition => "Condition"
  | trueStatement => "TrueStatement"
  | falseStatement => "FalseStatement"
  | embeddedStatement => "EmbeddedStatement"
  | statement => "Statement"
  | forInitializer => "ForInitializer"
  | forIterator => "ForIterator"
  | inExpression => "InExpression"
  | resource => "ResourceAcquisition"
  | switchSection => "SwitchSection"
  | caseLabel => "CaseLabel"
  | tryBlock => "TryBlock"
  | catchClause => "CatchClause"
  | finallyBlock => "FinallyBlock"
  | target => "Target"
  | left => "Left"
  | right => "Right"
  | trueExpression => "TrueExpression"
  | falseExpression => "FalseExpression"
  | arraySpecifier => "ArraySpecifier"
  | queryClause => "QueryClause"
  | queryOrdering => "QueryOrdering"
  | defaultValue => "DefaultValue"
  | token _ => "Token"

def plain : List Role :=
  [root, identifier, comment, directive, attributeSection, attributeItem, modifier, type, baseType,
    typeArgument, typeParameter, parameter, argument, member, body, getter, setter, variable_,
    initializer, expression, condition, trueStatement, falseStatement, embeddedStatement, statement,
    forInitializer, forIterator, inExpression, resource, switchSection, caseLabel, tryBlock,
    catchClause, finallyBlock, target, left, right, trueExpression, falseExpression, arraySpecifier,
    queryClause, queryOrdering, defaultValue]

def ofName? (word : String) : Option Role := plain.find? (·.name == word)

def quotedChar (c : Char) : List Char :=
  match c with
  | '\x22' | '\\' => ['\\', c]
  | '\x00' => ['\\', '0']
  | '\t' => ['\\', 't']
  | '\n' => ['\\', 'n']
  | '\r' => ['\\', 'r']
  | _ =>
    if c.toNat < 32 ∨ c.toNat = 127
    then ['\\', 'u', '\x7b'] ++ Nat.toDigits 16 c.toNat ++ ['\x7d'] else [c]

def quoted (text : String) : String :=
  String.ofList ('\x22' :: text.toList.flatMap quotedChar ++ ['\x22'])

def toText : Role → String
  | token text => "Token(" ++ quoted text ++ ")"
  | r => r.name

end Role

end TreeScribe
