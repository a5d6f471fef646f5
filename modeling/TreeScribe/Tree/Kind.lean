import TreeScribe.Literal
import TreeScribe.Tree.Modifier
import TreeScribe.Tree.Operator

namespace TreeScribe

inductive ClassType where
  | class_ | struct | interface | enum
  deriving DecidableEq, Repr

def ClassType.keyword : ClassType → String
  | class_ => "class"
  | struct => "struct"
  | interface => "interface"
  | enum => "enum"

inductive AccessorKind where
  | get | set
  deriving DecidableEq, Repr

inductive ConstructorCall where
  | base | this
  deriving DecidableEq, Repr

inductive ParameterModifier where
  | none | ref | out | params | this
  deriving DecidableEq, Repr

inductive Direction where
  | out | ref
  deriving DecidableEq, Repr

/-- `inactive` is disabled code, kept verbatim between directives. -/
inductive CommentKind where
  | line | block | documentation | inactive
  deriving DecidableEq, Repr

inductive DirectiveKind where
  | if_ | elif | else_ | endif | define | undef | region | endRegion | pragma | warning
  | error | line
  deriving DecidableEq, Repr

def DirectiveKind.keyword : DirectiveKind → String
  | if_ => "if"
  | elif => "elif"
  | else_ => "else"
  | endif => "endif"
  | define => "define"
  | undef => "undef"
  | region => "region"
  | endRegion => "endregion"
  | pragma => "pragma"
  | warning => "warning"
  | error => "error"
  | line => "line"

inductive SpecialKind where
  | comment (kind : CommentKind) (content : String)
  | directive (kind : DirectiveKind) (argument : String)
  deriving DecidableEq

inductive EntityKind where
  | type (classType : ClassType) (modifiers : Modifiers)
  | enumMember (modifiers : Modifiers)
  | field (modifiers : Modifiers)
  | property (modifiers : Modifiers)
  | accessor (kind : AccessorKind) (modifiers : Modifiers)
  | method (modifiers : Modifiers)
  | constructor (modifiers : Modifiers)
  deriving DecidableEq

inductive TypeKind where
  | simple
  | member (doubleColon : Bool)
  | primitive (keyword : String)
  | composed (nullable : Bool) (pointerRank : Nat)
  deriving DecidableEq

inductive StatementKind where
  | block | expression | locals (modifiers : Modifiers) | empty
  | branch | whileLoop | doLoop | forLoop | foreachLoop | switch
  | break_ | continue_ | goto | gotoCase | gotoDefault | return_ | throw
  | tryCatch | checked | unchecked | lock | usingResource | fixed | unsafeBlock
  | yieldReturn | yieldBreak | label
  deriving DecidableEq

inductive ExpressionKind where
  | identifier
  | literal (value : Literal)
  | nullRef | thisRef | baseRef
  | binary (operator : BinaryOperator)
  | unary (operator : UnaryOperator)
  | assignment (operator : AssignmentOperator)
  | conditional | cast | asType | isType
  | invocation | member | indexer | parenthesized
  | lambda (isAsync : Bool)
  | anonymousMethod (isAsync : Bool) (hasParameterList : Bool)
  | objectCreate | arrayCreate | arrayInitializer | named
  | typeOf | defaultValue | sizeOf | typeReference | checked | unchecked
  | direction (direction : Direction)
  | query | error
  deriving DecidableEq

inductive PartKind where
  | compilationUnit | usingDirective | namespaceBlock
  | constructorCall (kind : ConstructorCall)
  | parameter (modifier : ParameterModifier)
  | typeParameter
  | attributeSection (target : Option String)
  | attributeItem | variable_
  | arraySpecifier (dimensions : Nat)
  | switchSection | caseLabel | catchClause
  | fromClause | letClause | whereClause | orderClause
  | ordering (descending : Bool)
  | selectClause
  deriving DecidableEq

/-- A token's text is the role it is attached in. -/
inductive Kind where
  | null
  | identifier (name : String) (verbatim : Bool)
  | token
  | modifier (modifiers : Modifiers)
  | special (kind : SpecialKind)
  | entity (kind : EntityKind)
  | part (kind : PartKind)
  | type (kind : TypeKind)
  | statement (kind : StatementKind)
  | expression (kind : ExpressionKind)
  deriving DecidableEq

namespace SpecialKind

def name : SpecialKind → String
  | comment .. => "Comment"
  | directive .. => "PreProcessorDirective"

end SpecialKind

namespace EntityKind

def name : EntityKind → String
  | type .. => "TypeDeclaration"
  | enumMember _ => "EnumMemberDeclaration"
  | field _ => "FieldDeclaration"
  | property _ => "PropertyDeclaration"
  | accessor .. => "Accessor"
  | method _ => "MethodDeclaration"
  | constructor _ => "ConstructorDeclaration"

def modifiers : EntityKind → Modifiers
  | type _ m | enumMember m | field m | property m | accessor _ m | method m | constructor m => m

end EntityKind

namespace TypeKind

def name : TypeKind → String
  | simple => "SimpleType"
  | member _ => "MemberType"
  | primitive _ => "PrimitiveType"
  | composed .. => "ComposedType"

end TypeKind

namespace StatementKind

def name : StatementKind → String
  | block => "BlockStatement"
  | expression => "ExpressionStatement"
  | locals _ => "VariableDeclarationStatement"
  | empty => "EmptyStatement"
  | branch => "IfElseStatement"
  | whileLoop => "WhileStatement"
  | doLoop => "DoWhileStatement"
  | forLoop => "ForStatement"
  | foreachLoop => "ForeachStatement"
  | switch => "SwitchStatement"
  | break_ => "BreakStatement"
  | continue_ => "ContinueStatement"
  | goto => "GotoStatement"
  | gotoCase => "GotoCaseStatement"
  | gotoDefault => "GotoDefaultStatement"
  | return_ => "ReturnStatement"
  | throw => "ThrowStatement"
  | tryCatch => "TryCatchStatement"
  | checked => "CheckedStatement"
  | unchecked => "UncheckedStatement"
  | lock => "LockStatement"
  | usingResource => "UsingStatement"
  | fixed => "FixedStatement"
  | unsafeBlock => "UnsafeStatement"
  | yieldReturn => "YieldReturnStatement"
  | yieldBreak => "YieldBreakStatement"
  | label => "LabelStatement"

end StatementKind

namespace ExpressionKind

def name : ExpressionKind → String
  | identifier => "IdentifierExpression"
  | literal _ => "PrimitiveExpression"
  | nullRef => "NullReferenceExpression"
  | thisRef => "ThisReferenceExpression"
  | baseRef => "BaseReferenceExpression"
  | binary _ => "BinaryOperatorExpression"
  | unary _ => "UnaryOperatorExpression"
  | assignment _ => "AssignmentExpression"
  | conditional => "ConditionalExpression"
  | cast => "CastExpression"
  | asType => "AsExpression"
  | isType => "IsExpression"
  | invocation => "InvocationExpression"
  | member => "MemberReferenceExpression"
  | indexer => "IndexerExpression"
  | parenthesized => "ParenthesizedExpression"
  | lambda _ => "LambdaExpression"
  | anonymousMethod .. => "AnonymousMethodExpression"
  | objectCreate => "ObjectCreateExpression"
  | arrayCreate => "ArrayCreateExpression"
  | arrayInitializer => "ArrayInitializerExpression"
  | named => "NamedExpression"
  | typeOf => "TypeOfExpression"
  | defaultValue => "DefaultValueExpression"
  | sizeOf => "SizeOfExpression"
  | typeReference => "TypeReferenceExpression"
  | checked => "CheckedExpression"
  | unchecked => "UncheckedExpression"
  | direction _ => "DirectionExpression"
  | query => "QueryExpression"
  | error => "ErrorExpression"

end ExpressionKind

namespace PartKind

def name : PartKind → String
  | compilationUnit => "CompilationUnit"
  | usingDirective => "UsingDeclaration"
  | namespaceBlock => "NamespaceDeclaration"
  | constructorCall _ => "ConstructorInitializer"
  | parameter _ => "ParameterDeclaration"
  | typeParameter => "TypeParameterDeclaration"
  | attributeSection _ => "AttributeSection"
  | attributeItem => "Attribute"
  | variable_ => "VariableInitializer"
  | arraySpecifier _ => "ArraySpecifier"
  | switchSection => "SwitchSection"
  | caseLabel => "CaseLabel"
  | catchClause => "CatchClause"
  | fromClause => "QueryFromClause"
  | letClause => "QueryLetClause"
  | whereClause => "QueryWhereClause"
  | orderClause => "QueryOrderClause"
  | ordering _ => "QueryOrdering"
  | selectClause => "QuerySelectClause"

end PartKind

namespace Kind

def name : Kind → String
  | null => "Null"
  | identifier .. => "Identifier"
  | token => "Token"
  | modifier _ => "ModifierToken"
  | special k => k.name
  | entity k => k.name
  | part k => k.name
  | type k => k.name
  | statement k => k.name
  | expression k => k.name

def isStatement : Kind → Bool
  | statement _ => true
  | _ => false

def isExpression : Kind → Bool
  | expression _ => true
  | _ => false

def isEntity : Kind → Bool
  | entity _ => true
  | _ => false

def isType : Kind → Bool
  | type _ => true
  | _ => false

def isSpecial : Kind → Bool
  | special _ => true
  | _ => false

def plain : List Kind :=
  [null, token, type .simple] ++
  ([.compilationUnit, .usingDirective, .namespaceBlock, .typeParameter, .attributeItem, .variable_,
    .switchSection, .caseLabel, .catchClause, .fromClause, .letClause, .whereClause, .orderClause,
    .selectClause] : List PartKind).map part ++
  ([.block, .expression, .empty, .branch, .whileLoop, .doLoop, .forLoop, .foreachLoop, .switch,
    .break_, .continue_, .goto, .gotoCase, .gotoDefault, .return_, .throw, .tryCatch, .checked,
    .unchecked, .lock, .usingResource, .fixed, .unsafeBlock, .yieldReturn, .yieldBreak, .label] :
      List StatementKind).map statement ++
  ([.identifier, .nullRef, .thisRef, .baseRef, .conditional, .cast, .asType, .isType, .invocation,
    .member, .indexer, .parenthesized, .objectCreate, .arrayCreate, .arrayInitializer, .named,
    .typeOf, .defaultValue, .sizeOf, .typeReference, .checked, .unchecked, .query, .error] :
      List ExpressionKind).map expression

def ofName? (word : String) : Option Kind := plain.find? (·.name == word)

def modifiers? : Kind → Option Modifiers
  | entity k => some k.modifiers
  | statement (.locals m) => some m
  | _ => none

end Kind

end TreeScribe
