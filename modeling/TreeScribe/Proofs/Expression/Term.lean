import TreeScribe.Grouping.Precedence
import TreeScribe.Sink.Call

namespace TreeScribe

/-- Types that could be expressions: names, and members of what is named before a dot. -/
def Kind.isTypeName : Kind → Bool
  | .type .simple => true
  | .type (.member doubleColon) => !doubleColon
  | _ => false

structure TypeLexeme where
  node : NodeId
  isName : Bool
  deriving DecidableEq

inductive Lexeme where
  | name (text : String) (verbatim : Bool)
  | literal (value : Literal)
  | word (text : String)
  | mark (text : String)
  | type (type : TypeLexeme)
  deriving DecidableEq

inductive TypeTest where
  | isType | asType
  deriving DecidableEq

namespace TypeTest

def word : TypeTest → String
  | isType => "is"
  | asType => "as"

def kind : TypeTest → ExpressionKind
  | isType => .isType
  | asType => .asType

theorem ofExpression_kind (how : TypeTest) : Precedence.ofExpression how.kind = .relational := by
  cases how <;> rfl

end TypeTest

namespace UnaryOperator

def isPrefix (op : UnaryOperator) : Bool := !op.isPostfix && op ≠ .conditionalEnd

def lexeme (op : UnaryOperator) : Lexeme := if op = .await then .word op.token else .mark op.token

theorem ofExpression_isPrefix {op : UnaryOperator} (ho : op.isPrefix = true) :
    Precedence.ofExpression (.unary op) = .unary := by
  cases op <;> first | rfl | cases ho

end UnaryOperator

/-- A type in the place of an expression is a `typeName`; no tree holds one there. -/
inductive Term where
  | name (text : String) (verbatim : Bool)
  | typeName (type : TypeLexeme)
  | literal (value : Literal)
  | group (inner : Term)
  | member (target : Term) (name : String) (verbatim : Bool)
  | call (target : Term) (arguments : List Term)
  | index (target : Term) (arguments : List Term)
  | unary (op : UnaryOperator) (operand : Term)
  | cast (type : TypeLexeme) (operand : Term)
  | binary (op : BinaryOperator) (left right : Term)
  | test (how : TypeTest) (operand : Term) (type : TypeLexeme)
  | conditional (condition whenTrue whenFalse : Term)
  | assign (op : AssignmentOperator) (left right : Term)

namespace Term

def separator (first : Bool) : List Lexeme := if first then [] else [.mark ","]

mutual

def lexemes : Term → List Lexeme
  | name text verbatim => [.name text verbatim]
  | typeName type => [.type type]
  | literal value => [.literal value]
  | group inner => .mark "(" :: lexemes inner ++ [.mark ")"]
  | member target text verbatim => lexemes target ++ [.mark ".", .name text verbatim]
  | call target arguments => lexemes target ++ .mark "(" :: listed true arguments ++ [.mark ")"]
  | index target arguments => lexemes target ++ .mark "[" :: listed true arguments ++ [.mark "]"]
  | unary op operand => op.lexeme :: lexemes operand
  | cast type operand => .mark "(" :: .type type :: .mark ")" :: lexemes operand
  | binary op left right => lexemes left ++ .mark op.token :: lexemes right
  | test how operand type => lexemes operand ++ [.word how.word, .type type]
  | conditional condition whenTrue whenFalse =>
    lexemes condition ++ .mark "?" :: lexemes whenTrue ++ .mark ":" :: lexemes whenFalse
  | assign op left right => lexemes left ++ .mark op.token :: lexemes right

def listed (first : Bool) : List Term → List Lexeme
  | [] => []
  | e :: es => separator first ++ lexemes e ++ listed false es

end

mutual

def ungrouped : Term → Term
  | group inner => ungrouped inner
  | member target text verbatim => member (ungrouped target) text verbatim
  | call target arguments => call (ungrouped target) (ungroupedAll arguments)
  | index target arguments => index (ungrouped target) (ungroupedAll arguments)
  | unary op operand => unary op (ungrouped operand)
  | cast type operand => cast type (ungrouped operand)
  | binary op left right => binary op (ungrouped left) (ungrouped right)
  | test how operand type => test how (ungrouped operand) type
  | conditional condition whenTrue whenFalse =>
    conditional (ungrouped condition) (ungrouped whenTrue) (ungrouped whenFalse)
  | assign op left right => assign op (ungrouped left) (ungrouped right)
  | e => e

def ungroupedAll : List Term → List Term
  | [] => []
  | e :: es => ungrouped e :: ungroupedAll es

end

def precedence : Term → Precedence
  | unary .. | cast .. => .unary
  | binary op _ _ => .ofBinary op
  | test .. => .relational
  | conditional .. => .conditional
  | assign .. => .assignment
  | _ => .primary

def isPlace : Term → Bool
  | name .. | member .. | index .. | group _ => true
  | _ => false

theorem precedence_of_isPlace {e : Term} (h : e.isPlace = true) : e.precedence = .primary := by
  cases e <;> first | rfl | cases h

end Term

namespace Tree

def typeLexeme (t : Tree) (i : NodeId) : TypeLexeme := ⟨i, (t.kind i).isTypeName⟩

inductive IsType (t : Tree) : NodeId → Prop
  | simple {i : NodeId} {name : String} {verbatim : Bool} (hk : t.kind i = .type .simple)
      (hn : t.kind (t.child i .identifier) = .identifier name verbatim)
      (ha : ∀ a ∈ t.childrenIn i .typeArgument, IsType t a) : IsType t i
  | member {i : NodeId} {doubleColon : Bool} {name : String} {verbatim : Bool}
      (hk : t.kind i = .type (.member doubleColon)) (h : IsType t (t.child i .target))
      (hn : t.kind (t.child i .identifier) = .identifier name verbatim)
      (ha : ∀ a ∈ t.childrenIn i .typeArgument, IsType t a) : IsType t i
  | primitive {i : NodeId} {keyword : String} (hk : t.kind i = .type (.primitive keyword)) :
      IsType t i
  | composed {i : NodeId} {nullable : Bool} {rank : Nat}
      (hk : t.kind i = .type (.composed nullable rank))
      (h : IsType t (t.child i .type))
      (hs : ∀ s ∈ t.childrenIn i .arraySpecifier, ∃ dimensions,
        t.kind s = .part (.arraySpecifier dimensions)) :
      IsType t i

mutual

/-- The term that an expression of a tree stands for. Names have no type arguments, as a `<` is read
as a comparison; literals have no sign, and what is assigned to is a name, a member or an
element. -/
inductive Denotes (t : Tree) : NodeId → Term → Prop
  | name {i : NodeId} {text : String} {verbatim : Bool} (hk : t.kind i = .expression .identifier)
      (hn : t.kind (t.child i .identifier) = .identifier text verbatim)
      (ha : t.childrenIn i .typeArgument = []) : Denotes t i (.name text verbatim)
  | literal {i : NodeId} {value : Literal} (hk : t.kind i = .expression (.literal value))
      (hv : value.isNegative = false) : Denotes t i (.literal value)
  | group {i : NodeId} {e : Term} (hk : t.kind i = .expression .parenthesized)
      (h : Denotes t (t.child i .expression) e) : Denotes t i (.group e)
  | member {i : NodeId} {e : Term} {text : String} {verbatim : Bool}
      (hk : t.kind i = .expression .member)
      (h : Denotes t (t.child i .target) e)
      (hn : t.kind (t.child i .identifier) = .identifier text verbatim)
      (ha : t.childrenIn i .typeArgument = []) : Denotes t i (.member e text verbatim)
  | call {i : NodeId} {e : Term} {es : List Term} (hk : t.kind i = .expression .invocation)
      (h : Denotes t (t.child i .target) e) (ha : DenotesAll t (t.childrenIn i .argument) es) :
      Denotes t i (.call e es)
  | index {i : NodeId} {e : Term} {es : List Term} (hk : t.kind i = .expression .indexer)
      (h : Denotes t (t.child i .target) e) (ha : DenotesAll t (t.childrenIn i .argument) es) :
      Denotes t i (.index e es)
  | unary {i : NodeId} {op : UnaryOperator} {e : Term} (hk : t.kind i = .expression (.unary op))
      (ho : op.isPrefix = true) (h : Denotes t (t.child i .expression) e) :
      Denotes t i (.unary op e)
  | cast {i : NodeId} {e : Term} (hk : t.kind i = .expression .cast)
      (ht : t.IsType (t.child i .type))
      (h : Denotes t (t.child i .expression) e) :
      Denotes t i (.cast (t.typeLexeme (t.child i .type)) e)
  | binary {i : NodeId} {op : BinaryOperator} {a b : Term}
      (hk : t.kind i = .expression (.binary op))
      (ha : Denotes t (t.child i .left) a) (hb : Denotes t (t.child i .right) b) :
      Denotes t i (.binary op a b)
  | test {i : NodeId} {how : TypeTest} {e : Term} (hk : t.kind i = .expression how.kind)
      (h : Denotes t (t.child i .expression) e) (ht : t.IsType (t.child i .type)) :
      Denotes t i (.test how e (t.typeLexeme (t.child i .type)))
  | conditional {i : NodeId} {c a b : Term} (hk : t.kind i = .expression .conditional)
      (hc : Denotes t (t.child i .condition) c) (ha : Denotes t (t.child i .trueExpression) a)
      (hb : Denotes t (t.child i .falseExpression) b) : Denotes t i (.conditional c a b)
  | assign {i : NodeId} {op : AssignmentOperator} {a b : Term}
      (hk : t.kind i = .expression (.assignment op))
      (hp : a.isPlace = true) (ha : Denotes t (t.child i .left) a)
      (hb : Denotes t (t.child i .right) b) :
      Denotes t i (.assign op a b)

inductive DenotesAll (t : Tree) : List NodeId → List Term → Prop
  | nil : DenotesAll t [] []
  | cons {i : NodeId} {e : Term} {nodes : List NodeId} {es : List Term} (h : Denotes t i e)
      (hs : DenotesAll t nodes es) : DenotesAll t (i :: nodes) (e :: es)

end

/-- A node binds as tightly as the term that it denotes. -/
theorem Denotes.exists_kind {t : Tree} {i : NodeId} {e : Term} :
    t.Denotes i e → ∃ k, t.kind i = .expression k ∧ Precedence.ofExpression k = e.precedence
  | .name hk _ _ | .group hk _ | .member hk _ _ _ | .call hk _ _ | .index hk _ _ => ⟨_, hk, rfl⟩
  | .cast hk _ _ | .binary hk _ _ | .conditional hk _ _ _ | .assign hk _ _ _ => ⟨_, hk, rfl⟩
  | .literal hk hv => ⟨_, hk, if_neg (by rw [hv]; exact Bool.false_ne_true)⟩
  | .unary hk ho _ => ⟨_, hk, UnaryOperator.ofExpression_isPrefix ho⟩
  | .test hk _ _ => ⟨_, hk, TypeTest.ofExpression_kind _⟩

end Tree

end TreeScribe
