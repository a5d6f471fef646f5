import TreeScribe.Flow.Constant
import TreeScribe.Proofs.Flow.Assignment.Functions

namespace TreeScribe.Flow.Assignment

/-- The values that a node may have, by the values of its operands. A value that is no constant is
`none`. -/
abbrev Meaning := NodeId → List (Option Constant) → Option Constant → Prop

/-- Kinds with rules of their own for what they evaluate; all others evaluate their operands. -/
@[simp] def isSpecial : Kind → Bool
  | .null | .part .variable_ => true
  | .expression .identifier | .expression (.lambda _) | .expression (.anonymousMethod ..) => true
  | .expression (.assignment .assign) | .expression (.direction .out) => true
  | .expression .parenthesized | .expression .checked | .expression .unchecked => true
  | .expression (.binary .condAnd) | .expression (.binary .condOr)
  | .expression (.binary .coalesce) => true
  | .expression (.unary .not) | .expression .conditional => true
  | _ => false

def isForeign : Kind → Bool
  | .statement _ | .expression .query => true
  | .part .fromClause | .part .letClause | .part .whereClause | .part .orderClause
  | .part (.ordering _)
  | .part .selectClause => true
  | .expression (.unary .conditionalAccess) | .expression (.unary .conditionalEnd) => true
  | _ => false

@[simp] def isWrapper : ExpressionKind → Bool
  | .parenthesized | .checked | .unchecked => true
  | _ => false

section

variable (t : Tree) (v : String) (M : Meaning)

def Yields (i : NodeId) (l : List (Option Constant)) (x : Option Constant) : Prop :=
  match t.kind i with
  | .expression (.literal value) => x = some (.ofLiteral value)
  | .expression .nullRef => x = some .null
  | _ => M i l x

def operands (i : NodeId) : List NodeId := (t.children i).filter fun j => !(t.kind j).isStatement

inductive Names : NodeId → Prop
  | plain {i : NodeId} (hk : t.kind i = .expression .identifier) (hn : t.name i = v) : Names i
  | parenthesized {i : NodeId} (hk : t.kind i = .expression .parenthesized)
      (h : Names (t.child i .expression)) : Names i

mutual

/-- A completed evaluation: from whether the variable is assigned before it to the value of the
expression and whether the variable is assigned behind it. -/
inductive Evaluates : NodeId → Bool → Option Constant → Bool → Prop
  | absent {i b} (hk : t.kind i = .null) : Evaluates i b none b
  | identifier {i b x} (hk : t.kind i = .expression .identifier) (hx : M i [] x) : Evaluates i b x b
  | function {i b x} (hk : t.isFunction i = true) (hx : M i [] x) : Evaluates i b x b
  | assign {i b x b'} (hk : t.kind i = .expression (.assignment .assign))
      (hn : Names t v (t.child i .left))
    (hr : Evaluates (t.child i .right) b x b') : Evaluates i b x true
  | store {i b y b₁ x b'} (hk : t.kind i = .expression (.assignment .assign))
      (hn : ¬ Names t v (t.child i .left))
    (hl : Evaluates (t.child i .left) b y b₁) (hr : Evaluates (t.child i .right) b₁ x b') :
    Evaluates i b x b'
  | pass {i b x} (hk : t.kind i = .expression (.direction .out))
      (hn : Names t v (t.child i .expression)) :
    Evaluates i b x true
  | passOther {i b x b'} (hk : t.kind i = .expression (.direction .out))
      (hn : ¬ Names t v (t.child i .expression))
    (h : Evaluates (t.child i .expression) b x b') : Evaluates i b x b'
  | wrapped {i k b x b'} (hk : t.kind i = .expression k) (hw : isWrapper k = true)
    (h : Evaluates (t.child i .expression) b x b') : Evaluates i b x b'
  | andFalse {i b b'} (hk : t.kind i = .expression (.binary .condAnd))
    (hl : Evaluates (t.child i .left) b (some (.bool false)) b') :
    Evaluates i b (some (.bool false)) b'
  | andTrue {i b b₁ p b'} (hk : t.kind i = .expression (.binary .condAnd))
    (hl : Evaluates (t.child i .left) b (some (.bool true)) b₁)
    (hr : Evaluates (t.child i .right) b₁ (some (.bool p)) b') : Evaluates i b (some (.bool p)) b'
  | orTrue {i b b'} (hk : t.kind i = .expression (.binary .condOr))
    (hl : Evaluates (t.child i .left) b (some (.bool true)) b') :
    Evaluates i b (some (.bool true)) b'
  | orFalse {i b b₁ p b'} (hk : t.kind i = .expression (.binary .condOr))
    (hl : Evaluates (t.child i .left) b (some (.bool false)) b₁)
    (hr : Evaluates (t.child i .right) b₁ (some (.bool p)) b') : Evaluates i b (some (.bool p)) b'
  | coalesceNull {i b b₁ x b'} (hk : t.kind i = .expression (.binary .coalesce))
    (hl : Evaluates (t.child i .left) b (some .null) b₁)
    (hr : Evaluates (t.child i .right) b₁ x b') : Evaluates i b x b'
  | coalesce {i b x b'} (hk : t.kind i = .expression (.binary .coalesce)) (hx : x ≠ some .null)
    (hl : Evaluates (t.child i .left) b x b') : Evaluates i b x b'
  | not {i b p b'} (hk : t.kind i = .expression (.unary .not))
    (h : Evaluates (t.child i .expression) b (some (.bool p)) b') :
    Evaluates i b (some (.bool !p)) b'
  | notOther {i b x y b'} (hk : t.kind i = .expression (.unary .not)) (hx : ∀ p, x ≠ some (.bool p))
    (h : Evaluates (t.child i .expression) b x b') (hy : M i [x] y) : Evaluates i b y b'
  | whenTrue {i b b₁ x b'} (hk : t.kind i = .expression .conditional)
    (hc : Evaluates (t.child i .condition) b (some (.bool true)) b₁)
    (h : Evaluates (t.child i .trueExpression) b₁ x b') : Evaluates i b x b'
  | whenFalse {i b b₁ x b'} (hk : t.kind i = .expression .conditional)
    (hc : Evaluates (t.child i .condition) b (some (.bool false)) b₁)
    (h : Evaluates (t.child i .falseExpression) b₁ x b') : Evaluates i b x b'
  | declared {i b} (hk : t.kind i = .part .variable_) (hi : t.hasChild i .initializer = false) :
      Evaluates i b none b
  | initialized {i b x b'} (hk : t.kind i = .part .variable_)
      (hi : t.hasChild i .initializer = true)
    (h : Evaluates (t.child i .initializer) b x b') : Evaluates i b x (b' || decide (t.name i = v))
  | operation {i b l x b'} (hs : isSpecial (t.kind i) = false) (hf : isForeign (t.kind i) = false)
    (h : EvaluatesAll (operands t i) b l b') (hx : Yields t M i l x) : Evaluates i b x b'

inductive EvaluatesAll : List NodeId → Bool → List (Option Constant) → Bool → Prop
  | nil {b} : EvaluatesAll [] b [] b
  | cons {i rest b x b₁ l b'} (h : Evaluates i b x b₁) (hr : EvaluatesAll rest b₁ l b') :
    EvaluatesAll (i :: rest) b (x :: l) b'

end

/-- The constants that a resolver gives are the values that evaluation comes to. -/
def Correct (r : Resolver) : Prop :=
  ∀ i c, r t i = some c → ∀ b x b', Evaluates t v M i b x b' → x = some c

end

variable {t : Tree} {v : String} {M : Meaning}

mutual

theorem Evaluates.keeps {i : NodeId} {b b' : Bool} {x : Option Constant}
    (h : Evaluates t v M i b x b') (hb : b = true) : b' = true :=
  match h with
  | .absent _ | .identifier .. | .function .. | .declared .. => hb
  | .assign .. | .pass .. => rfl
  | .store _ _ hl hr | .andTrue _ hl hr | .orFalse _ hl hr | .coalesceNull _ hl hr
  | .whenTrue _ hl hr
  | .whenFalse _ hl hr => hr.keeps (hl.keeps hb)
  | .passOther _ _ h | .wrapped _ _ h | .andFalse _ h | .orTrue _ h | .coalesce _ _ h | .not _ h
  | .notOther _ _ h _ =>
    h.keeps hb
  | .initialized _ _ h => by rw [h.keeps hb, Bool.true_or]
  | .operation _ _ h _ => h.keeps hb

theorem EvaluatesAll.keeps {nodes : List NodeId} {b b' : Bool} {l : List (Option Constant)}
    (h : EvaluatesAll t v M nodes b l b') (hb : b = true) : b' = true :=
  match h with
  | .nil => hb
  | .cons h hr => hr.keeps (h.keeps hb)

end

namespace Evaluates

variable {i : NodeId} {b b' : Bool} {x : Option Constant}

theorem of_assign (h : Evaluates t v M i b x b')
    (hk : t.kind i = .expression (.assignment .assign)) :
    b' = true ∨ ¬ Names t v (t.child i .left) ∧ ∃ y b₁, Evaluates t v M (t.child i .left) b y b₁ ∧
      Evaluates t v M (t.child i .right) b₁ x b' := by
  cases h with
  | assign => exact .inl rfl
  | store _ hn hl hr => exact .inr ⟨hn, _, _, hl, hr⟩
  | _ => simp_all [Tree.isFunction]

theorem of_out (h : Evaluates t v M i b x b') (hk : t.kind i = .expression (.direction .out)) :
    b' = true ∨ ¬ Names t v (t.child i .expression) ∧
      Evaluates t v M (t.child i .expression) b x b' := by
  cases h with
  | pass => exact .inl rfl
  | passOther _ hn h => exact .inr ⟨hn, h⟩
  | _ => simp_all [Tree.isFunction]

theorem of_wrapped {k : ExpressionKind} (h : Evaluates t v M i b x b')
    (hk : t.kind i = .expression k) (hw : isWrapper k = true) :
    Evaluates t v M (t.child i .expression) b x b' := by
  cases h with
  | wrapped _ _ h => exact h
  | _ => cases k <;> simp_all [Tree.isFunction]

theorem of_and (h : Evaluates t v M i b x b') (hk : t.kind i = .expression (.binary .condAnd)) :
    (x = some (.bool false) ∧ Evaluates t v M (t.child i .left) b (some (.bool false)) b') ∨
      ∃ b₁ p, x = some (.bool p) ∧ Evaluates t v M (t.child i .left) b (some (.bool true)) b₁ ∧
        Evaluates t v M (t.child i .right) b₁ (some (.bool p)) b' := by
  cases h with
  | andFalse _ hl => exact .inl ⟨rfl, hl⟩
  | andTrue _ hl hr => exact .inr ⟨_, _, rfl, hl, hr⟩
  | _ => simp_all [Tree.isFunction]

theorem of_or (h : Evaluates t v M i b x b') (hk : t.kind i = .expression (.binary .condOr)) :
    (x = some (.bool true) ∧ Evaluates t v M (t.child i .left) b (some (.bool true)) b') ∨
      ∃ b₁ p, x = some (.bool p) ∧ Evaluates t v M (t.child i .left) b (some (.bool false)) b₁ ∧
        Evaluates t v M (t.child i .right) b₁ (some (.bool p)) b' := by
  cases h with
  | orTrue _ hl => exact .inl ⟨rfl, hl⟩
  | orFalse _ hl hr => exact .inr ⟨_, _, rfl, hl, hr⟩
  | _ => simp_all [Tree.isFunction]

theorem of_coalesce (h : Evaluates t v M i b x b')
    (hk : t.kind i = .expression (.binary .coalesce)) :
    (∃ b₁, Evaluates t v M (t.child i .left) b (some .null) b₁ ∧
      Evaluates t v M (t.child i .right) b₁ x b') ∨
      x ≠ some .null ∧ Evaluates t v M (t.child i .left) b x b' := by
  cases h with
  | coalesceNull _ hl hr => exact .inl ⟨_, hl, hr⟩
  | coalesce _ hx hl => exact .inr ⟨hx, hl⟩
  | _ => simp_all [Tree.isFunction]

theorem of_not (h : Evaluates t v M i b x b') (hk : t.kind i = .expression (.unary .not)) :
    (∃ p, x = some (.bool !p) ∧ Evaluates t v M (t.child i .expression) b (some (.bool p)) b') ∨
      ∃ y, (∀ p, y ≠ some (.bool p)) ∧ Evaluates t v M (t.child i .expression) b y b' := by
  cases h with
  | not _ h => exact .inl ⟨_, rfl, h⟩
  | notOther _ hx h _ => exact .inr ⟨_, hx, h⟩
  | _ => simp_all [Tree.isFunction]

theorem of_conditional (h : Evaluates t v M i b x b') (hk : t.kind i = .expression .conditional) :
    ∃ b₁, (Evaluates t v M (t.child i .condition) b (some (.bool true)) b₁ ∧
        Evaluates t v M (t.child i .trueExpression) b₁ x b') ∨
      Evaluates t v M (t.child i .condition) b (some (.bool false)) b₁ ∧
        Evaluates t v M (t.child i .falseExpression) b₁ x b' := by
  cases h with
  | whenTrue _ hc h => exact ⟨_, .inl ⟨hc, h⟩⟩
  | whenFalse _ hc h => exact ⟨_, .inr ⟨hc, h⟩⟩
  | _ => simp_all [Tree.isFunction]

theorem of_initialized (h : Evaluates t v M i b x b') (hk : t.kind i = .part .variable_)
    (hi : t.hasChild i .initializer = true) :
    ∃ b₁, Evaluates t v M (t.child i .initializer) b x b₁ ∧ b' = (b₁ || decide (t.name i = v)) := by
  cases h with
  | initialized _ _ h => exact ⟨_, h, rfl⟩
  | _ => simp_all [Tree.isFunction]

theorem of_operation (h : Evaluates t v M i b x b') (hs : isSpecial (t.kind i) = false) :
    ∃ l, EvaluatesAll t v M (operands t i) b l b' := by
  cases h with
  | operation _ _ h _ => exact ⟨_, h⟩
  | function hf =>
      unfold Tree.isFunction at hf
      split at hf <;> simp_all
  | @wrapped _ k _ _ _ _ hw => cases k <;> simp_all
  | _ => simp_all

theorem of_literal {value : Literal} (h : Evaluates t v M i b x b')
    (hk : t.kind i = .expression (.literal value)) : x = some (.ofLiteral value) := by
  cases h with
  | operation _ _ _ hx => simpa [Yields, hk] using hx
  | @wrapped _ k _ _ _ _ hw => cases k <;> simp_all
  | _ => simp_all [Tree.isFunction]

end Evaluates

end TreeScribe.Flow.Assignment
