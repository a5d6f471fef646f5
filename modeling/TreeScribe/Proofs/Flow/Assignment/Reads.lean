import TreeScribe.Proofs.Flow.Assignment.Evaluation

namespace TreeScribe.Flow.Assignment

@[simp] def isLazy : BinaryOperator → Bool
  | .condAnd | .condOr | .coalesce => true
  | _ => false

section

variable (t : Tree) (v : String) (M : Meaning)

mutual

/-- An evaluation, which need not complete, reads an identifier of the variable while the variable
is not assigned. The flag says whether the variable is assigned before the evaluation. -/
inductive Reads : NodeId → Bool → NodeId → Prop
  | identifier {i} (hk : t.kind i = .expression .identifier) (hn : t.name i = v)
    (ha : t.hasChild i .typeArgument = false) : Reads i false i
  | assign {i b j} (hk : t.kind i = .expression (.assignment .assign))
      (hn : Names t v (t.child i .left))
    (hr : Reads (t.child i .right) b j) : Reads i b j
  | storeLeft {i b j} (hk : t.kind i = .expression (.assignment .assign))
      (hn : ¬ Names t v (t.child i .left))
    (hl : Reads (t.child i .left) b j) : Reads i b j
  | storeRight {i b y b₁ j} (hk : t.kind i = .expression (.assignment .assign))
      (hn : ¬ Names t v (t.child i .left))
    (hl : Evaluates t v M (t.child i .left) b y b₁) (hr : Reads (t.child i .right) b₁ j) :
    Reads i b j
  | passOther {i b j} (hk : t.kind i = .expression (.direction .out))
      (hn : ¬ Names t v (t.child i .expression))
    (h : Reads (t.child i .expression) b j) : Reads i b j
  | wrapped {i k b j} (hk : t.kind i = .expression k) (hw : isWrapper k = true)
    (h : Reads (t.child i .expression) b j) : Reads i b j
  | left {i o b j} (hk : t.kind i = .expression (.binary o)) (ho : isLazy o = true)
    (hl : Reads (t.child i .left) b j) : Reads i b j
  | andRight {i b b₁ j} (hk : t.kind i = .expression (.binary .condAnd))
    (hl : Evaluates t v M (t.child i .left) b (some (.bool true)) b₁)
    (hr : Reads (t.child i .right) b₁ j) : Reads i b j
  | orRight {i b b₁ j} (hk : t.kind i = .expression (.binary .condOr))
    (hl : Evaluates t v M (t.child i .left) b (some (.bool false)) b₁)
    (hr : Reads (t.child i .right) b₁ j) : Reads i b j
  | coalesceRight {i b b₁ j} (hk : t.kind i = .expression (.binary .coalesce))
    (hl : Evaluates t v M (t.child i .left) b (some .null) b₁)
    (hr : Reads (t.child i .right) b₁ j) : Reads i b j
  | not {i b j} (hk : t.kind i = .expression (.unary .not))
      (h : Reads (t.child i .expression) b j) : Reads i b j
  | condition {i b j} (hk : t.kind i = .expression .conditional)
      (hc : Reads (t.child i .condition) b j) : Reads i b j
  | whenTrue {i b b₁ j} (hk : t.kind i = .expression .conditional)
    (hc : Evaluates t v M (t.child i .condition) b (some (.bool true)) b₁)
    (h : Reads (t.child i .trueExpression) b₁ j) : Reads i b j
  | whenFalse {i b b₁ j} (hk : t.kind i = .expression .conditional)
    (hc : Evaluates t v M (t.child i .condition) b (some (.bool false)) b₁)
    (h : Reads (t.child i .falseExpression) b₁ j) : Reads i b j
  | initialized {i b j} (hk : t.kind i = .part .variable_) (hi : t.hasChild i .initializer = true)
    (h : Reads (t.child i .initializer) b j) : Reads i b j
  | operation {i b j} (hs : isSpecial (t.kind i) = false) (hf : isForeign (t.kind i) = false)
    (h : ReadsOne (operands t i) b j) : Reads i b j

inductive ReadsOne : List NodeId → Bool → NodeId → Prop
  | here {i rest b j} (h : Reads i b j) : ReadsOne (i :: rest) b j
  | later {i rest b x b₁ j} (h : Evaluates t v M i b x b₁) (hr : ReadsOne rest b₁ j) :
      ReadsOne (i :: rest) b j

end

def Unread (r : Resolver) : Prop := ∀ i, r t i ≠ none → ∀ b j, ¬ Reads t v M i b j

end

namespace Reads

variable {t : Tree} {v : String} {M : Meaning} {i k : NodeId} {b : Bool}

theorem kind_ne_null (h : Reads t v M i b k) : t.kind i ≠ .null := by
  intro h0
  cases h <;> simp_all

theorem not_function (h : Reads t v M i b k) : ¬ t.isFunction i = true := by
  intro hf
  unfold Tree.isFunction at hf
  split at hf
  · cases h <;> simp_all
  · cases h <;> simp_all
  · cases hf

theorem of_identifier (h : Reads t v M i b k) (hk : t.kind i = .expression .identifier) :
    i = k ∧ b = false ∧ t.name i = v ∧ t.hasChild i .typeArgument = false := by
  cases h with
  | identifier _ hn ha => exact ⟨rfl, rfl, hn, ha⟩
  | _ => simp_all

theorem of_assign (h : Reads t v M i b k) (hk : t.kind i = .expression (.assignment .assign)) :
    Names t v (t.child i .left) ∧ Reads t v M (t.child i .right) b k ∨
      ¬ Names t v (t.child i .left) ∧ (Reads t v M (t.child i .left) b k ∨
        ∃ y b₁, Evaluates t v M (t.child i .left) b y b₁ ∧
        Reads t v M (t.child i .right) b₁ k) := by
  cases h with
  | assign _ hn hr => exact .inl ⟨hn, hr⟩
  | storeLeft _ hn hl => exact .inr ⟨hn, .inl hl⟩
  | storeRight _ hn hl hr => exact .inr ⟨hn, .inr ⟨_, _, hl, hr⟩⟩
  | _ => simp_all

theorem of_out (h : Reads t v M i b k) (hk : t.kind i = .expression (.direction .out)) :
    ¬ Names t v (t.child i .expression) ∧ Reads t v M (t.child i .expression) b k := by
  cases h with
  | passOther _ hn h => exact ⟨hn, h⟩
  | _ => simp_all

theorem of_wrapped {w : ExpressionKind} (h : Reads t v M i b k) (hk : t.kind i = .expression w)
    (hw : isWrapper w = true) : Reads t v M (t.child i .expression) b k := by
  cases h with
  | wrapped _ _ h => exact h
  | _ => cases w <;> simp_all

theorem of_and (h : Reads t v M i b k) (hk : t.kind i = .expression (.binary .condAnd)) :
    Reads t v M (t.child i .left) b k ∨
      ∃ b₁, Evaluates t v M (t.child i .left) b (some (.bool true)) b₁ ∧
      Reads t v M (t.child i .right) b₁ k := by
  cases h with
  | left _ _ hl => exact .inl hl
  | andRight _ hl hr => exact .inr ⟨_, hl, hr⟩
  | _ => simp_all

theorem of_or (h : Reads t v M i b k) (hk : t.kind i = .expression (.binary .condOr)) :
    Reads t v M (t.child i .left) b k ∨
      ∃ b₁, Evaluates t v M (t.child i .left) b (some (.bool false)) b₁ ∧
      Reads t v M (t.child i .right) b₁ k := by
  cases h with
  | left _ _ hl => exact .inl hl
  | orRight _ hl hr => exact .inr ⟨_, hl, hr⟩
  | _ => simp_all

theorem of_coalesce (h : Reads t v M i b k) (hk : t.kind i = .expression (.binary .coalesce)) :
    Reads t v M (t.child i .left) b k ∨
      ∃ b₁, Evaluates t v M (t.child i .left) b (some .null) b₁ ∧
      Reads t v M (t.child i .right) b₁ k := by
  cases h with
  | left _ _ hl => exact .inl hl
  | coalesceRight _ hl hr => exact .inr ⟨_, hl, hr⟩
  | _ => simp_all

theorem of_not (h : Reads t v M i b k) (hk : t.kind i = .expression (.unary .not)) :
    Reads t v M (t.child i .expression) b k := by
  cases h with
  | not _ h => exact h
  | _ => simp_all

theorem of_conditional (h : Reads t v M i b k) (hk : t.kind i = .expression .conditional) :
    Reads t v M (t.child i .condition) b k ∨ ∃ b₁,
      Evaluates t v M (t.child i .condition) b (some (.bool true)) b₁ ∧
      Reads t v M (t.child i .trueExpression) b₁ k ∨
        Evaluates t v M (t.child i .condition) b (some (.bool false)) b₁ ∧
          Reads t v M (t.child i .falseExpression) b₁ k := by
  cases h with
  | condition _ h => exact .inl h
  | whenTrue _ hc h => exact .inr ⟨_, .inl ⟨hc, h⟩⟩
  | whenFalse _ hc h => exact .inr ⟨_, .inr ⟨hc, h⟩⟩
  | _ => simp_all

theorem of_declared (h : Reads t v M i b k) (hk : t.kind i = .part .variable_) :
    t.hasChild i .initializer = true ∧ Reads t v M (t.child i .initializer) b k := by
  cases h with
  | initialized _ hi h => exact ⟨hi, h⟩
  | _ => simp_all

theorem of_operation (h : Reads t v M i b k) (hs : isSpecial (t.kind i) = false) :
    ReadsOne t v M (operands t i) b k := by
  cases h with
  | operation _ _ h => exact h
  | @left _ o => cases o <;> simp_all
  | @wrapped _ w => cases w <;> simp_all
  | _ => simp_all

end Reads

end TreeScribe.Flow.Assignment
