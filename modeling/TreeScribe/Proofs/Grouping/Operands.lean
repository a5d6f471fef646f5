import TreeScribe.Grouping.Parentheses
import TreeScribe.Proofs.Tree.WellFormed

namespace TreeScribe.Parentheses

variable {t u : Tree} {readable : Bool} {i w : NodeId} {k parent : Kind} {r : Role} {l : Precedence}
  {o : Operand}

def valueLevel (readable : Bool) : Kind → Precedence
  | .expression (.direction _) => .assignment
  | _ => if readable then .conditionalEnd else .assignment

def prefixedLevel? (readable : Bool) (l : Precedence) : Kind → Option Precedence
  | .expression .cast => none
  | _ => some (if readable then .conditionalEnd else l)

def leftLevel (readable : Bool) (op : BinaryOperator) (operand : Kind) : Precedence :=
  let level := Precedence.ofBinary op
  if op = .coalesce then if readable then .conditionalEnd else level.tighter
  else if readable && level < .equality then
    if operand = .expression (.binary op) then level else if op.isBitwise then .unary else .equality
  else level

def rightLevel (readable : Bool) (op : BinaryOperator) (operand : Kind) : Precedence :=
  let level := Precedence.ofBinary op
  if op = .coalesce then
    if readable then if operand = .expression (.binary .coalesce) then level else .conditionalEnd
      else level
  else if readable && level < .equality then if op.isBitwise then .unary else .equality
  else level.tighter

/-- The loosest level without parentheses for an operand in a role, if operands in this role are
looked at. -/
def level? (readable : Bool) (parent : Kind) (r : Role) (operand : Kind) : Option Precedence :=
  match parent, r with
  | .expression .member, .target | .expression .invocation, .target
  | .expression .indexer, .target =>
    some .primary
  | .expression (.unary op), .expression => prefixedLevel? readable (.ofUnary op) operand
  | .expression .cast, .expression => prefixedLevel? readable .unary operand
  | .expression (.binary op), .left => some (leftLevel readable op operand)
  | .expression (.binary op), .right => some (rightLevel readable op operand)
  | .expression .isType, .expression | .expression .asType, .expression =>
    some (if readable then .conditionalEnd else .relational)
  | .expression .conditional, .condition => some (if readable then .conditionalEnd else .coalescing)
  | .expression .conditional, .trueExpression | .expression .conditional, .falseExpression =>
    some (if readable then .conditionalEnd else .conditional)
  | .expression (.assignment _), .left => some .conditional
  | .expression (.assignment _), .right => some (valueLevel readable operand)
  | .expression .named, .expression => some (valueLevel readable operand)
  | .part .variable_, .initializer =>
      if operand.isExpression then some (valueLevel readable operand) else none
  | _, _ => none

theorem valueOperand_eq : valueOperand t readable w = (w, valueLevel readable (t.kind w)) := by
  unfold valueOperand isDirection valueLevel
  cases readable <;> cases t.kind w with
  | expression k => cases k <;> rfl
  | _ => rfl

theorem prefixedOperand_eq : prefixedOperand t readable w l =
    ((prefixedLevel? readable l (t.kind w)).map fun l => (w, l)).toList := by
  unfold prefixedOperand isCast prefixedLevel?
  cases t.kind w with
  | expression k => cases k <;> rfl
  | _ => rfl

theorem binaryOperands_eq {op : BinaryOperator} {a b : NodeId} : binaryOperands t readable op a b =
    [(a, leftLevel readable op (t.kind a)), (b, rightLevel readable op (t.kind b))] := by
  unfold binaryOperands leftLevel rightLevel isBinary
  simp only [decide_eq_true_eq]
  split
  · split <;> rfl
  · split <;> rfl

def operandRoles : List Role :=
  [.target, .left, .right, .condition, .trueExpression, .falseExpression, .expression, .initializer]

def operand? (t : Tree) (readable : Bool) (i : NodeId) (r : Role) : Option Operand :=
  (level? readable (t.kind i) r (t.kind (t.child i r))).map fun l => (t.child i r, l)

theorem operands_eq : operands t readable i = operandRoles.filterMap (operand? t readable i) := by
  unfold operands operandRoles operand?
  cases hk : t.kind i with
  | expression k =>
      cases k with
      | unary op =>
          have hp : t.precedence i = .ofUnary op := by rw [Tree.precedence, hk]; rfl
          simp only [prefixedOperand_eq, hp, level?, List.filterMap_cons, List.filterMap_nil,
            Option.map_none]
          cases prefixedLevel? readable _ _ <;> rfl
      | cast =>
          simp only [prefixedOperand_eq, level?, List.filterMap_cons, List.filterMap_nil,
            Option.map_none]
          cases prefixedLevel? readable _ _ <;> rfl
      | binary op => exact binaryOperands_eq
      | assignment op =>
          simp only [valueOperand_eq]
          rfl
      | named =>
          simp only [valueOperand_eq]
          rfl
      | _ => rfl
  | part k =>
      cases k with
      | variable_ =>
          simp only [valueOperand_eq, level?, List.filterMap_cons, List.filterMap_nil,
            Option.map_none]
          split <;> rfl
      | _ => rfl
  | _ => rfl

theorem mem_operands_iff :
    o ∈ operands t readable i ↔ ∃ r ∈ operandRoles, operand? t readable i r = some o := by
  rw [operands_eq, List.mem_filterMap]

theorem child_of_operand? (h : operand? t readable i r = some o) : o.1 = t.child i r := by
  obtain ⟨l, -, rfl⟩ := Option.map_eq_some_iff.mp h
  rfl

theorem expression_of_needsParens (h : needsParens t readable i o = true) :
    o.1 ≠ .null ∧ ∃ k, t.kind o.1 = .expression k ∧ k ≠ .parenthesized := by
  rw [needsParens, Bool.and_eq_true, bne_iff_ne] at h
  refine ⟨h.1, ?_⟩
  rcases Bool.or_eq_true_iff.mp h.2 with hp | hm
  · have hlt : (Precedence.ofKind (t.kind o.1)).level < o.2.level := of_decide_eq_true hp
    have hle : o.2.level ≤ 17 := by cases o.2 <;> decide
    cases hk : t.kind o.1 with
    | expression k =>
        refine ⟨k, rfl, ?_⟩
        rintro rfl
        rw [hk] at hlt
        exact absurd (Nat.lt_of_lt_of_le hlt hle) (Nat.lt_irrefl 17)
    | _ =>
        rw [hk] at hlt
        exact absurd (Nat.lt_of_lt_of_le hlt hle) (Nat.lt_irrefl 17)
  · unfold isMisread at hm
    split at hm
    · rw [Bool.and_eq_true, decide_eq_true_eq] at hm
      exact ⟨.arrayCreate, hm.1, nofun⟩
    · rw [Bool.and_eq_true] at hm
      unfold readsOn at hm
      split at hm
      · rename_i op hk
        exact ⟨.unary op, hk, nofun⟩
      · rename_i v hk
        exact ⟨.literal v, hk, nofun⟩
      · cases hm.2
    · cases hm

def pending (t : Tree) (readable : Bool) (i : NodeId) : List NodeId :=
  ((operands t readable i).filter (needsParens t readable i)).map (·.1)

theorem mem_pending_iff : w ∈ pending t readable i ↔
    ∃ r ∈ operandRoles, ∃ l, t.child i r = w ∧ level? readable (t.kind i) r (t.kind w) = some l ∧
      needsParens t readable i (w, l) = true := by
  simp only [pending, List.mem_map, List.mem_filter, mem_operands_iff]
  constructor
  · rintro ⟨o, ⟨⟨r, hr, ho⟩, hn⟩, rfl⟩
    obtain ⟨l, hl, rfl⟩ := Option.map_eq_some_iff.mp ho
    exact ⟨r, hr, l, rfl, hl, hn⟩
  · rintro ⟨r, hr, l, rfl, hl, hn⟩
    exact ⟨_, ⟨⟨r, hr, Option.map_eq_some_iff.mpr ⟨l, hl, rfl⟩⟩, hn⟩, rfl⟩

theorem mem_pending_imp (h : w ∈ pending t readable i) :
    w ∈ t.children i ∧ t.kind i ≠ .expression .parenthesized ∧
      ∃ k, t.kind w = .expression k ∧ k ≠ .parenthesized := by
  obtain ⟨r, -, l, rfl, hl, hn⟩ := mem_pending_iff.mp h
  obtain ⟨hw, hk⟩ := expression_of_needsParens hn
  refine ⟨(Tree.role_child hw).1, fun hp => ?_, hk⟩
  rw [hp] at hl
  cases hl

/-- An operand that is not pending binds as tightly as its place asks for, and is not misread
there. -/
theorem not_needsParens (hp : pending t readable i = []) (hc : t.child i r ≠ .null)
    (hr : r ∈ operandRoles) (hl : level? readable (t.kind i) r (t.kind (t.child i r)) = some l) :
    l.level ≤ (t.precedence (t.child i r)).level ∧
      isMisread t readable i (t.child i r) = false := by
  have hn : ¬ needsParens t readable i (t.child i r, l) = true := by
    intro hn
    have hm : t.child i r ∈ pending t readable i := mem_pending_iff.mpr ⟨r, hr, l, rfl, hl, hn⟩
    rw [hp] at hm
    simp at hm
  rw [needsParens, Bool.and_eq_true, bne_iff_ne, Bool.or_eq_true, decide_eq_true_eq] at hn
  push Not at hn
  obtain ⟨hlt, hm⟩ := hn hc
  exact ⟨Nat.not_lt.mp hlt, Bool.eq_false_iff.mpr hm⟩

theorem nodup_pending : (pending t readable i).Nodup := by
  have hp :
      ((operandRoles.filterMap (operand? t readable i)).filter (needsParens t readable i)).Pairwise
        fun a b => a.1 ≠ b.1 := by
    rw [List.pairwise_filter, List.pairwise_filterMap]
    refine List.Pairwise.imp (R := (· ≠ ·)) (fun {r s} hrs a ha b hb hna hnb he => hrs ?_)
      (by decide)
    have hra := Tree.role_child (child_of_operand? ha ▸ (expression_of_needsParens hna).1)
    have hrb := Tree.role_child (child_of_operand? hb ▸ (expression_of_needsParens hnb).1)
    rw [← hra.2, ← hrb.2, ← child_of_operand? ha, ← child_of_operand? hb, he]
  rw [pending, operands_eq]
  exact List.pairwise_map.mpr hp

end TreeScribe.Parentheses
