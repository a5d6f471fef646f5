import TreeScribe.Proofs.Tree.Parts

namespace TreeScribe

namespace StatementKind

def isPlain : StatementKind → Bool
  | .empty | .expression | .locals _ | .yieldReturn => true
  | _ => false

def isFinal : StatementKind → Bool
  | .return_ | .throw | .yieldBreak => true
  | _ => false

def isCaseJump : StatementKind → Bool
  | .gotoCase | .gotoDefault => true
  | _ => false

/-- The role of the body of a statement that has no other effect on control. -/
def bodyRole? : StatementKind → Option Role
  | .checked | .unchecked | .unsafeBlock => some .body
  | .lock | .fixed => some .embeddedStatement
  | _ => none

def isLoop : StatementKind → Bool
  | .whileLoop | .doLoop | .forLoop | .foreachLoop => true
  | _ => false

end StatementKind

namespace Tree

def present (i : NodeId) : List NodeId := if i = .null then [] else [i]

def initializers (t : Tree) (i : NodeId) : StatementKind → List NodeId
  | .forLoop => t.childrenIn i .forInitializer
  | _ => []

def iterators (t : Tree) (i : NodeId) : StatementKind → List NodeId
  | .forLoop => t.childrenIn i .forIterator
  | _ => []

/-- `j` stands in a section of the switch `s`, and of no switch inside it. -/
inductive SwitchOf (t : Tree) (s : NodeId) : NodeId → Prop
  | section_ {x j : NodeId} (hs : t.kind s = .statement .switch)
      (hx : x ∈ t.childrenIn s .switchSection)
    (hj : j ∈ t.childrenIn x .statement) : SwitchOf t s j
  | part {i j : NodeId} {k : StatementKind} (h : SwitchOf t s i) (hk : t.kind i = .statement k)
      (hs : k ≠ .switch)
    (hj : t.Part i j) : SwitchOf t s j

def holdsStatement : Role → Bool
  | .statement | .embeddedStatement | .trueStatement | .falseStatement | .body | .tryBlock
  | .finallyBlock
  | .forInitializer | .forIterator => true
  | _ => false

structure Program (t : Tree) (root : NodeId) : Prop where
  wellFormed : t.WellFormed
  root_isStatement : (t.kind root).isStatement = true
  isStatement {i j : NodeId} (hi : t.Inside root i) (hk : (t.kind i).isStatement = true)
    (hj : t.Part i j) (hr : holdsStatement (t.role j) = true) : (t.kind j).isStatement = true
  branch_body {i : NodeId} (hi : t.Inside root i) (hk : t.kind i = .statement .branch) :
    t.child i .trueStatement ≠ .null
  loop_body {i : NodeId} {k : StatementKind} (hi : t.Inside root i) (hk : t.kind i = .statement k)
    (hl : k.isLoop = true) : t.child i .embeddedStatement ≠ .null
  label_eq {i j : NodeId} (hi : t.Inside root i) (hj : t.Inside root j)
    (hki : t.kind i = .statement .label) (hkj : t.kind j = .statement .label)
    (hn : t.name i = t.name j) : i = j

variable {t : Tree} {i : NodeId}

theorem present_of_ne (hi : i ≠ .null) : present i = [i] := if_neg hi

theorem lt_size_of_isStatement (h : (t.kind i).isStatement = true) : i < t.size := by
  by_contra hi
  rw [Tree.kind, node_of_size_le (Nat.le_of_not_lt hi)] at h
  cases h

theorem WellFormed.ne_null_of_isStatement (hw : t.WellFormed) (h : (t.kind i).isStatement = true) :
    i ≠ .null := by
  rintro rfl
  rw [hw.null_kind] at h
  cases h

theorem Program.ne_null {root : NodeId} (h : t.Program root) (hi : t.Inside root i) :
    i ≠ .null := by
  cases hi with
  | self => exact h.wellFormed.ne_null_of_isStatement h.root_isStatement
  | part _ _ hc =>
      cases hc with
      | child hc => exact h.wellFormed.ne_null hc
      | grouped _ _ hc => exact h.wellFormed.ne_null hc

end Tree

end TreeScribe
