import TreeScribe.Proofs.Flow.Assignment.Followed
import TreeScribe.Proofs.Flow.Assignment.Places

namespace TreeScribe.Tree

/-- `j` is in `i`, with no statement in between, and is none. -/
inductive Own (t : Tree) (i : NodeId) : NodeId → Prop
  | child {c : NodeId} (hc : t.parent c = some i) (hk : (t.kind c).isStatement = false) : Own t i c
  | operand {k c : NodeId} (h : Own t i k) (hc : t.parent c = some k)
      (hk : (t.kind c).isStatement = false) : Own t i c

def Creates (t : Tree) (i b : NodeId) : Prop :=
  ∃ k, t.Own i k ∧ t.isFunction k = true ∧ t.child k .body = b ∧ (t.kind b).isStatement = true

variable {t : Tree} {root i i' j b : NodeId}

namespace Own

theorem isStatement_eq_false (h : t.Own i j) : (t.kind j).isStatement = false := by
  cases h with
  | child _ hk => exact hk
  | operand _ _ hk => exact hk

theorem to_below (h : t.Own i j) : t.Below i j := by
  induction h with
  | child hc _ => exact .child .self hc
  | operand _ hc _ ih => exact ih.child hc

/-- A node belongs to one statement. -/
theorem unique (h : t.Own i j) (h' : t.Own i' j) (hi : (t.kind i).isStatement = true)
    (hi' : (t.kind i').isStatement = true) : i = i' := by
  induction h with
  | child hc _ =>
      cases h' with
      | child hc' _ => exact Option.some.inj (hc.symm.trans hc')
      | operand hk hc' _ =>
          cases hc.symm.trans hc'
          cases hi.symm.trans hk.isStatement_eq_false
  | operand hk hc _ ih =>
      cases h' with
      | child hc' _ =>
          cases hc.symm.trans hc'
          cases hi'.symm.trans hk.isStatement_eq_false
      | operand hk' hc' _ =>
          cases hc.symm.trans hc'
          exact ih hk'

theorem of_operand (h : t.Code root) (hi : t.Below root i) (hc : t.parent j = some i)
    (hr : holdsOperand (t.role j) = true ∨ (t.kind j).isStatement = false) : t.Own i j :=
  .child hc (hr.elim (h.operand (hi.child hc)) id)

end Own

theorem Code.region_own (h : t.Code root) (hi : t.Below root i) :
    Flow.Assignment.Region t (t.Own i) (t.Creates i) where
  operand hk hc hr := .operand hk hc (hr.elim (h.operand ((hi.trans hk.to_below).child hc)) id)
  body hk hf hs := ⟨_, hk, hf, rfl, hs⟩

end TreeScribe.Tree

namespace TreeScribe.Flow.Assignment

open TreeScribe.Tree

def Evaluated (a : Assignment) (p : Nat) (j : NodeId) : Prop :=
  (a.pointAt p).Evaluating a.tree ∧ a.tree.Own (a.pointAt p).next j

def Created (a : Assignment) (p : Nat) (b : NodeId) : Prop :=
  (a.pointAt p).Evaluating a.tree ∧ a.tree.Creates (a.pointAt p).next b

variable {a : Assignment} {root c : NodeId} {p : Nat} {x : Point}

theorem marks_of_evaluating {t : Tree} (h : x.Evaluating t) :
    .test x.next ∈ x.marks ∨ .enter x.next ∈ x.marks :=
  h.imp test_mem_marks fun h => enter_mem_marks h.1

section

variable (hl : a.graph.Laid a.tree root a.graph.order) (hp : p < a.graph.order.length)
include hl hp

theorem below_of_evaluating (hev : (a.pointAt p).Evaluating a.tree) :
    a.tree.Below root (a.pointAt p).next :=
  (marks_of_evaluating hev).elim (below_of_mark_of_laid hl hp) (below_of_mark_of_laid hl hp)

variable (hcode : a.tree.Code root)
include hcode

theorem region_evaluated : Region a.tree (a.Evaluated p) (a.Created p) where
  operand hi hc hr := ⟨hi.1, (hcode.region_own (below_of_evaluating hl hp hi.1)).operand hi.2 hc hr⟩
  body hi hf hs := ⟨hi.1, (hcode.region_own (below_of_evaluating hl hp hi.1)).body hi.2 hf hs⟩

theorem evaluated_of_operand (hev : (a.pointAt p).Evaluating a.tree)
    (hc : a.tree.parent c = some (a.pointAt p).next)
    (hr : holdsOperand (a.tree.role c) = true ∨ (a.tree.kind c).isStatement = false) :
    a.Evaluated p c :=
  ⟨hev, .of_operand hcode (below_of_evaluating hl hp hev) hc hr⟩

end

end TreeScribe.Flow.Assignment
