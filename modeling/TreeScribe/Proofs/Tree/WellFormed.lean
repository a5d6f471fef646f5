import Mathlib.Tactic.Common
import TreeScribe.Proofs.Tree.Follow

namespace TreeScribe.Tree

/-- The links of every node fit together: following the siblings from the first child on and back
from the last one meets the same children, each once, and they are the nodes whose parent it is;
climbing from any node ends; and the null node stands alone. -/
structure WellFormed (t : Tree) : Prop where
  siblings (p : NodeId) : ∃ l, Follows t.nextSibling (t.firstChild p) l ∧
    Follows t.prevSibling (t.lastChild p) l.reverse ∧
    ∀ c, l.count c = if t.parent c = some p then 1 else 0
  single (c : NodeId) : t.parent c = none → t.nextSibling c = none ∧ t.prevSibling c = none
  climbs (i : NodeId) : ∃ l, Follows t.parent (some i) l
  null_kind : t.kind .null = .null
  null_parent : t.parent .null = none
  null_children : t.firstChild .null = none ∧ t.lastChild .null = none
  size_pos : 0 < t.size

structure Linked (t : Tree) (kids : NodeId → List NodeId) : Prop where
  nodup (p : NodeId) : (kids p).Nodup
  mem {c p : NodeId} : c ∈ kids p ↔ t.parent c = some p
  first (p : NodeId) : t.firstChild p = (kids p).head?
  last (p : NodeId) : t.lastChild p = (kids p).getLast?
  next {p c : NodeId} {l₁ l₂ : List NodeId} (h : kids p = l₁ ++ c :: l₂) :
    t.nextSibling c = l₂.head?
  prev {p c : NodeId} {l₁ l₂ : List NodeId} (h : kids p = l₁ ++ c :: l₂) :
    t.prevSibling c = l₁.getLast?
  single {c : NodeId} (h : t.parent c = none) : t.nextSibling c = none ∧ t.prevSibling c = none

variable {t : Tree} {kids : NodeId → List NodeId} {c p i a : NodeId} {l l₁ l₂ : List NodeId}

theorem node_of_size_le (h : t.size ≤ i) : t.node i = .detached .null := by
  simp only [size] at h
  simp [node, Array.getD, Nat.not_lt.mpr h]

theorem lt_of_parent (h : t.parent c = some p) : c < t.size := by
  by_contra hc
  simp [parent, node_of_size_le (Nat.not_lt.mp hc), Node.detached] at h

theorem lt_of_firstChild (h : t.firstChild p = some c) : p < t.size := by
  by_contra hp
  simp [firstChild, node_of_size_le (Nat.not_lt.mp hp), Node.detached] at h

theorem role_child {r : Role} (hc : t.child i r ≠ .null) :
    t.child i r ∈ t.children i ∧ t.role (t.child i r) = r := by
  have hm : t.child i r ∈ t.childrenIn i r := by
    unfold child at hc ⊢
    cases hl : t.childrenIn i r with
    | nil => exact absurd (by rw [hl]; rfl) hc
    | cons c l => exact List.mem_cons_self
  simpa only [childrenIn, List.mem_filter, decide_eq_true_eq] using hm

namespace Linked

theorem follows_next (h : t.Linked kids) (p : NodeId) :
    Follows t.nextSibling (t.firstChild p) (kids p) := by
  rw [h.first]
  exact Follows.of_split fun _ _ _ hl => h.next hl

theorem follows_prev (h : t.Linked kids) (p : NodeId) :
    Follows t.prevSibling (t.lastChild p) (kids p).reverse := by
  rw [h.last, ← List.head?_reverse]
  refine Follows.of_split fun l₁ c l₂ hl => ?_
  have hk : kids p = l₂.reverse ++ c :: l₁.reverse := by
    rw [← List.reverse_reverse (kids p), hl]
    simp
  rw [h.prev hk, List.getLast?_reverse]

theorem count (h : t.Linked kids) (p c : NodeId) :
    (kids p).count c = if t.parent c = some p then 1 else 0 := by
  rw [(h.nodup p).count]
  simp only [h.mem]

theorem children_eq (h : t.Linked kids) : t.children = kids := by
  funext p
  exact follow_eq (h.follows_next p) fun c hc => lt_of_parent (h.mem.mp hc)

theorem lt_parent (h : t.Linked kids) (hc : t.parent c = some p) : p < t.size := by
  obtain ⟨d, l, hd⟩ := List.exists_cons_of_ne_nil (List.ne_nil_of_mem (h.mem.mpr hc))
  exact lt_of_firstChild (c := d) (by rw [h.first, hd]; rfl)

end Linked

namespace WellFormed

theorem linked (h : t.WellFormed) : t.Linked t.children := by
  have hk (p : NodeId) : Follows t.nextSibling (t.firstChild p) (t.children p) ∧
      Follows t.prevSibling (t.lastChild p) (t.children p).reverse ∧
      ∀ c, (t.children p).count c = if t.parent c = some p then 1 else 0 := by
    obtain ⟨l, hn, hp, hc⟩ := h.siblings p
    have hl : t.children p = l := by
      refine follow_eq hn fun c hm => lt_of_parent (p := p) ?_
      by_contra hne
      have := hc c
      rw [if_neg hne] at this
      exact List.count_eq_zero.mp this hm
    rw [hl]
    exact ⟨hn, hp, hc⟩
  refine ⟨fun p => (hk p).1.nodup, fun {c p} => ?_, fun p => (hk p).1.head?_eq.symm, fun p => ?_,
    fun {p c l₁ l₂} hl => ?_, fun {p c l₁ l₂} hl => ?_, fun {c} => h.single c⟩
  · rw [← List.count_pos_iff, (hk p).2.2 c]
    split <;> simp [*]
  · rw [← List.head?_reverse, (hk p).2.1.head?_eq]
  · have hf := (hk p).1
    rw [hl] at hf
    exact hf.link_eq
  · have hf := (hk p).2.1
    rw [hl, List.reverse_append, List.reverse_cons, List.append_assoc, List.singleton_append] at hf
    rw [hf.link_eq, List.head?_reverse]

theorem mem_children (h : t.WellFormed) : c ∈ t.children p ↔ t.parent c = some p := h.linked.mem

theorem lt_parent (h : t.WellFormed) (hc : t.parent c = some p) : p < t.size :=
  h.linked.lt_parent hc

theorem parent_ne_null (h : t.WellFormed) (hc : t.parent c = some p) : p ≠ .null := by
  rintro rfl
  have hm := h.mem_children.mpr hc
  have hf := h.linked.first .null
  rw [h.null_children.1] at hf
  rw [List.head?_eq_none_iff.mp hf.symm] at hm
  simp at hm

theorem ne_null (h : t.WellFormed) (hc : t.parent c = some p) : c ≠ .null := by
  rintro rfl
  simp [h.null_parent] at hc

theorem child_lt (h : t.WellFormed) {r : Role} : t.child i r < t.size := by
  by_cases hc : t.child i r = .null
  · rw [hc]
    exact h.size_pos
  · exact lt_of_parent (h.mem_children.mp (role_child hc).1)

theorem follows_ancestors (h : t.WellFormed) (i : NodeId) :
    Follows t.parent (t.parent i) (t.ancestors i) := by
  obtain ⟨l, hl⟩ := h.climbs i
  cases hl with
  | go hl =>
      have ha : t.ancestors i = _ := follow_eq hl fun p hp => by
        rcases hl.linked_of_mem hp with hp | ⟨c, hp⟩
        · exact h.lt_parent hp
        · exact h.lt_parent hp
      rwa [ha]

end WellFormed

end TreeScribe.Tree
