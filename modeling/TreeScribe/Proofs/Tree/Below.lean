import TreeScribe.Proofs.Tree.Links

namespace TreeScribe.Tree

inductive Below (t : Tree) (a : NodeId) : NodeId → Prop
  | self : Below t a a
  | child {p c : NodeId} (h : Below t a p) (hc : t.parent c = some p) : Below t a c

def depth (t : Tree) (i : NodeId) : Nat := (t.ancestors i).length

variable {t u : Tree} {a c i p q x y : NodeId} {r : Role}

namespace Below

theorem trans (h : t.Below a x) (h' : t.Below x y) : t.Below a y := by
  induction h' with
  | self => exact h
  | child _ hc ih => exact ih.child hc

theorem cases_top (h : t.Below a x) : x = a ∨ ∃ c, t.parent c = some a ∧ t.Below c x := by
  induction h with
  | self => exact .inl rfl
  | child _ hc ih =>
      rcases ih with rfl | ⟨d, hd, hb⟩
      · exact .inr ⟨_, hc, .self⟩
      · exact .inr ⟨d, hd, hb.child hc⟩

end Below

theorem lt_of_kind (hk : t.kind i ≠ .null) : i < t.size := by
  by_contra hge
  refine hk ?_
  rw [kind, node_of_size_le (Nat.not_lt.mp hge)]
  rfl

namespace WellFormed

theorem ne_null_of_kind (h : t.WellFormed) (hk : t.kind i ≠ .null) : i ≠ .null := by
  rintro rfl
  exact hk h.null_kind

theorem parent_child (h : t.WellFormed) (hk : t.kind (t.child i r) ≠ .null) :
    t.parent (t.child i r) = some i :=
  h.mem_children.mp (role_child (h.ne_null_of_kind hk)).1

theorem below_child (h : t.WellFormed) (hb : t.Below a i) (hk : t.kind (t.child i r) ≠ .null) :
    t.Below a (t.child i r) := hb.child (h.parent_child hk)

theorem parent_childrenIn (h : t.WellFormed) (hc : c ∈ t.childrenIn i r) : t.parent c = some i :=
  h.mem_children.mp (List.mem_of_mem_filter hc)

theorem ancestors_of_parent (h : t.WellFormed) (hc : t.parent c = some p) :
    t.ancestors c = p :: t.ancestors p := by
  have hf := h.follows_ancestors c
  rw [hc] at hf
  exact hf.unique (h.follows_parent p)

theorem ancestors_of_parent_none (h : t.WellFormed) (hc : t.parent c = none) :
    t.ancestors c = [] := by
  have hf := h.follows_ancestors c
  rw [hc] at hf
  exact hf.unique .stop

theorem depth_of_parent (h : t.WellFormed) (hc : t.parent c = some p) :
    t.depth c = t.depth p + 1 := by
  rw [depth, h.ancestors_of_parent hc]
  rfl

theorem lt_of_mem_ancestors (h : t.WellFormed) (ha : a ∈ t.ancestors x) : a < t.size := by
  rcases (h.follows_ancestors x).linked_of_mem ha with hp | ⟨c, hp⟩
  · exact h.lt_parent hp
  · exact h.lt_parent hp

theorem depth_lt (h : t.WellFormed) (hx : x < t.size) : t.depth x < t.size := by
  refine length_le_of_nodup (h.follows_parent x).nodup fun i hi => ?_
  rcases List.mem_cons.mp hi with rfl | hi
  · exact hx
  · exact h.lt_of_mem_ancestors hi

theorem exists_fuel (h : t.WellFormed) {fuel : Nat} (hk : t.kind i ≠ .null)
    (hf : t.size ≤ fuel + t.depth i) :
    ∃ n, fuel = n + 1 := by
  have hd := h.depth_lt (lt_of_kind hk)
  exact Nat.exists_eq_add_of_le' (by omega)

theorem fuel_child (h : t.WellFormed) {fuel : Nat} (hf : t.size ≤ fuel + 1 + t.depth i)
    (hc : t.parent c = some i) : t.size ≤ fuel + t.depth c := by
  rw [h.depth_of_parent hc]
  omega

theorem below_iff (h : t.WellFormed) : t.Below a x ↔ a ∈ x :: t.ancestors x := by
  constructor
  · intro hb
    induction hb with
    | self => exact List.mem_cons_self
    | child _ hc ih =>
        rw [h.ancestors_of_parent hc]
        exact List.mem_cons_of_mem _ ih
  · generalize hl : x :: t.ancestors x = l
    have hf := h.follows_parent x
    rw [hl] at hf
    clear hl
    generalize hs : some x = s at hf
    intro ha
    induction hf generalizing x with
    | stop => simp at ha
    | go hf ih =>
        rename_i i l
        cases hs
        rcases List.mem_cons.mp ha with rfl | ha
        · exact .self
        · cases hp : t.parent i with
          | none =>
              rw [hp] at hf
              cases hf
              simp at ha
          | some p => exact (ih hp.symm ha).child hp

theorem isAncestorOrSelf_eq_true_iff (h : t.WellFormed) :
    t.isAncestorOrSelf a x = true ↔ t.Below a x :=
  isAncestorOrSelf_iff.trans h.below_iff.symm

theorem lt_of_below (h : t.WellFormed) (hb : t.Below a x) (hx : x < t.size) : a < t.size := by
  rcases List.mem_cons.mp (h.below_iff.mp hb) with rfl | ha
  · exact hx
  · exact h.lt_of_mem_ancestors ha

theorem not_below_of_parent (h : t.WellFormed) (hc : t.parent c = some p) : ¬ t.Below c p := by
  rw [h.below_iff, ← h.ancestors_of_parent hc]
  exact (List.nodup_cons.mp (h.follows_parent c).nodup).1

theorem siblingsAfter_eq (h : t.WellFormed) {l₁ l₂ : List NodeId}
    (hk : t.children p = l₁ ++ x :: l₂) : t.siblingsAfter x = l₂ := by
  have hf := h.linked.follows_next p
  rw [hk] at hf
  refine follow_eq ?_ fun c hc => lt_of_parent (p := p) (h.mem_children.mp ?_)
  · exact hf.behind
  · rw [hk]
    exact List.mem_append_right _ (List.mem_cons_of_mem _ hc)

theorem siblingsAfter_of_parent_none (h : t.WellFormed) (hx : t.parent x = none) :
    t.siblingsAfter x = [] := by
  rw [siblingsAfter, (h.single x hx).1]
  exact follow_eq .stop (by simp)

/-- The siblings behind a node are met from it on, and have its parent. -/
theorem follows_siblingsAfter (h : t.WellFormed) (x : NodeId) :
    Follows t.nextSibling (t.nextSibling x) (t.siblingsAfter x) ∧
      ∀ s ∈ t.siblingsAfter x, t.parent s = t.parent x := by
  cases hp : t.parent x with
  | none =>
      rw [h.siblingsAfter_of_parent_none hp, (h.single x hp).1]
      exact ⟨.stop, by simp⟩
  | some p =>
      obtain ⟨l₁, l₂, hk⟩ := h.exists_split hp
      have hf := h.linked.follows_next p
      rw [hk] at hf
      rw [h.siblingsAfter_eq hk]
      refine ⟨hf.behind, fun s hs => h.mem_children.mp ?_⟩
      rw [hk]
      exact List.mem_append_right _ (List.mem_cons_of_mem _ hs)

theorem lt_of_mem_siblingsAfter (h : t.WellFormed) (hs : y ∈ t.siblingsAfter x) : y < t.size := by
  cases hp : t.parent x with
  | none =>
      rw [h.siblingsAfter_of_parent_none hp] at hs
      simp at hs
  | some p => exact lt_of_parent (((h.follows_siblingsAfter x).2 y hs).trans hp)

theorem siblings_congr (h : t.WellFormed) (hu : u.WellFormed) (hp : u.parent x = t.parent x)
    (hs : ∀ q, t.parent x = some q → u.children q = t.children q) :
    u.nextSibling x = t.nextSibling x ∧ u.prevSibling x = t.prevSibling x := by
  cases hq : t.parent x with
  | none =>
      rw [(h.single x hq).1, (h.single x hq).2]
      exact hu.single x (hp.trans hq)
  | some q =>
      obtain ⟨l₁, l₂, hk⟩ := h.exists_split hq
      have hk' := (hs q hq).trans hk
      rw [h.linked.next hk, h.linked.prev hk]
      exact ⟨hu.linked.next hk', hu.linked.prev hk'⟩

theorem node_congr (h : t.WellFormed) (hu : u.WellFormed) (hk : u.kind x = t.kind x)
    (hr : u.role x = t.role x) (hp : u.parent x = t.parent x) (hc : u.children x = t.children x)
    (hs : ∀ q, t.parent x = some q → u.children q = t.children q) : u.node x = t.node x := by
  obtain ⟨hn, hv⟩ := h.siblings_congr hu hp hs
  have hf : u.firstChild x = t.firstChild x := by rw [hu.linked.first, h.linked.first, hc]
  have hl : u.lastChild x = t.lastChild x := by rw [hu.linked.last, h.linked.last, hc]
  have he (w : Tree) : w.node x = ⟨w.kind x, w.role x, w.parent x, w.firstChild x, w.lastChild x,
    w.prevSibling x, w.nextSibling x⟩ := rfl
  rw [he u, he t, hk, hr, hp, hf, hl, hn, hv]

theorem ext (h : t.WellFormed) (hu : u.WellFormed) (hsize : u.size = t.size)
    (hk : ∀ x, u.kind x = t.kind x) (hr : ∀ x, u.role x = t.role x)
    (hp : ∀ x, u.parent x = t.parent x) (hc : u.children = t.children)
    (hl : u.placements = t.placements) (hm : u.marks = t.marks) : u = t := by
  have hn (x : NodeId) : u.node x = t.node x :=
    h.node_congr hu (hk x) (hr x) (hp x) (congrFun hc x) fun q _ => congrFun hc q
  have ha : u.nodes = t.nodes := by
    refine Array.ext hsize fun i hi hi' => ?_
    have hi := hn i
    simpa [node, Array.getD, *] using hi
  obtain ⟨nodes, placements, marks⟩ := u
  obtain ⟨nodes', placements', marks'⟩ := t
  cases ha
  cases hl
  cases hm
  rfl

end WellFormed

end TreeScribe.Tree
