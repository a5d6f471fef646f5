import TreeScribe.Proofs.Tree.Order

namespace TreeScribe.Tree

def subtree (t : Tree) (i : NodeId) : List NodeId := i :: t.descendants i

def behind (t : Tree) (x : NodeId) : List NodeId :=
  (x :: t.ancestors x).flatMap fun a => (t.siblingsAfter a).flatMap t.subtree

/-- What stands behind `y` stands behind `x` too, and less does, unless `y` is higher up. -/
structure Forward (t : Tree) (x y : NodeId) : Prop where
  behind : t.behind y <:+ t.behind x
  higher : t.behind y = t.behind x → t.depth y < t.depth x

variable {t : Tree} {i p s top x y z : NodeId} {l₁ l₂ : List NodeId}

theorem Forward.trans (h : t.Forward x y) (h' : t.Forward y z) : t.Forward x z := by
  refine ⟨h'.behind.trans h.behind, fun he => ?_⟩
  have hy : t.behind y = t.behind x := h.behind.eq_of_length_le (he ▸ h'.behind.length_le)
  exact Nat.lt_trans (h'.higher (he.trans hy.symm)) (h.higher hy)

theorem Forward.ne (h : t.Forward x y) : x ≠ y := by
  rintro rfl
  exact Nat.lt_irrefl _ (h.higher rfl)

theorem Forward.pairwise_cons {l : List NodeId} (h : t.Forward x y)
    (hl : (y :: l).Pairwise t.Forward) : (x :: y :: l).Pairwise t.Forward := by
  refine List.pairwise_cons.mpr ⟨List.forall_mem_cons.mpr ⟨h, fun z hz => ?_⟩, hl⟩
  exact h.trans ((List.pairwise_cons.mp hl).1 z hz)

theorem subtree_sublist_flatMap {nodes : List NodeId} (hx : x ∈ nodes) :
    (t.subtree x).Sublist (nodes.flatMap t.subtree) := by
  obtain ⟨l₁, l₂, rfl⟩ := List.append_of_mem hx
  rw [List.flatMap_append, List.flatMap_cons]
  exact (List.sublist_append_left _ _).trans (List.sublist_append_right _ _)

namespace WellFormed

theorem descendants_eq_flatMap (h : t.WellFormed) (p : NodeId) :
    t.descendants p = (t.children p).flatMap t.subtree :=
  (h.preorder_descendants p).unique (preorder_flatMap fun c _ => h.preorder_descendants c)

theorem descendants_split (h : t.WellFormed) (hk : t.children p = l₁ ++ x :: l₂) :
    t.descendants p = l₁.flatMap t.subtree ++ (t.subtree x ++ l₂.flatMap t.subtree) := by
  rw [h.descendants_eq_flatMap, hk, List.flatMap_append, List.flatMap_cons]

theorem behind_of_parent (h : t.WellFormed) (hp : t.parent x = some p) :
    t.behind x = (t.siblingsAfter x).flatMap t.subtree ++ t.behind p := by
  rw [behind, h.ancestors_of_parent hp, List.flatMap_cons]
  rfl

theorem behind_of_parent_none (h : t.WellFormed) (hp : t.parent x = none) : t.behind x = [] := by
  rw [behind, h.ancestors_of_parent_none hp, List.flatMap_singleton,
    h.siblingsAfter_of_parent_none hp]
  rfl

theorem order_behind (h : t.WellFormed) (htop : t.parent top = none) (hb : t.Below top x) :
    ∃ before, t.subtree top = before ++ (t.subtree x ++ t.behind x) := by
  induction hb with
  | self => exact ⟨[], by rw [h.behind_of_parent_none htop, List.append_nil, List.nil_append]⟩
  | @child p c _ hc ih =>
      obtain ⟨before, hbefore⟩ := ih
      obtain ⟨l₁, l₂, hk⟩ := h.exists_split hc
      refine ⟨before ++ p :: l₁.flatMap t.subtree, ?_⟩
      rw [hbefore, h.behind_of_parent hc, h.siblingsAfter_eq hk, subtree, h.descendants_split hk]
      simp

/-- A later sibling stands behind a node, with all below it, and what is behind the sibling is
left. -/
theorem behind_of_sibling (h : t.WellFormed) (hs : s ∈ t.siblingsAfter x) :
    ∃ between, t.behind x = between ++ (t.subtree s ++ t.behind s) := by
  cases hp : t.parent x with
  | none => simp [h.siblingsAfter_of_parent_none hp] at hs
  | some p =>
      obtain ⟨l₁, l₂, hk⟩ := h.exists_split hp
      rw [h.behind_of_parent hp, h.siblingsAfter_eq hk]
      rw [h.siblingsAfter_eq hk] at hs
      obtain ⟨m₁, m₂, rfl⟩ := List.append_of_mem hs
      have hk' : t.children p = (l₁ ++ x :: m₁) ++ s :: m₂ := by rw [hk]; simp
      have hsp : t.parent s = some p := h.mem_children.mp (by simp [hk'])
      refine ⟨m₁.flatMap t.subtree, ?_⟩
      rw [h.behind_of_parent hsp, h.siblingsAfter_eq hk']
      simp

theorem forward_sibling (h : t.WellFormed) (hs : s ∈ t.siblingsAfter x) : t.Forward x s := by
  obtain ⟨between, hb⟩ := h.behind_of_sibling hs
  rw [← List.append_assoc] at hb
  refine ⟨⟨_, hb.symm⟩, fun he => ?_⟩
  have hl := congrArg List.length hb
  simp only [he, subtree, List.length_append, List.length_cons] at hl
  omega

theorem forward_parent (h : t.WellFormed) (hp : t.parent x = some p) : t.Forward x p :=
  ⟨⟨_, (h.behind_of_parent hp).symm⟩,
      fun _ => by rw [h.depth_of_parent hp]; exact Nat.lt_succ_self _⟩

theorem subtree_sublist (h : t.WellFormed) (hp : t.parent x = some p) :
    (t.subtree x).Sublist (t.descendants p) := by
  rw [h.descendants_eq_flatMap]
  exact subtree_sublist_flatMap (h.mem_children.mpr hp)

theorem subtrees_sublist (h : t.WellFormed) (hp : t.parent x = some p)
    (hs : s ∈ t.siblingsAfter x) : (t.subtree x ++ t.subtree s).Sublist (t.descendants p) := by
  obtain ⟨l₁, l₂, hk⟩ := h.exists_split hp
  rw [h.siblingsAfter_eq hk] at hs
  rw [h.descendants_split hk]
  exact ((List.Sublist.refl _).append (subtree_sublist_flatMap hs)).trans
    (List.sublist_append_right _ _)

end WellFormed

end TreeScribe.Tree
