import TreeScribe.Proofs.Render.Materialized

namespace TreeScribe

variable {t u : Tree} {i j q x y : NodeId} {before l : List Call} {spots : List Spot} {plan : Plan}
  {e : NodeId × List Spot} {s : Spot}

namespace Tree

def Touched (t : Tree) (calls : List Call) (y : NodeId) : Prop :=
  t.size ≤ y ∨ ∃ c ∈ calls, c.node? = some y

def Untouched (t : Tree) (calls : List Call) (u : Tree) (x : NodeId) : Prop :=
  ∀ y, u.Below x y → ¬ t.Touched calls y

end Tree

namespace Recast

variable {W : Type} [Sink W] {w : W} (ht : t.WellFormed)

include ht

theorem parent_old (hr : Recast t w i spots plan u) (hx : x < t.size) (hp : u.parent x = some q) :
    t.parent x = some q := by
  have hm := hr.kept.wellFormed.mem_children.mpr hp
  by_cases hq : q ∈ (plan ++ [(i, spots)]).map (·.1)
  · obtain ⟨e, he, rfl⟩ := List.mem_map.mp hq
    rcases (hr.rearranged he).mem_lasting hm with hl | hl
    · exact ht.mem_children.mp (List.mem_of_mem_filter hl)
    · exact absurd hx (Nat.not_lt.mpr hl)
  · rw [hr.children hq] at hm
    exact ht.mem_children.mp hm

theorem below_old (hr : Recast t w i spots plan u) (hy : y < t.size) (hb : u.Below x y) :
    t.Below x y := by
  induction hb with
  | self => exact .self
  | child _ hp ih =>
      have hp := hr.parent_old ht hy hp
      exact (ih (ht.lt_parent hp)).child hp

theorem start_of_new (hr : Recast t w i spots plan u) (hx : t.size ≤ x) (hp : u.parent x = some q) :
    ∃ e ∈ plan ++ [(i, spots)], e.1 = q := by
  by_contra hq
  have hm := hr.kept.wellFormed.mem_children.mpr hp
  rw [hr.children fun h => hq (List.mem_map.mp h), ht.mem_children] at hm
  exact absurd (Tree.lt_of_parent hm) (Nat.not_lt.mpr hx)

/-- Over a node that was touched stands one that was started or named before. -/
theorem exists_call (h : Body t i before spots plan l) (hr : Recast t w i spots plan u)
    (hx : x < t.size) (hb : u.Below x y) (hy : t.Touched (.start i :: l) y) :
    ∃ c ∈ .start i :: l, ∃ z, c.node? = some z ∧ t.Below x z := by
  by_cases hlt : y < t.size
  · rcases hy with hy | ⟨c, hc, hy⟩
    · exact absurd hlt (Nat.not_lt.mpr hy)
    · exact ⟨c, hc, y, hy, hr.below_old ht hlt hb⟩
  · cases hb with
    | self => exact absurd hx hlt
    | child hb hp =>
        obtain ⟨e, he, rfl⟩ := hr.start_of_new ht (Nat.not_lt.mp hlt) hp
        exact ⟨_, h.start_mem he, e.1, rfl, hr.below_old ht ((h.below he).lt h.lt) hb⟩

theorem untouched_of_unwritten (h : Body t i before spots plan l) (hr : Recast t w i spots plan u)
    (he : e ∈ plan ++ [(i, spots)]) (hx : x ∈ t.lasting e.1 ∧ (nodesOf e.2).contains x = false) :
    t.Untouched (.start i :: l) u x := by
  have hp : t.parent x = some e.1 := ht.mem_children.mp (List.mem_of_mem_filter hx.1)
  intro y hb hy
  obtain ⟨c, hc, z, hz, hb⟩ := hr.exists_call ht h (Tree.lt_of_parent hp) hb hy
  obtain ⟨e', he', hk, hm⟩ := h.mem_nodesOf_of_below ht hp (h.below he) hb hc hz
  cases h.eq_of_mem ht he' he hk
  simp [hm] at hx

theorem untouched_of_name (h : Body t i before spots plan l) (hr : Recast t w i spots plan u)
    (he : e ∈ plan ++ [(i, spots)]) (hs : s ∈ e.2) (hj : s.call = .identifier j)
    (hx : x ∈ u.children j) : t.Untouched (.start i :: l) u x := by
  have hp : t.parent j = some e.1 := h.parent_of_spot he hs (by rw [hj]; rfl)
  have hx : t.parent x = some j := by
    rw [hr.children fun hm => ?_] at hx
    · exact ht.mem_children.mp hx
    · obtain ⟨e', he', hk⟩ := List.mem_map.mp hm
      exact h.ne_of_name ht he hs hj he' hk
  intro y hb hy
  obtain ⟨c, hc, z, hz, hb⟩ := hr.exists_call ht h (Tree.lt_of_parent hx) hb hy
  obtain ⟨e', he', hk, -⟩ := h.mem_nodesOf_of_below ht hx ((h.below he).child hp) hb hc hz
  exact h.ne_of_name ht he hs hj he' hk

end Recast

end TreeScribe
