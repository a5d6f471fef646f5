import TreeScribe.Proofs.Tree.Below

namespace TreeScribe.Tree

/-- Whether children in a role only group parts of the statement above them. -/
def groups : Role → Bool
  | .switchSection | .catchClause => true
  | _ => false

inductive Part (t : Tree) (p : NodeId) : NodeId → Prop
  | child {c : NodeId} (h : t.parent c = some p) : Part t p c
  | grouped {s c : NodeId} (h : t.parent s = some p) (hs : groups (t.role s) = true)
      (hc : t.parent c = some s) :
    Part t p c

variable {t : Tree} {p c s i : NodeId} {r : Role}

theorem mem_childrenIn_iff : c ∈ t.childrenIn p r ↔ c ∈ t.children p ∧ t.role c = r := by
  simp only [childrenIn, List.mem_filter, decide_eq_true_eq]

theorem child_eq_null_or_mem : t.child p r = .null ∨ t.child p r ∈ t.childrenIn p r := by
  unfold child
  cases t.childrenIn p r with
  | nil => exact .inl rfl
  | cons c l => exact .inr List.mem_cons_self

namespace WellFormed

theorem parent_of_mem_childrenIn (h : t.WellFormed) (hc : c ∈ t.childrenIn p r) :
    t.parent c = some p :=
  h.mem_children.mp (mem_childrenIn_iff.mp hc).1

theorem child_cases (h : t.WellFormed) : t.child p r = .null ∨ t.parent (t.child p r) = some p :=
  child_eq_null_or_mem.imp_right h.parent_of_mem_childrenIn

theorem part_of_mem (h : t.WellFormed) (hc : c ∈ t.childrenIn p r) : t.Part p c :=
  .child (h.parent_of_mem_childrenIn hc)

theorem part_of_group (h : t.WellFormed) (hs : s ∈ t.childrenIn p r) (hr : groups r = true)
    (hc : t.parent c = some s) : t.Part p c := by
  refine .grouped (h.parent_of_mem_childrenIn hs) ?_ hc
  rw [(mem_childrenIn_iff.mp hs).2]
  exact hr

theorem depth_of_part (h : t.WellFormed) (hc : t.Part p c) :
    t.depth p < t.depth c ∧ c < t.size := by
  cases hc with
  | child hc =>
      rw [h.depth_of_parent hc]
      exact ⟨Nat.lt_succ_self _, lt_of_parent hc⟩
  | grouped hs _ hc =>
      rw [h.depth_of_parent hc, h.depth_of_parent hs]
      exact ⟨by omega, lt_of_parent hc⟩

end WellFormed

inductive Inside (t : Tree) (a : NodeId) : NodeId → Prop
  | self : Inside t a a
  | part {p c : NodeId} (h : Inside t a p) (hk : (t.kind p).isStatement = true) (hc : t.Part p c) :
      Inside t a c

variable {a x y z : NodeId}

theorem Part.to_below (h : t.Part p c) : t.Below p c := by
  cases h with
  | child h => exact .child .self h
  | grouped h _ hc => exact .child (.child .self h) hc

namespace Inside

theorem trans (h : t.Inside a x) (h' : t.Inside x y) : t.Inside a y := by
  induction h' with
  | self => exact h
  | part _ hk hc ih => exact ih.part hk hc

theorem to_below (h : t.Inside a x) : t.Below a x := by
  induction h with
  | self => exact .self
  | part _ _ hc ih => exact ih.trans hc.to_below

end Inside

namespace Below

theorem climb (h : t.Below a x) (hne : x ≠ a) : ∃ p, t.parent x = some p ∧ t.Below a p := by
  cases h with
  | self => exact absurd rfl hne
  | child h hc => exact ⟨_, hc, h⟩

theorem total (hx : t.Below x z) (hy : t.Below y z) : t.Below x y ∨ t.Below y x := by
  induction hx with
  | self => exact .inr hy
  | @child q w hx hc ih =>
      by_cases hw : y = w
      · subst hw
        exact .inl (hx.child hc)
      · obtain ⟨p, hp, hy⟩ := hy.climb (Ne.symm hw)
        cases hc.symm.trans hp
        exact ih hy

end Below

namespace WellFormed

theorem not_below_of_part (h : t.WellFormed) (hc : t.Part p c) : ¬ t.Below c p := by
  cases hc with
  | child hc => exact h.not_below_of_parent hc
  | grouped hs _ hc => exact fun hb => h.not_below_of_parent hc (hb.child hs)

theorem eq_of_below (h : t.WellFormed) (hx : t.parent x = some p) (hy : t.parent y = some p)
    (hxz : t.Below x z) (hyz : t.Below y z) : x = y := by
  by_contra hne
  rcases hxz.total hyz with hb | hb
  · obtain ⟨q, hq, hb⟩ := hb.climb (Ne.symm hne)
    cases hy.symm.trans hq
    exact h.not_below_of_parent hx hb
  · obtain ⟨q, hq, hb⟩ := hb.climb hne
    cases hx.symm.trans hq
    exact h.not_below_of_parent hy hb

theorem nodup_childrenIn (h : t.WellFormed) : (t.childrenIn p r).Nodup :=
  (h.linked.nodup p).filter _

theorem siblingsAfter_split (h : t.WellFormed) {l₁ l₂ : List NodeId}
    (hl : t.childrenIn p r = l₁ ++ x :: l₂) :
    (t.siblingsAfter x).find? (fun s => t.role s = t.role x) = l₂.head? := by
  have hr : t.role x = r :=
    (mem_childrenIn_iff.mp (hl ▸ List.mem_append_right _ List.mem_cons_self)).2
  obtain ⟨k₁, k₂, hk, -, hk₂⟩ := List.filter_eq_append_iff.mp hl
  obtain ⟨m₁, m₂, rfl, -, -, hm₂⟩ := List.filter_eq_cons_iff.mp hk₂
  rw [← List.append_assoc] at hk
  rw [h.siblingsAfter_eq hk, ← List.head?_filter, hr, hm₂]

end WellFormed

end TreeScribe.Tree
