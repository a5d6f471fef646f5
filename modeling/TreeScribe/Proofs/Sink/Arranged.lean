import Mathlib.Data.List.Lattice
import Mathlib.Data.List.Pairwise
import TreeScribe.Proofs.Sink.Recording

namespace TreeScribe

variable {t u : Tree} {a c p x : NodeId} {l last : List NodeId} {runs : List (NodeId × List NodeId)}

namespace Tree

theorem parent_mapPlacements {f : Placements → Placements} :
    (t.mapPlacements f).parent x = t.parent x := rfl

namespace WellFormed

theorem below_of_parent_eq (h : t.WellFormed) (hu : u.WellFormed)
    (hx : ∀ x, t.Below x p → u.parent x = t.parent x) (hb : u.Below a p) : t.Below a p := by
  have hf : Follows u.parent (some p) (p :: t.ancestors p) :=
    (h.follows_parent p).congr fun x hm => hx x (h.below_iff.mpr hm)
  have he : p :: t.ancestors p = p :: u.ancestors p := hf.unique (hu.follows_parent p)
  rw [hu.below_iff, ← he] at hb
  exact h.below_iff.mpr hb

theorem exists_addChild (h : t.WellFormed) (hp : p < t.size) (hn : p ≠ .null) (hc : c < t.size)
    (hcn : c ≠ .null) (hcp : t.parent c = none) (hb : ¬ t.Below c p) (r : Role) :
    ∃ u, t.addChild p r c = .ok u ∧
      u.WellFormed ∧ u.size = t.size ∧ ∀ x, u.parent x = if x = c then some p else t.parent x := by
  have ha : t.Attachable p c := by
    refine ⟨hn, hcp, ?_⟩
    rw [← Bool.not_eq_true, h.isAncestorOrSelf_eq_true_iff]
    exact hb
  have hk : t.children p = t.children p ++ [] := (List.append_nil _).symm
  have ho := h.insertBefore_eq (r := r) hk hcn ha
  exact ⟨_, ho, h.addChild hp hc ho, size_addChild ho, fun x => h.parent_link hp hc hk⟩

theorem parent_foldl_detach (h : t.WellFormed) :
    (l.foldl Tree.detach t).parent x = if x ∈ l then none else t.parent x := by
  induction l generalizing t with
  | nil => simp
  | cons c l ih =>
      rw [List.foldl_cons, ih (h.detach c), h.parent_detach]
      by_cases hx : x = c <;> simp [hx]

end WellFormed

structure Arranging (t : Tree) (p : NodeId) (u : Tree) : Prop where
  wellFormed : u.WellFormed
  size_le : t.size ≤ u.size
  parent_old {x : NodeId} (hx : x < t.size) (hp : t.parent x ≠ some p) : u.parent x = t.parent x

/-- The children of a node in runs, each of them before a child that was written, and those behind
the last one. -/
structure Runs (t : Tree) (p : NodeId) (runs : List (NodeId × List NodeId))
    (last : List NodeId) : Prop where
  child {c : NodeId} (hc : c ∈ (runs.flatMap fun e => e.2 ++ [e.1]) ++ last) : t.parent c = some p
  nodup : ((runs.flatMap fun e => e.2 ++ [e.1]) ++ last).Nodup

/-- As long as a written child has no parent, those before it have none; those at the end have
none. -/
structure Waits (u : Tree) (runs : List (NodeId × List NodeId)) (last : List NodeId) : Prop where
  run {e : NodeId × List NodeId} (he : e ∈ runs)
    (hp : u.parent e.1 = none) {c : NodeId} (hc : c ∈ e.2) : u.parent c = none
  last {c : NodeId} (hc : c ∈ last) : u.parent c = none

namespace Runs

variable {e e' : NodeId × List NodeId}

theorem mem (he : e ∈ runs) (hc : c ∈ e.2 ++ [e.1]) :
    c ∈ (runs.flatMap fun e => e.2 ++ [e.1]) ++ last :=
  List.mem_append_left _ (List.mem_flatMap.mpr ⟨e, he, hc⟩)

theorem disjoint (hr : Runs t p runs last) (he : e ∈ runs) (he' : e' ∈ runs) (hne : e ≠ e') :
    (e.2 ++ [e.1]).Disjoint (e'.2 ++ [e'.1]) := by
  have hpairs := (List.nodup_flatMap.mp (List.nodup_append.mp hr.nodup).1).2
  have : Std.Symm (Function.onFun List.Disjoint fun e : NodeId × List NodeId => e.2 ++ [e.1]) :=
    ⟨fun _ _ hd => List.Disjoint.symm hd⟩
  exact hpairs.forall he he' hne

theorem notMem_last (hr : Runs t p runs last) (he : e ∈ runs) (hc : c ∈ e.2 ++ [e.1]) :
    c ∉ last := by
  intro hl
  exact (List.nodup_append.mp hr.nodup).2.2 c (List.mem_flatMap.mpr ⟨e, he, hc⟩) c hl rfl

theorem waits_of_parent (hr : Runs t p runs last) (hle : t.size ≤ u.size)
    (hw : Waits u runs last) {v : Tree} (hpar : ∀ x < u.size, v.parent x = u.parent x) :
    Waits v runs last := by
  have hlt {c : NodeId} (hc : c ∈ (runs.flatMap fun e => e.2 ++ [e.1]) ++ last) : c < u.size :=
    Nat.lt_of_lt_of_le (lt_of_parent (hr.child hc)) hle
  constructor
  · intro e he hep c hc
    rw [hpar _ (hlt (mem he (by simp)))] at hep
    rw [hpar _ (hlt (mem he (List.mem_append_left _ hc)))]
    exact hw.run he hep hc
  · intro c hc
    rw [hpar _ (hlt (List.mem_append_right _ hc))]
    exact hw.last hc

/-- Attaching one run leaves the others waiting. -/
theorem waits_of_run (hr : Runs t p runs last) (hw : Waits u runs last) (he : e ∈ runs) {v : Tree}
    (hpar : ∀ x, v.parent x = if x ∈ e.2 ++ [e.1] then some p else u.parent x) :
    Waits v runs last := by
  constructor
  · intro e' he' hep c hc
    have hne : e ≠ e' := by
      rintro rfl
      rw [hpar, if_pos (by simp)] at hep
      cases hep
    have hd := List.Disjoint.symm (hr.disjoint he he' hne)
    rw [hpar, if_neg (hd (by simp))] at hep
    rw [hpar, if_neg (hd (List.mem_append_left _ hc))]
    exact hw.run he' hep hc
  · intro c hc
    rw [hpar, if_neg fun hm => hr.notMem_last he hm hc]
    exact hw.last hc

end Runs

namespace Arranging

variable (h : t.WellFormed) (hp : p < t.size)

include h hp

theorem below (hu : Arranging t p u) (hb : u.Below a p) : t.Below a p :=
  h.below_of_parent_eq hu.wellFormed
    (fun _ hx => hu.parent_old (h.lt_of_below hx hp) fun he => h.not_below_of_parent he hx) hb

variable (hn : p ≠ .null)

include hn

theorem attach (hu : Arranging t p u) (hc : t.parent c = some p ∨ t.size ≤ c) (hlt : c < u.size)
    (hcp : u.parent c = none) (r : Role) : ∃ v, u.addChild p r c = .ok v ∧ Arranging t p v ∧
      v.size = u.size ∧ ∀ x, v.parent x = if x = c then some p else u.parent x := by
  have hcn : c ≠ .null := by
    rcases hc with hc | hc
    · exact h.ne_null hc
    · exact Nat.ne_of_gt (Nat.lt_of_lt_of_le h.size_pos hc)
  have hb : ¬ u.Below c p := by
    intro hb
    have hbt := hu.below h hp hb
    rcases hc with hc | hc
    · exact h.not_below_of_parent hc hbt
    · exact absurd (h.lt_of_below hbt hp) (Nat.not_lt.mpr hc)
  obtain ⟨v, ho, hv, hs, hpar⟩ :=
    hu.wellFormed.exists_addChild (Nat.lt_of_lt_of_le hp hu.size_le) hn hlt hcn hcp hb r
  refine ⟨v, ho, ⟨hv, hs ▸ hu.size_le, fun {x} hx hxp => ?_⟩, hs, hpar⟩
  have hne : x ≠ c := by
    rintro rfl
    rcases hc with hc | hc
    · exact hxp hc
    · exact absurd hx (Nat.not_lt.mpr hc)
  rw [hpar, if_neg hne, hu.parent_old hx hxp]

theorem reattach (hu : Arranging t p u) (hl : ∀ c ∈ l, t.parent c = some p ∧ u.parent c = none)
    (hd : l.Nodup) :
    ∃ v, u.reattach p l = .ok v ∧ Arranging t p v ∧ ∀ x, v.parent x = if x ∈ l then some p
      else u.parent x := by
  induction l generalizing u with
  | nil => exact ⟨u, rfl, hu, by simp⟩
  | cons c l ih =>
      obtain ⟨hcl, hd⟩ := List.nodup_cons.mp hd
      obtain ⟨hc, hcp⟩ := hl c List.mem_cons_self
      have hlt : c < u.size := Nat.lt_of_lt_of_le (lt_of_parent hc) hu.size_le
      obtain ⟨v, ho, hv, -, hpar⟩ := hu.attach h hp hn (.inl hc) hlt hcp (u.role c)
      have hrest (x : NodeId) (hx : x ∈ l) : t.parent x = some p ∧ v.parent x = none := by
        obtain ⟨hx, hxp⟩ := hl x (List.mem_cons_of_mem _ hx)
        refine ⟨hx, ?_⟩
        rw [hpar, if_neg (by rintro rfl; exact hcl ‹_›), hxp]
      obtain ⟨w, ho', hw, hpar'⟩ := ih hv hrest hd
      refine ⟨w, ?_, hw, fun x => ?_⟩
      · simp only [Tree.reattach, List.foldlM_cons, ho]
        exact ho'
      · rw [hpar', hpar]
        by_cases hx : x = c <;> simp [hx]

theorem addTokenNode (hu : Arranging t p u) (k : Kind) (r : Role) (rg : TextRange) :
    ∃ v, u.addTokenNode p k r rg = .ok v ∧ Arranging t p v ∧
      ∀ x < u.size, v.parent x = u.parent x := by
  have hpar (x : NodeId) : (u.alloc k).2.parent x = u.parent x := sameLinks_alloc.parent x
  have ha : Arranging t p (u.alloc k).2 := by
    refine ⟨hu.wellFormed.alloc k, ?_, fun hx hxp => (hpar _).trans (hu.parent_old hx hxp)⟩
    rw [size_alloc]
    exact Nat.le_succ_of_le hu.size_le
  have hnone : (u.alloc k).2.parent u.size = none := by
    rw [hpar, Tree.parent, node_of_size_le (Nat.le_refl _)]
    rfl
  obtain ⟨v, ho, hv, -, hpar'⟩ := ha.attach h hp hn (.inr hu.size_le) (by simp) hnone r
  have hs : SameLinks v (v.mapPlacements (·.setRange u.size rg)) :=
    ⟨fun _ => rfl, fun _ => rfl, fun _ => rfl, fun _ => rfl, fun _ => rfl⟩
  refine ⟨v.mapPlacements (·.setRange u.size rg), ?_, ⟨?_, hv.size_le, hv.parent_old⟩,
    fun x hx => ?_⟩
  · simp only [Tree.addTokenNode, Tree.alloc, bind, Except.bind] at ho ⊢
    rw [ho]
    rfl
  · exact hs.wellFormed hv.wellFormed hv.wellFormed.null_kind hv.wellFormed.size_pos
  · rw [parent_mapPlacements, hpar', if_neg (Nat.ne_of_lt hx), hpar]

variable (hr : Runs t p runs last)

include hr

theorem attachEntry (hu : Arranging t p u) (hw : Waits u runs last) (e : Entry) :
    ∃ v, Tree.attachEntry p runs u e = .ok v ∧ Arranging t p v ∧ Waits v runs last := by
  cases e with
  | node i =>
      simp only [Tree.attachEntry]
      cases hl : runs.lookup i with
      | none => exact ⟨u, rfl, hu, hw⟩
      | some run =>
          obtain ⟨before, behind, rfl, -⟩ := List.lookup_eq_some_iff.mp hl
          cases hi : u.parent i with
          | some q => exact ⟨u, by simp, hu, hw⟩
          | none =>
              have he : (i, run) ∈ before ++ (i, run) :: behind := by simp
              have hnone (c : NodeId) (hc : c ∈ run ++ [i]) :
                  t.parent c = some p ∧ u.parent c = none := by
                refine ⟨hr.child (Runs.mem he hc), ?_⟩
                rcases List.mem_append.mp hc with hc | hc
                · exact hw.run he hi hc
                · exact List.mem_singleton.mp hc ▸ hi
              have hd : (run ++ [i]).Nodup :=
                (List.nodup_flatMap.mp (List.nodup_append.mp hr.nodup).1).1 (i, run) he
              obtain ⟨v, ho, hv, hpar⟩ := hu.reattach h hp hn hnone hd
              exact ⟨v, by simpa using ho, hv, hr.waits_of_run hw he hpar⟩
  | token role rg =>
      obtain ⟨v, ho, hv, hpar⟩ := hu.addTokenNode h hp hn .token role rg
      exact ⟨v, ho, hv, hr.waits_of_parent hu.size_le hw hpar⟩
  | modifier m rg =>
      obtain ⟨v, ho, hv, hpar⟩ := hu.addTokenNode h hp hn (.modifier m) .modifier rg
      exact ⟨v, ho, hv, hr.waits_of_parent hu.size_le hw hpar⟩

theorem attachEntries (hu : Arranging t p u) (hw : Waits u runs last) (entries : List Entry) :
    ∃ v, entries.foldlM (Tree.attachEntry p runs) u = .ok v ∧ Arranging t p v ∧
      Waits v runs last := by
  induction entries generalizing u with
  | nil => exact ⟨u, rfl, hu, hw⟩
  | cons e entries ih =>
      obtain ⟨v, ho, hv, hwv⟩ := hu.attachEntry h hp hn hr hw e
      obtain ⟨w, ho', hw'⟩ := ih hv hwv
      refine ⟨w, ?_, hw'⟩
      simp only [List.foldlM_cons, ho]
      exact ho'

end Arranging

/-- The runs of a list, with the members before which they stand, are the list. -/
theorem flatMap_runsBefore (f : NodeId → Bool) (acc l : List NodeId) :
    ((runsBefore f acc l).1.flatMap fun e => e.2 ++ [e.1]) ++ (runsBefore f acc l).2 =
    acc.reverse ++ l := by
  induction l generalizing acc with
  | nil => simp [runsBefore]
  | cons i l ih =>
      rw [runsBefore]
      split
      · have hrest := ih []
        simp only [List.reverse_nil, List.nil_append] at hrest
        simp only [List.flatMap_cons, List.append_assoc, hrest]
        simp
      · rw [ih]
        simp

namespace WellFormed

/-- The children of a node can be arranged, whatever was recorded. -/
theorem exists_arrange (h : t.WellFormed) (hp : p < t.size) (hn : p ≠ .null)
    (entries : List Entry) :
    ∃ u, t.arrange p entries = .ok u := by
  have hkept := (Kept.refl h).foldl_detach ((t.children p).filter t.isTokenNode)
  rw [Tree.arrange]
  generalize ((t.children p).filter t.isTokenNode).foldl Tree.detach t = t₁ at hkept ⊢
  have h₁ := hkept.wellFormed
  have hp₁ := Nat.lt_of_lt_of_le hp hkept.size_le
  have hkept₂ := (Kept.refl h₁).foldl_detach (t₁.children p)
  have hpar (x : NodeId) := h₁.parent_foldl_detach (l := t₁.children p) (x := x)
  have hflat := flatMap_runsBefore (fun i => entries.contains (.node i)) [] (t₁.children p)
  rw [List.reverse_nil, List.nil_append] at hflat
  generalize (t₁.children p).foldl Tree.detach t₁ = t₂ at hkept₂ hpar ⊢
  rcases hruns : runsBefore (fun i => entries.contains (.node i)) [] (t₁.children p)
    with ⟨runs, last⟩
  rw [hruns] at hflat
  have hr : Runs t₁ p runs last :=
    ⟨fun hc => h₁.mem_children.mp (hflat ▸ hc), hflat ▸ h₁.linked.nodup p⟩
  have hu : Arranging t₁ p t₂ := by
    refine ⟨hkept₂.wellFormed, hkept₂.size_le, fun {x} _ hxp => ?_⟩
    rw [hpar, if_neg fun hm => hxp (h₁.mem_children.mp hm)]
  have hnone {c : NodeId} (hc : c ∈ (runs.flatMap fun e => e.2 ++ [e.1]) ++ last) :
      t₂.parent c = none := by
    rw [hpar, if_pos (hflat ▸ hc)]
  have hw : Waits t₂ runs last :=
    ⟨fun he _ _ hc => hnone (Runs.mem he (List.mem_append_left _ hc)),
      fun hc => hnone (List.mem_append_right _ hc)⟩
  obtain ⟨v, ho, hv, hwv⟩ := hu.attachEntries h₁ hp₁ hn hr hw entries
  obtain ⟨w, ho', -⟩ := hv.reattach h₁ hp₁ hn
    (fun c hc => ⟨hr.child (List.mem_append_right _ hc), hwv.last hc⟩)
      (List.nodup_append.mp hr.nodup).2.1
  refine ⟨w, ?_⟩
  simp only [bind, Except.bind, ho]
  exact ho'

end WellFormed

end Tree

namespace Recording

variable {W : Type} {w : Recording W}

/-- Nodes of the tree can be arranged one after the other. -/
theorem exists_arrange (hu : Kept t u) {plan : List (NodeId × List Entry)}
    (hp : ∀ e ∈ plan, e.1 < t.size ∧ e.1 ≠ .null) :
    ∃ v, plan.foldlM (fun t (i, entries) => t.arrange i entries) u = .ok v := by
  induction plan generalizing u with
  | nil => exact ⟨u, rfl⟩
  | cons e plan ih =>
      obtain ⟨hlt, hn⟩ := hp e List.mem_cons_self
      have hlt := Nat.lt_of_lt_of_le hlt hu.size_le
      obtain ⟨v, ho⟩ := hu.wellFormed.exists_arrange hlt hn e.2
      have hv := hu.trans (.arrange hu.wellFormed hlt ho)
      obtain ⟨w, ho'⟩ := ih hv fun e he => hp e (List.mem_cons_of_mem _ he)
      refine ⟨w, ?_⟩
      simp only [List.foldlM_cons, ho]
      exact ho'

theorem exists_apply (h : t.WellFormed) (hw : w.Notes fun i => i < t.size ∧ i ≠ .null) :
    ∃ u, w.apply t = .ok (w.inner, u) := by
  obtain ⟨v, ho⟩ := exists_arrange (.refl h) fun e he => hw.plan e (List.mem_reverse.mp he)
  rw [apply, ho]
  exact ⟨_, rfl⟩

end Recording

end TreeScribe
