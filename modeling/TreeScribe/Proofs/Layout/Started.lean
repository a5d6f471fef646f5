import Mathlib.Data.List.Pairwise
import TreeScribe.Proofs.Layout.Nested

namespace TreeScribe

variable {t : Tree} {i j x y : NodeId} {before l : List Call} {spots : List Spot} {plan : Plan}
  {c : Call}
  {e e' : NodeId × List Spot} {s s' : Spot}

theorem eq_of_node? (hn : (nodesOf spots).Nodup) (hs : s ∈ spots) (hs' : s' ∈ spots)
    (hj : s.call.node? = some j) (hj' : s'.call.node? = some j) : s = s' := by
  by_contra hne
  let R (a b : Spot) : Prop := ∀ x ∈ a.call.node?, ∀ y ∈ b.call.node?, x ≠ y
  have hp : spots.Pairwise R := List.pairwise_filterMap.mp hn
  have : Std.Symm R := ⟨fun a b h x hx y hy hxy => h y hy x hx hxy.symm⟩
  exact hp.forall hs hs' hne j hj j hj' rfl

namespace Fills

theorem through_prefix (h : Fills t i before spots plan l) :
    (∀ s ∈ spots, s.through <+: before ++ l) ∧ ∀ e ∈ plan, ∀ s ∈ e.2,
    s.through <+: before ++ l := by
  have hspot {before l : List Call} {c : Call} :
      (⟨before, c⟩ : Spot).through <+: before ++ c :: l :=
    ⟨l, by simp [Spot.through]⟩
  induction h with
  | nil => simp
  | blank _ _ ih =>
      simp only [List.append_assoc, List.singleton_append] at ih
      exact ih
  | word _ _ ih =>
      simp only [List.append_assoc, List.singleton_append] at ih
      exact ⟨List.forall_mem_cons.mpr ⟨hspot, ih.1⟩, ih.2⟩
  | @leaf i j before l spots plan c _ _ _ ih =>
      simp only [List.append_assoc, List.cons_append, List.nil_append] at ih
      refine ⟨List.forall_mem_cons.mpr ⟨hspot, ih.1⟩,
        List.forall_mem_cons.mpr ⟨fun s hs => ?_, ih.2⟩⟩
      cases List.mem_singleton.mp hs
      exact ⟨.finish j :: l, by simp [Spot.through]⟩
  | @child i j before m l inner spots under plan _ _ _ _ _ ihm ih =>
      simp only [List.append_assoc, List.cons_append, List.nil_append] at ih ihm
      have hm : before ++ .start j :: m <+: before ++ .start j :: (m ++ .finish j :: l) :=
        ⟨.finish j :: l, by simp⟩
      refine ⟨List.forall_mem_cons.mpr ⟨hspot, ih.1⟩,
        List.forall_mem_append.mpr ⟨fun e he s hs => ?_,
        List.forall_mem_cons.mpr ⟨fun s hs => ?_, ih.2⟩⟩⟩
      · exact (ihm.2 e he s hs).trans hm
      · exact (ihm.1 s hs).trans hm

theorem exists_spot (h : Fills t i before spots plan l) (hc : c ∈ l) (hx : c.node? = some x) :
    c ∈ spots.map (·.call) ∨ ∃ e ∈ plan, c ∈ e.2.map (·.call) := by
  induction h with
  | nil => cases hc
  | blank hb _ ih =>
      rcases List.mem_cons.mp hc with rfl | hc
      · cases c <;> cases hx <;> cases hb
      · exact ih hc
  | word _ _ ih =>
      rcases List.mem_cons.mp hc with rfl | hc
      · exact .inl List.mem_cons_self
      · exact (ih hc).imp_left (List.mem_cons_of_mem _)
  | leaf _ hw _ ih =>
      simp only [List.mem_cons] at hc
      rcases hc with rfl | rfl | rfl | hc
      · exact .inl List.mem_cons_self
      · rw [(Tree.of_wordOf? hw.2).1] at hx
        cases hx
      · cases hx
      · rcases ih hc with hc | ⟨e, he, hc⟩
        · exact .inl (List.mem_cons_of_mem _ hc)
        · exact .inr ⟨e, List.mem_cons_of_mem _ he, hc⟩
  | @child _ j _ _ _ inner _ _ _ _ _ _ _ _ ihm ih =>
      simp only [List.mem_cons, List.mem_append] at hc
      rcases hc with rfl | hc | rfl | hc
      · exact .inl List.mem_cons_self
      · rcases ihm hc with hc | ⟨e, he, hc⟩
        · exact .inr ⟨(j, inner), by simp, hc⟩
        · exact .inr ⟨e, List.mem_append_left _ he, hc⟩
      · cases hx
      · rcases ih hc with hc | ⟨e, he, hc⟩
        · exact .inl (List.mem_cons_of_mem _ hc)
        · exact .inr ⟨e, List.mem_append_right _ (List.mem_cons_of_mem _ he), hc⟩

theorem start_mem_iff (h : Fills t i before spots plan l) : .start x ∈ l ↔ x ∈ plan.map (·.1) := by
  induction h with
  | nil => simp
  | blank hc _ ih =>
      rw [List.mem_cons, ih, or_iff_right]
      rintro rfl
      cases hc
  | word hc _ ih => rw [List.mem_cons, ih, or_iff_right hc.ne_start.symm]
  | @leaf i j before l spots plan c hj hc h ih =>
      have hs : c ≠ .start x := by
        rintro rfl
        cases (Tree.of_wordOf? hc.2).1
      simp [ih, hs.symm]
  | child hj hk hinner hm h ihm ih =>
      simp only [List.mem_cons, List.mem_append, List.map_append, List.map_cons, Call.start.injEq,
        ihm, ih, reduceCtorEq, false_or]
      tauto

end Fills

namespace Body

theorem through_prefix (h : Body t i before spots plan l) (he : e ∈ plan ++ [(i, spots)])
    (hs : s ∈ e.2) : s.through <+: before ++ l := by
  cases h with
  | word =>
      cases List.mem_singleton.mp he
      cases List.mem_singleton.mp hs
      exact List.prefix_refl _
  | composite _ _ h =>
      rcases List.mem_append.mp he with he | he
      · exact h.through_prefix.2 e he s hs
      · cases List.mem_singleton.mp he
        exact h.through_prefix.1 s hs

theorem exists_spot (h : Body t i before spots plan l) (hc : c ∈ l) (hx : c.node? = some x) :
    ∃ e ∈ plan ++ [(i, spots)], ∃ s ∈ e.2, s.call = c := by
  cases h with
  | word hw =>
      cases List.mem_singleton.mp hc
      rw [(Tree.of_wordOf? hw.2).1] at hx
      cases hx
  | composite _ _ h =>
      simp only [List.mem_append, List.mem_singleton, ← List.mem_map]
      rcases h.exists_spot hc hx with hc | ⟨e, he, hc⟩
      · exact ⟨(i, spots), .inr rfl, hc⟩
      · exact ⟨e, .inl he, hc⟩

theorem start_mem_iff (h : Body t i before spots plan l) :
    .start x ∈ .start i :: l ↔ x ∈ (plan ++ [(i, spots)]).map (·.1) := by
  have hl : .start x ∈ l ↔ x ∈ plan.map (·.1) := by
    cases h with
    | @word c hc =>
        have hs : c ≠ .start x := by
          rintro rfl
          cases (Tree.of_wordOf? hc.2).1
        simp [hs.symm]
    | composite _ _ h => exact h.start_mem_iff
  rw [List.mem_cons, hl, Call.start.injEq, or_comm, List.map_append, List.mem_append]
  exact or_congr_right List.mem_singleton.symm

theorem start_mem (h : Body t i before spots plan l) (he : e ∈ plan ++ [(i, spots)]) :
    .start e.1 ∈ .start i :: l :=
  h.start_mem_iff.mpr (List.mem_map_of_mem he)

theorem body_of_mem (h : Body t i before spots plan l) (he : e ∈ plan ++ [(i, spots)]) :
    ∃ before under l, Body t e.1 before e.2 under l := by
  rcases List.mem_append.mp he with he | he
  · exact h.body he
  · cases List.mem_singleton.mp he
    exact ⟨_, _, _, h⟩

theorem nodup_of_mem (h : Body t i before spots plan l) (he : e ∈ plan ++ [(i, spots)]) :
    (nodesOf e.2).Nodup := by
  obtain ⟨_, _, _, hb⟩ := h.body_of_mem he
  exact hb.nodup

/-- All nodes that were started are below the node that was filled. -/
theorem below (h : Body t i before spots plan l) (he : e ∈ plan ++ [(i, spots)]) :
    t.Below i e.1 := by
  rcases List.mem_append.mp he with he | he
  · obtain ⟨p, hp, hb⟩ := h.above he
    exact hb.child hp
  · cases List.mem_singleton.mp he
    exact .self

theorem nodup_starts (ht : t.WellFormed) (h : Body t i before spots plan l) :
    ((plan ++ [(i, spots)]).map (·.1)).Nodup := by
  rw [List.map_append]
  exact (List.perm_append_singleton i _).nodup_iff.mpr (h.nodup_plan ht)

theorem eq_of_mem (ht : t.WellFormed) (h : Body t i before spots plan l)
    (he : e ∈ plan ++ [(i, spots)]) (he' : e' ∈ plan ++ [(i, spots)]) (hk : e.1 = e'.1) : e = e' :=
  List.inj_on_of_nodup_map (h.nodup_starts ht) he he' hk

/-- The spot of a child that is started or named is one of its parent. -/
theorem parent_of_spot (h : Body t i before spots plan l) (he : e ∈ plan ++ [(i, spots)])
    (hs : s ∈ e.2) (hx : s.call.node? = some x) : t.parent x = some e.1 := by
  obtain ⟨_, _, _, hb⟩ := h.body_of_mem he
  exact hb.parent (mem_nodesOf.mpr ⟨s, hs, hx⟩)

theorem ne_of_name (ht : t.WellFormed) (h : Body t i before spots plan l)
    (he : e ∈ plan ++ [(i, spots)]) (hs : s ∈ e.2) (hj : s.call = .identifier j)
    (he' : e' ∈ plan ++ [(i, spots)]) : e'.1 ≠ j := by
  rintro rfl
  have hp := h.parent_of_spot he hs (x := e'.1) (by rw [hj]; rfl)
  rcases List.mem_cons.mp (h.start_mem he') with hi | hm
  · cases hi
    exact ht.not_below_of_parent hp (h.below he)
  · obtain ⟨e'', he'', s', hs', hc⟩ := h.exists_spot hm rfl
    have hp' := h.parent_of_spot he'' hs' (x := e'.1) (by rw [hc]; rfl)
    cases h.eq_of_mem ht he he'' (Option.some.inj (hp.symm.trans hp'))
    cases eq_of_node? (h.nodup_of_mem he) hs hs' (j := e'.1) (by rw [hj]; rfl) (by rw [hc]; rfl)
    cases hj.symm.trans hc

theorem mem_nodesOf_of_below (ht : t.WellFormed) (h : Body t i before spots plan l) {q : NodeId}
    (hx : t.parent x = some q) (hq : t.Below i q) (hb : t.Below x y) (hc : c ∈ .start i :: l)
    (hy : c.node? = some y) :
    ∃ e ∈ plan ++ [(i, spots)], e.1 = q ∧ x ∈ nodesOf e.2 := by
  have hup : ¬ t.Below x i := fun hb => ht.not_below_of_parent hx (hb.trans hq)
  induction hb generalizing c with
  | self =>
      rcases List.mem_cons.mp hc with rfl | hc
      · cases hy
        exact absurd .self hup
      · obtain ⟨e, he, s, hs, rfl⟩ := h.exists_spot hc hy
        have hp := h.parent_of_spot he hs hy
        exact ⟨e, he, Option.some.inj (hp.symm.trans hx), mem_nodesOf.mpr ⟨s, hs, hy⟩⟩
  | child hb hp ih =>
      rcases List.mem_cons.mp hc with rfl | hc
      · cases hy
        exact absurd (hb.child hp) hup
      · obtain ⟨e, he, s, hs, rfl⟩ := h.exists_spot hc hy
        cases hp.symm.trans (h.parent_of_spot he hs hy)
        exact ih (h.start_mem he) rfl

end Body

end TreeScribe
