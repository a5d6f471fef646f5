import TreeScribe.Proofs.Grouping.Wraps

namespace TreeScribe.Parentheses

variable {t u : Tree} {g g₁ : Grouped} {readable : Bool} {root i v w x : NodeId} {r : Role}

/-- None of the operands of the node needs parentheses, and it does not itself swallow what follows
it. -/
structure Settled (readable : Bool) (root : NodeId) (t : Tree) (i : NodeId) : Prop where
  pending : pending t readable i = []
  tame : i ≠ root → isSwallowing t readable i = false

theorem settled_of_kind (hl : ∀ r k, level? readable (t.kind i) r k = none)
    (hk : isLambdaOrQuery (t.kind i) = false) : Settled readable root t i where
  pending := by
    rw [List.eq_nil_iff_forall_not_mem]
    intro w hw
    obtain ⟨r, -, l, -, h, -⟩ := mem_pending_iff.mp hw
    rw [hl] at h
    cases h
  tame _ := by rw [isSwallowing, hk, Bool.false_and]

theorem settled_of_parenthesized (hk : t.kind i = .expression .parenthesized) :
    Settled readable root t i :=
  settled_of_kind (by rw [hk]; exact fun _ _ => rfl) (by rw [hk]; rfl)

theorem settled_of_null (hk : t.kind i = .null) : Settled readable root t i :=
  settled_of_kind (by rw [hk]; exact fun _ _ => rfl) (by rw [hk]; rfl)

theorem pending_of_view {f : NodeId → NodeId} (hk : u.kind i = t.kind i)
    (hc : ∀ r ∈ operandRoles, u.child i r = f (t.child i r))
    (hf : ∀ r ∈ operandRoles, u.kind (f (t.child i r)) = .expression .parenthesized ∨
      f (t.child i r) = t.child i r ∧ u.kind (t.child i r) = t.kind (t.child i r) ∧
        u.hasChild (t.child i r) .initializer = t.hasChild (t.child i r) .initializer)
    (ht : readsAsExpression u (u.child i .type) = readsAsExpression t (t.child i .type))
    (hw : w ∈ pending u readable i) : w ∈ pending t readable i ∧ f w = w := by
  obtain ⟨r, hr, l, rfl, hl, hn⟩ := mem_pending_iff.mp hw
  rw [hc r hr] at hl hn ⊢
  obtain ⟨-, k, hwk, hwp⟩ := expression_of_needsParens hn
  rcases hf r hr with hp | ⟨hfc, hkc, hi⟩
  · rw [hp] at hwk
    cases hwk
    exact absurd rfl hwp
  · rw [hfc] at hl hn hwk ⊢
    refine ⟨mem_pending_iff.mpr ⟨r, hr, l, rfl, by rwa [← hk, ← hkc], ?_⟩, hfc⟩
    have hm : isMisread u readable i (t.child i r) = isMisread t readable i (t.child i r) := by
      rw [isMisread, isMisread, hk, ht, hkc, hi, readsOn, readsOn, hkc]
    rwa [needsParens, Tree.precedence, hkc, hm] at hn

theorem readsAsExpression_congr (hk : u.kind i = t.kind w) :
    readsAsExpression u i = readsAsExpression t w := by
  rw [readsAsExpression, readsAsExpression, hk]

theorem readsAsExpression_of_isExpression (hk : (t.kind i).isExpression = true) :
    readsAsExpression t i = false := by
  rw [readsAsExpression]
  cases hi : t.kind i <;> simp_all [Kind.isExpression]

theorem pending_parenthesize (h : t.WellFormed) (hv : Inner root t v) (hi : i < t.size)
    (hw : w ∈ pending (t.parenthesize v) readable i) : w ∈ pending t readable i ∧ w ≠ v := by
  obtain ⟨q, hp, -, hk⟩ := hv
  have hwr := h.wrapped hp
  have hlt : v < t.size := Tree.lt_of_parent hp
  have hf (r : Role) : (t.parenthesize v).kind (t.standIn v (t.child i r)) =
    .expression .parenthesized ∨
      t.standIn v (t.child i r) = t.child i r ∧
      (t.parenthesize v).kind (t.child i r) = t.kind (t.child i r) ∧
        (t.parenthesize v).hasChild (t.child i r) .initializer =
        t.hasChild (t.child i r) .initializer := by
    by_cases hc : t.child i r = v
    · rw [hc, Tree.standIn_self]
      exact .inl hwr.kind_new
    · exact .inr ⟨Tree.standIn_of_ne hc, hwr.kind_old h.child_lt, hwr.hasChild_old h hp h.child_lt⟩
  have ht : readsAsExpression (t.parenthesize v) ((t.parenthesize v).child i .type) =
      readsAsExpression t (t.child i .type) := by
    rw [hwr.child_old h hp hi]
    by_cases hc : t.child i .type = v
    · rw [hc, Tree.standIn_self, readsAsExpression_of_isExpression hk, readsAsExpression,
        hwr.kind_new]
    · rw [Tree.standIn_of_ne hc]
      exact readsAsExpression_congr (hwr.kind_old h.child_lt)
  obtain ⟨hm, hs⟩ := pending_of_view (hwr.kind_old hi) (fun r _ => hwr.child_old h hp hi)
    (fun r _ => hf r) ht hw
  refine ⟨hm, ?_⟩
  rintro rfl
  rw [Tree.standIn_self] at hs
  exact Nat.ne_of_gt hlt hs

theorem isSwallowing_congr (hk : u.kind i = t.kind i) (hr : u.role i = t.role i)
    (hp : (u.parent i).map u.kind = (t.parent i).map t.kind) :
    isSwallowing u readable i = isSwallowing t readable i := by
  rw [isSwallowing, isSwallowing, hk, hr, hp]

theorem isSwallowing_wrapped (h : t.WellFormed) (hv : Inner root t v) :
    isSwallowing (t.parenthesize v) readable v = false := by
  obtain ⟨q, hp, -⟩ := hv
  have hwr := h.wrapped hp
  rw [isSwallowing, hwr.parent_inner, Option.map_some, hwr.kind_new]
  exact Bool.and_false _

namespace Settled

theorem parenthesize (h : t.WellFormed) (hv : Inner root t v) (hi : i < t.size)
    (hs : Settled readable root t i) : Settled readable root (t.parenthesize v) i where
  pending := by
    rw [List.eq_nil_iff_forall_not_mem]
    intro w hw
    have hm := (pending_parenthesize h hv hi hw).1
    rw [hs.pending] at hm
    simp at hm
  tame hr := by
    by_cases hiv : i = v
    · subst i
      exact isSwallowing_wrapped h hv
    · obtain ⟨q, hp, -⟩ := hv
      have hwr := h.wrapped hp
      rw [← hs.tame hr]
      refine isSwallowing_congr (hwr.kind_old hi) ?_ ?_
      · rw [hwr.role, if_neg hiv, if_neg (Nat.ne_of_lt hi)]
      · rw [hwr.parent_old hi hiv]
        cases hq : t.parent i with
        | none => rfl
        | some q' => exact congrArg some (hwr.kind_old (h.lt_parent hq))

theorem wraps (hg : g.tree.WellFormed) (hw : Wraps (Inner root) g g₁) (hi : i < g.tree.size)
    (hs : Settled readable root g.tree i) : Settled readable root g₁.tree i := by
  induction hw with
  | refl => exact hs
  | wrap hw hv ih =>
      have hgr := ((Grown.refl root hg).wraps hw).1
      exact ih.parenthesize hgr.wellFormed hv (Nat.lt_of_lt_of_le hi hgr.size_le)

end Settled

theorem pending_wrapAll {l : List NodeId} (hl : l.Nodup) (hg : g.tree.WellFormed)
    (hi : i < g.tree.size) (hb : ∀ v ∈ l, Bare root g.tree v)
    (hw : w ∈ pending (g.wrapAll l).tree readable i) : w ∈ pending g.tree readable i ∧ w ∉ l := by
  induction l generalizing g with
  | nil => exact ⟨hw, by simp⟩
  | cons v l ih =>
      have hv := hb v List.mem_cons_self
      have hgr := (Grown.refl root hg).wrap hv.inner
      obtain ⟨hvl, hl⟩ := List.nodup_cons.mp hl
      obtain ⟨hm, hn⟩ := ih (g := g.wrap v) hl hgr.wellFormed (Nat.lt_of_lt_of_le hi hgr.size_le)
        (fun w hw => hv.parenthesize hg (fun he => hvl (he ▸ hw))
          (hb w (List.mem_cons_of_mem _ hw))) hw
      obtain ⟨hm, hne⟩ := pending_parenthesize hg hv.inner hi hm
      exact ⟨hm, by simp [hne, hn]⟩

theorem visit_settles (hg : g.tree.WellFormed) (hb : g.tree.Below root i) (hi : i < g.tree.size) :
    Settled readable root (visit readable root g i).tree i := by
  have hpw := pending_wraps readable hg hb
  have hgr := hpw.grown hg
  have hlt := Nat.lt_of_lt_of_le hi hgr.size_le
  have hp : pending (g.wrapAll (pending g.tree readable i)).tree readable i = [] := by
    rw [List.eq_nil_iff_forall_not_mem]
    intro w hw
    obtain ⟨hm, hn⟩ := pending_wrapAll nodup_pending hg hi (fun _ hv => Bare.of_pending hg hb hv) hw
    exact hn hm
  rw [visit_eq]
  split
  · rename_i hs
    have hinner := (Bare.of_swallowing (hgr.below hb) hs.1 hs.2).inner
    refine ⟨?_, fun _ => isSwallowing_wrapped hgr.wellFormed hinner⟩
    rw [List.eq_nil_iff_forall_not_mem]
    intro w hw
    have hm := (pending_parenthesize hgr.wellFormed hinner hlt hw).1
    rw [hp] at hm
    simp at hm
  · rename_i hs
    exact ⟨hp, fun hr => Bool.eq_false_iff.mpr fun h => hs ⟨hr, h⟩⟩

end TreeScribe.Parentheses

namespace TreeScribe

open Parentheses

variable {t u : Tree} {g g₁ : Grouped} {readable : Bool} {root i v w x : NodeId} {r : Role}
  {fuel : Nat}

/-- Parentheses around bare nodes stay around nodes that were there before. -/
theorem Wraps.only_old (h : Wraps (Bare root) g g₁) (hg : g.tree.WellFormed) (hx : g.tree.size ≤ x)
    (hlt : x < g₁.tree.size) : ∃ c, c < g.tree.size ∧ g₁.tree.children x = [c] := by
  induction h with
  | refl => exact absurd hlt (Nat.not_lt.mpr hx)
  | wrap h hv ih =>
      rename_i g' v
      have hgr := h.grown hg
      obtain ⟨q, hp, -, -, hkv, hkq⟩ := hv
      have hwr := hgr.wellFormed.wrapped hp
      have hch := hwr.children x
      have hsize : (g'.wrap v).tree.size = g'.tree.size + 1 := hwr.size
      split at hch
      · refine ⟨v, ?_, hch⟩
        by_contra hge
        exact hkv (hgr.kind_new (Nat.not_lt.mp hge) (Tree.lt_of_parent hp))
      · rename_i hne
        rw [hsize] at hlt
        have hlt := Nat.lt_of_le_of_ne (Nat.le_of_lt_succ hlt) hne
        obtain ⟨c, hc, hk⟩ := ih hlt
        refine ⟨c, hc, hch.trans ?_⟩
        rw [hk, Tree.map_standIn_of_notMem]
        intro hm
        have hcx : g'.tree.parent c = some x := hgr.wellFormed.mem_children.mp (by rw [hk]; simp)
        cases List.mem_singleton.mp hm
        cases hcx.symm.trans hp
        exact hkq (hgr.kind_new hx hlt)

/-- There are at most as many new parentheses as there were nodes. -/
theorem Wraps.size_le (h : Wraps (Bare root) g g₁) (hg : g.tree.WellFormed) :
    g₁.tree.size ≤ 2 * g.tree.size := by
  have hgr := h.grown hg
  let inside (x : NodeId) : NodeId := (g₁.tree.children x).headD .null
  have hin (x : Nat) (hx : x ∈ List.range' g.tree.size (g₁.tree.size - g.tree.size)) :
      inside x < g.tree.size ∧ g₁.tree.parent (inside x) = some x := by
    obtain ⟨hge, hlt⟩ := List.mem_range'_1.mp hx
    have hlt : x < g₁.tree.size := by
      have := hgr.size_le
      omega
    obtain ⟨c, hc, hk⟩ := h.only_old hg hge hlt
    have hi : inside x = c := by simp only [inside, hk, List.headD_cons]
    rw [hi]
    exact ⟨hc, hgr.wellFormed.mem_children.mp (by rw [hk]; simp)⟩
  have hn : ((List.range' g.tree.size (g₁.tree.size - g.tree.size)).map inside).Nodup := by
    refine List.Nodup.map_on (fun x hx y hy he => ?_) List.nodup_range'
    have hx := (hin x hx).2
    rw [he, (hin y hy).2] at hx
    exact (Option.some.inj hx).symm
  have hl := length_le_of_nodup (n := g.tree.size) hn fun c hc => by
    obtain ⟨x, hx, rfl⟩ := List.mem_map.mp hc
    exact (hin x hx).1
  rw [List.length_map, List.length_range'] at hl
  omega

namespace Parentheses

theorem foldl_settles {f : Grouped → NodeId → Grouped} {l : List NodeId} {c : NodeId} {n : Nat}
    (hw : ∀ g c, g.tree.WellFormed → g.tree.Below root c → Wraps (Bare root) g (f g c))
    (hf : ∀ g c, g.tree.WellFormed → g.tree.Below root c →
      (∀ g₁, Wraps (Bare root) g g₁ → g₁.tree.size ≤ n) →
      n ≤ fuel + g.tree.depth c → ∀ x, x < g.tree.size → g.tree.Below c x →
      Settled readable root (f g c).tree x)
    (hg : g.tree.WellFormed) (hl : ∀ c ∈ l, g.tree.Below root c ∧ c < g.tree.size ∧
      n ≤ fuel + g.tree.depth c)
    (hn : ∀ g₁, Wraps (Bare root) g g₁ → g₁.tree.size ≤ n) (hc : c ∈ l) (hx : x < g.tree.size)
    (hb : g.tree.Below c x) : Settled readable root (l.foldl f g).tree x := by
  induction l generalizing g with
  | nil => simp at hc
  | cons d l ih =>
      obtain ⟨hbd, hd, hdn⟩ := hl d List.mem_cons_self
      have hwd := hw g d hg hbd
      have hgr := hwd.grown hg
      have hlt := Nat.lt_of_lt_of_le hx hgr.size_le
      rcases List.mem_cons.mp hc with rfl | hc
      · have hs := hf g c hg hbd hn hdn x hx hb
        refine hs.wraps hgr.wellFormed ((foldl_wraps hw hgr.wellFormed fun e he => ?_).mono
          fun _ _ => Bare.inner) hlt
        exact hgr.below (hl e (List.mem_cons_of_mem _ he)).1
      · refine ih hgr.wellFormed (fun e he => ?_) (fun g₁ h => hn g₁ (hwd.trans h))
          hc hlt (hgr.below hb)
        obtain ⟨hbe, he, hen⟩ := hl e (List.mem_cons_of_mem _ he)
        exact ⟨hgr.below hbe, Nat.lt_of_lt_of_le he hgr.size_le,
          Nat.le_trans hen (Nat.add_le_add_left (hgr.depth_le he) _)⟩

/-- The walk settles all nodes below the one it is called for, if its fuel and the depth of that
node make up for the nodes there can be. -/
theorem walk_settles {n : Nat} (hg : g.tree.WellFormed) (hb : g.tree.Below root i)
    (hn : ∀ g₁, Wraps (Bare root) g g₁ → g₁.tree.size ≤ n) (hf : n ≤ fuel + g.tree.depth i)
    (hx : x < g.tree.size) (hbx : g.tree.Below i x) :
    Settled readable root (walk readable root fuel g i).tree x := by
  induction fuel generalizing g i x with
  | zero =>
      have hd := hg.depth_lt (hg.lt_of_below hbx hx)
      have hs := hn g .refl
      omega
  | succ fuel ih =>
      have hv := visit_wraps readable hg hb
      have hgr := hv.grown hg
      have hwf := hgr.wellFormed
      have hi := hg.lt_of_below hbx hx
      have hl (c : NodeId) (hc : c ∈ (visit readable root g i).tree.children i) :
          (visit readable root g i).tree.Below root c ∧ c < (visit readable root g i).tree.size ∧
            n ≤ fuel + (visit readable root g i).tree.depth c := by
        have hp := hwf.mem_children.mp hc
        refine ⟨(hgr.below hb).child hp, Tree.lt_of_parent hp, ?_⟩
        have hd := hwf.depth_of_parent hp
        have hle := hgr.depth_le hi
        omega
      have hlt := Nat.lt_of_lt_of_le hx hgr.size_le
      have hwl := foldl_wraps (fun _ _ => walk_wraps readable fuel) hwf fun c hc => (hl c hc).1
      rw [walk]
      rcases (hgr.below hbx).cases_top with rfl | ⟨c, hc, hbc⟩
      · exact (visit_settles hg hb hi).wraps hwf (hwl.mono fun _ _ => Bare.inner) hlt
      · exact foldl_settles (fun _ _ => walk_wraps readable fuel)
          (fun _ _ hg hb hn hf x hx hbx => ih hg hb hn hf hx hbx) hwf hl
          (fun g₁ h => hn g₁ (hv.trans h)) (hwf.mem_children.mpr hc) hlt hbc

theorem insert_settles (h : t.WellFormed) (hx : x < t.size) (hb : t.Below root x) :
    Settled readable root (insert t root readable).tree x :=
  walk_settles (n := 2 * t.size) h .self (fun _ hw => hw.size_le h) (Nat.le_add_right _ _) hx hb

/-- A walk over settled nodes leaves everything as it is. -/
theorem walk_of_settled (h : g.tree.WellFormed) (fuel : Nat) (hb : g.tree.Below root i)
    (hs : ∀ x, g.tree.Below root x → Settled readable root g.tree x) :
    walk readable root fuel g i = g := by
  induction fuel generalizing i with
  | zero => rfl
  | succ fuel ih =>
      have hi := hs i hb
      have hv : visit readable root g i = g := by
        rw [visit_eq, hi.pending, show g.wrapAll [] = g from rfl, if_neg]
        rintro ⟨hr, hsw⟩
        rw [hi.tame hr] at hsw
        cases hsw
      rw [walk, hv]
      have hl : ∀ c ∈ g.tree.children i, g.tree.Below root c :=
        fun c hc => hb.child (h.mem_children.mp hc)
      generalize g.tree.children i = l at hl
      induction l with
      | nil => rfl
      | cons c l ihl =>
          rw [List.foldl_cons, ih (hl c List.mem_cons_self)]
          exact ihl fun d hd => hl d (List.mem_cons_of_mem _ hd)

end Parentheses

end TreeScribe
