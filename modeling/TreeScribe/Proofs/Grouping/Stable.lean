import Mathlib.Data.List.Find
import TreeScribe.Proofs.Grouping.Reading
import TreeScribe.Proofs.Grouping.Settled

namespace TreeScribe

variable {t u : Tree} {g g₁ : Grouped} {readable : Bool} {root i p q s v w x y : NodeId}

namespace Tree.Wrapped

variable (h : t.WellFormed) (hv : t.parent v = some q) (hw : Wrapped t v u)

include hv hw in
theorem parent_standIn (hx : x < t.size) : u.parent (t.standIn v x) = t.parent x := by
  by_cases hxv : x = v
  · rw [hxv, standIn_self, hw.parent_new hv, hv]
  · rw [standIn_of_ne hxv, hw.parent_old hx hxv]

include h hv hw in
theorem siblingsAfter_standIn (hx : x < t.size) :
    u.siblingsAfter (t.standIn v x) = (t.siblingsAfter x).map (t.standIn v) := by
  have hp := hw.parent_standIn hv hx
  cases hq : t.parent x with
  | none =>
      rw [h.siblingsAfter_of_parent_none hq,
        hw.wellFormed.siblingsAfter_of_parent_none (hp.trans hq)]
      rfl
  | some p =>
      obtain ⟨l₁, l₂, hk⟩ := h.exists_split hq
      rw [h.siblingsAfter_eq hk]
      have hl : u.children p = l₁.map (t.standIn v) ++ t.standIn v x :: l₂.map (t.standIn v) := by
        rw [hw.children, if_neg (Nat.ne_of_lt (h.lt_parent hq)), hk, List.map_append, List.map_cons]
      exact hw.wellFormed.siblingsAfter_eq hl

include hw in
theorem siblingsAfter_inner : u.siblingsAfter v = [] := by
  have hl : u.children t.size = [] ++ v :: [] := by
    rw [hw.children, if_pos rfl]
    rfl
  exact hw.wellFormed.siblingsAfter_eq hl

end Tree.Wrapped

namespace Ambiguity

theorem nextOperand_standIn (h : t.WellFormed) (hv : t.parent v = some q)
    (hk : (t.kind v).isExpression = true) (hw : Tree.Wrapped t v u) (hx : x < t.size) :
    nextOperand u (t.standIn v x) = (nextOperand t x).map (t.standIn v) := by
  rw [nextOperand, hw.siblingsAfter_standIn h hv hx, List.find?_map]
  refine congrArg _ (List.find?_congr fun s hs => ?_)
  have hlt := h.lt_of_mem_siblingsAfter hs
  simp only [Function.comp]
  by_cases hsv : s = v
  · rw [hsv, Tree.standIn_self, hw.kind_new]
    cases hkv : t.kind v with
    | expression k => rfl
    | _ => simp [hkv, Kind.isExpression] at hk
  · rw [Tree.standIn_of_ne hsv, hw.kind_old hlt]

/-- The places where a reading is in the tree with new parentheses around `v`, and where it was
before. -/
def Place (t : Tree) (v y x : NodeId) : Prop := x < t.size ∧ (y = t.standIn v x ∨ y = x)

theorem moves_parenthesize (h : t.WellFormed) (hv : t.parent v = some q)
    (hk : (t.kind v).isExpression = true) (hy : Place t v y x) :
    Moves t (t.parenthesize v) (t.standIn v) (Place t v) y x := by
  have hw := h.wrapped hv
  obtain ⟨hlt, hy⟩ := hy
  by_cases hyx : y = t.standIn v x
  · subst y
    by_cases hl : ∃ p op, t.parent x = some p ∧ t.kind p = .expression (.binary op) ∧
      t.role x = .left
    · obtain ⟨p, op, hp, hkp, hr⟩ := hl
      refine .operator (onward_of_left ?_ ?_ ?_) (onward_of_left hp hkp hr)
        ⟨h.lt_parent hp, .inr rfl⟩
      · rw [hw.parent_standIn hv hlt, hp]
      · rw [hw.kind_old (h.lt_parent hp), hkp]
      · rw [hw.role_standIn hlt, hr]
    · have ht : onward t x = onward.outward t x :=
        onward_of_not_left fun p op hp hkp hr => hl ⟨p, op, hp, hkp, hr⟩
      have hu : onward (t.parenthesize v) (t.standIn v x) =
          onward.outward (t.parenthesize v) (t.standIn v x) := by
        refine onward_of_not_left fun p op hp hkp hr => hl ⟨p, op, ?_⟩
        rw [hw.parent_standIn hv hlt] at hp
        rw [hw.kind_old (h.lt_parent hp)] at hkp
        rw [hw.role_standIn hlt] at hr
        exact ⟨hp, hkp, hr⟩
      rw [onward.outward] at ht hu
      rw [nextOperand_standIn h hv hk hw hlt, hw.parent_standIn hv hlt] at hu
      cases hn : nextOperand t x with
      | some s =>
          rw [hn] at ht hu
          exact .sibling hu ht ⟨h.lt_of_mem_siblingsAfter (List.mem_of_find?_eq_some hn), .inl rfl⟩
      | none =>
          rw [hn] at ht hu
          cases hp : t.parent x with
          | none =>
              rw [hp] at hu
              exact .stop hu
          | some p =>
              rw [hp] at ht hu
              exact .parent hu ht ⟨h.lt_parent hp, .inr rfl⟩
  · have hxv : x = v := by
      by_contra hne
      rw [Tree.standIn_of_ne hne] at hyx
      rcases hy with hy | hy
      · rw [Tree.standIn_of_ne hne] at hy
        exact hyx hy
      · exact hyx hy
    have hyv : y = v := (hy.resolve_left hyx).trans hxv
    subst x y
    refine .leave (p := t.size) ?_ ⟨hlt, .inl Tree.standIn_self.symm⟩
    rw [onward_of_not_left, onward.outward, nextOperand, hw.siblingsAfter_inner, hw.parent_inner]
    · rfl
    · intro p op hp hkp
      cases hp.symm.trans hw.parent_inner
      rw [hw.kind_new] at hkp
      cases hkp

theorem pending_of_closing {op : BinaryOperator} (readable : Bool) (h : t.WellFormed)
    (hv : t.parent v = some q) (hk : t.kind v = .expression (.binary .less))
    (hq : t.kind q = .expression (.binary op)) (hop : op = .greater ∨ op = .shiftRight)
    (hc : t.child q .right = v) : v ∈ Parentheses.pending t readable q := by
  have hl : Precedence.relational <
      Parentheses.rightLevel readable op (.expression (.binary .less)) := by
    rcases hop with rfl | rfl <;> cases readable <;> decide
  refine Parentheses.mem_pending_iff.mpr ⟨.right, by decide, _, hc, by rw [hq, hk]; rfl, ?_⟩
  rw [Parentheses.needsParens, Bool.and_eq_true, bne_iff_ne, Bool.or_eq_true]
  refine ⟨h.ne_null hv, .inl (decide_eq_true ?_)⟩
  rw [Tree.precedence, hk]
  exact hl

theorem echo_parenthesize (h : t.WellFormed) (hv : t.parent v = some q)
    (hk : t.kind v = .expression (.binary .less)) (hs : Parentheses.pending t readable q = []) :
    Echo t (t.parenthesize v) (t.standIn v) := by
  have hw := h.wrapped hv
  refine ⟨?_, fun {x} hx => ?_, fun {x r} hx _ => hw.child_old h hv hx,
    fun {x op} hx hkx hop hp => ?_⟩
  · rw [hw.size]
    exact Nat.le_succ _
  · by_cases hxv : x = v
    · rw [hxv, Tree.standIn_self]
      exact .inl hw.kind_new
    · exact .inr ⟨Tree.standIn_of_ne hxv, hw.kind_old hx⟩
  · by_cases hc : t.child x .right = v
    · have hxq : x = q := by
        have hm := (Tree.role_child (t := t) (i := x) (r := .right) (hc ▸ h.ne_null hv)).1
        rw [hc, h.mem_children, hv] at hm
        exact (Option.some.inj hm).symm
      subst x
      have hm := pending_of_closing readable h hv hk hkx hop hc
      rw [hs] at hm
      simp at hm
    · rwa [Tree.standIn_of_ne hc, hw.kind_old h.child_lt] at hp

/-- New parentheses around a comparison make none ambiguous. -/
theorem isAmbiguous_of_parenthesize (h : t.WellFormed) (hv : t.parent v = some q)
    (hk : t.kind v = .expression (.binary .less)) (hs : Parentheses.pending t readable q = [])
    (hx : x < t.size) (ha : isAmbiguous (t.parenthesize v) x = true) : isAmbiguous t x = true := by
  have hke : (t.kind v).isExpression = true := by rw [hk]; rfl
  exact isAmbiguous_of_echo (R := Place t v) h (echo_parenthesize h hv hk hs) (fun _ _ hy => hy.1)
    (fun _ _ => moves_parenthesize h hv hke) ⟨hx, .inr rfl⟩ ha

end Ambiguity

def AllSettled (readable : Bool) (root : NodeId) (t : Tree) : Prop :=
  ∀ x, t.Below root x → Parentheses.Settled readable root t x

theorem Grown.root_lt_of_lt (h : Grown root t u) (hr : root < u.size) : root < t.size := by
  by_contra hge
  exact hge (h.root_lt (Nat.lt_of_le_of_lt (Nat.not_lt.mp hge) hr))

theorem Grown.allSettled (h : Grown root t u) (hs : ∀ x, x < t.size → t.Below root x →
    Parentheses.Settled readable root u x) : AllSettled readable root u := by
  intro x hx
  rcases Nat.lt_or_ge x u.size with hu | hu
  · rcases Nat.lt_or_ge x t.size with ht | ht
    · exact hs x ht (h.below_old (h.root_lt_of_lt (h.wellFormed.lt_of_below hx hu)) ht hx)
    · exact Parentheses.settled_of_parenthesized (h.kind_new ht hu)
  · refine Parentheses.settled_of_null ?_
    rw [Tree.kind, Tree.node_of_size_le hu]
    rfl

theorem insert_allSettled (root : NodeId) (readable : Bool) (h : t.WellFormed) :
    AllSettled readable root (Parentheses.insert t root readable).tree :=
  (insert_grown root readable h).1.allSettled fun _ hx hb => Parentheses.insert_settles h hx hb

theorem AllSettled.wraps (hg : g.tree.WellFormed) (hw : Wraps (Inner root) g g₁)
    (hs : AllSettled readable root g.tree) : AllSettled readable root g₁.tree :=
  ((Grown.refl root hg).wraps hw).1.allSettled fun x hx hb => (hs x hb).wraps hg hw hx

def InParens (t : Tree) (v : NodeId) : Prop :=
  ∃ q, t.parent v = some q ∧ t.kind q = .expression .parenthesized

theorem InParens.parenthesize (h : t.WellFormed) (hv : Inner root t v) (hw : InParens t w) :
    InParens (t.parenthesize v) w := by
  obtain ⟨q, hp, -⟩ := hv
  obtain ⟨p, hpw, hk⟩ := hw
  have hwr := h.wrapped hp
  by_cases hwv : w = v
  · subst w
    exact ⟨_, hwr.parent_inner, hwr.kind_new⟩
  · exact ⟨p, (hwr.parent_old (Tree.lt_of_parent hpw) hwv).trans hpw,
      (hwr.kind_old (h.lt_parent hpw)).trans hk⟩

theorem InParens.wraps (hg : g.tree.WellFormed) (hw : Wraps (Inner root) g g₁)
    (h : InParens g.tree w) : InParens g₁.tree w := by
  induction hw with
  | refl => exact h
  | wrap hw hv ih => exact ih.parenthesize ((Grown.refl root hg).wraps hw).1.wellFormed hv

namespace Ambiguity

def Comparison (root : NodeId) (t : Tree) (v : NodeId) : Prop :=
  Inner root t v ∧ t.kind v = .expression (.binary .less)

theorem Comparison.parenthesize (h : t.WellFormed) (hv : Comparison root t v)
    (hw : Comparison root t w) : Comparison root (t.parenthesize v) w := by
  refine ⟨hv.1.parenthesize h hw.1, ?_⟩
  obtain ⟨⟨q, hp, -⟩, -⟩ := hv
  obtain ⟨⟨p, hpw, -⟩, hk⟩ := hw
  rw [(h.wrapped hp).kind_old (Tree.lt_of_parent hpw), hk]

theorem comparison_of_mem_found (h : t.WellFormed) (hv : v ∈ found t root) : Comparison root t v :=
  ⟨inner_of_mem_found h hv, ((mem_found_iff h).mp hv).2.1⟩

theorem resolve_comparisons (root : NodeId) (h : t.WellFormed) :
    Wraps (Comparison root) ⟨t, 0⟩ (resolve t root) :=
  wrapAll_wraps (g := ⟨t, 0⟩) (R := fun _ _ => True) (List.pairwise_of_forall fun _ _ => trivial) h
    (fun _ _ _ => And.left) (fun _ _ _ h _ hv hw => hv.parenthesize h hw) fun _ hv =>
    comparison_of_mem_found h hv

/-- The second pass makes no comparison ambiguous. -/
theorem isAmbiguous_of_wraps (hg : g.tree.WellFormed) (hs : AllSettled readable root g.tree)
    (hw : Wraps (Comparison root) g g₁) (hx : x < g.tree.size) (ha : isAmbiguous g₁.tree x = true) :
    isAmbiguous g.tree x = true := by
  induction hw with
  | refl => exact ha
  | wrap hw hv ih =>
      have hwi := hw.mono fun _ _ => And.left
      have hgr := ((Grown.refl root hg).wraps hwi).1
      obtain ⟨⟨q, hp, hb, -⟩, hk⟩ := hv
      exact ih (isAmbiguous_of_parenthesize hgr.wellFormed hp hk ((hs.wraps hg hwi) q hb).pending
        (Nat.lt_of_lt_of_le hx hgr.size_le) ha)

theorem inParens_of_mem_wrapAll {l : List NodeId} (hg : g.tree.WellFormed)
    (hl : ∀ v ∈ l, Inner root g.tree v) (hw : w ∈ l) : InParens (g.wrapAll l).tree w := by
  induction l generalizing g with
  | nil => simp at hw
  | cons v l ih =>
      have hv := hl v List.mem_cons_self
      have hgr := (Grown.refl root hg).wrap hv
      have hl' : ∀ w ∈ l, Inner root (g.wrap v).tree w := fun w hw =>
        hv.parenthesize hg (hl w (List.mem_cons_of_mem _ hw))
      rcases List.mem_cons.mp hw with rfl | hw
      · obtain ⟨q, hp, -⟩ := hv
        have hwr := hg.wrapped hp
        exact InParens.wraps (g := g.wrap w) hgr.wellFormed
          (wrapAll_wraps (R := fun _ _ => True) (List.pairwise_of_forall fun _ _ => trivial)
            hgr.wellFormed
            (fun _ _ _ => id) (fun _ _ _ h _ hv hw => hv.parenthesize h hw) hl')
          ⟨_, hwr.parent_inner, hwr.kind_new⟩
      · exact ih (g := g.wrap v) hgr.wellFormed hl' hw

/-- After the second pass, no comparison is left to put into parentheses. -/
theorem found_resolve (h : t.WellFormed) (hs : AllSettled readable root t) :
    found (resolve t root).tree root = [] := by
  have hc := resolve_comparisons root h
  have hw := hc.mono fun _ _ => And.left
  have hgr := ((Grown.refl root h).wraps (g := ⟨t, 0⟩) hw).1
  rw [List.eq_nil_iff_forall_not_mem]
  intro v hv
  obtain ⟨⟨q, hp, hb, hq⟩, hk, ha⟩ := (mem_found_iff hgr.wellFormed).mp hv
  have hnot : ¬ InParens (resolve t root).tree v := by
    rintro ⟨q', hp', hq'⟩
    cases hp'.symm.trans hp
    exact hq hq'
  have hlt : v < t.size := by
    by_contra hge
    rw [hgr.kind_new (Nat.not_lt.mp hge) (Tree.lt_of_parent hp)] at hk
    cases hk
  have hroot := hgr.root_lt_of_lt (hgr.wellFormed.lt_of_below hb (hgr.wellFormed.lt_parent hp))
  cases hgr.below_old hroot hlt (hb.child hp) with
  | self => exact hgr.wellFormed.not_below_of_parent hp hb
  | child hb₀ hp₀ =>
      rename_i q₀
      by_cases hq₀ : t.kind q₀ = .expression .parenthesized
      · exact hnot (InParens.wraps (g := ⟨t, 0⟩) h hw ⟨q₀, hp₀, hq₀⟩)
      · have hk₀ := (hgr.kind_old hlt).symm.trans hk
        have ha₀ := isAmbiguous_of_wraps (g := ⟨t, 0⟩) h hs hc hlt ha
        have hm : v ∈ found t root := (mem_found_iff h).mpr ⟨⟨q₀, hp₀, hb₀, hq₀⟩, hk₀, ha₀⟩
        exact hnot (inParens_of_mem_wrapAll (g := ⟨t, 0⟩)
          h (fun _ hv => inner_of_mem_found h hv) hm)

end Ambiguity

theorem prepare_of_allSettled {p : Policy} (h : t.WellFormed)
    (hs : AllSettled p.readableParens root t) (hf : Ambiguity.found t root = []) :
    t.prepare root p = (⟨0, 0⟩, t) := by
  have hi : Parentheses.insert t root p.readableParens = ⟨t, 0⟩ :=
    Parentheses.walk_of_settled h _ .self hs
  rw [Tree.prepare, hi, Ambiguity.resolve, hf]
  rfl

theorem prepare_settles (h : t.WellFormed) (root : NodeId) (p : Policy) :
    AllSettled p.readableParens root (t.prepare root p).2 ∧
      Ambiguity.found (t.prepare root p).2 root = [] := by
  have hg := (insert_grown root p.readableParens h).1
  have hs := insert_allSettled root p.readableParens h
  exact ⟨hs.wraps (g := ⟨_, 0⟩) hg.wellFormed (Ambiguity.resolve_wraps hg.wellFormed),
    Ambiguity.found_resolve hg.wellFormed hs⟩

theorem prepare_prepare (h : t.WellFormed) (root : NodeId) (p : Policy) :
    (t.prepare root p).2.prepare root p = (⟨0, 0⟩, (t.prepare root p).2) := by
  obtain ⟨hs, hf⟩ := prepare_settles h root p
  exact prepare_of_allSettled (prepare_grown h root p).1.wellFormed hs hf

end TreeScribe
