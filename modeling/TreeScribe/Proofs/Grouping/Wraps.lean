import Mathlib.Logic.Function.Iterate
import TreeScribe.Grouping.Prepare
import TreeScribe.Proofs.Grouping.Operands
import TreeScribe.Proofs.Tree.Order
import TreeScribe.Proofs.Tree.Wrap

namespace TreeScribe

/-- Nodes are put into parentheses one at a time, each of them one for which `P` holds at that
time. -/
inductive Wraps (P : Tree → NodeId → Prop) (g : Grouped) : Grouped → Prop
  | refl : Wraps P g g
  | wrap {g' : Grouped} {v : NodeId} (h : Wraps P g g') (hv : P g'.tree v) : Wraps P g (g'.wrap v)

def Inner (root : NodeId) (t : Tree) (v : NodeId) : Prop :=
  ∃ q, t.parent v = some q ∧ t.Below root q ∧ (t.kind v).isExpression = true

/-- An expression properly below `root` that neither is in parentheses nor consists of them. -/
def Bare (root : NodeId) (t : Tree) (v : NodeId) : Prop :=
  ∃ q, t.parent v = some q ∧ t.Below root q ∧ (t.kind v).isExpression = true ∧
    t.kind v ≠ .expression .parenthesized ∧ t.kind q ≠ .expression .parenthesized

structure Grown (root : NodeId) (t u : Tree) : Prop where
  wellFormed : u.WellFormed
  size_le : t.size ≤ u.size
  root_lt (h : t.size < u.size) : root < t.size
  kind_old {x : NodeId} (hx : x < t.size) : u.kind x = t.kind x
  kind_new {x : NodeId} (hx : t.size ≤ x) (hu : x < u.size) : u.kind x = .expression .parenthesized
  only_new {x : NodeId} (hx : t.size ≤ x) (hu : x < u.size) : ∃ c, u.children x = [c]
  below_new {x : NodeId} (hx : t.size ≤ x) (hu : x < u.size) : u.Below root x
  below {a x : NodeId} (h : t.Below a x) : u.Below a x
  below_old {a x : NodeId} (ha : a < t.size) (hx : x < t.size) (h : u.Below a x) : t.Below a x
  depth_le {x : NodeId} (hx : x < t.size) : t.depth x ≤ u.depth x
  outside {x : NodeId} (hx : x < t.size) (hb : ¬ t.Below root x) : u.node x = t.node x
  place : u.parent root = t.parent root ∧ u.role root = t.role root ∧
    u.nextSibling root = t.nextSibling root ∧ u.prevSibling root = t.prevSibling root
  erase : Tree.unwrapLast^[u.size - t.size] u = t

variable {P Q : Tree → NodeId → Prop} {g g₁ g₂ : Grouped} {t u : Tree} {root v i : NodeId}
  {readable : Bool}

theorem Bare.inner (h : Bare root t v) : Inner root t v := by
  obtain ⟨q, hp, hb, hk, -⟩ := h
  exact ⟨q, hp, hb, hk⟩

namespace Wraps

theorem mono (h : Wraps P g g₁) (hPQ : ∀ t v, P t v → Q t v) : Wraps Q g g₁ := by
  induction h with
  | refl => exact .refl
  | wrap _ hv ih => exact ih.wrap (hPQ _ _ hv)

theorem trans (h : Wraps P g g₁) (h' : Wraps P g₁ g₂) : Wraps P g g₂ := by
  induction h' with
  | refl => exact h
  | wrap _ hv ih => exact ih.wrap hv

end Wraps

namespace Grown

theorem refl (root : NodeId) (h : t.WellFormed) : Grown root t t where
  wellFormed := h
  size_le := Nat.le_refl _
  root_lt h := absurd h (Nat.lt_irrefl _)
  kind_old _ := rfl
  kind_new hx hu := absurd hu (Nat.not_lt.mpr hx)
  only_new hx hu := absurd hu (Nat.not_lt.mpr hx)
  below_new hx hu := absurd hu (Nat.not_lt.mpr hx)
  below h := h
  below_old _ _ h := h
  depth_le _ := Nat.le_refl _
  outside _ _ := rfl
  place := ⟨rfl, rfl, rfl, rfl⟩
  erase := by rw [Nat.sub_self]; rfl

theorem wrap (h : Grown root t u) (hv : Inner root u v) : Grown root t (u.parenthesize v) := by
  obtain ⟨q, hp, hb, -⟩ := hv
  have hu := h.wellFormed
  have hw := hu.wrapped hp
  have hroot : root < t.size := by
    rcases Nat.eq_or_lt_of_le h.size_le with he | hlt
    · rw [he]
      exact hu.lt_of_below hb (hu.lt_parent hp)
    · exact h.root_lt hlt
  refine ⟨hw.wellFormed, ?_, fun _ => hroot, fun {x} hx => ?_, fun {x} hx hlt => ?_,
    fun {x} hx hlt => ?_,
    fun {x} hx hlt => ?_, fun {a x} hax => ?_, fun {a x} ha hx hax => ?_, fun {x} hx => ?_,
    fun {x} hx hbx => ?_, ?_, ?_⟩
  · rw [hw.size]
    exact Nat.le_succ_of_le h.size_le
  · rw [hw.kind_old (Nat.lt_of_lt_of_le hx h.size_le), h.kind_old hx]
  · rw [hw.kind]
    split
    · rfl
    · rename_i hne
      rw [hw.size] at hlt
      exact h.kind_new hx (Nat.lt_of_le_of_ne (Nat.le_of_lt_succ hlt) hne)
  · rw [hw.children]
    split
    · exact ⟨v, rfl⟩
    · rename_i hne
      rw [hw.size] at hlt
      obtain ⟨c, hc⟩ := h.only_new hx (Nat.lt_of_le_of_ne (Nat.le_of_lt_succ hlt) hne)
      exact ⟨_, by rw [hc]; rfl⟩
  · rw [hw.size] at hlt
    rcases Nat.eq_or_lt_of_le (Nat.le_of_lt_succ hlt) with rfl | hlt
    · exact (hw.below hp hb).child (hw.parent_new hp)
    · exact hw.below hp (h.below_new hx hlt)
  · exact hw.below hp (h.below hax)
  · have ha' := Nat.lt_of_lt_of_le ha h.size_le
    exact h.below_old ha hx ((hw.below_old hu hp ha' hax).1 (Nat.lt_of_lt_of_le hx h.size_le))
  · exact Nat.le_trans (h.depth_le hx) (hw.depth_le hu hp (Nat.lt_of_lt_of_le hx h.size_le))
  · rw [hw.node_of_not_below hu hp (Nat.lt_of_lt_of_le hx h.size_le) hb, h.outside hx hbx]
    exact fun hbu => hbx (h.below_old hroot hx hbu)
  · obtain ⟨h₁, h₂, h₃, h₄⟩ := hw.place_of_above hu hp hb
    obtain ⟨h₁', h₂', h₃', h₄'⟩ := h.place
    exact ⟨h₁.trans h₁', h₂.trans h₂', h₃.trans h₃', h₄.trans h₄'⟩
  · have hs : (u.parenthesize v).size - t.size = (u.size - t.size) + 1 := by
      rw [hw.size]
      have := h.size_le
      omega
    rw [hs, Function.iterate_succ_apply, hw.unwrapLast_eq hu hp, h.erase]

end Grown

theorem Grown.wraps (hg : Grown root t g.tree) (h : Wraps (Inner root) g g₁) :
    Grown root t g₁.tree ∧ g₁.tree.size + g.added = g.tree.size + g₁.added := by
  induction h with
  | refl => exact ⟨hg, rfl⟩
  | wrap _ hv ih =>
      rename_i g' v _
      refine ⟨ih.1.wrap hv, ?_⟩
      obtain ⟨q, hp, -⟩ := hv
      have hs : (g'.wrap v).tree.size = g'.tree.size + 1 := (ih.1.wellFormed.wrapped hp).size
      have ha : (g'.wrap v).added = g'.added + 1 := rfl
      rw [hs, ha]
      omega

theorem Wraps.grown (h : Wraps (Bare root) g g₁) (hg : g.tree.WellFormed) :
    Grown root g.tree g₁.tree :=
  ((Grown.refl root hg).wraps (h.mono fun _ _ => Bare.inner)).1

/-- Wrapping the nodes of a list is a run if wrapping one of them leaves `P` as it was for the later
ones. -/
theorem wrapAll_wraps {R : NodeId → NodeId → Prop} {l : List NodeId} (hl : l.Pairwise R)
    (hg : g.tree.WellFormed) (hP : ∀ t v, t.WellFormed → P t v → Inner root t v)
    (hR : ∀ t v w, t.WellFormed → R v w → P t v → P t w → P (t.parenthesize v) w)
    (h : ∀ v ∈ l, P g.tree v) : Wraps P g (g.wrapAll l) := by
  induction l generalizing g with
  | nil => exact .refl
  | cons v l ih =>
      rw [List.pairwise_cons] at hl
      have hv := h v List.mem_cons_self
      obtain ⟨q, hp, -⟩ := hP _ _ hg hv
      have hw := (hg.wrapped hp).wellFormed
      refine Wraps.trans (.wrap .refl hv) (ih (g := g.wrap v) hl.2 hw fun w hw => ?_)
      exact hR _ _ _ hg (hl.1 w hw) hv (h w (List.mem_cons_of_mem _ hw))

namespace Inner

theorem parenthesize {w : NodeId} (h : t.WellFormed) (hv : Inner root t v) (hw : Inner root t w) :
    Inner root (t.parenthesize v) w := by
  obtain ⟨q, hp, hb, -⟩ := hv
  obtain ⟨q', hp', hb', hk⟩ := hw
  have hwr := h.wrapped hp
  have hlt := Tree.lt_of_parent hp'
  rw [← hwr.kind_old hlt] at hk
  by_cases hwv : w = v
  · subst w
    exact ⟨_, hwr.parent_inner, (hwr.below hp hb).child (hwr.parent_new hp), hk⟩
  · exact ⟨q', (hwr.parent_old hlt hwv).trans hp', hwr.below hp hb', hk⟩

end Inner

namespace Bare

theorem parenthesize {w : NodeId} (h : t.WellFormed) (hne : v ≠ w) (hv : Bare root t v)
    (hw : Bare root t w) : Bare root (t.parenthesize v) w := by
  obtain ⟨q, hp, hb, -⟩ := hv
  obtain ⟨q', hp', hb', hk, hn, hq⟩ := hw
  have hwr := h.wrapped hp
  have hlt := Tree.lt_of_parent hp'
  refine ⟨q', (hwr.parent_old hlt (Ne.symm hne)).trans hp', hwr.below hp hb', ?_, ?_, ?_⟩
  · rwa [hwr.kind_old hlt]
  · rwa [hwr.kind_old hlt]
  · rwa [hwr.kind_old (h.lt_parent hp')]

theorem of_pending (h : t.WellFormed) (hb : t.Below root i)
    (hw : v ∈ Parentheses.pending t readable i) : Bare root t v := by
  obtain ⟨hc, hi, k, hk, hkp⟩ := Parentheses.mem_pending_imp hw
  refine ⟨i, h.mem_children.mp hc, hb, ?_, ?_, hi⟩
  · rw [hk]
    rfl
  · rw [hk]
    simpa using hkp

theorem of_swallowing (hb : t.Below root i) (hi : i ≠ root)
    (hs : Parentheses.isSwallowing t readable i = true) : Bare root t i := by
  cases hb with
  | self => exact absurd rfl hi
  | child hb hp =>
      rename_i q
      rw [Parentheses.isSwallowing, Bool.and_eq_true, hp, Option.map_some] at hs
      obtain ⟨hk, hq⟩ := hs
      refine ⟨q, hp, hb, ?_, ?_, ?_⟩
      · unfold Parentheses.isLambdaOrQuery at hk
        split at hk <;> simp_all [Kind.isExpression]
      · intro he
        rw [he] at hk
        cases hk
      · intro he
        rw [he] at hq
        cases hq

end Bare

namespace Parentheses

theorem visit_eq : visit readable root g i =
    (if i ≠ root ∧ isSwallowing (g.wrapAll (pending g.tree readable i)).tree readable i then
      (g.wrapAll (pending g.tree readable i)).wrap i
    else g.wrapAll (pending g.tree readable i)) := rfl

theorem pending_wraps (readable : Bool) (hg : g.tree.WellFormed) (hb : g.tree.Below root i) :
    Wraps (Bare root) g (g.wrapAll (pending g.tree readable i)) :=
  wrapAll_wraps (R := (· ≠ ·)) nodup_pending hg (fun _ _ _ => Bare.inner)
    (fun _ _ _ h hne hv hw => hv.parenthesize h hne hw) fun _ hw => .of_pending hg hb hw

theorem visit_wraps (readable : Bool) (hg : g.tree.WellFormed) (hb : g.tree.Below root i) :
    Wraps (Bare root) g (visit readable root g i) := by
  have hw := pending_wraps readable hg hb
  have hgr := hw.grown hg
  rw [visit_eq]
  split
  · rename_i hs
    exact hw.wrap (.of_swallowing (hgr.below hb) hs.1 hs.2)
  · exact hw

theorem foldl_wraps {f : Grouped → NodeId → Grouped} {l : List NodeId}
    (hf : ∀ g c, g.tree.WellFormed → g.tree.Below root c → Wraps (Bare root) g (f g c))
    (hg : g.tree.WellFormed) (hl : ∀ c ∈ l, g.tree.Below root c) :
    Wraps (Bare root) g (l.foldl f g) := by
  induction l generalizing g with
  | nil => exact .refl
  | cons c l ih =>
      have hc := hf g c hg (hl c List.mem_cons_self)
      have hgr := hc.grown hg
      exact hc.trans (ih hgr.wellFormed fun d hd => hgr.below (hl d (List.mem_cons_of_mem _ hd)))

theorem walk_wraps (readable : Bool) (fuel : Nat) (hg : g.tree.WellFormed)
    (hb : g.tree.Below root i) : Wraps (Bare root) g (walk readable root fuel g i) := by
  induction fuel generalizing g i with
  | zero => exact .refl
  | succ fuel ih =>
      have hv := visit_wraps readable hg hb
      have hgr := hv.grown hg
      refine hv.trans (foldl_wraps (fun _ _ => ih) hgr.wellFormed fun c hc => ?_)
      exact (hgr.below hb).child (hgr.wellFormed.mem_children.mp hc)

end Parentheses

namespace Ambiguity

theorem mem_found_iff (h : t.WellFormed) : v ∈ found t root ↔
    (∃ q, t.parent v = some q ∧ t.Below root q ∧ t.kind q ≠ .expression .parenthesized) ∧
      t.kind v = .expression (.binary .less) ∧ isAmbiguous t v = true := by
  simp only [found, List.mem_filter, h.mem_descendants, Bool.and_eq_true, decide_eq_true_eq,
    Option.all_eq_true, bne_iff_ne]
  constructor
  · rintro ⟨⟨q, hp, hb⟩, ⟨hk, hq⟩, ha⟩
    exact ⟨⟨q, hp, hb, hq q hp⟩, hk, ha⟩
  · rintro ⟨⟨q, hp, hb, hq⟩, hk, ha⟩
    refine ⟨⟨q, hp, hb⟩, ⟨hk, fun q' hp' => ?_⟩, ha⟩
    cases hp'.symm.trans hp
    exact hq

theorem inner_of_mem_found (h : t.WellFormed) (hv : v ∈ found t root) : Inner root t v := by
  obtain ⟨⟨q, hp, hb, -⟩, hk, -⟩ := (mem_found_iff h).mp hv
  refine ⟨q, hp, hb, ?_⟩
  rw [hk]
  rfl

theorem resolve_wraps (h : t.WellFormed) : Wraps (Inner root) ⟨t, 0⟩ (resolve t root) :=
  wrapAll_wraps (g := ⟨t, 0⟩) (R := fun _ _ => True) (List.pairwise_of_forall fun _ _ => trivial) h
    (fun _ _ _ => id) (fun _ _ _ h _ hv hw => hv.parenthesize h hw) fun _ hv =>
    inner_of_mem_found h hv

end Ambiguity

theorem insert_grown (root : NodeId) (readable : Bool) (h : t.WellFormed) :
    Grown root t (Parentheses.insert t root readable).tree ∧
      (Parentheses.insert t root readable).tree.size = t.size +
      (Parentheses.insert t root readable).added :=
  (Grown.refl root h).wraps (g := ⟨t, 0⟩)
    ((Parentheses.walk_wraps readable _ h .self).mono fun _ _ => Bare.inner)

theorem prepare_grown (h : t.WellFormed) (root : NodeId) (p : Policy) :
    Grown root t (t.prepare root p).2 ∧
      (t.prepare root p).2.size =
        t.size + ((t.prepare root p).1.parentheses + (t.prepare root p).1.ambiguities) := by
  obtain ⟨hg, hs⟩ := insert_grown root p.readableParens h
  obtain ⟨hg', hs'⟩ := hg.wraps (g := ⟨_, 0⟩) (Ambiguity.resolve_wraps hg.wellFormed)
  refine ⟨hg', hs'.trans ?_⟩
  rw [hs, Nat.add_assoc]
  rfl

/-- Preparing only puts nodes below the root into new parentheses, as many as it counts. Taking
these away again, the last one first, gives back the tree; the root keeps its place, and what is not
below it is not touched. -/
theorem prepare_only_encloses (h : t.WellFormed) (root : NodeId) (p : Policy) :
    let done := (t.prepare root p).1
    let u := (t.prepare root p).2
    u.WellFormed ∧ u.size = t.size + (done.parentheses + done.ambiguities) ∧
    (∀ x, t.size ≤ x → x < u.size → u.kind x = .expression .parenthesized ∧
      (∃ c, u.children x = [c]) ∧
      u.isAncestorOrSelf root x = true) ∧
    Tree.unwrapLast^[done.parentheses + done.ambiguities] u = t ∧
    (u.parent root = t.parent root ∧ u.role root = t.role root ∧
      u.nextSibling root = t.nextSibling root ∧
      u.prevSibling root = t.prevSibling root) ∧
    ∀ x, x < t.size → t.isAncestorOrSelf root x = false → u.node x = t.node x := by
  obtain ⟨hg, hs⟩ := prepare_grown h root p
  refine ⟨hg.wellFormed, hs, fun x hx hlt => ⟨hg.kind_new hx hlt, hg.only_new hx hlt, ?_⟩, ?_,
    hg.place, fun x hx hb => hg.outside hx fun hbx => ?_⟩
  · exact hg.wellFormed.isAncestorOrSelf_eq_true_iff.mpr (hg.below_new hx hlt)
  · have he := hg.erase
    rwa [hs, Nat.add_sub_cancel_left] at he
  · rw [h.isAncestorOrSelf_eq_true_iff.mpr hbx] at hb
    cases hb

/-- The statement `(this + base) * null;`, its sum without parentheses. -/
def productOfSum : Tree :=
  .planted [.statement .expression, .expression (.binary .multiply), .expression (.binary .add),
      .expression .thisRef, .expression .baseRef, .expression .nullRef]
    [(1, .expression, 2), (2, .left, 3), (2, .right, 6), (3, .left, 4), (3, .right, 5)]

/-- A sum among the factors of a product is put into parentheses; the product stays where it was. -/
theorem prepare_only_encloses_sum :
    productOfSum.WellFormed ∧ (productOfSum.prepare 2 .compact).1 = ⟨1, 0⟩ ∧
    (productOfSum.prepare 2 .compact).2.children 2 = [7, 6] ∧
    (productOfSum.prepare 2 .compact).2.size = 8 ∧
    Tree.unwrapLast^[1] (productOfSum.prepare 2 .compact).2 = productOfSum ∧
    (productOfSum.prepare 2 .compact).2.parent 2 = some 1 := by
  have hw : productOfSum.WellFormed := Tree.wellFormed_planted _ _
  have hp := prepare_only_encloses hw 2 .compact
  exact ⟨hw, rfl, rfl, hp.2.1, hp.2.2.2.1, hp.2.2.2.2.1.1⟩

end TreeScribe
