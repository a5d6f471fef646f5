import TreeScribe.Proofs.Grouping.Stable
import TreeScribe.Proofs.Sink.Recording
import TreeScribe.Render.Prepared

namespace TreeScribe

namespace Tree

/-- A token or modifier in a role of its own, with nothing below it. -/
def isFixedToken (t : Tree) (i : NodeId) : Bool :=
  (t.children i).isEmpty &&
    match t.kind i, t.role i with
    | .token, .token _ => true
    | .modifier _, .modifier => true
    | _, _ => false

def constituents (t : Tree) (i : NodeId) : List NodeId :=
  (t.children i).filter fun c => !t.isFixedToken c

end Tree

structure Rewritten (u v : Tree) : Prop where
  kept : Kept u v
  same (x : NodeId) : v.constituents x = u.constituents x

variable {t u v : Tree} {c i p root s x y : NodeId} {r : Role} {readable : Bool}

theorem constituents_of_size_le (hx : t.size ≤ x) : t.constituents x = [] := by
  rw [Tree.constituents, Tree.children, Tree.firstChild, Tree.node_of_size_le hx, Node.detached,
    Tree.follow]
  cases t.size <;> rfl

theorem mem_constituents_iff (h : t.WellFormed) :
    c ∈ t.constituents p ↔ t.parent c = some p ∧ t.isFixedToken c = false := by
  rw [Tree.constituents, List.mem_filter, h.mem_children, Bool.not_eq_true']

theorem isFixedToken_of_parent (h : t.WellFormed) (hc : t.parent c = some p) :
    t.isFixedToken p = false := by
  have hm := h.mem_children.mpr hc
  cases hk : t.children p with
  | nil =>
      rw [hk] at hm
      simp at hm
  | cons a l => rw [Tree.isFixedToken, hk, List.isEmpty_cons, Bool.false_and]

theorem isFixedToken_of_kind (hk : t.isTokenNode i = false) : t.isFixedToken i = false := by
  rw [Tree.isFixedToken]
  rw [Tree.isTokenNode] at hk
  split
  · rename_i h _
    rw [h] at hk
    cases hk
  · rename_i h _
    rw [h] at hk
    cases hk
  · exact Bool.and_false _

theorem isFixedToken_of_role (hr : (t.role i).isToken = false) (hm : t.role i ≠ .modifier) :
    t.isFixedToken i = false := by
  rw [Tree.isFixedToken]
  split
  · rename_i h
    rw [h] at hr
    cases hr
  · rename_i h
    exact absurd h hm
  · exact Bool.and_false _

theorem settled_of_isTokenNode (hk : t.isTokenNode i = true) :
    Parentheses.Settled readable root t i := by
  rw [Tree.isTokenNode] at hk
  split at hk
  · rename_i h
    exact Parentheses.settled_of_kind (by rw [h]; exact fun _ _ => rfl) (by rw [h]; rfl)
  · rename_i h
    exact Parentheses.settled_of_kind (by rw [h]; exact fun _ _ => rfl) (by rw [h]; rfl)
  · cases hk

namespace Rewritten

variable (h : u.WellFormed) (hv : Rewritten u v)

include h hv

theorem parent_of_new (hx : v.isFixedToken x = false) (hp : v.parent x = some p) :
    u.parent x = some p ∧ u.isFixedToken x = false := by
  have hm := (mem_constituents_iff hv.kept.wellFormed).mpr ⟨hp, hx⟩
  rw [hv.same] at hm
  exact (mem_constituents_iff h).mp hm

theorem parent_of_old (hx : u.isFixedToken x = false) (hp : u.parent x = some p) :
    v.parent x = some p := by
  have hm := (mem_constituents_iff h).mpr ⟨hp, hx⟩
  rw [← hv.same] at hm
  exact ((mem_constituents_iff hv.kept.wellFormed).mp hm).1

theorem parent_eq (hx : v.isFixedToken x = false) (hu : u.isFixedToken x = false) :
    v.parent x = u.parent x := by
  cases hp : u.parent x with
  | some p => exact hv.parent_of_old h hu hp
  | none =>
      cases hq : v.parent x with
      | none => rfl
      | some q => rw [(hv.parent_of_new h hx hq).1] at hp; cases hp

omit h in
theorem isFixedToken_old (hlt : x < u.size) (hk : u.isTokenNode x = false) :
    v.isFixedToken x = false ∧ u.isFixedToken x = false := by
  refine ⟨isFixedToken_of_kind ?_, isFixedToken_of_kind hk⟩
  rwa [Tree.isTokenNode, hv.kept.kind_old hlt]

theorem below (hb : v.Below root x) (hx : v.isFixedToken x = false) : u.Below root x := by
  induction hb with
  | self => exact .self
  | child _ hc ih =>
      exact (ih (isFixedToken_of_parent hv.kept.wellFormed hc)).child (hv.parent_of_new h hx hc).1

theorem childrenIn_eq (hr : r.isToken = false) (hm : r ≠ .modifier) :
    v.childrenIn x r = u.childrenIn x r := by
  have hc (t : Tree) : t.childrenIn x r = (t.constituents x).filter fun c => t.role c = r := by
    rw [Tree.childrenIn, Tree.constituents, List.filter_filter]
    refine List.filter_congr fun c _ => ?_
    by_cases hcr : t.role c = r
    · rw [isFixedToken_of_role (hcr ▸ hr) (hcr ▸ hm)]
      simp
    · simp [hcr]
  rw [hc v, hc u, hv.same]
  refine List.filter_congr fun c hm => ?_
  rw [hv.kept.role_old (Tree.lt_of_parent ((mem_constituents_iff h).mp hm).1)]

theorem child_eq (hr : r.isToken = false) (hm : r ≠ .modifier) : v.child x r = u.child x r := by
  rw [Tree.child, Tree.child, hv.childrenIn_eq h hr hm]

theorem pending_subset {w : NodeId} (hx : x < u.size) (hw : w ∈ Parentheses.pending v readable x) :
    w ∈ Parentheses.pending u readable x := by
  have hr : ∀ r ∈ Parentheses.operandRoles, r.isToken = false ∧ r ≠ .modifier := by decide
  have hi (x : NodeId) : v.hasChild x .initializer = u.hasChild x .initializer := by
    rw [Tree.hasChild, Tree.hasChild, hv.child_eq h (r := .initializer) rfl (by decide)]
  refine (Parentheses.pending_of_view (f := id) (hv.kept.kind_old hx)
    (fun r hm => hv.child_eq h (hr r hm).1 (hr r hm).2)
    (fun r _ => .inr ⟨rfl, hv.kept.kind_old h.child_lt, hi _⟩) ?_ hw).1
  rw [hv.child_eq h (r := .type) rfl (by decide)]
  exact Parentheses.readsAsExpression_congr (hv.kept.kind_old h.child_lt)

theorem settled (hx : x < u.size) (hs : Parentheses.Settled readable root u x) :
    Parentheses.Settled readable root v x := by
  by_cases hk : u.isTokenNode x = true
  · refine settled_of_isTokenNode ?_
    rwa [Tree.isTokenNode, hv.kept.kind_old hx]
  · obtain ⟨hfv, hfu⟩ := hv.isFixedToken_old hx (Bool.eq_false_iff.mpr hk)
    refine ⟨?_, fun hr => ?_⟩
    · rw [List.eq_nil_iff_forall_not_mem]
      intro w hw
      have hm := hv.pending_subset h hx hw
      rw [hs.pending] at hm
      simp at hm
    · rw [← hs.tame hr]
      refine Parentheses.isSwallowing_congr (hv.kept.kind_old hx) (hv.kept.role_old hx) ?_
      rw [hv.parent_eq h hfv hfu]
      cases hp : u.parent x with
      | none => rfl
      | some p => exact congrArg some (hv.kept.kind_old (h.lt_parent hp))

theorem allSettled (hs : AllSettled readable root u) : AllSettled readable root v := by
  intro x hx
  rcases Nat.lt_or_ge x v.size with hlt | hge
  · rcases Nat.lt_or_ge x u.size with hu | hu
    · by_cases hk : u.isTokenNode x = true
      · refine settled_of_isTokenNode ?_
        rwa [Tree.isTokenNode, hv.kept.kind_old hu]
      · exact hv.settled h hu
          (hs x (hv.below h hx (hv.isFixedToken_old hu (Bool.eq_false_iff.mpr hk)).1))
    · exact settled_of_isTokenNode (hv.kept.kind_new hu hlt)
  · refine Parentheses.settled_of_null ?_
    rw [Tree.kind, Tree.node_of_size_le hge]
    rfl

end Rewritten

namespace Ambiguity

theorem isTokenNode_of_nextOperand (hn : nextOperand t x = some s) : t.isTokenNode s = false := by
  have hs := List.find?_some hn
  rw [Tree.isTokenNode]
  split
  · rename_i hk
    rw [hk] at hs
    cases hs
  · rename_i hk
    rw [hk] at hs
    cases hs
  · rfl

theorem nextOperand_eq_find? :
    nextOperand t x = ((t.siblingsAfter x).filter fun c => !t.isFixedToken c).find? fun s =>
      match t.kind s with
      | .token | .modifier _ | .special _ => false
      | _ => true := by
  rw [nextOperand, List.find?_filter]
  refine List.find?_congr fun c _ => ?_
  by_cases hk : t.isTokenNode c = true
  · rw [Tree.isTokenNode] at hk
    split at hk
    · rename_i h
      simp [h]
    · rename_i h
      simp [h]
    · cases hk
  · simp only [isFixedToken_of_kind (Bool.eq_false_iff.mpr hk), Bool.not_false, true_and]
    cases t.kind c <;> rfl

/-- The next operand is found among the constituents of the parent. -/
theorem nextOperand_rewritten (h : u.WellFormed) (hv : Rewritten u v)
    (hfv : v.isFixedToken x = false) (hfu : u.isFixedToken x = false) :
    nextOperand v x = nextOperand u x := by
  have hs : ((v.siblingsAfter x).filter fun c => !v.isFixedToken c) =
      (u.siblingsAfter x).filter fun c => !u.isFixedToken c := by
    have hp := hv.parent_eq h hfv hfu
    cases hq : u.parent x with
    | none =>
        rw [h.siblingsAfter_of_parent_none hq,
          hv.kept.wellFormed.siblingsAfter_of_parent_none (hp.trans hq)]
        rfl
    | some p =>
        obtain ⟨m₁, m₂, hm⟩ := h.exists_split hq
        obtain ⟨l₁, l₂, hl⟩ := hv.kept.wellFormed.exists_split (hp.trans hq)
        rw [h.siblingsAfter_eq hm, hv.kept.wellFormed.siblingsAfter_eq hl]
        have hsame := hv.same p
        rw [Tree.constituents, Tree.constituents, hl, hm, List.filter_append, List.filter_append,
          List.filter_cons_of_pos (by simpa using hfv),
          List.filter_cons_of_pos (by simpa using hfu)] at hsame
        obtain ⟨h₁, h₂⟩ := h.linked.notMem_of_split hm
        obtain ⟨h₁', h₂'⟩ := hv.kept.wellFormed.linked.notMem_of_split hl
        exact ((List.append_cons_inj_of_notMem (fun hx => h₁' (List.mem_of_mem_filter hx))
          (fun hx => h₂' (List.mem_of_mem_filter hx))).mp hsame).2.2
  rw [nextOperand_eq_find?, nextOperand_eq_find?, hs]
  refine List.find?_congr fun c hc => ?_
  rw [hv.kept.kind_old (h.lt_of_mem_siblingsAfter (List.mem_of_mem_filter hc))]

def Shared (u v : Tree) (y x : NodeId) : Prop :=
  y = x ∧ x < u.size ∧ v.isFixedToken x = false ∧ u.isFixedToken x = false

theorem moves_rewritten (h : u.WellFormed) (hv : Rewritten u v) (hy : Shared u v y x) :
    Moves u v id (Shared u v) y x := by
  obtain ⟨rfl, hlt, hfv, hfu⟩ := hy
  have hp := hv.parent_eq h hfv hfu
  have hup (p : NodeId) (hq : u.parent y = some p) : Shared u v p p :=
    ⟨rfl, h.lt_parent hq, isFixedToken_of_parent hv.kept.wellFormed (hp.trans hq),
      isFixedToken_of_parent h hq⟩
  by_cases hl : ∃ p op, u.parent y = some p ∧ u.kind p = .expression (.binary op) ∧ u.role y = .left
  · obtain ⟨p, op, hq, hk, hr⟩ := hl
    exact .operator (onward_of_left (hp.trans hq) ((hv.kept.kind_old (h.lt_parent hq)).trans hk)
      ((hv.kept.role_old hlt).trans hr)) (onward_of_left hq hk hr) (hup p hq)
  · have ht : onward u y = onward.outward u y :=
      onward_of_not_left fun p op hq hk hr => hl ⟨p, op, hq, hk, hr⟩
    have hu : onward v y = onward.outward v y := by
      refine onward_of_not_left fun p op hq hk hr => hl ⟨p, op, ?_⟩
      rw [hp] at hq
      rw [hv.kept.kind_old (h.lt_parent hq)] at hk
      rw [hv.kept.role_old hlt] at hr
      exact ⟨hq, hk, hr⟩
    rw [onward.outward] at ht hu
    rw [nextOperand_rewritten h hv hfv hfu, hp] at hu
    cases hn : nextOperand u y with
    | some s =>
        rw [hn] at ht hu
        have hs := h.lt_of_mem_siblingsAfter (List.mem_of_find?_eq_some hn)
        obtain ⟨hsv, hsu⟩ := hv.isFixedToken_old hs (isTokenNode_of_nextOperand hn)
        exact .sibling hu ht ⟨rfl, hs, hsv, hsu⟩
    | none =>
        rw [hn] at ht hu
        cases hq : u.parent y with
        | none =>
            rw [hq] at hu
            exact .stop hu
        | some p =>
            rw [hq] at ht hu
            exact .parent hu ht (hup p hq)

theorem echo_rewritten (h : u.WellFormed) (hv : Rewritten u v) : Echo u v id where
  size_le := hv.kept.size_le
  kind hx := .inr ⟨rfl, hv.kept.kind_old hx⟩
  child _ hr := by rcases hr with rfl | rfl | rfl <;> exact hv.child_eq h rfl nofun
  closing _ _ _ hp := by rwa [id, hv.kept.kind_old h.child_lt] at hp

theorem found_rewritten (h : u.WellFormed) (hv : Rewritten u v) (hf : found u root = []) :
    found v root = [] := by
  rw [List.eq_nil_iff_forall_not_mem]
  intro x hx
  obtain ⟨⟨q, hp, hb, hq⟩, hk, ha⟩ := (mem_found_iff hv.kept.wellFormed).mp hx
  have hlt : x < u.size := by
    by_contra hge
    have ht := hv.kept.kind_new (Nat.not_lt.mp hge) (Tree.lt_of_parent hp)
    rw [Tree.isTokenNode, hk] at ht
    cases ht
  rw [hv.kept.kind_old hlt] at hk
  obtain ⟨hfv, hfu⟩ := hv.isFixedToken_old hlt (by rw [Tree.isTokenNode, hk])
  have hpu := (hv.parent_of_new h hfv hp).1
  rw [hv.kept.kind_old (h.lt_parent hpu)] at hq
  have hm : x ∈ found u root := (mem_found_iff h).mpr
    ⟨⟨q, hpu, hv.below h hb (isFixedToken_of_parent hv.kept.wellFormed hp), hq⟩, hk,
      isAmbiguous_of_echo h (echo_rewritten h hv) (fun _ _ hy => hy.2.1)
      (fun _ _ => moves_rewritten h hv)
        ⟨rfl, hlt, hfv, hfu⟩ ha⟩
  rw [hf] at hm
  simp at hm

end Ambiguity

/-- Preparing a tree a second time changes nothing. Nor does it after the tree was prepared and
written with places, if the children of every node, its fixed tokens left out, still stand in their
order. -/
theorem prepare_idempotent (h : t.WellFormed) (root : NodeId) (p : Policy) :
    let u := (t.prepare root p).2
    u.prepare root p = (⟨0, 0⟩, u) ∧
    ∀ cancellation, let v := (u.preparePlaced p cancellation root).2
      (∀ x, v.constituents x = u.constituents x) → v.prepare root p = (⟨0, 0⟩, v) := by
  intro u
  have hu : u.WellFormed := (prepare_grown h root p).1.wellFormed
  have hp : u.prepare root p = (⟨0, 0⟩, u) := prepare_prepare h root p
  obtain ⟨hs, hf⟩ := prepare_settles h root p
  refine ⟨hp, fun cancellation => ?_⟩
  intro v hsame
  have hv : v = u ∨ Kept u v := by
    simp only [v, Tree.preparePlaced, hp]
    split
    · exact .inl rfl
    · split
      · rename_i hw
        exact .inr (Tree.writePlaced_kept hu hw)
      · exact .inl rfl
  rcases hv with hv | hv
  · rw [hv]
    exact hp
  · have hr : Rewritten u v := ⟨hv, hsame⟩
    exact prepare_of_allSettled hv.wellFormed (hr.allSettled hu hs)
      (Ambiguity.found_rewritten hu hr hf)

/-- Four tokens are added to the prepared statement; the factors and the sum keep their places. -/
theorem prepare_idempotent_sum :
    let u := (productOfSum.prepare 2 .compact).2
    let v := (u.preparePlaced .compact .never 2).2
    productOfSum.WellFormed ∧ u.size = 8 ∧ v.size = 12 ∧
      (∀ x, v.constituents x = u.constituents x) ∧
      u.prepare 2 .compact = (⟨0, 0⟩, u) ∧ v.prepare 2 .compact = (⟨0, 0⟩, v) := by
  intro u v
  have hw : productOfSum.WellFormed := Tree.wellFormed_planted _ _
  have hs : ∀ x < v.size, v.constituents x = u.constituents x := by decide +kernel
  have hc (x : NodeId) : v.constituents x = u.constituents x := by
    rcases Nat.lt_or_ge x v.size with hx | hx
    · exact hs x hx
    · have hu : u.size ≤ v.size := by decide +kernel
      rw [constituents_of_size_le hx, constituents_of_size_le (Nat.le_trans hu hx)]
  obtain ⟨hp, hv⟩ := prepare_idempotent hw 2 .compact
  exact ⟨hw, by decide +kernel, by decide +kernel, hc, hp, hv .never hc⟩

/-- The comparison `this(a < b) > (c)`, its argument attached before the invoked `this`. -/
def comparisonOfCall : Tree :=
  .planted [.expression (.binary .greater), .expression .invocation, .expression (.binary .less),
      .expression .identifier, .identifier "a" false, .expression .identifier,
      .identifier "b" false,
      .expression .thisRef, .expression .parenthesized, .expression .identifier,
      .identifier "c" false]
    [(1, .left, 2), (1, .right, 9), (2, .argument, 3), (2, .target, 8), (3, .left, 4),
      (3, .right, 6),
      (4, .identifier, 5), (6, .identifier, 7), (9, .expression, 10), (10, .identifier, 11)]

/-- Without the condition on the order, a second preparing can have work to do: writing puts the
invoked `this` before the argument, behind which then nothing stands but the parenthesis. -/
theorem prepare_not_idempotent : ¬ ∀ (t : Tree) (root : NodeId) (p : Policy), t.WellFormed →
    let u := (t.prepare root p).2
    u.prepare root p = (⟨0, 0⟩, u) ∧
    ∀ cancellation, let v := (u.preparePlaced p cancellation root).2
      v.prepare root p = (⟨0, 0⟩, v) := by
  intro h
  have hp := (h comparisonOfCall 1 .compact (Tree.wellFormed_planted _ _)).2 .never
  have ha : ((((comparisonOfCall.prepare 1 .compact).2.preparePlaced .compact .never 1).2.prepare
      1 .compact).1) = ⟨0, 1⟩ := by decide +kernel
  rw [hp] at ha
  cases ha

end TreeScribe
