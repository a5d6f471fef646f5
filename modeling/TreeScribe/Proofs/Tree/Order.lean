import TreeScribe.Proofs.Tree.Edits
import TreeScribe.Proofs.Tree.Parts

namespace TreeScribe.Tree

def descendantsWithin (t : Tree) : Nat → NodeId → List NodeId
  | 0, _ => []
  | fuel + 1, i => (t.children i).flatMap fun c => c :: t.descendantsWithin fuel c

/-- Each of the nodes is followed by what is below it: its children, first to last, each with what
is below. -/
inductive Preorder (t : Tree) : List NodeId → List NodeId → Prop
  | nil : Preorder t [] []
  | cons {i : NodeId} {nodes inner rest : List NodeId} (hi : Preorder t (t.children i) inner)
      (h : Preorder t nodes rest) : Preorder t (i :: nodes) (i :: (inner ++ rest))

inductive Walks (t : Tree) : List NodeId → List NodeId → Prop
  | done : Walks t [] []
  | take {i : NodeId} {stack l : List NodeId} (h : Walks t (t.children i ++ stack) l) :
      Walks t (i :: stack) (i :: l)

inductive Climbs (t : Tree) : NodeId → Option NodeId → Prop
  | aside {i s : NodeId} (hs : t.nextSibling i = some s) : Climbs t i (some s)
  | up {i p : NodeId} {o : Option NodeId} (hs : t.nextSibling i = none) (hp : t.parent i = some p)
      (h : Climbs t p o) : Climbs t i o
  | top {i : NodeId} (hs : t.nextSibling i = none) (hp : t.parent i = none) : Climbs t i none

variable {t : Tree} {i n p r x : NodeId} {nodes nodes' stack l l' : List NodeId} {o : Option NodeId}

namespace Preorder

theorem split (h : t.Preorder (nodes ++ nodes') l) :
    ∃ l₁ l₂, l = l₁ ++ l₂ ∧ t.Preorder nodes l₁ ∧ t.Preorder nodes' l₂ := by
  induction nodes generalizing l with
  | nil => exact ⟨[], l, rfl, .nil, h⟩
  | cons i nodes ih =>
      cases h with
      | cons hi h =>
          obtain ⟨l₁, l₂, rfl, h₁, h₂⟩ := ih h
          exact ⟨_, l₂, by simp, .cons hi h₁, h₂⟩

theorem unique (h : t.Preorder nodes l) (h' : t.Preorder nodes l') : l = l' := by
  induction h generalizing l' with
  | nil => cases h'; rfl
  | cons _ _ ihi ih =>
      cases h' with
      | cons hi' h' => rw [ihi hi', ih h']

theorem head?_eq (h : t.Preorder nodes l) : l.head? = nodes.head? := by
  cases h <;> rfl

theorem walks (h : t.Preorder nodes l) (hs : t.Walks stack l') :
    t.Walks (nodes ++ stack) (l ++ l') := by
  induction h generalizing stack l' with
  | nil => exact hs
  | cons _ _ ihi ih =>
      rw [List.cons_append, List.cons_append, List.append_assoc]
      exact .take (ihi (ih hs))

theorem mem_iff (ht : t.WellFormed) (h : t.Preorder nodes l) :
    x ∈ l ↔ ∃ c ∈ nodes, t.Below c x := by
  induction h with
  | nil => simp
  | @cons i nodes inner rest _ _ ihi ih =>
      have hi : (x = i ∨ x ∈ inner) ↔ t.Below i x := by
        rw [ihi]
        constructor
        · rintro (rfl | ⟨c, hc, hb⟩)
          · exact .self
          · exact (Below.self.child (ht.mem_children.mp hc)).trans hb
        · exact fun hb => hb.cases_top.imp_right fun ⟨c, hc, hb⟩ => ⟨c, ht.mem_children.mpr hc, hb⟩
      rw [List.mem_cons, List.mem_append, ← or_assoc, hi, ih]
      simp

theorem nodup (ht : t.WellFormed) (h : t.Preorder nodes l) (hn : nodes.Nodup)
    (hp : ∀ c ∈ nodes, t.parent c = some p) : l.Nodup := by
  induction h generalizing p with
  | nil => exact List.nodup_nil
  | @cons i nodes inner rest hi h ihi ih =>
      have hip : t.parent i = some p := hp i List.mem_cons_self
      have hbelow {y : NodeId} (hy : y ∈ i :: inner) : t.Below i y := by
        rcases List.mem_cons.mp hy with rfl | hy
        · exact .self
        · obtain ⟨c, hc, hb⟩ := (hi.mem_iff ht).mp hy
          exact (Below.self.child (ht.mem_children.mp hc)).trans hb
      have hinner : (i :: inner).Nodup := by
        refine List.nodup_cons.mpr
          ⟨fun hm => ?_, ihi (ht.linked.nodup i) fun c => ht.mem_children.mp⟩
        obtain ⟨c, hc, hb⟩ := (hi.mem_iff ht).mp hm
        exact ht.not_below_of_parent (ht.mem_children.mp hc) hb
      have hrest := ih (List.nodup_cons.mp hn).2 fun c hc => hp c (List.mem_cons_of_mem _ hc)
      rw [← List.cons_append]
      refine List.nodup_append.mpr ⟨hinner, hrest, fun y hy z hz => ?_⟩
      rintro rfl
      obtain ⟨c, hc, hb⟩ := (h.mem_iff ht).mp hz
      have hci := ht.eq_of_below (hp c (List.mem_cons_of_mem _ hc)) hip hb (hbelow hy)
      exact (List.nodup_cons.mp hn).1 (hci ▸ hc)

end Preorder

theorem Walks.walkWithin_eq (h : t.Walks stack l) {fuel : Nat} (hf : l.length ≤ fuel) :
    t.walkWithin fuel stack = l := by
  induction h generalizing fuel with
  | done => cases fuel <;> rfl
  | take _ ih =>
      cases fuel with
      | zero => simp at hf
      | succ fuel => rw [walkWithin, ih (by simpa using hf)]

namespace WellFormed

theorem depth_lt_size (h : t.WellFormed) (i : NodeId) : t.depth i < t.size := by
  by_cases hi : i < t.size
  · exact h.depth_lt hi
  · have hp : t.parent i = none := by
      rw [parent, node_of_size_le (Nat.not_lt.mp hi)]
      rfl
    rw [depth, h.ancestors_of_parent_none hp]
    exact h.size_pos

theorem preorder_flatMap {f : NodeId → List NodeId}
    (hf : ∀ c ∈ nodes, t.Preorder (t.children c) (f c)) :
    t.Preorder nodes (nodes.flatMap fun c => c :: f c) := by
  induction nodes with
  | nil => exact .nil
  | cons c nodes ih =>
      rw [List.flatMap_cons, List.cons_append]
      exact .cons (hf c List.mem_cons_self) (ih fun d hd => hf d (List.mem_cons_of_mem _ hd))

theorem preorder_descendantsWithin (h : t.WellFormed)
    {fuel : Nat} (hf : t.size ≤ fuel + t.depth i) :
    t.Preorder (t.children i) (t.descendantsWithin fuel i) := by
  induction fuel generalizing i with
  | zero =>
      have := h.depth_lt_size i
      omega
  | succ fuel ih => exact preorder_flatMap fun c hc => ih (h.fuel_child hf (h.mem_children.mp hc))

theorem preorder_walk (h : t.WellFormed) (i : NodeId) : ∃ l, t.Preorder (t.children i) l ∧ l.Nodup ∧
    t.Walks (t.children i) l ∧ t.descendants i = l ∧ t.descendantsWithin t.size i = l := by
  have hp := h.preorder_descendantsWithin (i := i) (Nat.le_add_right _ _)
  have hn := hp.nodup h (h.linked.nodup i) fun c => h.mem_children.mp
  have hw := hp.walks .done
  rw [List.append_nil, List.append_nil] at hw
  refine ⟨_, hp, hn, hw, hw.walkWithin_eq (length_le_of_nodup hn fun x hx => ?_), rfl⟩
  obtain ⟨c, hc, hb⟩ := (hp.mem_iff h).mp hx
  cases hb with
  | self => exact lt_of_parent (h.mem_children.mp hc)
  | child _ hx => exact lt_of_parent hx

/-- The walk with a stack finds what descending level by level finds. -/
theorem descendants_eq (h : t.WellFormed) (i : NodeId) :
    t.descendants i = t.descendantsWithin t.size i := by
  obtain ⟨l, -, -, -, hl, hl'⟩ := h.preorder_walk i
  rw [hl, hl']

theorem preorder_descendants (h : t.WellFormed) (i : NodeId) :
    t.Preorder (t.children i) (t.descendants i) := by
  obtain ⟨l, hp, -, -, rfl, -⟩ := h.preorder_walk i
  exact hp

theorem walks_descendants (h : t.WellFormed) (i : NodeId) :
    t.Walks (t.children i) (t.descendants i) := by
  obtain ⟨l, -, -, hw, rfl, -⟩ := h.preorder_walk i
  exact hw

theorem mem_self_descendants (h : t.WellFormed) : x ∈ i :: t.descendants i ↔ t.Below i x := by
  have hp : t.Preorder [i] (i :: (t.descendants i ++ [])) := .cons (h.preorder_descendants i) .nil
  rw [List.append_nil] at hp
  simpa using hp.mem_iff h

theorem mem_descendants (h : t.WellFormed) :
    x ∈ t.descendants i ↔ ∃ p, t.parent x = some p ∧ t.Below i p := by
  rw [(h.preorder_descendants i).mem_iff h]
  constructor
  · rintro ⟨c, hc, hb⟩
    have hci := h.mem_children.mp hc
    have hne : x ≠ i := by
      rintro rfl
      exact h.not_below_of_parent hci hb
    exact ((Below.self.child hci).trans hb).climb hne
  · rintro ⟨p, hp, hb⟩
    rcases (hb.child hp).cases_top with rfl | ⟨c, hc, hb'⟩
    · exact absurd hb (h.not_below_of_parent hp)
    · exact ⟨c, h.mem_children.mpr hc, hb'⟩

theorem nodup_self_descendants (h : t.WellFormed) (i : NodeId) : (i :: t.descendants i).Nodup := by
  obtain ⟨l, -, hn, -, rfl, -⟩ := h.preorder_walk i
  refine List.nodup_cons.mpr ⟨fun hm => ?_, hn⟩
  obtain ⟨p, hp, hb⟩ := h.mem_descendants.mp hm
  exact h.not_below_of_parent hp hb

theorem exists_climbs (h : t.WellFormed) (i : NodeId) : ∃ o, t.Climbs i o := by
  generalize hd : t.depth i = d
  induction d generalizing i with
  | zero =>
      cases hp : t.parent i with
      | some p =>
          have := h.depth_of_parent hp
          omega
      | none => exact ⟨none, .top (h.single i hp).1 hp⟩
  | succ d ih =>
      cases hs : t.nextSibling i with
      | some s => exact ⟨s, .aside hs⟩
      | none =>
          cases hp : t.parent i with
          | none => exact ⟨none, .top hs hp⟩
          | some p =>
              have := h.depth_of_parent hp
              obtain ⟨o, ho⟩ := ih p (by omega)
              exact ⟨o, .up hs hp ho⟩

end WellFormed

theorem Climbs.nextNodeWithin_eq (ht : t.WellFormed)
    (h : t.Climbs i o) {fuel : Nat} (hf : t.depth i < fuel) : t.nextNodeWithin fuel i = o := by
  induction h generalizing fuel with
  | aside hs =>
      cases fuel with
      | zero => omega
      | succ fuel => rw [nextNodeWithin, hs]
  | up hs hp _ ih =>
      cases fuel with
      | zero => omega
      | succ fuel =>
          have := ht.depth_of_parent hp
          rw [nextNodeWithin, hs, hp]
          exact ih (by omega)
  | top hs hp =>
      cases fuel with
      | zero => omega
      | succ fuel =>
          rw [nextNodeWithin, hs, hp]
          rfl

namespace WellFormed

theorem climbs_iff (h : t.WellFormed) : t.Climbs i o ↔ t.nextNode i = o := by
  have hnext {o : Option NodeId} (ho : t.Climbs i o) : t.nextNode i = o :=
    ho.nextNodeWithin_eq h (h.depth_lt_size i)
  refine ⟨hnext, ?_⟩
  obtain ⟨o', ho'⟩ := h.exists_climbs i
  rintro rfl
  rwa [← hnext ho'] at ho'

theorem nextNode_up (h : t.WellFormed) (hs : t.nextSibling i = none) (hp : t.parent i = some p) :
    t.nextNode i = t.nextNode p := h.climbs_iff.mp (.up hs hp (h.climbs_iff.mpr rfl))

theorem not_below_nextNode (h : t.WellFormed) (hx : t.nextNode i = some x) : ¬ t.Below i x := by
  have hc := h.climbs_iff.mpr hx
  generalize ho : some x = o at hc
  induction hc with
  | @aside i s hs =>
      cases ho
      intro hb
      cases hp : t.parent i with
      | none => simp [(h.single i hp).1] at hs
      | some p =>
          obtain ⟨l₁, l₂, hk⟩ := h.exists_split hp
          have hl : l₂.head? = some x := (h.linked.next hk).symm.trans hs
          have hm : x ∈ l₂ := List.mem_of_mem_head? hl
          have hxp : t.parent x = some p := h.mem_children.mp (by simp [hk, hm])
          have hne := (h.linked.notMem_of_split hk).2
          exact hne (h.eq_of_below hxp hp .self hb ▸ hm)
  | up _ hp _ ih =>
      intro hb
      refine ih ?_ ho ((Below.self.child hp).trans hb)
      exact h.climbs_iff.mp (ho ▸ ‹_›)
  | top => cases ho

/-- Where a node stands in the order below a node above it, and that the climb from it finds what
stands behind. -/
theorem exists_order (h : t.WellFormed) (hb : t.Below r n) : ∃ before after,
    r :: t.descendants r = before ++ n :: (t.descendants n ++ after) ∧
    t.nextNode n = after.head?.or (t.nextNode r) := by
  induction hb with
  | self => exact ⟨[], [], by simp, rfl⟩
  | @child p c _ hc ih =>
      obtain ⟨before, after, horder, hnext⟩ := ih
      obtain ⟨l₁, l₂, hk⟩ := h.exists_split hc
      have hp := h.preorder_descendants p
      rw [hk] at hp
      obtain ⟨m₁, m₂, hm, -, hp₂⟩ := hp.split
      cases hp₂ with
      | @cons _ _ inner rest hi hr =>
          have hinner := hi.unique (h.preorder_descendants c)
          subst hinner
          refine ⟨before ++ p :: m₁, rest ++ after, by rw [horder, hm]; simp, ?_⟩
          have hs : t.nextSibling c = rest.head? := (h.linked.next hk).trans hr.head?_eq.symm
          cases rest with
          | nil => rw [h.nextNode_up hs hc, hnext, List.nil_append]
          | cons s rest => exact h.climbs_iff.mp (.aside hs)

theorem exists_top (h : t.WellFormed) (n : NodeId) :
    ∃ top, t.parent top = none ∧ t.Below top n := by
  generalize hd : t.depth n = d
  induction d generalizing n with
  | zero =>
      refine ⟨n, ?_, .self⟩
      cases hp : t.parent n with
      | none => rfl
      | some p =>
          have := h.depth_of_parent hp
          omega
  | succ d ih =>
      cases hp : t.parent n with
      | none => exact ⟨n, hp, .self⟩
      | some p =>
          have := h.depth_of_parent hp
          obtain ⟨top, htop, hb⟩ := ih p (by omega)
          exact ⟨top, htop, hb.child hp⟩

theorem exists_order_top (h : t.WellFormed) (n : NodeId) :
    ∃ top before after, t.parent top = none ∧ t.Below top n ∧
    top :: t.descendants top = before ++ n :: (t.descendants n ++ after) ∧
    t.nextNode n = after.head? := by
  obtain ⟨top, htop, hb⟩ := h.exists_top n
  obtain ⟨before, after, horder, hnext⟩ := h.exists_order hb
  have hnone : t.nextNode top = none := h.climbs_iff.mp (.top (h.single top htop).1 htop)
  rw [hnone, Option.or_none] at hnext
  exact ⟨top, before, after, htop, hb, horder, hnext⟩

/-- Behind a node in the order below `r`, the first node that is not below it is what the climb
finds. -/
theorem find?_behind (h : t.WellFormed) {before after : List NodeId}
    (hd : t.descendants r = before ++ n :: after) :
    ∃ rest : List NodeId, after.find? (fun x => !(t.descendants n).contains x) = rest.head? ∧
      t.nextNode n = rest.head?.or (t.nextNode r) := by
  have hn : n ∈ t.descendants r := by simp [hd]
  obtain ⟨p, hp, hb⟩ := h.mem_descendants.mp hn
  obtain ⟨before', rest, horder, hnext⟩ := h.exists_order (hb.child hp)
  have hnodup := h.nodup_self_descendants r
  have hsplit : (r :: before) ++ n :: after = before' ++ n :: (t.descendants n ++ rest) := by
    rw [← horder, hd]
    rfl
  rw [hd, ← List.cons_append] at hnodup
  obtain ⟨-, hafter, hdisjoint⟩ := List.nodup_append.mp hnodup
  obtain ⟨-, -, rfl⟩ :=
    (List.append_cons_inj_of_notMem (fun hm => hdisjoint n hm n List.mem_cons_self rfl)
    (List.nodup_cons.mp hafter).1).mp hsplit
  refine ⟨rest, ?_, hnext⟩
  rw [List.find?_append, List.find?_eq_none.mpr (by simp), Option.none_or]
  cases rest with
  | nil => rfl
  | cons x rest =>
      have hx : x ∉ t.descendants n := fun hm =>
        (List.nodup_append.mp (List.nodup_cons.mp hafter).2).2.2 x hm x List.mem_cons_self rfl
      simp [hx]

end WellFormed

/-- Traversals follow document order. The walk with a stack ends and lists the proper descendants of
a node, each once, in preorder. The climb ends too: in the preorder of the whole tree around a node
it finds what stands behind all below that node. So in the list of descendants of `r` it is the
first node behind `n` that is not below `n`, or it is no node below `r`. -/
theorem descendants_in_order (t : Tree) (h : t.WellFormed) (r : NodeId) :
    t.Walks (t.children r) (t.descendants r) ∧ t.Preorder (t.children r) (t.descendants r) ∧
      (t.descendants r).Nodup ∧ (∀ x, x ∈ t.descendants r ↔ x ≠ r ∧ t.Below r x) ∧
      ∀ n, t.Climbs n (t.nextNode n) ∧
        (∃ top before after, t.parent top = none ∧ t.Below top n ∧
          top :: t.descendants top = before ++ n :: (t.descendants n ++ after) ∧
          t.nextNode n = after.head?) ∧
        ∀ before after, t.descendants r = before ++ n :: after →
          match after.find? fun x => !(t.descendants n).contains x with
          | some x => t.nextNode n = some x
          | none => ∀ x, t.nextNode n = some x → ¬ t.Below r x := by
  have hnodup := List.nodup_cons.mp (h.nodup_self_descendants r)
  refine ⟨h.walks_descendants r, h.preorder_descendants r, hnodup.2, fun x => ?_, fun n =>
    ⟨h.climbs_iff.mpr rfl, h.exists_order_top n, fun before after hd => ?_⟩⟩
  · rw [← h.mem_self_descendants, List.mem_cons]
    constructor
    · intro hx
      refine ⟨?_, .inr hx⟩
      rintro rfl
      exact hnodup.1 hx
    · exact fun hx => hx.2.resolve_left hx.1
  · obtain ⟨rest, hfind, hnext⟩ := h.find?_behind hd
    rw [hfind, hnext]
    cases rest with
    | nil => exact fun x hx => h.not_below_nextNode hx
    | cons x rest => rfl

/-- `{ this(this, this); { ; } }`, with nodes that are not numbered in their order. -/
def orderedBlock : Tree :=
  .planted [.statement .block, .statement .empty, .statement .expression, .expression .invocation,
      .expression .thisRef,
      .expression .thisRef, .statement .block, .expression .thisRef]
    [(1, .statement, 3), (1, .statement, 7), (3, .expression, 4), (4, .target, 8),
      (4, .argument, 5), (4, .argument, 6),
      (7, .statement, 2)]

theorem descendants_in_order_block :
    orderedBlock.WellFormed ∧ orderedBlock.descendants 1 = [3, 4, 8, 5, 6, 7, 2] ∧
    orderedBlock.Walks [3, 7] [3, 4, 8, 5, 6, 7, 2] ∧
    orderedBlock.Preorder [3, 7] [3, 4, 8, 5, 6, 7, 2] ∧
    orderedBlock.nextNode 6 = some 7 ∧ orderedBlock.Climbs 6 (some 7) ∧
    ∃ top before after, orderedBlock.parent top = none ∧ orderedBlock.Below top 4 ∧
      top :: orderedBlock.descendants top = before ++ 4 :: ([8, 5, 6] ++ after) ∧
      some 7 = after.head? := by
  have hw : orderedBlock.WellFormed := wellFormed_planted _ _
  have hlist : orderedBlock.descendants 1 = [3, 4, 8, 5, 6, 7, 2] := by decide +kernel
  have hkids : orderedBlock.children 1 = [3, 7] := by decide +kernel
  have hcall : orderedBlock.descendants 4 = [8, 5, 6] := by decide +kernel
  have hnext : orderedBlock.nextNode 6 = some 7 ∧ orderedBlock.nextNode 4 = some 7 := by
    decide +kernel
  obtain ⟨hwalks, horder, -, -, hall⟩ := descendants_in_order orderedBlock hw 1
  rw [hlist, hkids] at hwalks horder
  have htop := (hall 4).2.1
  rw [hcall, hnext.2] at htop
  exact ⟨hw, hlist, hwalks, horder, hnext.1, hnext.1 ▸ (hall 6).1, htop⟩

end TreeScribe.Tree
