import TreeScribe.Grouping.Parentheses
import TreeScribe.Proofs.Tree.Links

namespace TreeScribe

namespace Tree

variable {t u : Tree} {p c i x : NodeId} {k : Kind} {r : Role}

def Attachable (t : Tree) (p c : NodeId) : Prop :=
  p ≠ .null ∧ t.parent c = none ∧ t.isAncestorOrSelf c p = false

theorem checkAttachable_eq_ok_iff {v : Unit} :
    t.checkAttachable p c = .ok v ↔ t.Attachable p c := by
  simp only [checkAttachable, Attachable]
  by_cases hp : p = .null
  · simp [hp]
  · by_cases hc : t.parent c = none
    · cases ha : t.isAncestorOrSelf c p <;> simp [hp, hc]
    · simp [hp, hc, Option.isSome_iff_ne_none]

theorem addChild_eq_ok_iff (hc : c ≠ .null) :
    t.addChild p r c = .ok u ↔ t.Attachable p c ∧ t.link p r (t.lastChild p) none c = u := by
  rw [← checkAttachable_eq_ok_iff (v := ()), addChild, if_neg hc]
  cases t.checkAttachable p c <;> simp [bind, Except.bind, pure, Except.pure]

theorem insertBefore_some_eq_ok_iff {next : NodeId} (hc : c ≠ .null) :
    t.insertBefore p (some next) r c = .ok u ↔ t.parent next = some p ∧ t.Attachable p c ∧
      t.link p r (t.prevSibling next) (some next) c = u := by
  rw [← checkAttachable_eq_ok_iff (v := ()), insertBefore, if_neg hc]
  by_cases hn : t.parent next = some p
  · rw [if_neg (not_not.mpr hn)]
    cases t.checkAttachable p c <;> simp [hn, bind, Except.bind, pure, Except.pure]
  · simp [hn]

/-- Attaching a node where a child list is cut in two. -/
theorem WellFormed.insertBefore_eq (h : t.WellFormed) {l₁ l₂ : List NodeId}
    (hk : t.children p = l₁ ++ l₂) (hc : c ≠ .null) (ha : t.Attachable p c) :
    t.insertBefore p l₂.head? r c = .ok (t.link p r l₁.getLast? l₂.head? c) := by
  cases l₂ with
  | nil =>
      refine (addChild_eq_ok_iff hc).mpr ⟨ha, ?_⟩
      rw [h.linked.last, hk, List.append_nil]
      rfl
  | cons next l₂ =>
      refine (insertBefore_some_eq_ok_iff hc).mpr ⟨h.mem_children.mp (by simp [hk]), ha, ?_⟩
      rw [h.linked.prev hk]
      rfl

theorem node_alloc : (t.alloc k).2.node x = if x = t.size then .detached k else t.node x := by
  simp only [alloc, node, size, Array.getD_eq_getD_getElem?, Array.getElem?_push]
  split <;> rfl

@[simp] theorem size_alloc : (t.alloc k).2.size = t.size + 1 := by
  simp [alloc, size]

structure SameLinks (t u : Tree) : Prop where
  parent (x : NodeId) : u.parent x = t.parent x
  first (x : NodeId) : u.firstChild x = t.firstChild x
  last (x : NodeId) : u.lastChild x = t.lastChild x
  next (x : NodeId) : u.nextSibling x = t.nextSibling x
  prev (x : NodeId) : u.prevSibling x = t.prevSibling x

/-- A new node has no links, like a node that does not exist. -/
theorem sameLinks_alloc : SameLinks t (t.alloc k).2 := by
  have hn (x : NodeId) : (t.alloc k).2.node x = {
      kind := if x = t.size then k else t.kind x
      role := if x = t.size then .root else t.role x
      parent := t.parent x
      firstChild := t.firstChild x
      lastChild := t.lastChild x
      prevSibling := t.prevSibling x
      nextSibling := t.nextSibling x } := by
    rw [node_alloc]
    by_cases hx : x = t.size
    · simp only [hx, if_true, parent, firstChild, lastChild, prevSibling, nextSibling,
        node_of_size_le (Nat.le_refl t.size)]
      rfl
    · simp only [if_neg hx, kind, role, parent, firstChild, lastChild, prevSibling, nextSibling]
  exact ⟨fun x => (congrArg Node.parent (hn x) :), fun x => (congrArg Node.firstChild (hn x) :),
    fun x => (congrArg Node.lastChild (hn x) :), fun x => (congrArg Node.nextSibling (hn x) :),
    fun x => (congrArg Node.prevSibling (hn x) :)⟩

namespace SameLinks

theorem linked {kids : NodeId → List NodeId} (hs : SameLinks t u) (h : t.Linked kids) :
    u.Linked kids where
  nodup := h.nodup
  mem := by simp only [hs.parent]; exact h.mem
  first p := (hs.first p).trans (h.first p)
  last p := (hs.last p).trans (h.last p)
  next hk := (hs.next _).trans (h.next hk)
  prev hk := (hs.prev _).trans (h.prev hk)
  single hc := by rw [hs.next, hs.prev]; exact h.single (hs.parent _ ▸ hc)

theorem children_eq (hs : SameLinks t u) (h : t.WellFormed) : u.children = t.children :=
  (hs.linked h.linked).children_eq

theorem wellFormed (hs : SameLinks t u) (h : t.WellFormed) (hk : u.kind .null = .null)
    (hu : 0 < u.size) : u.WellFormed := by
  refine WellFormed.of_linked (hs.linked h.linked) (fun i => ?_) hk ?_ h.children_null hu
  · rw [show u.parent = t.parent from funext hs.parent]
    exact h.climbs i
  · rw [hs.parent, h.null_parent]

end SameLinks

namespace WellFormed

theorem alloc (h : t.WellFormed) (k : Kind) : (t.alloc k).2.WellFormed := by
  refine sameLinks_alloc.wellFormed h ?_ (by simp)
  have hn : NodeId.null ≠ t.size := Nat.ne_of_lt h.size_pos
  rw [Tree.kind, node_alloc, if_neg hn]
  exact h.null_kind

theorem addChild (h : t.WellFormed) (hp : p < t.size) (hc : c < t.size)
    (ho : t.addChild p r c = .ok u) : u.WellFormed := by
  by_cases hcn : c = .null
  · simp only [Tree.addChild, if_pos hcn, Except.ok.injEq] at ho
    exact ho ▸ h
  · obtain ⟨⟨hpn, hcp, hca⟩, rfl⟩ := (addChild_eq_ok_iff hcn).mp ho
    have hk : t.children p = t.children p ++ [] := (List.append_nil _).symm
    have hw := h.link (r := r) hp hpn hc hcn hcp hca hk
    rwa [← h.linked.last] at hw

theorem insertBefore (h : t.WellFormed) {next : Option NodeId} (hp : p < t.size) (hc : c < t.size)
    (ho : t.insertBefore p next r c = .ok u) : u.WellFormed := by
  cases next with
  | none => exact h.addChild hp hc ho
  | some next =>
      by_cases hcn : c = .null
      · simp only [Tree.insertBefore, if_pos hcn, Except.ok.injEq] at ho
        exact ho ▸ h
      · obtain ⟨hn, ⟨hpn, hcp, hca⟩, rfl⟩ := (insertBefore_some_eq_ok_iff hcn).mp ho
        obtain ⟨l₁, l₂, hk⟩ := h.exists_split hn
        have hw := h.link (r := r) hp hpn hc hcn hcp hca hk
        rwa [← h.linked.prev hk] at hw

theorem insertAfter (h : t.WellFormed) {prev : Option NodeId} (hp : p < t.size) (hc : c < t.size)
    (ho : t.insertAfter p prev r c = .ok u) : u.WellFormed :=
  h.insertBefore hp hc ho

theorem replace (h : t.WellFormed) (hc : c < t.size) (ho : t.replace i c = .ok u) :
    u.WellFormed := by
  rw [Tree.replace] at ho
  cases hi : t.parent i with
  | none =>
      rw [hi] at ho
      cases ho
      exact h
  | some p =>
      rw [hi] at ho
      exact (h.detach i).insertBefore (by simpa using h.lt_parent hi) (by simpa using hc) ho

end WellFormed

theorem size_addChild (ho : t.addChild p r c = .ok u) : u.size = t.size := by
  by_cases hc : c = .null
  · simp only [addChild, if_pos hc, Except.ok.injEq] at ho
    rw [ho]
  · obtain ⟨-, rfl⟩ := (addChild_eq_ok_iff hc).mp ho
    exact size_link

theorem size_insertBefore {next : Option NodeId} (ho : t.insertBefore p next r c = .ok u) :
    u.size = t.size := by
  cases next with
  | none => exact size_addChild ho
  | some next =>
      by_cases hc : c = .null
      · simp only [insertBefore, if_pos hc, Except.ok.injEq] at ho
        rw [ho]
      · obtain ⟨-, -, rfl⟩ := (insertBefore_some_eq_ok_iff hc).mp ho
        exact size_link

theorem size_replace (ho : t.replace i c = .ok u) : u.size = t.size := by
  rw [replace] at ho
  cases hi : t.parent i with
  | none =>
      rw [hi] at ho
      cases ho
      rfl
  | some p =>
      rw [hi] at ho
      exact (size_insertBefore ho).trans size_detach

theorem replaceWith_eq_ok_iff {f : Tree → NodeId → Except AttachError (NodeId × Tree)} {n : NodeId}
    {v : Tree} :
    t.replaceWith i f = .ok (n, v) ↔ ∃ w, f (t.detach i) i = .ok (n, w) ∧
      match t.parent i with
      | none => w = v
      | some p => w.insertBefore p (t.nextSibling i) (t.role i) n = .ok v := by
  rw [replaceWith]
  cases hf : f (t.detach i) i with
  | error e => simp [bind, Except.bind]
  | ok a =>
      obtain ⟨m, w⟩ := a
      cases t.parent i with
      | none =>
          simp only [bind, Except.bind, pure, Except.pure, Except.ok.injEq, Prod.mk.injEq]
          exact ⟨fun ⟨hm, hw⟩ => ⟨w, ⟨hm, rfl⟩, hw⟩, fun ⟨w', ⟨hm, hw⟩, hv⟩ => ⟨hm, hw.trans hv⟩⟩
      | some p =>
          simp only [bind, Except.bind, pure, Except.pure]
          cases hb : w.insertBefore p (t.nextSibling i) (t.role i) m with
          | error e =>
              refine ⟨nofun, ?_⟩
              rintro ⟨w', he, hw⟩
              cases he
              rw [hb] at hw
              cases hw
          | ok b =>
              refine ⟨fun he => ?_, ?_⟩
              · cases he
                exact ⟨w, rfl, hb⟩
              · rintro ⟨w', he, hw⟩
                cases he
                rw [hb] at hw
                cases hw
                rfl

/-- What a tree can be made by the operations on its links, on nodes that exist. A replacement is
built by such operations too. -/
inductive Edited : Tree → Tree → Prop
  | refl {t : Tree} : Edited t t
  | alloc {t u : Tree} (h : Edited t u) (k : Kind) : Edited t (u.alloc k).2
  | addChild {t u v : Tree} {p c : NodeId} {r : Role} (h : Edited t u) (hp : p < u.size)
      (hc : c < u.size)
      (ho : u.addChild p r c = .ok v) : Edited t v
  | insertBefore {t u v : Tree} {p c : NodeId} {next : Option NodeId} {r : Role} (h : Edited t u)
      (hp : p < u.size) (hc : c < u.size) (ho : u.insertBefore p next r c = .ok v) : Edited t v
  | insertAfter {t u v : Tree} {p c : NodeId} {prev : Option NodeId} {r : Role} (h : Edited t u)
      (hp : p < u.size) (hc : c < u.size) (ho : u.insertAfter p prev r c = .ok v) : Edited t v
  | detach {t u : Tree} (h : Edited t u) (i : NodeId) : Edited t (u.detach i)
  | replace {t u v : Tree} {i c : NodeId} (h : Edited t u) (hc : c < u.size)
      (ho : u.replace i c = .ok v) :
      Edited t v
  | replaceWith {t u w v : Tree} {i c n : NodeId}
      {f : Tree → NodeId → Except AttachError (NodeId × Tree)}
      (h : Edited t u) (hf : f (u.detach i) i = .ok (c, w)) (hw : Edited (u.detach i) w)
      (hc : c < w.size)
      (ho : u.replaceWith i f = .ok (n, v)) : Edited t v

theorem WellFormed.empty : Tree.empty.WellFormed := by
  have hn (x : NodeId) : Tree.empty.node x = .detached .null := by
    cases x <;> rfl
  have hk : Tree.empty.Linked fun _ => [] := by
    constructor <;> simp [parent, firstChild, lastChild, nextSibling, prevSibling, hn,
      Node.detached]
  refine of_linked hk (fun i => ⟨[i], .go ?_⟩) rfl rfl rfl (by decide)
  rw [parent, hn]
  exact .stop

namespace Edited

theorem wellFormed (h : Edited t u) (ht : t.WellFormed) : u.WellFormed ∧ t.size ≤ u.size := by
  induction h with
  | refl => exact ⟨ht, Nat.le_refl _⟩
  | alloc _ k ih =>
      refine ⟨(ih ht).1.alloc k, ?_⟩
      rw [size_alloc]
      exact Nat.le_succ_of_le (ih ht).2
  | addChild _ hp hc ho ih =>
      refine ⟨(ih ht).1.addChild hp hc ho, ?_⟩
      rw [size_addChild ho]
      exact (ih ht).2
  | insertBefore _ hp hc ho ih =>
      refine ⟨(ih ht).1.insertBefore hp hc ho, ?_⟩
      rw [size_insertBefore ho]
      exact (ih ht).2
  | insertAfter _ hp hc ho ih =>
      refine ⟨(ih ht).1.insertAfter hp hc ho, ?_⟩
      rw [size_insertBefore ho]
      exact (ih ht).2
  | detach _ i ih =>
      refine ⟨(ih ht).1.detach i, ?_⟩
      rw [size_detach]
      exact (ih ht).2
  | replace _ hc ho ih =>
      refine ⟨(ih ht).1.replace hc ho, ?_⟩
      rw [size_replace ho]
      exact (ih ht).2
  | replaceWith _ hf _ hc ho ih ihw =>
      rename_i t u w v i c n f _ _
      obtain ⟨hu, hle⟩ := ih ht
      obtain ⟨hwf, hle'⟩ := ihw (hu.detach i)
      rw [size_detach] at hle'
      obtain ⟨w', hf', hv⟩ := replaceWith_eq_ok_iff.mp ho
      cases hf.symm.trans hf'
      cases hi : u.parent i with
      | none =>
          rw [hi] at hv
          exact hv ▸ ⟨hwf, Nat.le_trans hle hle'⟩
      | some p =>
          rw [hi] at hv
          have hp : p < w.size := Nat.lt_of_lt_of_le (hu.lt_parent hi) hle'
          refine ⟨hwf.insertBefore hp hc hv, ?_⟩
          rw [size_insertBefore hv]
          exact Nat.le_trans hle hle'

theorem trans (h : Edited t u) (hv : Edited u v) : Edited t v := by
  induction hv with
  | refl => exact h
  | alloc _ k ih => exact (ih h).alloc k
  | addChild _ hp hc ho ih => exact (ih h).addChild hp hc ho
  | insertBefore _ hp hc ho ih => exact (ih h).insertBefore hp hc ho
  | insertAfter _ hp hc ho ih => exact (ih h).insertAfter hp hc ho
  | detach _ i ih => exact (ih h).detach i
  | replace _ hc ho ih => exact (ih h).replace hc ho
  | replaceWith _ hf hw hc ho ih _ => exact (ih h).replaceWith hf hw hc ho

end Edited

def planted.attach (t : Tree) : List (NodeId × Role × NodeId) → Tree
  | [] => t
  | (p, r, c) :: edges =>
    match t.addChild p r c with
    | .ok u => if p < t.size ∧ c < t.size then attach u edges else attach t edges
    | .error _ => attach t edges

def planted (kinds : List Kind) (edges : List (NodeId × Role × NodeId)) : Tree :=
  planted.attach (kinds.foldl (fun t k => (t.alloc k).2) .empty) edges

theorem edited_attach (edges : List (NodeId × Role × NodeId)) :
    Edited t (planted.attach t edges) := by
  induction edges generalizing t with
  | nil => exact .refl
  | cons e edges ih =>
      obtain ⟨p, r, c⟩ := e
      rw [planted.attach]
      split
      · rename_i u ho
        split
        · rename_i hs
          exact (Edited.refl.addChild hs.1 hs.2 ho).trans ih
        · exact ih
      · exact ih

theorem edited_planted (kinds : List Kind) (edges : List (NodeId × Role × NodeId)) :
    Edited .empty (planted kinds edges) := by
  have hk (t : Tree) : Edited t (kinds.foldl (fun t k => (t.alloc k).2) t) := by
    induction kinds generalizing t with
    | nil => exact .refl
    | cons k kinds ih => exact (Edited.refl.alloc k).trans (ih _)
  exact (hk _).trans (edited_attach edges)

theorem wellFormed_planted (kinds : List Kind) (edges : List (NodeId × Role × NodeId)) :
    (planted kinds edges).WellFormed := ((edited_planted kinds edges).wellFormed .empty).1

/-- The links of a tree that was built and edited from nothing: forward and back, under every node,
the same children are met, each once, and they are the nodes whose parent it is; nodes without
parent have no siblings; no node is above itself; and the null node stays alone. -/
theorem edited_links (h : Edited .empty t) :
    (∀ p, Follows t.nextSibling (t.firstChild p) (t.children p) ∧
      Follows t.prevSibling (t.lastChild p) (t.children p).reverse ∧
      ∀ c, (t.children p).count c = if t.parent c = some p then 1 else 0) ∧
    (∀ c, t.parent c = none → t.nextSibling c = none ∧ t.prevSibling c = none) ∧
    (∀ i, Follows t.parent (some i) (i :: t.ancestors i) ∧ i ∉ t.ancestors i) ∧
    t.parent .null = none ∧ t.firstChild .null = none ∧ t.lastChild .null = none := by
  obtain ⟨hw, -⟩ := h.wellFormed WellFormed.empty
  refine ⟨fun p => ⟨hw.linked.follows_next p, hw.linked.follows_prev p, hw.linked.count p⟩,
    hw.single, fun i => ⟨hw.follows_parent i, ?_⟩, hw.null_parent, hw.null_children⟩
  exact (List.nodup_cons.mp (hw.follows_parent i).nodup).1

/-- A statement of a block is put into parentheses; the two children of the block keep their
order. -/
theorem edited_links_enclosed : ∃ t, Edited .empty t ∧ t.children 1 = [4, 3] ∧ t.parent 2 = some 4 ∧
    Follows t.prevSibling (t.lastChild 1) [3, 4] ∧ (t.children 4).count 2 = 1 := by
  have h₀ := edited_planted [.statement .block, .expression .thisRef, .expression .nullRef]
    [(1, .statement, 2)]
  have h : Edited .empty _ :=
    (h₀.insertAfter (p := 1) (c := 3) (r := .statement) (by decide) (by decide)
      (show _ = Tree.insertAfter _ 1 (some 2) .statement 3 from rfl).symm).replaceWith
      (i := 2) (f := enclose) rfl ((Edited.refl.alloc (.expression .parenthesized)).addChild
        (p := 4) (c := 2) (r := .expression) (by decide) (by decide) rfl) (by decide) rfl
  exact ⟨_, h, rfl, rfl, ((edited_links h).1 1).2.1, ((edited_links h).1 4).2.2 2⟩

end Tree

end TreeScribe
