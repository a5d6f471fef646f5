import Mathlib.Data.List.Nodup
import TreeScribe.Proofs.Tree.WellFormed
import TreeScribe.Tree.Attach

namespace TreeScribe.Tree

variable {t : Tree} {kids : NodeId → List NodeId} {c p i x : NodeId} {o prev next : Option NodeId}
  {l₁ l₂ : List NodeId} {r : Role} {f : Node → Node}

@[simp] theorem size_update : (t.update i f).size = t.size := by
  simp [update, size]

theorem node_update (hi : i < t.size) :
    (t.update i f).node x = if x = i then f (t.node i) else t.node x := by
  simp only [size] at hi
  by_cases hx : x = i
  · subst x
    simp [update, node, Array.getD, hi, Array.getElem_modify_self]
  · rw [if_neg hx]
    simp only [update, node, Array.getD_eq_getD_getElem?, Array.getElem?_modify]
    rw [if_neg (Ne.symm hx)]

@[simp] theorem size_setAfter : (t.setAfter p prev o).size = t.size := by
  cases prev <;> simp [setAfter]

@[simp] theorem size_setBefore : (t.setBefore p next o).size = t.size := by
  cases next <;> simp [setBefore]

theorem node_setAfter (hp : p < t.size) (hprev : ∀ q, prev = some q → q < t.size) :
    (t.setAfter p prev o).node x = { t.node x with
      firstChild := if prev = none ∧ x = p then o else (t.node x).firstChild
      nextSibling := if prev = some x then o else (t.node x).nextSibling } := by
  cases prev with
  | none =>
      rw [setAfter, node_update hp]
      by_cases hx : x = p <;> simp [hx]
  | some q =>
      rw [setAfter, node_update (hprev q rfl)]
      by_cases hx : x = q
      · simp [hx]
      · simp [hx, Ne.symm hx]

theorem node_setBefore (hp : p < t.size) (hnext : ∀ q, next = some q → q < t.size) :
    (t.setBefore p next o).node x = { t.node x with
      lastChild := if next = none ∧ x = p then o else (t.node x).lastChild
      prevSibling := if next = some x then o else (t.node x).prevSibling } := by
  cases next with
  | none =>
      rw [setBefore, node_update hp]
      by_cases hx : x = p <;> simp [hx]
  | some q =>
      rw [setBefore, node_update (hnext q rfl)]
      by_cases hx : x = q
      · simp [hx]
      · simp [hx, Ne.symm hx]

@[simp] theorem size_link : (t.link p r prev next c).size = t.size := by
  simp [link]

theorem node_link (hp : p < t.size) (hc : c < t.size) (hprev : ∀ q, prev = some q → q < t.size)
    (hnext : ∀ q, next = some q → q < t.size) :
    (t.link p r prev next c).node x = {
      kind := t.kind x
      role := if x = c then r else t.role x
      parent := if x = c then some p else t.parent x
      firstChild := if prev = none ∧ x = p then some c else t.firstChild x
      lastChild := if next = none ∧ x = p then some c else t.lastChild x
      prevSibling := if next = some x then some c else if x = c then prev else t.prevSibling x
      nextSibling :=
        if prev = some x then some c else if x = c then next else t.nextSibling x } := by
  rw [link, node_setBefore (by simpa using hp) (by simpa using hnext),
    node_setAfter (by simpa using hp) (by simpa using hprev), node_update hc]
  by_cases hx : x = c <;>
    simp [hx, kind, role, parent, firstChild, lastChild, prevSibling, nextSibling]

@[simp] theorem size_detach : (t.detach i).size = t.size := by
  unfold detach
  split <;> simp

theorem node_detach (hi : i < t.size) (hp : p < t.size) (hip : t.parent i = some p)
    (hprev : ∀ q, t.prevSibling i = some q → q < t.size)
    (hnext : ∀ q, t.nextSibling i = some q → q < t.size) : (t.detach i).node x = {
      kind := t.kind x
      role := t.role x
      parent := if x = i then none else t.parent x
      firstChild := if t.prevSibling i = none ∧ x = p then t.nextSibling i else t.firstChild x
      lastChild := if t.nextSibling i = none ∧ x = p then t.prevSibling i else t.lastChild x
      prevSibling := if x = i then none else if t.nextSibling i = some x then t.prevSibling i
        else t.prevSibling x
      nextSibling :=
        if x = i then none else if t.prevSibling i = some x then t.nextSibling i
          else t.nextSibling x } := by
  simp only [detach, hip]
  rw [node_update (by simpa using hi)]
  by_cases hx : x = i
  · subst x
    rw [if_pos rfl, node_setBefore (by simpa using hp) (by simpa using hnext),
      node_setAfter hp hprev]
    simp [kind, role, firstChild, lastChild]
  · rw [if_neg hx, node_setBefore (by simpa using hp) (by simpa using hnext),
      node_setAfter hp hprev]
    simp [hx, kind, role, parent, firstChild, lastChild, prevSibling, nextSibling]

theorem unlinked_setAfter :
    (t.setAfter p prev o).placements = t.placements ∧ (t.setAfter p prev o).marks = t.marks := by
  cases prev <;> exact ⟨rfl, rfl⟩

theorem unlinked_setBefore :
    (t.setBefore p next o).placements = t.placements ∧ (t.setBefore p next o).marks = t.marks := by
  cases next <;> exact ⟨rfl, rfl⟩

@[simp] theorem placements_link : (t.link p r prev next c).placements = t.placements :=
  unlinked_setBefore.1.trans unlinked_setAfter.1

@[simp] theorem marks_link : (t.link p r prev next c).marks = t.marks :=
  unlinked_setBefore.2.trans unlinked_setAfter.2

@[simp] theorem placements_detach : (t.detach i).placements = t.placements := by
  unfold detach
  split
  · rfl
  · exact unlinked_setBefore.1.trans unlinked_setAfter.1

@[simp] theorem marks_detach : (t.detach i).marks = t.marks := by
  unfold detach
  split
  · rfl
  · exact unlinked_setBefore.2.trans unlinked_setAfter.2

theorem split_cases {m₁ m₂ : List NodeId} (h : l₁ ++ c :: l₂ = m₁ ++ x :: m₂) :
    (∃ b, l₁ = m₁ ++ x :: b ∧ m₂ = b ++ c :: l₂) ∨ (x = c ∧ m₁ = l₁ ∧ m₂ = l₂) ∨
      ∃ b, l₂ = b ++ x :: m₂ ∧ m₁ = l₁ ++ c :: b := by
  rcases List.append_eq_append_iff.mp h with ⟨b, rfl, hb⟩ | ⟨b, rfl, hb⟩
  · cases b with
    | nil =>
        cases hb
        exact .inr (.inl ⟨rfl, by simp, rfl⟩)
    | cons d b =>
        cases hb
        exact .inr (.inr ⟨b, rfl, rfl⟩)
  · cases b with
    | nil =>
        cases hb
        exact .inr (.inl ⟨rfl, by simp, rfl⟩)
    | cons d b =>
        cases hb
        exact .inl ⟨b, rfl, rfl⟩

theorem split_append {α : Type} {x : α} {l₁ l₂ m₁ m₂ : List α} (h : l₁ ++ l₂ = m₁ ++ x :: m₂) :
    (∃ b, l₁ = m₁ ++ x :: b ∧ m₂ = b ++ l₂) ∨ ∃ b, l₂ = b ++ x :: m₂ ∧ m₁ = l₁ ++ b := by
  rcases List.append_eq_append_iff.mp h with ⟨b, rfl, hb⟩ | ⟨b, rfl, hb⟩
  · exact .inr ⟨b, hb, rfl⟩
  · cases b with
    | nil => exact .inr ⟨[], by simpa using hb.symm, by simp⟩
    | cons d b =>
        cases hb
        exact .inl ⟨b, rfl, rfl⟩

namespace Linked

theorem notMem (h : t.Linked kids) (hc : t.parent c = none) (q : NodeId) : c ∉ kids q := by
  simp [h.mem, hc]

theorem lt_of_mem (h : t.Linked kids) (hx : x ∈ kids p) : x < t.size := lt_of_parent (h.mem.mp hx)

theorem lt_of_getLast? (h : t.Linked kids) (hk : kids p = l₁ ++ l₂) (q : NodeId)
    (hq : l₁.getLast? = some q) : q < t.size := by
  refine h.lt_of_mem (p := p) ?_
  rw [hk]
  exact List.mem_append_left _ (List.mem_of_getLast? hq)

theorem lt_of_head? (h : t.Linked kids) (hk : kids p = l₁ ++ l₂) (q : NodeId)
    (hq : l₂.head? = some q) : q < t.size := by
  refine h.lt_of_mem (p := p) ?_
  rw [hk]
  exact List.mem_append_right _ (List.mem_of_head? hq)

theorem ne_of_mem (h : t.Linked kids) {q : NodeId} (hx : x ∈ kids q) (hc : c ∈ kids p)
    (hq : q ≠ p) : x ≠ c := by
  rintro rfl
  have := (h.mem.mp hx).symm.trans (h.mem.mp hc)
  exact hq (Option.some.inj this)

theorem node_link (h : t.Linked kids) (hp : p < t.size) (hc : c < t.size) (hk : kids p = l₁ ++ l₂) :
    (t.link p r l₁.getLast? l₂.head? c).node x = {
      kind := t.kind x
      role := if x = c then r else t.role x
      parent := if x = c then some p else t.parent x
      firstChild := if l₁.getLast? = none ∧ x = p then some c else t.firstChild x
      lastChild := if l₂.head? = none ∧ x = p then some c else t.lastChild x
      prevSibling :=
        if l₂.head? = some x then some c else if x = c then l₁.getLast? else t.prevSibling x
      nextSibling :=
        if l₁.getLast? = some x then some c else if x = c then l₂.head? else t.nextSibling x } :=
  Tree.node_link hp hc (h.lt_of_getLast? hk) (h.lt_of_head? hk)

theorem head?_append_insert {m : List NodeId} (b : List NodeId) (hx : x ∉ b) (hc : x ≠ c) :
    (if (m ++ x :: b).getLast? = some x then some c
      else if x = c then l₂.head? else (b ++ l₂).head?) = (b ++ c :: l₂).head? := by
  cases b with
  | nil => simp
  | cons d b =>
      have hne : (m ++ x :: d :: b).getLast? ≠ some x := by
        rw [List.getLast?_append_of_ne_nil _ (by simp), List.getLast?_cons_cons]
        exact fun hl => hx (List.mem_of_getLast? hl)
      rw [if_neg hne, if_neg hc]
      rfl

theorem getLast?_insert_append {m : List NodeId} (b : List NodeId) (hx : x ∉ b) (hc : x ≠ c) :
    (if (b ++ x :: m).head? = some x then some c
      else if x = c then l₁.getLast? else (l₁ ++ b).getLast?) = (l₁ ++ c :: b).getLast? := by
  cases b with
  | nil => simp
  | cons d b =>
      have hd : d ≠ x := fun he => hx (by simp [he])
      simp [hd, hc, List.getLast?_append, List.getLast?_cons_cons]

theorem notMem_of_split (h : t.Linked kids) (hk : kids p = l₁ ++ x :: l₂) : x ∉ l₁ ∧ x ∉ l₂ := by
  have hnd := h.nodup p
  rw [hk, List.nodup_middle, List.nodup_cons, List.mem_append, not_or] at hnd
  exact hnd.1

theorem nextSibling_link (h : t.Linked kids) (hp : p < t.size) (hc : c < t.size)
    (hcp : t.parent c = none) (hk : kids p = l₁ ++ l₂) {q : NodeId} {m₁ m₂ : List NodeId}
    (hm : Function.update kids p (l₁ ++ c :: l₂) q = m₁ ++ x :: m₂) :
    (t.link p r l₁.getLast? l₂.head? c).nextSibling x = m₂.head? := by
  refine (congrArg Node.nextSibling (h.node_link hp hc hk)).trans ?_
  dsimp only
  have hcm := h.notMem hcp
  by_cases hq : q = p
  · subst q
    rw [Function.update_self] at hm
    rcases split_cases hm with ⟨b, rfl, rfl⟩ | ⟨rfl, rfl, rfl⟩ | ⟨b, rfl, rfl⟩
    · have hk' : kids p = m₁ ++ x :: (b ++ l₂) := by simp [hk]
      have hb : x ∉ b := fun hb => (h.notMem_of_split hk').2 (by simp [hb])
      rw [h.next hk']
      exact head?_append_insert b hb fun he => hcm p (by simp [hk, he])
    · have hl : m₁.getLast? ≠ some x := fun hl => hcm p (by simp [hk, List.mem_of_getLast? hl])
      rw [if_neg hl, if_pos rfl]
    · have hk' : kids p = (l₁ ++ b) ++ x :: m₂ := by simp [hk]
      have hl : l₁.getLast? ≠ some x := fun hl =>
        (h.notMem_of_split hk').1 (by simp [List.mem_of_getLast? hl])
      rw [if_neg hl, if_neg fun he => hcm p (by simp [hk, he]), h.next hk']
  · rw [Function.update_of_ne hq] at hm
    have hx : x ∈ kids q := by simp [hm]
    have hl : l₁.getLast? ≠ some x := fun hl =>
      h.ne_of_mem hx (c := x) (p := p) (by simp [hk, List.mem_of_getLast? hl]) hq rfl
    rw [if_neg hl, if_neg fun he : x = c => hcm q (he ▸ hx), h.next hm]

theorem prevSibling_link (h : t.Linked kids) (hp : p < t.size) (hc : c < t.size)
    (hcp : t.parent c = none) (hk : kids p = l₁ ++ l₂) {q : NodeId} {m₁ m₂ : List NodeId}
    (hm : Function.update kids p (l₁ ++ c :: l₂) q = m₁ ++ x :: m₂) :
    (t.link p r l₁.getLast? l₂.head? c).prevSibling x = m₁.getLast? := by
  refine (congrArg Node.prevSibling (h.node_link hp hc hk)).trans ?_
  dsimp only
  have hcm := h.notMem hcp
  by_cases hq : q = p
  · subst q
    rw [Function.update_self] at hm
    rcases split_cases hm with ⟨b, rfl, rfl⟩ | ⟨rfl, rfl, rfl⟩ | ⟨b, rfl, rfl⟩
    · have hk' : kids p = m₁ ++ x :: (b ++ l₂) := by simp [hk]
      have hl : l₂.head? ≠ some x :=
        fun hl => (h.notMem_of_split hk').2 (by simp [List.mem_of_head? hl])
      rw [if_neg hl, if_neg fun he => hcm p (by simp [hk, he]), h.prev hk']
    · have hl : m₂.head? ≠ some x := fun hl => hcm p (by simp [hk, List.mem_of_head? hl])
      rw [if_neg hl, if_pos rfl]
    · have hk' : kids p = (l₁ ++ b) ++ x :: m₂ := by simp [hk]
      have hb : x ∉ b := fun hb => (h.notMem_of_split hk').1 (by simp [hb])
      rw [h.prev hk']
      exact getLast?_insert_append b hb fun he => hcm p (by simp [hk, he])
  · rw [Function.update_of_ne hq] at hm
    have hx : x ∈ kids q := by simp [hm]
    have hl : l₂.head? ≠ some x := fun hl =>
      h.ne_of_mem hx (c := x) (p := p) (by simp [hk, List.mem_of_head? hl]) hq rfl
    rw [if_neg hl, if_neg fun he : x = c => hcm q (he ▸ hx), h.prev hm]

theorem link (h : t.Linked kids) (hp : p < t.size) (hc : c < t.size) (hcp : t.parent c = none)
    (hk : kids p = l₁ ++ l₂) :
    (t.link p r l₁.getLast? l₂.head? c).Linked (Function.update kids p (l₁ ++ c :: l₂)) := by
  have hn (x : NodeId) := h.node_link (x := x) (r := r) hp hc hk
  have hcm := h.notMem hcp
  refine ⟨fun q => ?_, fun {x q} => ?_, fun q => ?_, fun q => ?_,
    fun {q x m₁ m₂} hm => h.nextSibling_link hp hc hcp hk hm,
    fun {q x m₁ m₂} hm => h.prevSibling_link hp hc hcp hk hm, fun {x} hx => ?_⟩
  · by_cases hq : q = p
    · subst q
      have hnd := h.nodup p
      rw [Function.update_self, List.nodup_middle, List.nodup_cons, ← hk]
      exact ⟨hcm p, hnd⟩
    · rw [Function.update_of_ne hq]
      exact h.nodup q
  · rw [show Tree.parent _ x = _ from congrArg Node.parent (hn x)]
    dsimp only
    by_cases hq : q = p
    · subst q
      have hm := h.mem (c := x) (p := p)
      rw [hk] at hm
      rw [Function.update_self]
      by_cases hx : x = c
      · simp [hx]
      · rw [if_neg hx, ← hm]
        simp [hx]
    · rw [Function.update_of_ne hq, h.mem]
      by_cases hx : x = c
      · simp [hx, hcp, Ne.symm hq]
      · rw [if_neg hx]
  · rw [show Tree.firstChild _ q = _ from congrArg Node.firstChild (hn q)]
    dsimp only
    by_cases hq : q = p
    · subst q
      rw [Function.update_self, h.first, hk]
      cases l₁ <;> simp
    · rw [Function.update_of_ne hq, if_neg fun hh => hq hh.2, h.first]
  · rw [show Tree.lastChild _ q = _ from congrArg Node.lastChild (hn q)]
    dsimp only
    by_cases hq : q = p
    · subst q
      rw [Function.update_self, h.last, hk]
      cases l₂ <;> simp [List.getLast?_append]
    · rw [Function.update_of_ne hq, if_neg fun hh => hq hh.2, h.last]
  · rw [show Tree.parent _ x = _ from congrArg Node.parent (hn x)] at hx
    dsimp only at hx
    split at hx
    · simp at hx
    · rename_i hxc
      have hl : l₁.getLast? ≠ some x :=
        fun hl => h.notMem hx p (by simp [hk, List.mem_of_getLast? hl])
      have hf : l₂.head? ≠ some x := fun hf => h.notMem hx p (by simp [hk, List.mem_of_head? hf])
      refine ⟨(congrArg Node.nextSibling (hn x)).trans ?_,
        (congrArg Node.prevSibling (hn x)).trans ?_⟩
      · dsimp only
        rw [if_neg hl, if_neg hxc, (h.single hx).1]
      · dsimp only
        rw [if_neg hf, if_neg hxc, (h.single hx).2]

theorem node_detach (h : t.Linked kids) (hk : kids p = l₁ ++ i :: l₂) :
    (t.detach i).node x = {
      kind := t.kind x
      role := t.role x
      parent := if x = i then none else t.parent x
      firstChild := if l₁.getLast? = none ∧ x = p then l₂.head? else t.firstChild x
      lastChild := if l₂.head? = none ∧ x = p then l₁.getLast? else t.lastChild x
      prevSibling :=
        if x = i then none else if l₂.head? = some x then l₁.getLast? else t.prevSibling x
      nextSibling :=
        if x = i then none else if l₁.getLast? = some x then l₂.head? else t.nextSibling x } := by
  have hi : t.parent i = some p := h.mem.mp (by simp [hk])
  have hprev := h.prev hk
  have hnext := h.next hk
  rw [Tree.node_detach (lt_of_parent hi) (h.lt_parent hi) hi, hprev, hnext]
  · rw [hprev]
    exact h.lt_of_getLast? hk
  · rw [hnext]
    have hk' : kids p = (l₁ ++ [i]) ++ l₂ := by rw [hk, List.append_assoc, List.singleton_append]
    exact h.lt_of_head? hk'

theorem nextSibling_detach (h : t.Linked kids)
    (hk : kids p = l₁ ++ i :: l₂) {q : NodeId} {m₁ m₂ : List NodeId}
    (hm : Function.update kids p (l₁ ++ l₂) q = m₁ ++ x :: m₂) :
    (t.detach i).nextSibling x = m₂.head? := by
  refine (congrArg Node.nextSibling (h.node_detach hk)).trans ?_
  dsimp only
  have hi : i ∈ kids p := by simp [hk]
  obtain ⟨hi₁, hi₂⟩ := h.notMem_of_split hk
  by_cases hq : q = p
  · subst q
    rw [Function.update_self] at hm
    rcases split_append hm with ⟨b, rfl, rfl⟩ | ⟨b, rfl, rfl⟩
    · have hx : x ≠ i := fun he => hi₁ (by simp [he])
      have hk' : kids p = m₁ ++ x :: (b ++ i :: l₂) := by simp [hk]
      rw [if_neg hx, h.next hk']
      cases b with
      | nil => simp
      | cons d b =>
          have hl : (m₁ ++ x :: d :: b).getLast? ≠ some x := by
            rw [List.getLast?_append_of_ne_nil _ (by simp), List.getLast?_cons_cons]
            exact fun hl => (h.notMem_of_split hk').2
              (List.mem_append_left _ (List.mem_of_getLast? hl))
          rw [if_neg hl]
          rfl
    · have hx : x ≠ i := fun he => hi₂ (by simp [he])
      have hk' : kids p = (l₁ ++ i :: b) ++ x :: m₂ := by simp [hk]
      have hl : l₁.getLast? ≠ some x := fun hl =>
        (h.notMem_of_split hk').1 (by simp [List.mem_of_getLast? hl])
      rw [if_neg hx, if_neg hl, h.next hk']
  · rw [Function.update_of_ne hq] at hm
    have hx : x ∈ kids q := by simp [hm]
    have hl : l₁.getLast? ≠ some x := fun hl =>
      h.ne_of_mem hx (c := x) (p := p) (by simp [hk, List.mem_of_getLast? hl]) hq rfl
    rw [if_neg (h.ne_of_mem hx hi hq), if_neg hl, h.next hm]

theorem prevSibling_detach (h : t.Linked kids)
    (hk : kids p = l₁ ++ i :: l₂) {q : NodeId} {m₁ m₂ : List NodeId}
    (hm : Function.update kids p (l₁ ++ l₂) q = m₁ ++ x :: m₂) :
    (t.detach i).prevSibling x = m₁.getLast? := by
  refine (congrArg Node.prevSibling (h.node_detach hk)).trans ?_
  dsimp only
  have hi : i ∈ kids p := by simp [hk]
  obtain ⟨hi₁, hi₂⟩ := h.notMem_of_split hk
  by_cases hq : q = p
  · subst q
    rw [Function.update_self] at hm
    rcases split_append hm with ⟨b, rfl, rfl⟩ | ⟨b, rfl, rfl⟩
    · have hx : x ≠ i := fun he => hi₁ (by simp [he])
      have hk' : kids p = m₁ ++ x :: (b ++ i :: l₂) := by simp [hk]
      have hl : l₂.head? ≠ some x :=
        fun hl => (h.notMem_of_split hk').2 (by simp [List.mem_of_head? hl])
      rw [if_neg hx, if_neg hl, h.prev hk']
    · have hx : x ≠ i := fun he => hi₂ (by simp [he])
      have hk' : kids p = (l₁ ++ i :: b) ++ x :: m₂ := by simp [hk]
      rw [if_neg hx, h.prev hk']
      cases b with
      | nil => simp
      | cons d b =>
          have hd : d ≠ x := fun he => (h.notMem_of_split hk').1 (by simp [he])
          simp [hd, List.getLast?_append, List.getLast?_cons_cons]
  · rw [Function.update_of_ne hq] at hm
    have hx : x ∈ kids q := by simp [hm]
    have hl : l₂.head? ≠ some x := fun hl =>
      h.ne_of_mem hx (c := x) (p := p) (by simp [hk, List.mem_of_head? hl]) hq rfl
    rw [if_neg (h.ne_of_mem hx hi hq), if_neg hl, h.prev hm]

theorem detach (h : t.Linked kids) (hk : kids p = l₁ ++ i :: l₂) :
    (t.detach i).Linked (Function.update kids p (l₁ ++ l₂)) := by
  have hn (x : NodeId) := h.node_detach (x := x) hk
  have hi : t.parent i = some p := h.mem.mp (by simp [hk])
  obtain ⟨hi₁, hi₂⟩ := h.notMem_of_split hk
  refine ⟨fun q => ?_, fun {x q} => ?_, fun q => ?_, fun q => ?_,
    fun {q x m₁ m₂} hm => h.nextSibling_detach hk hm,
    fun {q x m₁ m₂} hm => h.prevSibling_detach hk hm, fun {x} hx => ?_⟩
  · by_cases hq : q = p
    · subst q
      have hnd := h.nodup p
      rw [hk, List.nodup_middle, List.nodup_cons] at hnd
      rw [Function.update_self]
      exact hnd.2
    · rw [Function.update_of_ne hq]
      exact h.nodup q
  · rw [show Tree.parent _ x = _ from congrArg Node.parent (hn x)]
    dsimp only
    by_cases hq : q = p
    · subst q
      rw [Function.update_self]
      by_cases hx : x = i
      · simp [hx, hi₁, hi₂]
      · rw [if_neg hx, ← h.mem, hk]
        simp [hx]
    · rw [Function.update_of_ne hq, h.mem]
      by_cases hx : x = i
      · simp [hx, hi, Ne.symm hq]
      · rw [if_neg hx]
  · rw [show Tree.firstChild _ q = _ from congrArg Node.firstChild (hn q)]
    dsimp only
    by_cases hq : q = p
    · subst q
      rw [Function.update_self, h.first, hk]
      cases l₁ <;> simp
    · rw [Function.update_of_ne hq, if_neg fun hh => hq hh.2, h.first]
  · rw [show Tree.lastChild _ q = _ from congrArg Node.lastChild (hn q)]
    dsimp only
    by_cases hq : q = p
    · subst q
      rw [Function.update_self, h.last, hk]
      cases l₂ <;> simp [List.getLast?_append]
    · rw [Function.update_of_ne hq, if_neg fun hh => hq hh.2, h.last]
  · rw [show Tree.parent _ x = _ from congrArg Node.parent (hn x)] at hx
    dsimp only at hx
    rw [show Tree.nextSibling _ x = _ from congrArg Node.nextSibling (hn x),
      show Tree.prevSibling _ x = _ from congrArg Node.prevSibling (hn x)]
    dsimp only
    split at hx
    · rename_i hxi
      simp [hxi]
    · rename_i hxi
      have hl : l₁.getLast? ≠ some x :=
        fun hl => h.notMem hx p (by simp [hk, List.mem_of_getLast? hl])
      have hf : l₂.head? ≠ some x := fun hf => h.notMem hx p (by simp [hk, List.mem_of_head? hf])
      rw [if_neg hxi, if_neg hl, if_neg hxi, if_neg hf]
      exact h.single hx

end Linked

theorem isAncestorOrSelf_iff : t.isAncestorOrSelf c i = true ↔ c ∈ i :: t.ancestors i := by
  simp only [isAncestorOrSelf, Bool.or_eq_true, beq_iff_eq, List.contains_iff_mem, List.mem_cons]
  exact or_congr_left eq_comm

namespace WellFormed

theorem of_linked (h : t.Linked kids) (climbs : ∀ i, ∃ l, Follows t.parent (some i) l)
    (null_kind : t.kind .null = .null) (null_parent : t.parent .null = none)
    (null_children : kids .null = []) (size_pos : 0 < t.size) : t.WellFormed where
  siblings p := ⟨kids p, h.follows_next p, h.follows_prev p, h.count p⟩
  single _ := h.single
  climbs := climbs
  null_kind := null_kind
  null_parent := null_parent
  null_children := by rw [h.first, h.last, null_children]; exact ⟨rfl, rfl⟩
  size_pos := size_pos

theorem children_null (h : t.WellFormed) : t.children .null = [] := by
  rw [← List.head?_eq_none_iff, ← h.linked.first]
  exact h.null_children.1

theorem follows_parent (h : t.WellFormed) (i : NodeId) :
    Follows t.parent (some i) (i :: t.ancestors i) :=
  .go (h.follows_ancestors i)

theorem kind_link (h : t.WellFormed) (hp : p < t.size) (hc : c < t.size)
    (hk : t.children p = l₁ ++ l₂) :
    (t.link p r l₁.getLast? l₂.head? c).kind x = t.kind x :=
  (congrArg Node.kind (h.linked.node_link hp hc hk) :)

theorem role_link (h : t.WellFormed) (hp : p < t.size) (hc : c < t.size)
    (hk : t.children p = l₁ ++ l₂) :
    (t.link p r l₁.getLast? l₂.head? c).role x = if x = c then r else t.role x :=
  (congrArg Node.role (h.linked.node_link hp hc hk) :)

theorem parent_link (h : t.WellFormed) (hp : p < t.size) (hc : c < t.size)
    (hk : t.children p = l₁ ++ l₂) :
    (t.link p r l₁.getLast? l₂.head? c).parent x = if x = c then some p else t.parent x :=
  (congrArg Node.parent (h.linked.node_link hp hc hk) :)

theorem children_link (h : t.WellFormed) (hp : p < t.size) (hc : c < t.size)
    (hcp : t.parent c = none) (hk : t.children p = l₁ ++ l₂) :
    (t.link p r l₁.getLast? l₂.head? c).children = Function.update t.children p (l₁ ++ c :: l₂) :=
  (h.linked.link hp hc hcp hk).children_eq

theorem link (h : t.WellFormed) (hp : p < t.size) (hpn : p ≠ .null) (hc : c < t.size)
    (hcn : c ≠ .null) (hcp : t.parent c = none) (hca : t.isAncestorOrSelf c p = false)
    (hk : t.children p = l₁ ++ l₂) :
    (t.link p r l₁.getLast? l₂.head? c).WellFormed := by
  have hpar (x : NodeId) := h.parent_link (x := x) (r := r) hp hc hk
  rw [← Bool.not_eq_true, isAncestorOrSelf_iff] at hca
  refine of_linked (h.linked.link hp hc hcp hk) (fun i => ?_) ?_ ?_ ?_ (by simpa using h.size_pos)
  · obtain ⟨l, hl⟩ := h.climbs i
    refine hl.redirect (c := c) (fun x hx => by rw [hpar, if_neg hx]) (m := p :: t.ancestors p) ?_
    rw [hpar, if_pos rfl]
    refine (h.follows_parent p).congr fun x hx => ?_
    rw [hpar, if_neg]
    rintro rfl
    exact hca hx
  · rw [h.kind_link hp hc hk, h.null_kind]
  · rw [hpar, if_neg (Ne.symm hcn), h.null_parent]
  · rw [Function.update_of_ne (Ne.symm hpn), h.children_null]

theorem exists_split (h : t.WellFormed) (hi : t.parent i = some p) :
    ∃ l₁ l₂, t.children p = l₁ ++ i :: l₂ :=
  List.append_of_mem (h.mem_children.mpr hi)

theorem kind_detach (h : t.WellFormed) : (t.detach i).kind x = t.kind x := by
  cases hi : t.parent i with
  | none => simp only [Tree.detach, hi]
  | some p =>
      obtain ⟨l₁, l₂, hk⟩ := h.exists_split hi
      exact (congrArg Node.kind (h.linked.node_detach hk) :)

theorem role_detach (h : t.WellFormed) : (t.detach i).role x = t.role x := by
  cases hi : t.parent i with
  | none => simp only [Tree.detach, hi]
  | some p =>
      obtain ⟨l₁, l₂, hk⟩ := h.exists_split hi
      exact (congrArg Node.role (h.linked.node_detach hk) :)

theorem parent_detach (h : t.WellFormed) :
    (t.detach i).parent x = if x = i then none else t.parent x := by
  cases hi : t.parent i with
  | none =>
      simp only [Tree.detach, hi]
      by_cases hx : x = i
      · rw [if_pos hx, hx, hi]
      · rw [if_neg hx]
  | some p =>
      obtain ⟨l₁, l₂, hk⟩ := h.exists_split hi
      exact (congrArg Node.parent (h.linked.node_detach hk) :)

theorem children_detach (h : t.WellFormed) (hk : t.children p = l₁ ++ i :: l₂) :
    (t.detach i).children = Function.update t.children p (l₁ ++ l₂) :=
  (h.linked.detach hk).children_eq

theorem detach (h : t.WellFormed) (i : NodeId) : (t.detach i).WellFormed := by
  cases hi : t.parent i with
  | none => simpa only [Tree.detach, hi] using h
  | some p =>
      obtain ⟨l₁, l₂, hk⟩ := h.exists_split hi
      refine of_linked (h.linked.detach hk) (fun x => ?_) ?_ ?_ ?_ (by simpa using h.size_pos)
      · obtain ⟨l, hl⟩ := h.climbs x
        refine hl.redirect (c := i) (fun x hx => by rw [h.parent_detach, if_neg hx]) (m := []) ?_
        rw [h.parent_detach, if_pos rfl]
        exact .stop
      · rw [h.kind_detach, h.null_kind]
      · rw [h.parent_detach, if_neg (Ne.symm (h.ne_null hi)), h.null_parent]
      · rw [Function.update_of_ne (Ne.symm (h.parent_ne_null hi)), h.children_null]

end WellFormed

end TreeScribe.Tree
