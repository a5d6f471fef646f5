import TreeScribe.Proofs.Tree.Edits

namespace TreeScribe.Tree

/-- From `t` to `u`, the node `c` came to stand under `p` between the children `l₁` and `l₂`, and no
other child list changed. -/
structure Inserted (t u : Tree) (p : NodeId) (r : Role) (c : NodeId)
    (l₁ l₂ : List NodeId) : Prop where
  before : t.children p = l₁ ++ l₂
  after : u.children = Function.update t.children p (l₁ ++ c :: l₂)
  parent : u.parent c = some p
  role : u.role c = r

variable {t u : Tree} {p c i prev next : NodeId} {r : Role} {l₁ l₂ : List NodeId}

theorem WellFormed.inserted (h : t.WellFormed) (hp : p < t.size) (hc : c < t.size) (hcn : c ≠ .null)
    (hk : t.children p = l₁ ++ l₂) (ho : t.insertBefore p l₂.head? r c = .ok u) :
    Inserted t u p r c l₁ l₂ := by
  have ha : t.Attachable p c := by
    cases l₂ with
    | nil => exact ((addChild_eq_ok_iff hcn).mp ho).1
    | cons next l₂ => exact ((insertBefore_some_eq_ok_iff hcn).mp ho).2.1
  rw [h.insertBefore_eq hk hcn ha] at ho
  cases ho
  exact ⟨hk, h.children_link hp hc ha.2.1 hk, by rw [h.parent_link hp hc hk, if_pos rfl],
    by rw [h.role_link hp hc hk, if_pos rfl]⟩

/-- Inserting before a node succeeds only if that is a child, and puts the new node directly before
it. -/
theorem insertBefore_places (h : t.WellFormed) (hc : c < t.size) (hcn : c ≠ .null)
    (ho : t.insertBefore p (some next) r c = .ok u) :
    ∃ l₁ l₂, Inserted t u p r c l₁ (next :: l₂) := by
  have hn := ((insertBefore_some_eq_ok_iff hcn).mp ho).1
  obtain ⟨l₁, l₂, hk⟩ := h.exists_split hn
  exact ⟨l₁, l₂, h.inserted (h.lt_parent hn) hc hcn hk ho⟩

/-- What inserting behind a node asks for is only that the node that follows it is a child of the
parent, if there is one. -/
theorem insertAfter_isOk_iff (h : t.WellFormed) (hcn : c ≠ .null) :
    (∃ u, t.insertAfter p (some prev) r c = .ok u) ↔
    t.Attachable p c ∧ (t.parent prev = some p ∨ t.nextSibling prev = none) := by
  rw [insertAfter]
  cases hs : t.nextSibling prev with
  | none => simp [insertBefore, addChild_eq_ok_iff hcn]
  | some next =>
      have hparent : t.parent next = t.parent prev := by
        cases hq : t.parent prev with
        | none => simp [(h.single prev hq).1] at hs
        | some q =>
            obtain ⟨l₁, l₂, hk⟩ := h.exists_split hq
            have hl : l₂.head? = some next := (h.linked.next hk).symm.trans hs
            exact h.mem_children.mp (by simp [hk, List.mem_of_mem_head? hl])
      simp [insertBefore_some_eq_ok_iff hcn, hparent, and_comm]

/-- Behind a child, the new node is put directly behind it; behind a node that is no child and has
no sibling behind it, at the end. -/
theorem insertAfter_places (h : t.WellFormed) (hp : p < t.size) (hc : c < t.size) (hcn : c ≠ .null)
    (ho : t.insertAfter p (some prev) r c = .ok u) : ∃ l₁ l₂, Inserted t u p r c l₁ l₂ ∧
      if t.parent prev = some p then l₁.getLast? = some prev else l₂ = [] ∧
        t.nextSibling prev = none := by
  have hok := ((insertAfter_isOk_iff h hcn).mp ⟨u, ho⟩).2
  rw [insertAfter] at ho
  split
  · rename_i hprev
    obtain ⟨l₁, l₂, hk⟩ := h.exists_split hprev
    rw [h.linked.next hk] at ho
    rw [List.append_cons] at hk
    exact ⟨l₁ ++ [prev], l₂, h.inserted hp hc hcn hk ho, List.getLast?_concat⟩
  · rename_i hprev
    have hs := hok.resolve_left hprev
    rw [hs] at ho
    exact ⟨t.children p, [], h.inserted hp hc hcn (List.append_nil _).symm ho, rfl, hs⟩

theorem replace_places {new : NodeId} (h : t.WellFormed) (hi : t.parent i = some p)
    (hn : new < t.size) (hnn : new ≠ .null) (ho : t.replace i new = .ok u) :
    ∃ l₁ l₂, t.children p = l₁ ++ i :: l₂ ∧
      Inserted (t.detach i) u p (t.role i) new l₁ l₂ := by
  obtain ⟨l₁, l₂, hk⟩ := h.exists_split hi
  simp only [replace, hi, h.linked.next hk] at ho
  refine ⟨l₁, l₂, hk, (h.detach i).inserted (by simpa using h.lt_parent hi) (by simpa using hn)
    hnn ?_ ho⟩
  rw [h.children_detach hk, Function.update_self]

/-- A replacement that is built comes to stand where the old node was, if building it left the
siblings there alone. -/
theorem replaceWith_places {f : Tree → NodeId → Except AttachError (NodeId × Tree)} {new : NodeId}
    {w : Tree} (h : t.WellFormed) (hi : t.parent i = some p) (hf : f (t.detach i) i = .ok (new, w))
    (hw : w.WellFormed) (hkeep : w.children p = (t.detach i).children p) (hp : p < w.size)
    (hn : new < w.size) (hnn : new ≠ .null) (ho : t.replaceWith i f = .ok (new, u)) :
    ∃ l₁ l₂, t.children p = l₁ ++ i :: l₂ ∧
      Inserted w u p (t.role i) new l₁ l₂ := by
  obtain ⟨l₁, l₂, hk⟩ := h.exists_split hi
  obtain ⟨w', hw', ho⟩ := replaceWith_eq_ok_iff.mp ho
  cases hf.symm.trans hw'
  simp only [hi, h.linked.next hk] at ho
  refine ⟨l₁, l₂, hk, hw.inserted hp hn hnn ?_ ho⟩
  rw [hkeep, h.children_detach hk, Function.update_self]

end TreeScribe.Tree
