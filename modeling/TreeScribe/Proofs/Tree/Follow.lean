import TreeScribe.Tree.Basic

namespace TreeScribe

/-- Following `link` from a start on meets the nodes of the list, in this order, and ends. -/
inductive Follows (link : NodeId → Option NodeId) : Option NodeId → List NodeId → Prop
  | stop : Follows link none []
  | go {i : NodeId} {l : List NodeId} (h : Follows link (link i) l) : Follows link (some i) (i :: l)

namespace Follows

variable {link link' : NodeId → Option NodeId} {start : Option NodeId} {l l' l₁ l₂ : List NodeId}
  {i : NodeId}

theorem head?_eq (h : Follows link start l) : l.head? = start := by
  cases h <;> rfl

theorem unique (h : Follows link start l) (h' : Follows link start l') : l = l' := by
  induction h generalizing l' with
  | stop => cases h'; rfl
  | go _ ih =>
      cases h' with
      | go h' => rw [ih h']

theorem link_eq (h : Follows link start (l₁ ++ i :: l₂)) : link i = l₂.head? := by
  induction l₁ generalizing start with
  | nil =>
      cases h with
      | go h => exact h.head?_eq.symm
  | cons a l₁ ih =>
      cases h with
      | go h => exact ih h

theorem suffix (h : Follows link start (l₁ ++ l₂)) : Follows link l₂.head? l₂ := by
  induction l₁ generalizing start with
  | nil => rwa [← h.head?_eq] at h
  | cons a l₁ ih =>
      cases h with
      | go h => exact ih h

theorem behind (h : Follows link start (l₁ ++ i :: l₂)) : Follows link (link i) l₂ := by
  rw [h.link_eq]
  rw [List.append_cons] at h
  exact h.suffix

theorem linked_of_mem (h : Follows link start l) (hi : i ∈ l) :
    start = some i ∨ ∃ j, link j = some i := by
  induction h with
  | stop => simp at hi
  | go h ih =>
      rename_i j l
      rcases List.mem_cons.mp hi with rfl | hi
      · exact .inl rfl
      · rcases ih hi with hj | hj
        · exact .inr ⟨j, hj⟩
        · exact .inr hj

theorem nodup (h : Follows link start l) : l.Nodup := by
  induction h with
  | stop => exact List.nodup_nil
  | go h ih =>
      rename_i i l
      refine List.nodup_cons.mpr ⟨fun hi => ?_, ih⟩
      obtain ⟨l₁, l₂, rfl⟩ := List.append_of_mem hi
      have hs : Follows link (i :: l₂).head? (i :: l₂) := h.suffix
      have hl := congrArg List.length ((Follows.go h).unique hs)
      simp at hl
      omega

theorem congr (h : Follows link start l) (hc : ∀ i ∈ l, link' i = link i) :
    Follows link' start l := by
  induction h with
  | stop => exact .stop
  | go h ih =>
      rename_i i l
      refine .go ?_
      rw [hc i (by simp)]
      exact ih fun j hj => hc j (by simp [hj])

theorem redirect {c : NodeId} {m : List NodeId} (h : Follows link start l)
    (hl : ∀ i, i ≠ c → link' i = link i) (hm : Follows link' (link' c) m) :
    ∃ l', Follows link' start l' := by
  induction h with
  | stop => exact ⟨[], .stop⟩
  | go h ih =>
      rename_i i l
      by_cases hi : i = c
      · subst i
        exact ⟨_, .go hm⟩
      · obtain ⟨l', hl'⟩ := ih
        rw [← hl i hi] at hl'
        exact ⟨_, .go hl'⟩

/-- A list whose members are linked as they stand is what is met from its head on. -/
theorem of_split (h : ∀ l₁ i l₂, l = l₁ ++ i :: l₂ → link i = l₂.head?) :
    Follows link l.head? l := by
  induction l with
  | nil => exact .stop
  | cons a l ih =>
      refine .go ?_
      rw [h [] a l rfl]
      exact ih fun l₁ i l₂ hl => h (a :: l₁) i l₂ (by rw [hl]; rfl)

theorem followWithin_eq (h : Follows link start l) {fuel : Nat} (hf : l.length ≤ fuel) :
    followWithin link fuel start = l := by
  induction h generalizing fuel with
  | stop => cases fuel <;> rfl
  | go h ih =>
      cases fuel with
      | zero => simp at hf
      | succ fuel => rw [followWithin, ih (by simpa using hf)]

end Follows

theorem length_le_of_nodup {l : List NodeId} {n : Nat} (h : l.Nodup) (hn : ∀ i ∈ l, i < n) :
    l.length ≤ n := by
  have hs : l ⊆ List.range n := fun i hi => List.mem_range.mpr (hn i hi)
  have hle := h.length_le_of_subset hs
  rwa [List.length_range] at hle

theorem Tree.follow_eq {t : Tree} {link : NodeId → Option NodeId} {start : Option NodeId}
    {l : List NodeId} (h : Follows link start l) (hn : ∀ i ∈ l, i < t.size) :
    t.follow link start = l :=
  h.followWithin_eq (length_le_of_nodup h.nodup hn)

end TreeScribe
