import TreeScribe.Proofs.Layout.Issued
import TreeScribe.Proofs.Layout.Pieces

namespace TreeScribe

structure Spot where
  before : List Call
  call : Call

namespace Spot

def through (s : Spot) : List Call := s.before ++ [s.call]

end Spot

def nodesOf (spots : List Spot) : List NodeId := spots.filterMap fun s => s.call.node?

abbrev Plan := List (NodeId × List Spot)

namespace Tree

/-- What a composite node itself says: fixed tokens, modifiers, and the name in its identifier
role. -/
inductive Says (t : Tree) (i : NodeId) : Call → Prop
  | token (text : String) : Says t i (.token (.token text) text)
  | keyword (word : String) : Says t i (.keyword (.token word) word)
  | modifier (m : Modifier) : Says t i (.keyword .modifier m.keyword)
  | name {j : NodeId} (hj : t.parent j = some i) (hr : t.role j = .identifier) :
      Says t i (.identifier j)

end Tree

/-- The calls `l`, sent behind the calls `before`, fill the node `i`: they are blanks, words of `i`
itself, names of children, and children, each of them started, written and finished. `spots` are the
words and children of `i`, each with all the calls before it, and `plan` has those of every node
that `l` starts, in the order in which they finish. -/
inductive Fills (t : Tree) : NodeId → List Call → List Spot → Plan → List Call → Prop
  | nil {i : NodeId} {before : List Call} : Fills t i before [] [] []
  | blank {i : NodeId} {before l : List Call} {spots : List Spot} {plan : Plan} {c : Call}
      (hc : c.isBlank = true)
      (h : Fills t i (before ++ [c]) spots plan l) : Fills t i before spots plan (c :: l)
  | word {i : NodeId} {before l : List Call} {spots : List Spot} {plan : Plan} {c : Call}
      (hc : t.Says i c)
      (h : Fills t i (before ++ [c]) spots plan l) :
      Fills t i before (⟨before, c⟩ :: spots) plan (c :: l)
  | leaf {i j : NodeId} {before l : List Call} {spots : List Spot} {plan : Plan} {c : Call}
      (hj : t.parent j = some i) (hc : t.IsWord j c)
      (h : Fills t i (before ++ [.start j, c, .finish j]) spots plan l) :
      Fills t i before (⟨before, .start j⟩ :: spots) ((j, [⟨before ++ [.start j], c⟩]) :: plan)
        (.start j :: c :: .finish j :: l)
  | child {i j : NodeId} {before m l : List Call} {inner spots : List Spot} {under plan : Plan}
      (hj : t.parent j = some i) (hk : t.IsComposite j)
      (hn : (nodesOf inner).Nodup) (hm : Fills t j (before ++ [.start j]) inner under m)
      (h : Fills t i (before ++ .start j :: (m ++ [.finish j])) spots plan l) :
      Fills t i before (⟨before, .start j⟩ :: spots) (under ++ (j, inner) :: plan)
        (.start j :: (m ++ .finish j :: l))

inductive Body (t : Tree) (i : NodeId) (before : List Call) : List Spot → Plan → List Call → Prop
  | word {c : Call} (hc : t.IsWord i c) : Body t i before [⟨before, c⟩] [] [c]
  | composite {l : List Call} {spots : List Spot} {plan : Plan} (hk : t.IsComposite i)
      (hn : (nodesOf spots).Nodup)
      (h : Fills t i before spots plan l) : Body t i before spots plan l

variable {t : Tree} {i j x : NodeId} {before l l' : List Call} {spots spots' : List Spot}
  {plan plan' : Plan} {c : Call}

@[simp] theorem nodesOf_nil : nodesOf [] = [] := rfl

@[simp] theorem nodesOf_append : nodesOf (spots ++ spots') = nodesOf spots ++ nodesOf spots' :=
  List.filterMap_append

theorem nodesOf_cons {s : Spot} : nodesOf (s :: spots) = s.call.node?.toList ++ nodesOf spots := by
  unfold nodesOf
  rw [List.filterMap_cons]
  cases s.call.node? <;> rfl

theorem mem_nodesOf : j ∈ nodesOf spots ↔ ∃ s ∈ spots, s.call.node? = some j := by
  simp only [nodesOf, List.mem_filterMap]

theorem nodesOf_congr (h : spots'.map (·.call) = spots.map (·.call)) :
    nodesOf spots' = nodesOf spots := by
  have hn (spots : List Spot) : nodesOf spots = (spots.map (·.call)).filterMap Call.node? := by
    rw [List.filterMap_map]
    rfl
  rw [hn, hn, h]

namespace Tree

namespace Says

theorem node? (h : t.Says i c) (hn : c.node? = some j) :
    c = .identifier j ∧ t.parent j = some i ∧ t.role j = .identifier := by
  cases h with
  | name hj hr =>
      cases hn
      exact ⟨rfl, hj, hr⟩
  | token | keyword | modifier => cases hn

theorem isBlank (h : t.Says i c) : c.isBlank = false := by
  cases h <;> rfl

theorem ne_start (h : t.Says i c) : c ≠ .start j := by
  rintro rfl
  cases h

theorem ne_finish (h : t.Says i c) : c ≠ .finish j := by
  rintro rfl
  cases h

end Says

end Tree

namespace Fills

theorem of_eq {before' : List Call} (h : Fills t i before spots plan l) (hb : before = before') :
    Fills t i before' spots plan l := hb ▸ h

theorem append (h : Fills t i before spots plan l) (h' : Fills t i (before ++ l) spots' plan' l') :
    Fills t i before (spots ++ spots') (plan ++ plan') (l ++ l') := by
  induction h with
  | nil => exact h'.of_eq (List.append_nil _)
  | blank hc h ih => exact .blank hc (ih (h'.of_eq (by simp)))
  | word hc h ih => exact .word hc (ih (h'.of_eq (by simp)))
  | leaf hj hc h ih =>
      exact .leaf hj hc (ih (h'.of_eq (by simp)))
  | child hj hk hn hm h ihm ih =>
      have hall := Fills.child hj hk hn hm (ih (h'.of_eq (by simp)))
      simpa using hall

theorem blanks (h : ∀ c ∈ l, c.isBlank = true) : Fills t i before [] [] l := by
  induction l generalizing before with
  | nil => exact .nil
  | cons c l ih =>
      exact .blank (h c List.mem_cons_self) (ih fun d hd => h d (List.mem_cons_of_mem _ hd))

theorem parent (h : Fills t i before spots plan l) (hj : j ∈ nodesOf spots) :
    t.parent j = some i := by
  induction h with
  | nil => simp at hj
  | blank _ _ ih => exact ih hj
  | word hc _ ih =>
      rw [nodesOf_cons] at hj
      rcases List.mem_append.mp hj with hj | hj
      · exact (hc.node? (Option.mem_toList.mp hj)).2.1
      · exact ih hj
  | leaf hp _ _ ih | child hp _ _ _ _ _ ih =>
      rw [nodesOf_cons] at hj
      rcases List.mem_append.mp hj with hj | hj
      · cases Option.mem_toList.mp hj
        exact hp
      · exact ih hj

theorem under (h : Fills t i before spots plan l) {e : NodeId × List Spot} (he : e ∈ plan) :
    ∃ j ∈ nodesOf spots, t.Below j e.1 := by
  have hcons {j : NodeId} {before : List Call} {spots : List Spot} :
      nodesOf (⟨before, .start j⟩ :: spots) =
        j :: nodesOf spots := nodesOf_cons
  induction h with
  | nil => simp at he
  | blank _ _ ih => exact ih he
  | word _ _ ih =>
      obtain ⟨j, hj, hb⟩ := ih he
      exact ⟨j, by rw [nodesOf_cons]; exact List.mem_append_right _ hj, hb⟩
  | leaf _ _ _ ih =>
      rw [hcons]
      rcases List.mem_cons.mp he with rfl | he
      · exact ⟨_, List.mem_cons_self, .self⟩
      · obtain ⟨k, hk, hb⟩ := ih he
        exact ⟨k, List.mem_cons_of_mem _ hk, hb⟩
  | child _ _ _ hm _ ihm ih =>
      rw [hcons]
      rcases List.mem_append.mp he with he | he
      · obtain ⟨k, hk, hb⟩ := ihm he
        exact ⟨_, List.mem_cons_self, (Tree.Below.self.child (hm.parent hk)).trans hb⟩
      · rcases List.mem_cons.mp he with rfl | he
        · exact ⟨_, List.mem_cons_self, .self⟩
        · obtain ⟨k, hk, hb⟩ := ih he
          exact ⟨k, List.mem_cons_of_mem _ hk, hb⟩

/-- Nodes that were started are strictly below the node that is filled. -/
theorem above (h : Fills t i before spots plan l) {e : NodeId × List Spot} (he : e ∈ plan) :
    ∃ p, t.parent e.1 = some p ∧ t.Below i p := by
  obtain ⟨j, hj, hb⟩ := h.under he
  have hj := h.parent hj
  cases hb with
  | self => exact ⟨i, hj, .self⟩
  | child hb hp => exact ⟨_, hp, (Tree.Below.self.child hj).trans hb⟩

theorem ne_of_mem (ht : t.WellFormed)
    (h : Fills t i before spots plan l) {e : NodeId × List Spot} (he : e ∈ plan) : e.1 ≠ i := by
  intro hi
  obtain ⟨p, hp, hb⟩ := h.above he
  rw [hi] at hp
  exact ht.not_below_of_parent hp hb

theorem apart (ht : t.WellFormed) (h : Fills t i before spots plan l) (hj : t.parent j = some i)
    (hn : j ∉ nodesOf spots) {e : NodeId × List Spot} (he : e ∈ plan) : ¬ t.Below j e.1 := by
  intro hb
  obtain ⟨k, hk, hbk⟩ := h.under he
  have hjk := ht.eq_of_below hj (h.parent hk) hb hbk
  exact hn (hjk ▸ hk)

theorem nodup_plan (ht : t.WellFormed) (h : Fills t i before spots plan l)
    (hn : (nodesOf spots).Nodup) : (plan.map (·.1)).Nodup := by
  have hcons {j : NodeId} {before : List Call} {spots : List Spot} :
      nodesOf (⟨before, .start j⟩ :: spots) =
        j :: nodesOf spots := nodesOf_cons
  induction h with
  | nil => exact List.nodup_nil
  | blank _ _ ih => exact ih hn
  | word _ _ ih =>
      rw [nodesOf_cons] at hn
      exact ih (List.nodup_append.mp hn).2.1
  | leaf hj _ h ih =>
      rw [hcons] at hn
      obtain ⟨hjn, hn⟩ := List.nodup_cons.mp hn
      refine List.nodup_cons.mpr ⟨fun hm => ?_, ih hn⟩
      obtain ⟨e, he, hej⟩ := List.mem_map.mp hm
      exact h.apart ht hj hjn he (hej ▸ .self)
  | @child i j before m l inner spots under plan hj _ hinner hm h ihm ih =>
      rw [hcons] at hn
      obtain ⟨hjn, hn⟩ := List.nodup_cons.mp hn
      rw [List.map_append, List.map_cons]
      refine List.nodup_append.mpr
        ⟨ihm hinner, List.nodup_cons.mpr ⟨fun hm' => ?_, ih hn⟩, fun x hx y hy hxy => ?_⟩
      · obtain ⟨e, he, hej⟩ := List.mem_map.mp hm'
        exact h.apart ht hj hjn he (hej ▸ .self)
      · subst hxy
        obtain ⟨e, he, rfl⟩ := List.mem_map.mp hx
        rcases List.mem_cons.mp hy with hy | hy
        · exact hm.ne_of_mem ht he hy
        · obtain ⟨e', he', hee⟩ := List.mem_map.mp hy
          obtain ⟨p, hp, hb⟩ := hm.above he
          exact h.apart ht hj hjn he' (hee ▸ hb.child hp)

/-- Every node that was started has a body. -/
theorem body (h : Fills t i before spots plan l) {e : NodeId × List Spot} (he : e ∈ plan) :
    ∃ before under l, Body t e.1 before e.2 under l := by
  induction h with
  | nil => simp at he
  | blank _ _ ih | word _ _ ih => exact ih he
  | leaf _ hc _ ih =>
      rcases List.mem_cons.mp he with rfl | he
      · exact ⟨_, _, _, .word hc⟩
      · exact ih he
  | child _ hk hn hm _ ihm ih =>
      rcases List.mem_append.mp he with he | he
      · exact ihm he
      · rcases List.mem_cons.mp he with rfl | he
        · exact ⟨_, _, _, .composite hk hn hm⟩
        · exact ih he

theorem spot_cases (h : Fills t i before spots plan l) {s : Spot} (hs : s ∈ spots) :
    t.Says i s.call ∨ ∃ j, t.parent j = some i ∧ s.call = .start j := by
  induction h with
  | nil => cases hs
  | blank _ _ ih => exact ih hs
  | word hc _ ih =>
      rcases List.mem_cons.mp hs with rfl | hs
      · exact .inl hc
      · exact ih hs
  | leaf hj _ _ ih | child hj _ _ _ _ _ ih =>
      rcases List.mem_cons.mp hs with rfl | hs
      · exact .inr ⟨_, hj, rfl⟩
      · exact ih hs

theorem code (h : Fills t i before spots plan l) (before' : List Call) : ∃ spots' plan',
    Fills t i before' spots' plan' (l.filter fun c => !c.isBlank) ∧
    spots'.map (·.call) = spots.map (·.call) ∧
      plan'.map (·.1) = plan.map (·.1) := by
  induction h generalizing before' with
  | nil => exact ⟨[], [], .nil, rfl, rfl⟩
  | blank hc _ ih =>
      obtain ⟨spots', plan', h', hs, hp⟩ := ih before'
      refine ⟨spots', plan', ?_, hs, hp⟩
      rwa [List.filter_cons_of_neg (by simp [hc])]
  | word hc _ ih =>
      obtain ⟨spots', plan', h', hs, hp⟩ := ih (before' ++ [_])
      rw [List.filter_cons_of_pos (by simp [hc.isBlank])]
      exact ⟨_, plan', .word hc h', by simp [hs], hp⟩
  | @leaf i j before l spots plan c hj hc _ ih =>
      obtain ⟨spots', plan', h', hs, hp⟩ := ih (before' ++ [.start j, c, .finish j])
      have hb := (Tree.of_wordOf? hc.2).2
      rw [List.filter_cons_of_pos rfl, List.filter_cons_of_pos (by simp [hb]),
        List.filter_cons_of_pos rfl]
      exact ⟨_, _, .leaf hj hc h', by simp [hs], by simp [hp]⟩
  | @child i j before m l inner spots under plan hj hk hn _ _ ihm ih =>
      obtain ⟨inner', under', hm', hi, hu⟩ := ihm (before' ++ [.start j])
      obtain ⟨spots', plan', h', hs, hp⟩ :=
        ih (before' ++ .start j :: (m.filter (fun c => !c.isBlank) ++ [.finish j]))
      rw [List.filter_cons_of_pos rfl, List.filter_append, List.filter_cons_of_pos rfl]
      exact ⟨_, _, .child hj hk (nodesOf_congr hi ▸ hn) hm' h', by simp [hs], by simp [hu, hp]⟩

end Fills

namespace Body

theorem nodup (h : Body t i before spots plan l) : (nodesOf spots).Nodup := by
  cases h with
  | word hc => simp [nodesOf_cons, (Tree.of_wordOf? hc.2).1]
  | composite _ hn _ => exact hn

theorem parent (h : Body t i before spots plan l) (hj : j ∈ nodesOf spots) :
    t.parent j = some i := by
  cases h with
  | word hc => simp [nodesOf_cons, (Tree.of_wordOf? hc.2).1] at hj
  | composite _ _ h => exact h.parent hj

theorem above (h : Body t i before spots plan l) {e : NodeId × List Spot} (he : e ∈ plan) :
    ∃ p, t.parent e.1 = some p ∧ t.Below i p := by
  cases h with
  | word => simp at he
  | composite _ _ h => exact h.above he

theorem body (h : Body t i before spots plan l) {e : NodeId × List Spot} (he : e ∈ plan) :
    ∃ before under l, Body t e.1 before e.2 under l := by
  cases h with
  | word => simp at he
  | composite _ _ h => exact h.body he

/-- A name that a node wrote is one of its children. -/
theorem parent_of_name (h : Body t i before spots plan l) {s : Spot} (hs : s ∈ spots)
    (hj : s.call = .identifier j) : t.parent j = some i :=
  h.parent (mem_nodesOf.mpr ⟨s, hs, by rw [hj]; rfl⟩)

theorem nodup_plan (ht : t.WellFormed) (h : Body t i before spots plan l) :
    (i :: plan.map (·.1)).Nodup := by
  cases h with
  | word => simp
  | composite _ hn h =>
      refine List.nodup_cons.mpr ⟨fun hm => ?_, h.nodup_plan ht hn⟩
      obtain ⟨e, he, hei⟩ := List.mem_map.mp hm
      exact h.ne_of_mem ht he hei

theorem code (h : Body t i before spots plan l) (before' : List Call) : ∃ spots' plan',
    Body t i before' spots' plan' (l.filter fun c => !c.isBlank) ∧
    spots'.map (·.call) = spots.map (·.call) ∧
      plan'.map (·.1) = plan.map (·.1) := by
  cases h with
  | @word c hc =>
      refine ⟨[⟨before', c⟩], [], ?_, rfl, rfl⟩
      rw [List.filter_cons_of_pos (by simp [(Tree.of_wordOf? hc.2).2]), List.filter_nil]
      exact .word hc
  | composite hk hn h =>
      obtain ⟨spots', plan', h', hs, hp⟩ := h.code before'
      exact ⟨spots', plan', .composite hk (nodesOf_congr hs ▸ hn) h', hs, hp⟩

end Body

theorem Fills.below_of_name (h : Fills t i before spots plan l) {e : NodeId × List Spot}
    (he : e ∈ (i, spots) :: plan) {s : Spot} (hs : s ∈ e.2) (hj : s.call = .identifier j) :
    ∃ k ∈ nodesOf spots, t.Below k j := by
  rcases List.mem_cons.mp he with rfl | he
  · exact ⟨j, mem_nodesOf.mpr ⟨s, hs, by rw [hj]; rfl⟩, .self⟩
  · obtain ⟨k, hk, hb⟩ := h.under he
    obtain ⟨_, _, _, hbody⟩ := h.body he
    exact ⟨k, hk, hb.child (hbody.parent_of_name hs hj)⟩

theorem Body.name_ne (ht : t.WellFormed) (h : Body t i before spots plan l) {e : NodeId × List Spot}
    (he : e ∈ (i, spots) :: plan) {s : Spot} (hs : s ∈ e.2) (hj : s.call = .identifier j) :
    j ≠ i := by
  rintro rfl
  rcases List.mem_cons.mp he with rfl | he
  · exact ht.not_below_of_parent (h.parent_of_name hs hj) .self
  · obtain ⟨p, hp, hb⟩ := h.above he
    obtain ⟨_, _, _, hbody⟩ := h.body he
    exact ht.not_below_of_parent (hbody.parent_of_name hs hj) (hb.child hp)

theorem Tree.WellFormed.not_body_null (ht : t.WellFormed) : ¬ Body t .null before spots plan l := by
  have hv : (t.kind .null).isVisited = false := by rw [ht.null_kind]; rfl
  intro h
  cases h with
  | word hc => exact absurd hc.1 (by simp [hv])
  | composite hk _ _ =>
      rcases hk with ⟨p, hp, -⟩ | ⟨hk, -⟩
      · rw [ht.null_parent] at hp
        cases hp
      · simp [hv] at hk

end TreeScribe
