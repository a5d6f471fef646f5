import TreeScribe.Proofs.Layout.Blocks
import TreeScribe.Proofs.Sink.Replayed

namespace TreeScribe

namespace Tree

def StartsBelow (t : Tree) (i : NodeId) (calls : List Call) : Prop :=
  ∀ x ∈ starts calls, ∃ p, t.parent x = some p ∧ t.Below i p

variable {t : Tree} {i j : NodeId} {calls calls' : List Call} {nodes : List NodeId} {c : Call}

namespace StartsBelow

theorem word (hs : ∀ j, c ≠ .start j) : t.StartsBelow i [c] := by
  intro x hx
  cases c with
  | start j => exact absurd rfl (hs j)
  | _ => cases hx

theorem append (h : t.StartsBelow i calls) (h' : t.StartsBelow i calls') :
    t.StartsBelow i (calls ++ calls') := by
  intro x hx
  rw [starts_append] at hx
  rcases List.mem_append.mp hx with hx | hx
  · exact h x hx
  · exact h' x hx

theorem replays (hn : ∀ c ∈ nodes, t.parent c = some i) : t.StartsBelow i (t.replays nodes) := by
  intro x hx
  rw [starts_replays] at hx
  exact ⟨i, hn x (List.mem_of_mem_filter hx), .self⟩

theorem below {x : NodeId} (h : t.StartsBelow j calls) (hn : ∀ c ∈ nodes, t.parent c = some j)
    (hx : x ∈ starts calls ++ t.specials nodes) : ∃ p, t.parent x = some p ∧ t.Below j p := by
  rcases List.mem_append.mp hx with hx | hx
  · exact h x hx
  · exact ⟨j, hn x (List.mem_of_mem_filter hx), .self⟩

theorem node (hj : t.parent j = some i) (h : t.StartsBelow j calls)
    (hn : ∀ c ∈ nodes, t.parent c = some j) :
    t.StartsBelow i (.start j :: (calls ++ .finish j :: t.replays nodes)) := by
  intro x hx
  rw [starts_node] at hx
  rcases List.mem_cons.mp hx with rfl | hx
  · exact ⟨i, hj, .self⟩
  · obtain ⟨p, hp, hb⟩ := h.below hn hx
    exact ⟨p, hp, (Below.self.child hj).trans hb⟩

theorem specialsIn_eq_nil (ht : t.WellFormed) (hj : t.parent j = some i)
    (hjs : (t.kind j).isSpecial = false) (h : t.StartsBelow j calls)
    (hn : ∀ c ∈ nodes, t.parent c = some j) :
    t.specialsIn i (.start j :: (calls ++ .finish j :: t.replays nodes)) = [] := by
  rw [specialsIn, starts_node, List.filter_eq_nil_iff]
  intro x hx
  obtain ⟨hx, hxs⟩ := List.mem_filter.mp hx
  rcases List.mem_cons.mp hx with rfl | hx
  · rw [hjs] at hxs
    cases hxs
  · obtain ⟨p, hp, hb⟩ := h.below hn hx
    rw [decide_eq_true_eq, hp, Option.some.injEq]
    rintro rfl
    exact ht.not_below_of_parent hj hb

end StartsBelow

end Tree

variable {t : Tree} {i j b : NodeId} {kids js : List NodeId} {before l m : List Call}
  {spots : List Spot} {plan : Plan}
  {c : Call}

/-- Whatever of its children are not passed yet, something is sent for the calls `l` of the node
`i`, and it keeps to that node. -/
def Tree.Sent (t : Tree) (i : NodeId) (l : List Call) : Prop :=
  ∀ kids, (∀ c ∈ kids, t.parent c = some i) →
    ∃ out rest, Sends t kids l out rest ∧ rest <:+ kids ∧ t.StartsBelow i out

namespace Tree.Sent

theorem nil : t.Sent i [] :=
  fun kids _ => ⟨[], kids, .refl, List.suffix_refl _, by simp [StartsBelow, starts]⟩

theorem append (h : t.Sent i l) (h' : t.Sent i m) : t.Sent i (l ++ m) := by
  intro kids hkids
  obtain ⟨out, rest, hs, hr, hout⟩ := h kids hkids
  obtain ⟨out', rest', hs', hr', hout'⟩ := h' rest fun c hc => hkids c (hr.subset hc)
  exact ⟨out ++ out', rest', hs.trans hs', hr'.trans hr, hout.append hout'⟩

/-- A word, a blank or a comment is sent on behind comments and directives of the open node. -/
theorem word (hs : ∀ j, c ≠ .start j) (hf : ∀ j, c ≠ .finish j) : t.Sent i [c] := by
  intro kids hkids
  have hrole (r : Role) (hput : ∀ {W : Type} [Sink W] (w : Replaying W),
      Sink.put t w c = (w.passToRole t r).forward t c) :
      ∃ out rest, Sends t kids [c] out rest ∧ rest <:+ kids ∧ t.StartsBelow i out := by
    obtain ⟨passed, rest, hp, hr, hpass⟩ := Replaying.exists_passTo t (fun x => t.role x = r) kids
    exact ⟨_, rest, .pass hput hpass, hr,
      (StartsBelow.replays fun c hc => hkids c (hp.subset hc)).append (.word hs)⟩
  cases c with
  | start j => exact absurd rfl (hs j)
  | finish j => exact absurd rfl (hf j)
  | identifier j => exact hrole _ fun _ => rfl
  | keyword r _ | token r _ => exact hrole r fun _ => rfl
  | _ => exact ⟨_, kids, .forward fun _ => rfl, List.suffix_refl _, .word hs⟩

theorem node (ht : t.WellFormed) (hj : t.parent j = some i) (h : t.Sent j m) :
    t.Sent i (.start j :: (m ++ [.finish j])) := by
  intro kids hkids
  have hown : ∀ c ∈ t.children j, t.parent c = some j := fun c hc => ht.mem_children.mp hc
  obtain ⟨out, rest, hs, hr, hout⟩ := h (t.children j) hown
  obtain ⟨passed, rest', hp, hr', hpass⟩ := Replaying.exists_passTo t (· == j) kids
  exact ⟨_, rest', .node hpass hs, hr',
    (StartsBelow.replays fun c hc => hkids c (hp.subset hc)).append
    (.node hj hout fun c hc => hown c (hr.subset hc))⟩

end Tree.Sent

theorem Tree.IsWord.sent (hc : t.IsWord i c) : t.Sent i [c] := by
  refine .word (fun j hj => ?_) fun j hj => ?_
  · subst hj
    cases (Tree.of_wordOf? hc.2).1
  · subst hj
    have hw := hc.2
    unfold Tree.wordOf? at hw
    split at hw <;> cases hw

theorem Fills.sent (ht : t.WellFormed) (h : Fills t i before spots plan l) : t.Sent i l := by
  induction h with
  | nil => exact .nil
  | blank hc _ ih =>
      exact Tree.Sent.append (.word (by rintro j rfl; cases hc) (by rintro j rfl; cases hc)) ih
  | word hc _ ih => exact Tree.Sent.append (.word (fun _ => hc.ne_start) fun _ => hc.ne_finish) ih
  | leaf hj hc _ ih => exact (Tree.Sent.node ht hj hc.sent).append ih
  | child hj _ _ _ _ ihm ih => simpa using (Tree.Sent.node ht hj ihm).append ih

theorem Body.sent (ht : t.WellFormed) (h : Body t i before spots plan l) : t.Sent i l := by
  cases h with
  | word hc => exact hc.sent
  | composite _ _ h => exact h.sent ht

theorem Tree.replayed_within {x : NodeId} (hx : x ∈ kids) : t.replayed x <:+: t.replays kids := by
  obtain ⟨l₁, l₂, rfl⟩ := List.append_of_mem hx
  exact ⟨t.replays l₁, t.replays l₂, by simp [Tree.replays]⟩

/-- A child is sent behind the comments and directives before it, and no other one of its parent. -/
theorem Body.sends {pre post : List NodeId} (ht : t.WellFormed) (hk : (t.kind j).isVisited = true)
    (hm : Body t j before spots plan m) (hj : t.parent j = some b) (hn : (pre ++ j :: post).Nodup) :
    ∃ out, Sends t (pre ++ j :: post) (.start j :: (m ++ [.finish j])) (t.replays pre ++ out) post ∧
      t.specialsIn b out = [] := by
  have hown : ∀ c ∈ t.children j, t.parent c = some j := fun c hc => ht.mem_children.mp hc
  have hpre : ∀ y ∈ pre, (y == j) = false := by
    intro y hy
    rw [beq_eq_false_iff_ne]
    rintro rfl
    exact (List.nodup_append.mp hn).2.2 y hy y List.mem_cons_self rfl
  obtain ⟨inside, left, hs, hl, hinside⟩ := hm.sent ht (t.children j) hown
  exact ⟨_, .node (fun _ outer => Replaying.passTo_split hpre (beq_self_eq_true j) outer) hs,
    hinside.specialsIn_eq_nil ht hj (Tree.not_special_of_isVisited hk) fun c hc =>
    hown c (hl.subset hc)⟩

/-- The statements of a block are sent with the comments and directives before them. What stands
behind the last statement is not passed. -/
theorem Chain.sends (ht : t.WellFormed) (h : Chain t js l)
    (hjs : kids.filter t.standsAsStatement = js) (hkids : ∀ c ∈ kids, t.parent c = some b)
    (hn : kids.Nodup) :
    ∃ lead trail out, kids = lead ++ trail ∧ Sends t kids l out trail ∧
      (∀ x ∈ trail, t.standsAsStatement x = false) ∧
      (∀ x ∈ lead.getLast?, t.standsAsStatement x = true) ∧
      t.specialsIn b out = t.specials lead ∧ ∀ x ∈ t.specials lead, t.replayed x <:+: out := by
  induction h generalizing kids with
  | nil =>
      refine ⟨[], kids, [], rfl, .refl, fun x hx => ?_, by simp, rfl, by simp [Tree.specials]⟩
      simpa using List.filter_eq_nil_iff.mp hjs x hx
  | @node j js _ m l _ _ hk hm _ ih =>
      obtain ⟨pre, post, rfl, hpre, hj, hpost⟩ := List.filter_eq_cons_iff.mp hjs
      obtain ⟨lead, trail, out, rfl, hs, htrail, hlast, horder, hkeep⟩ := ih hpost
        (fun c hc => hkids c (by simp [hc])) (List.nodup_cons.mp (List.nodup_append.mp hn).2.1).2
      obtain ⟨inside, hnode, hinside⟩ := hm.sends ht hk (hkids j (by simp)) hn
      have hspecials : t.specials (pre ++ j :: lead) = t.specials pre ++ t.specials lead := by
        rw [Tree.specials_append, Tree.specials, Tree.specials, Tree.specials,
          List.filter_cons_of_neg (by simp [Tree.not_special_of_isVisited hk])]
      have hcalls : .start j :: (m ++ [.finish j]) ++ l = .start j :: (m ++ .finish j :: l) := by
        simp
      refine ⟨pre ++ j :: lead, trail, _, by simp, hcalls ▸ hnode.trans hs, htrail, ?_, ?_, ?_⟩
      · intro x hx
        cases lead with
        | nil =>
            rw [List.getLast?_append_cons, List.getLast?_singleton] at hx
            cases hx
            exact hj
        | cons y lead =>
            rw [List.getLast?_append_cons, List.getLast?_cons_cons] at hx
            exact hlast x hx
      · rw [Tree.specialsIn_append, Tree.specialsIn_append, hinside, horder, List.append_nil,
          hspecials, Tree.specialsIn_replays fun c hc => hkids c (List.mem_append_left _ hc)]
      · intro x hx
        rw [hspecials] at hx
        rcases List.mem_append.mp hx with hx | hx
        · exact (Tree.replayed_within (List.mem_of_mem_filter hx)).trans
            ((List.prefix_append _ _).trans (List.prefix_append _ _)).isInfix
        · exact (hkeep x hx).trans (List.suffix_append _ _).isInfix

end TreeScribe
