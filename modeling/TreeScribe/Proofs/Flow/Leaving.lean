import TreeScribe.Proofs.Flow.Labels

namespace TreeScribe

namespace Tree

/-- Try statements have a block to try, and their clauses a body; a clause is no try statement
itself. -/
structure Guarding (t : Tree) (root : NodeId) : Prop where
  tryBlock {i : NodeId} (hi : t.Below root i) (hk : t.kind i = .statement .tryCatch) :
    t.child i .tryBlock ≠ .null
  body {i s : NodeId} (hi : t.Below root i) (hk : t.kind i = .statement .tryCatch)
    (hs : s ∈ t.childrenIn i .catchClause) :
    t.child s .body ≠ .null ∧ t.kind s ≠ .statement .tryCatch

variable {t : Tree} {i j : NodeId}

theorem pairwise_crossed (hw : t.WellFormed) :
    (t.crossed i j).Pairwise fun T U => U ∈ t.ancestors T :=
  ((hw.pairwise_ancestors i).filter _).filter _

theorem nodup_crossed (hw : t.WellFormed) : (t.crossed i j).Nodup :=
  ((List.nodup_cons.mp (hw.follows_parent i).nodup).2.filter _).filter _

end Tree

namespace Flow

open TreeScribe.Tree Draft

variable {t : Tree} {root i j : NodeId} {s : Setting} {g : Graph} {e : EdgeId}

/-- The two chains of try statements part at the first one that they share. -/
theorem leftTries_eq_crossed (hw : t.WellFormed) : leftTries t i j = t.crossed i j := by
  unfold leftTries
  split
  · have hclear : t.Clear i j := by
      cases hp : t.parent i with
      | none =>
          rw [Clear, finallies, hw.ancestors_of_parent_none hp]
          exact List.nil_subset _
      | some p => exact hw.clear_of_sibling hp (‹t.parent i = t.parent j› ▸ hp)
    exact hclear.crossed_eq.symm
  · have hmem {T : NodeId} (hT : isTry t T = true) :
        ((t.ancestors j).filter (isTry t)).contains T = (t.ancestors j).contains T := by
      rw [Bool.eq_iff_iff, List.contains_iff_mem, List.contains_iff_mem, List.mem_filter]
      exact and_iff_left hT
    have hpairwise : ((t.ancestors i).filter (isTry t)).Pairwise fun a b =>
        ((t.ancestors j).filter (isTry t)).contains a = true →
          ((t.ancestors j).filter (isTry t)).contains b = true := by
      refine List.Pairwise.imp_of_mem (fun {a b} ha hb hab hout => ?_)
        ((hw.pairwise_ancestors i).filter _)
      rw [hmem (List.mem_filter.mp ha).2, List.contains_iff_mem] at hout
      rw [hmem (List.mem_filter.mp hb).2, List.contains_iff_mem]
      exact hw.mem_ancestors_trans hout hab
    simp only [takeWhile_not_eq_filter hpairwise, crossed, finallies, List.filter_filter]
    refine List.filter_congr fun T _ => ?_
    cases hT : isTry t T with
    | false =>
        rw [show t.hasFinally T = false by rw [hasFinally]; rw [isTry] at hT; simp [hT]]
        simp
    | true =>
        rw [hmem hT, hasFinally, show decide (t.kind T = .statement .tryCatch) = true from hT]
        simp [Bool.and_comm]

def marked (t : Tree) (g : Graph) (e : EdgeId) : Edge :=
  if (g.edge e).kind = .jump
    then { g.edge e with leaves := (g.edge e).leaves ++ jumpLeaves t g (g.edge e) } else g.edge e

theorem point_markLeaves {p : PointId} : (markLeaves t g e).point p = g.point p := by
  unfold markLeaves
  split <;> rfl

theorem edges_size_markLeaves : (markLeaves t g e).edges.size = g.edges.size := by
  unfold markLeaves
  split
  · exact Graph.edges_size_leaving
  · rfl

theorem edge_markLeaves {f : EdgeId} (he : e < g.edges.size) :
    (markLeaves t g f).edge e = if f = e then marked t g e else g.edge e := by
  unfold markLeaves marked
  by_cases hfe : f = e
  · subst hfe
    rw [if_pos rfl]
    split
    · rw [Graph.edge_leaving, if_pos ⟨rfl, he⟩]
    · rfl
  · rw [if_neg hfe]
    split
    · rw [Graph.edge_leaving, if_neg fun h => hfe h.1]
    · rfl

theorem edge_foldl_markLeaves {l : List EdgeId} (hl : l.Nodup) (he : e < g.edges.size) :
    (l.foldl (markLeaves t) g).edge e = if e ∈ l then marked t g e else g.edge e := by
  induction l generalizing g with
  | nil => simp
  | cons f rest ih =>
      obtain ⟨hf, hrest⟩ := List.nodup_cons.mp hl
      rw [List.foldl_cons, ih hrest (edges_size_markLeaves.symm ▸ he)]
      by_cases hfe : f = e
      · subst hfe
        rw [if_neg hf, if_pos List.mem_cons_self, edge_markLeaves he, if_pos rfl]
      · have hedge : (markLeaves t g f).edge e = g.edge e := by rw [edge_markLeaves he, if_neg hfe]
        have hmarked : marked t (markLeaves t g f) e = marked t g e := by
          simp only [marked, jumpLeaves, hedge, point_markLeaves]
        rw [hmarked, hedge]
        simp [Ne.symm hfe]

theorem edge_markFrom (he : e < g.edges.size) : (markFrom t g 0).edge e = marked t g e := by
  rw [markFrom, List.drop_zero, edge_foldl_markLeaves List.nodup_range he,
    if_pos (List.mem_range.mpr he)]

namespace Graph

/-- Where an edge comes from: a jump from its statement, any other edge from the statement that its
source belongs to. -/
def origin (g : Graph) (e : EdgeId) : NodeId :=
  if (g.edge e).kind = .jump then (g.point (g.edge e).source).next
  else (g.point (g.edge e).source).place.site

def destination (g : Graph) (e : EdgeId) : NodeId := (g.point (g.edge e).target).place.site

end Graph

/-- A guarded body leaves the try statement around it, if that has a finally block. -/
theorem leaves_guarded (hw : t.WellFormed) (hb : t.Guarding root) (hi : t.Below root i)
    (hk : t.kind i = .statement .tryCatch) (hj : j ∈ (Plan.bare t root s).guarded i) :
    j ≠ .null ∧ t.crossed j i = if t.hasChild i .finallyBlock then [i] else [] := by
  have hfinally : t.hasFinally i = t.hasChild i .finallyBlock := by simp [hasFinally, hk]
  rcases List.mem_cons.mp hj with rfl | hj
  · have hne := hb.tryBlock hi hk
    exact ⟨hne, hfinally ▸ hw.crossed_of_guarded (hw.child_cases.resolve_left hne) (.inl rfl)⟩
  · obtain ⟨clause, hclause, rfl⟩ := List.mem_map.mp hj
    obtain ⟨hne, hkind⟩ := hb.body hi hk hclause
    have hclear : t.hasFinally clause = false := by simp [hasFinally, hkind]
    exact ⟨hne, hfinally ▸ hw.crossed_of_guarded (hw.child_cases.resolve_left hne)
      (.inr ⟨hw.parent_of_mem_childrenIn hclause, hclear⟩)⟩

section

variable {d : Draft} (hw : t.WellFormed) (hd : d.Resolved (.bare t root s))
  (he : e < d.graph.edges.size)
include hw hd he

/-- What a jump leaves: marking finds it by the ancestors of both ends. -/
theorem leaves_marked_of_jump (hk : (d.graph.edge e).kind = .jump) :
    (marked t d.graph e).leaves = t.crossed (d.graph.origin e) (d.graph.destination e) := by
  have hjump : jumpLeaves t d.graph (d.graph.edge e) =
      leftTries t (d.graph.origin e) (d.graph.destination e) := by
    rw [Graph.origin, if_pos hk]
    rfl
  rw [marked, if_pos hk, hjump, leftTries_eq_crossed hw, (hd.jump he hk).leaves, List.nil_append]

/-- What any other edge leaves: nothing, unless it comes from a guarded body. -/
theorem leaves_marked_of_pass (hb : t.Guarding root) (hk : (d.graph.edge e).kind ≠ .jump) :
    (marked t d.graph e).leaves = t.crossed (d.graph.origin e) (d.graph.destination e) := by
  have hmade := hd.made he hk
  have hsource : d.graph.origin e = (d.place (d.graph.edge e).source).site := if_neg hk
  have htarget : d.graph.destination e = (d.place (d.graph.edge e).target).site := rfl
  rw [marked, if_neg hk, hsource, htarget]
  unfold Makes at hmade
  generalize d.place (d.graph.edge e).source = x at hmade ⊢
  generalize d.place (d.graph.edge e).target = y at hmade ⊢
  generalize (d.graph.edge e).kind = kind at hmade hk ⊢
  generalize (d.graph.edge e).leaves = leaves at hmade ⊢
  cases hmade with
  | pass _ h => exact h.crossed_eq.symm
  | guard hi htry hmem hx hy =>
      obtain ⟨hne, hcrossed⟩ := leaves_guarded hw hb hi htry hmem
      rw [hx hne, hy, hcrossed]
      rfl
  | jump => exact absurd rfl hk

end

/-- Each edge of a graph is marked with the try statements that it leaves through a finally block,
innermost first. -/
theorem leaves_eq_crossed (hw : t.WellFormed) (hb : t.Guarding root)
    (h : Graph.ofStatement t root s = .ok g) (he : e < g.edges.size) :
    (g.edge e).leaves = t.crossed (g.origin e) (g.destination e) ∧
      (g.edge e).leaves.Nodup ∧ (g.edge e).leaves.Pairwise (fun T U => U ∈ t.ancestors T) ∧
      ((g.edge e).kind = .jump → (g.point (g.edge e).source).place.Enters (g.origin e) ∧
        ∃ k, t.kind (g.origin e) = .statement k ∧ k.isJump = true) := by
  obtain ⟨order, F, hx, hpoints, hedges⟩ := exists_draw h
  obtain ⟨d, rfl, hd, -⟩ := draw_resolved hw hx
  have hsize : (markFrom t d.graph 0).edges.size = d.graph.edges.size := edges_size_markFrom
  have he : e < d.graph.edges.size := hsize ▸ hedges ▸ he
  have hext : d.graph.Extends (markFrom t d.graph 0) := extends_markFrom
  have hedge : g.edge e = marked t d.graph e := by
    rw [Graph.edge, hedges, ← Graph.edge, edge_markFrom he]
  have hends : (g.edge e).ends = (d.graph.edge e).ends := by
    rw [Graph.edge, hedges, ← Graph.edge, hext.ends he]
  have hplace {p : PointId} (hp : p < d.size) : (g.point p).place = d.place p := by
    rw [Graph.point, hpoints, ← Graph.point, hext.place hp]
    rfl
  have hsource : (g.point (g.edge e).source).place = d.place (d.graph.edge e).source :=
    (congrArg (fun x => (g.point x.1).place) hends).trans (hplace (hd.adjacent.source_lt he))
  have htarget : (g.point (g.edge e).target).place = d.place (d.graph.edge e).target :=
    (congrArg (fun x => (g.point x.2.1).place) hends).trans (hplace (hd.adjacent.target_lt he))
  have hkind : (g.edge e).kind = (d.graph.edge e).kind := congrArg (·.2.2) hends
  have horigin : g.origin e = d.graph.origin e := by
    rw [Graph.origin, hkind, hsource, show (g.point (g.edge e).source).next =
      (d.place (d.graph.edge e).source).next from congrArg Place.next hsource]
    rfl
  have hdestination : g.destination e = d.graph.destination e := congrArg Place.site htarget
  have hleaves : (g.edge e).leaves = t.crossed (g.origin e) (g.destination e) := by
    rw [hedge, horigin, hdestination]
    by_cases hk : (d.graph.edge e).kind = .jump
    · exact leaves_marked_of_jump hw hd he hk
    · exact leaves_marked_of_pass hw hd he hb hk
  refine ⟨hleaves, hleaves ▸ nodup_crossed hw, hleaves ▸ pairwise_crossed hw, fun hk => ?_⟩
  have hjump := hd.jump he (hkind ▸ hk)
  have hnext : d.graph.origin e = (d.place (d.graph.edge e).source).next := if_pos (hkind ▸ hk)
  rw [hsource, horigin, hnext]
  exact ⟨hjump.enters, hjump.isJump⟩

def guardedBreak : Tree :=
  planted [.statement .whileLoop, .expression .thisRef, .statement .tryCatch, .statement .break_,
      .statement .block]
    [(1, .condition, 2), (1, .embeddedStatement, 3), (3, .tryBlock, 4), (3, .finallyBlock, 5)]

theorem guarding_guardedBreak : guardedBreak.Guarding 1 := by
  have hlt {i : NodeId} (hk : guardedBreak.kind i = .statement .tryCatch) : i < 6 :=
    lt_size_of_isStatement (t := guardedBreak) (by rw [hk]; rfl)
  have htry : ∀ i < 6, guardedBreak.kind i = .statement .tryCatch →
      guardedBreak.child i .tryBlock ≠ .null ∧ guardedBreak.childrenIn i .catchClause = [] := by
      decide
  refine ⟨fun _ hk => (htry _ (hlt hk) hk).1, fun {i s} _ hk hs => ?_⟩
  rw [(htry i (hlt hk) hk).2] at hs
  cases hs

theorem leaves_eq_crossed_guardedBreak :
    ∃ g, Graph.ofStatement guardedBreak 1 ⟨.none, false, false⟩ = .ok g ∧
    (g.edge 3).kind = .jump ∧ g.origin 3 = 4 ∧ g.destination 3 = 1 ∧
    (g.edge 3).leaves = guardedBreak.crossed 4 1 ∧
      guardedBreak.crossed 4 1 = [3] := by
  have hwhat : (Graph.ofStatement guardedBreak 1 ⟨.none, false, false⟩).map (fun g =>
      (decide (3 < g.edges.size), (g.edge 3).kind, g.origin 3, g.destination 3)) =
        .ok (true, .jump, 4, 1) := by
    decide +kernel
  cases hg : Graph.ofStatement guardedBreak 1 ⟨.none, false, false⟩ with
  | error e =>
      rw [hg] at hwhat
      cases hwhat
  | ok g =>
      rw [hg] at hwhat
      simp only [Except.map, Except.ok.injEq, Prod.mk.injEq, decide_eq_true_eq] at hwhat
      obtain ⟨hlt, hkind, horigin, hdestination⟩ := hwhat
      have hleaves := (leaves_eq_crossed (wellFormed_planted _ _) guarding_guardedBreak hg hlt).1
      rw [horigin, hdestination] at hleaves
      exact ⟨g, rfl, hkind, horigin, hdestination, hleaves, by decide⟩

end Flow

end TreeScribe
