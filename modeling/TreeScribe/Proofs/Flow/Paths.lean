import TreeScribe.Proofs.Flow.Assignment.Gained
import TreeScribe.Proofs.Flow.Searched
import TreeScribe.Proofs.Tree.Edits

namespace TreeScribe.Flow

open TreeScribe.Tree

namespace Graph

/-- The same graph, with the edges of each point listed in any order, and numbered in any way. -/
structure Reordered (g g' : Graph) : Prop where
  order : g'.order = g.order
  size : g'.points.size = g.points.size
  place (p : PointId) : (g'.point p).place = (g.point p).place
  outgoing (p : PointId) :
    ((g'.point p).outgoing.map g'.edge).Perm ((g.point p).outgoing.map g.edge)
  incoming (p : PointId) :
    ((g'.point p).incoming.map g'.edge).Perm ((g.point p).incoming.map g.edge)

variable {g g' : Graph} {halts : NodeId → Bool} {p q : PointId}

theorem joined_iff : g.Joined p q ↔ q ∈ ((g.point p).outgoing.map g.edge).map Edge.target := by
  unfold Joined
  simp only [List.map_map, List.mem_map, Function.comp_apply]

namespace Reordered

variable (h : g.Reordered g')
include h

theorem joined : g'.Joined p q ↔ g.Joined p q := by
  rw [joined_iff, joined_iff]
  exact ((h.outgoing p).map Edge.target).mem_iff

theorem point (p : PointId) :
    (g'.point p).previous = (g.point p).previous ∧ (g'.point p).next = (g.point p).next :=
  ⟨congrArg Place.previous (h.place p), congrArg Place.next (h.place p)⟩

theorem goesOn : g'.GoesOn halts = g.GoesOn halts := by
  funext p q
  rw [GoesOn, GoesOn, Point.Halts, Point.Halts, (h.point p).2, h.joined]

theorem found : g'.Found halts p ↔ g.Found halts p := by
  rw [Found, Found, entry, entry, h.order, h.goesOn]

end Reordered

end Graph

variable {t : Tree} {root : NodeId} {s : Setting} {g : Graph} {p q : PointId}

theorem ofStatement_bounded (hw : t.WellFormed) (h : Graph.ofStatement t root s = .ok g) :
    (∀ p, g.entry = some p → p < g.points.size) ∧ ∀ p q, g.Joined p q → q < g.points.size := by
  unfold Graph.ofStatement at h
  cases hx : Graph.empty.draw t root s with
  | error e =>
      rw [hx] at h
      cases h
  | ok x =>
      obtain ⟨order, F⟩ := x
      rw [hx] at h
      cases h
      have hgains := draw_gains hw .empty hx
      constructor
      · intro p hp
        cases hgains.first.symm.trans hp
        exact hgains.lt_size
      · rintro p q ⟨e, he, rfl⟩
        exact hgains.adjacent.target_lt (hgains.adjacent.outgoing.mp he).1

/-- Reachability in a graph that was built is search of the graph, whatever statements the search is
told not to go on behind, by a detector or otherwise. It succeeds if it is not cancelled, and
answers nothing else if it is cancelled too late. A statement is reachable when some path from the
entry, on which no point but the last enters a statement that the search does not go on behind,
leads to a point before the statement, or behind it if it is a label; and its end is reachable when
such a path leads to a point behind it. The same is answered for the graph with its edges listed in
any other order. -/
theorem ofStatement_exact (hw : t.WellFormed) (h : Graph.ofStatement t root s = .ok g)
    (halts : NodeId → Bool) :
    ∃ r, Reachable.ofSearch t g halts false = .ok r ∧
      (∀ cancelled r', Reachable.ofSearch t g halts cancelled = .ok r' → r' = r) ∧
      r.Exact t g halts ∧
        ∀ g', g.Reordered g' → ∃ r', Reachable.ofSearch t g' halts false = .ok r' ∧
          ∀ i, r'.isReachable i = r.isReachable i ∧ r'.isEndReachable i = r.isEndReachable i := by
  obtain ⟨hentry, hg⟩ := ofStatement_bounded hw h
  obtain ⟨r, hr, hexact⟩ := Reachable.ofSearch_eq_ok t halts hentry hg
  refine ⟨r, hr, fun cancelled r' hr' => ?_, hexact, fun g' hg' => ?_⟩
  · have hsame := (Reachable.ofSearch_uncancelled hr').symm.trans hr
    exact Except.ok.inj hsame
  · have hentry' (p : PointId) (hp : g'.entry = some p) : p < g'.points.size := by
      rw [Graph.entry, hg'.order] at hp
      exact hg'.size ▸ hentry p hp
    have hbounded (p q : PointId) (hq : g'.Joined p q) : q < g'.points.size :=
      hg'.size ▸ hg p q (hg'.joined.mp hq)
    obtain ⟨r', hr', hexact'⟩ := Reachable.ofSearch_eq_ok t halts hentry' hbounded
    exact ⟨r', hr', hexact.eq hexact' (fun _ => hg'.found) hg'.point⟩

def recursiveCall : Tree :=
  planted
    [.statement .block, .statement .expression, .expression .invocation, .expression .identifier,
      .identifier "F" false,
      .statement .empty]
    [(1, .statement, 2), (2, .expression, 3), (3, .target, 4), (4, .identifier, 5),
      (1, .statement, 6)]

/-- The call, if it is taken to be recursive, is found by a path from the entry, and nothing behind
it is. -/
theorem ofStatement_exact_recursiveCall :
    ∃ g r, Graph.ofStatement recursiveCall 1 ⟨.none, false, false⟩ = .ok g ∧
    Reachable.ofGraph recursiveCall g (some fun _ _ => true) false = .ok r ∧
      (∃ p, g.Found (Detector.halts (some fun _ _ => true) recursiveCall) p ∧
        (g.point p).Reaches recursiveCall 2) ∧
        ∀ p, g.Found (Detector.halts (some fun _ _ => true) recursiveCall) p →
        ¬ (g.point p).Reaches recursiveCall 6 := by
  have hsearch : ((Graph.ofStatement recursiveCall 1 ⟨.none, false, false⟩).bind fun g =>
      (Reachable.ofGraph recursiveCall g (some fun _ _ => true) false).map fun r =>
        (r.isReachable 2, r.isReachable 6)) =
        .ok (true, false) := by decide +kernel
  cases hg : Graph.ofStatement recursiveCall 1 ⟨.none, false, false⟩ with
  | error e =>
      rw [hg] at hsearch
      cases hsearch
  | ok g =>
      have hw : recursiveCall.WellFormed := wellFormed_planted _ _
      obtain ⟨r, hr, -, hexact, -⟩ :=
        ofStatement_exact hw hg (Detector.halts (some fun _ _ => true) recursiveCall)
      have hanswers : (r.isReachable 2, r.isReachable 6) = (true, false) := by
        rw [hg] at hsearch
        change (Reachable.ofSearch _ g _ false).map _ = _ at hsearch
        rw [hr] at hsearch
        exact Except.ok.inj hsearch
      refine ⟨g, r, rfl, hr, ((hexact.statement 2).mp (congrArg Prod.fst hanswers)).2,
        fun p hp hreach => ?_⟩
      have hbehind := (hexact.statement 6).mpr ⟨by decide, p, hp, hreach⟩
      exact Bool.false_ne_true ((congrArg Prod.snd hanswers).symm.trans hbehind)

end TreeScribe.Flow
