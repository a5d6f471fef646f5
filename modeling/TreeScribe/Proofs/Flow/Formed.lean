import TreeScribe.Proofs.Flow.Assignment.Gained
import TreeScribe.Proofs.Flow.Incident
import TreeScribe.Proofs.Flow.Visited
import TreeScribe.Proofs.Tree.Edits

namespace TreeScribe.Flow

open TreeScribe.Tree Draft

/-- What the analyses of a graph rely on when they look up statements, points and edges. -/
structure Graph.Formed (t : Tree) (root : NodeId) (g : Graph) : Prop where
  listed (p : PointId) : g.order.count p = if p < g.points.size then 1 else 0
  outgoing (p : PointId) (e : EdgeId) :
    (g.point p).outgoing.count e = if e < g.edges.size ∧ (g.edge e).source = p then 1 else 0
  incoming (p : PointId) (e : EdgeId) :
    (g.point p).incoming.count e = if e < g.edges.size ∧ (g.edge e).target = p then 1 else 0
  entered {i : NodeId} (hi : t.Visited root i) :
    ∃! p, p < g.points.size ∧ ((g.point p).kind = .start ∨ (g.point p).kind = .between) ∧
      (g.point p).next = i
  left {i : NodeId} (hi : t.Visited root i) :
    ∃! p, p < g.points.size ∧ ((g.point p).kind = .between ∨ (g.point p).kind = .stop) ∧
      (g.point p).previous = i
  tested {i : NodeId} {k : StatementKind} (hi : t.Visited root i) (hk : t.kind i = .statement k)
    (hl : k.isLoop = true) :
    ∃! p, p < g.points.size ∧ (g.point p).kind = .condition ∧ (g.point p).next = i
  entry : ∃ p, g.entry = some p ∧ (g.point p).kind = .start ∧ (g.point p).next = root ∧
    (g.point p).incoming = []

variable {t : Tree} {root i : NodeId} {s : Setting} {g g' : Graph} {order : List PointId}
  {x : Point} {m : Mark}

theorem mark_enter_iff : .enter i ∈ x.marks ↔
    (x.kind = .start ∨ x.kind = .between) ∧ x.next = i := by
  unfold Point.marks
  cases x.kind <;> simp [eq_comm]

theorem mark_leave_iff : .leave i ∈ x.marks ↔
    (x.kind = .between ∨ x.kind = .stop) ∧ x.previous = i := by
  unfold Point.marks
  cases x.kind <;> simp [eq_comm]

theorem mark_test_iff : .test i ∈ x.marks ↔ x.kind = .condition ∧ x.next = i := by
  unfold Point.marks
  cases x.kind <;> simp [eq_comm]

/-- A mark that was made stands at one point. -/
theorem Graph.Gains.unique_mark (h : Graph.empty.Gains t root order g) (hm : m ∈ g.marks) :
    ∃! p, p < g.points.size ∧ m ∈ (g.point p).marks := by
  rw [marks_eq_flatMap] at hm
  obtain ⟨p, hp, hm⟩ := List.mem_flatMap.mp hm
  have hp := List.mem_range.mp hp
  refine ⟨p, ⟨hp, hm⟩, ?_⟩
  rintro q ⟨hq, hmq⟩
  exact h.once (Nat.zero_le q) hq (Nat.zero_le p) hp hmq hm

theorem ranked_joinLabels (gotos : List PointId) {d : Draft} (h : d.graph.Ranked) :
    (joinLabels t gotos d).graph.Ranked := by
  induction gotos generalizing d with
  | nil => exact h
  | cons p rest ih => exact ih (Graph.stays_ranked.joinIf h)

theorem draw_ranked (hw : t.WellFormed) (hg : g.Ranked) (h : g.draw t root s = .ok (order, g')) :
    g'.Ranked := by
  obtain ⟨-, a, d, hd, -, rfl⟩ := draw_eq_ok hw h
  have hstart : ((blank g).start root).graph.Ranked := Graph.stays_ranked.start (d := blank g) hg
  have hdrawn : d.graph.Ranked := hd.stays Graph.stays_ranked hstart
  exact markFrom_keeps (fun _ _ _ h => h.leaving) (ranked_joinLabels d.gotos.reverse hdrawn)

theorem count_of_nodup {α : Type} [DecidableEq α] {l : List α} {a : α} {p : Prop} [Decidable p]
    (h : l.Nodup) (hp : a ∈ l ↔ p) : l.count a = if p then 1 else 0 := by
  split
  · exact List.count_eq_one_of_mem h (hp.mpr ‹_›)
  · exact List.count_eq_zero_of_not_mem (mt hp.mp ‹_›)

theorem draw_shown (hw : t.WellFormed) (h : g.draw t root s = .ok (order, g'))
    (hi : t.Visited root i) :
    .enter i ∈ g'.marks ∧ .leave i ∈ g'.marks ∧
      ∀ k, t.kind i = .statement k → k.isLoop = true → .test i ∈ g'.marks := by
  obtain ⟨hroot, a, d, hd, -, rfl⟩ := draw_eq_ok hw h
  have hshown : d.ShowsAll t i := by
    refine hd.shown_of_started hw (hd.shown hw) (.inr .self) (fun hn => ?_) i hi
    rw [marks_start, if_neg hn]
    exact List.mem_append_right _ (List.mem_singleton_self _)
  have hmarks : (markFrom t (joinLabels t d.gotos.reverse d).graph g.edges.size).marks = d.marks :=
    marks_markFrom.trans marks_joinLabels
  rw [hmarks]
  exact ⟨hshown.entered, hshown.left, fun k hk hl => hshown.tested hk hl⟩

/-- A graph that was built has the form that its analyses rely on. -/
theorem ofStatement_formed (hw : t.WellFormed) (h : Graph.ofStatement t root s = .ok g) :
    g.Formed t root := by
  unfold Graph.ofStatement at h
  cases hx : Graph.empty.draw t root s with
  | error e =>
      rw [hx] at h
      cases h
  | ok x =>
      obtain ⟨order, F⟩ := x
      rw [hx] at h
      cases h
      have hgains := draw_gains hw .empty hx
      have hranked := draw_ranked hw .empty hx
      constructor
      case listed =>
        intro p
        rw [hgains.listed p]
        exact if_congr (and_iff_right (Nat.zero_le p)) rfl rfl
      case outgoing =>
        exact fun p e => count_of_nodup (hranked.outgoing p).nodup hgains.adjacent.outgoing
      case incoming =>
        exact fun p e => count_of_nodup (hranked.incoming p).nodup hgains.adjacent.incoming
      case entered =>
        intro i hi
        have hunique := hgains.unique_mark (draw_shown hw hx hi).1
        simp only [mark_enter_iff] at hunique
        exact hunique
      case left =>
        intro i hi
        have hunique := hgains.unique_mark (draw_shown hw hx hi).2.1
        simp only [mark_leave_iff] at hunique
        exact hunique
      case tested =>
        intro i k hi hk hl
        have hunique := hgains.unique_mark ((draw_shown hw hx hi).2.2 k hk hl)
        simp only [mark_test_iff] at hunique
        exact hunique
      case entry =>
        have hplace := hgains.entry
        refine ⟨0, hgains.first, congrArg Place.kind hplace, congrArg Place.next hplace, ?_⟩
        refine List.eq_nil_iff_forall_not_mem.mpr fun e he => ?_
        obtain ⟨hlt, htarget⟩ := hgains.adjacent.incoming.mp he
        exact absurd htarget (Nat.ne_of_gt (hgains.behind (Nat.zero_le e) hlt))

def loopingBlock : Tree :=
  planted
    [.statement .block, .statement .whileLoop, .expression .thisRef, .statement .break_,
      .statement .return_]
    [(1, .statement, 2), (2, .condition, 3), (2, .embeddedStatement, 4), (1, .statement, 5)]

theorem ofStatement_formed_loopingBlock :
    ∃ g, Graph.ofStatement loopingBlock 1 ⟨.none, false, false⟩ = .ok g ∧
    g.order = [0, 1, 3, 4, 5, 2, 6, 7] ∧ g.Formed loopingBlock 1 := by
  have hdrawn : (Graph.ofStatement loopingBlock 1 ⟨.none, false, false⟩).map Graph.order =
      .ok [0, 1, 3, 4, 5, 2, 6, 7] := by decide +kernel
  cases hg : Graph.ofStatement loopingBlock 1 ⟨.none, false, false⟩ with
  | error e =>
      rw [hg] at hdrawn
      cases hdrawn
  | ok g =>
      rw [hg] at hdrawn
      exact ⟨g, rfl, Except.ok.inj hdrawn, ofStatement_formed (wellFormed_planted _ _) hg⟩

end TreeScribe.Flow
