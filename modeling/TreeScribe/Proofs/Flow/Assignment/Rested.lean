import TreeScribe.Proofs.Flow.Assignment.Driven

namespace TreeScribe.Flow.Assignment

open TreeScribe.Tree

/-- The place has what its incoming edges carry, merged. The first one has the initial status
instead while these are not reached. -/
def Settled (a : Assignment) (initial : Status) (first : Nat) (S : Statuses) (p : Nat) : Prop :=
  S.point p =
    if p = first ∧ S.incoming (a.pointAt p) = .unreachable then initial
    else S.incoming (a.pointAt p)

structure Resting (a : Assignment) (initial : Status) (first last : Nat) (s : State) : Prop where
  driven : Driven a s
  first_eq : s.first = first
  last_eq : s.last = last
  settled {p : Nat} (hp : p < a.graph.order.length) (hf : first ≤ p) (hl : p ≤ last)
    (hb : ∀ b, ¬ a.Opens p b) : p ∈ s.queue ∨ a.Settled initial first s.statuses p

variable {a : Assignment} {v : String} {cancelled : Bool} {initial : Status} {s s' : State}
  {root : NodeId} {e : EdgeId}
  {first last p q : Nat} {σ : Status} {S S' : Statuses}

theorem Settled.congr (hs : a.Settled initial first S p) (hpoint : S'.point p = S.point p)
    (hedge : ∀ e ∈ (a.pointAt p).incoming, S'.edge e = S.edge e) :
    a.Settled initial first S' p := by
  unfold Settled
  rw [hpoint, Statuses.incoming_congr hedge]
  exact hs

namespace Resting

theorem alike (hs : Resting a initial first last s) (h : s.Alike s') :
    Resting a initial first last s' := by
  refine ⟨hs.driven.alike h, h.first ▸ hs.first_eq, h.last ▸ hs.last_eq, fun hp hf hl hb => ?_⟩
  rw [h.statuses_eq, h.queue]
  exact hs.settled hp hf hl hb

theorem withPoint (hs : Resting a initial first last s) (hq : ∃ b, a.Opens q b) :
    Resting a initial first last (s.withPoint q σ) := by
  refine ⟨hs.driven.withPoint, hs.first_eq, hs.last_eq, fun {p} hp hf hl hb => ?_⟩
  have hpq : p ≠ q := by
    rintro rfl
    exact hq.elim hb
  exact (hs.settled hp hf hl hb).imp_right fun h => h.congr (State.point_withPoint_of_ne hpq)
    fun _ _ => rfl

theorem start (hfirst : s.first = first) (hlast : s.last = last) :
    Resting a initial first last ((a.clear s).withPoint first initial) := by
  have hincoming (p : Nat) : (a.clear s).statuses.incoming (a.pointAt p) = .unreachable :=
    Statuses.incoming_eq_unreachable.mpr fun _ _ => edge_clear
  refine ⟨Driven.clear.withPoint, hfirst, hlast, fun {p} hp _ _ _ => .inr ?_⟩
  by_cases hpf : p = first
  · subst hpf
    exact (Driven.clear.point_withPoint hp).trans (if_pos ⟨rfl, hincoming p⟩).symm
  · refine (State.point_withPoint_of_ne hpf).trans (point_clear.trans ?_)
    exact ((if_neg fun h => hpf h.1).trans (hincoming p)).symm

theorem take (hs : Resting a initial first last s) {rest : List Nat} (hq : s.queue = q :: rest) :
    Resting a initial first last
      (State.withPoint { s with queue := rest } q (s.statuses.incoming (a.pointAt q))) := by
  obtain ⟨hlt, -, hreached⟩ := hs.driven.queued (hq ▸ List.mem_cons_self)
  have hdriven := hs.driven.dequeue hq
  refine ⟨hdriven.withPoint, hs.first_eq, hs.last_eq, fun {p} hp hf hl hb => ?_⟩
  by_cases hpq : p = q
  · subst hpq
    refine .inr ((hdriven.point_withPoint hlt).trans ?_)
    exact (if_neg fun h => hreached h.2).symm
  · rcases hs.settled hp hf hl hb with hm | h
    · rw [hq] at hm
      exact .inl ((List.mem_cons.mp hm).resolve_left hpq)
    · exact .inr (h.congr (State.point_withPoint_of_ne hpq) fun _ _ => rfl)

theorem setEdge (hs : Resting a initial first last s)
    (h : a.Drawn root) {c : Scope} (hc : c.analysis = a) (he : a.Joined e) :
    Resting a initial first last (c.setEdge σ s e) := by
  have hdriven := hs.driven.setEdge (σ := σ) h hc he
  have hlt := he.lt h
  rcases h.setEdge_cases (σ := σ) hc hs.driven.edges_size hlt with ⟨hrun, -⟩ | ⟨-, -, q, hplace, hr⟩
  · rw [hrun]
    exact hs
  obtain ⟨q', hplace', -, -, -, hin⟩ := h.exists_target hlt
  cases hplace.symm.trans hplace'
  refine ⟨hdriven, hr.first.trans hs.first_eq, hr.last.trans hs.last_eq, fun {p} hp hf hl hb => ?_⟩
  by_cases hpq : p = q
  · exact .inl
      (hr.mem_queue.mpr (.inr ⟨hpq, by rw [hs.first_eq]; omega, by rw [hs.last_eq]; omega⟩))
  · refine (hs.settled hp hf hl hb).imp (fun hm => hr.mem_queue.mpr (.inl hm)) fun h => ?_
    refine h.congr (hr.point_eq p) fun e' he' => hr.edge_of_ne ?_
    rintro rfl
    exact hpq ((hin p hp).mp he')

end Resting

theorem passes_body {R : Nat → Status → Prop} :
    a.Passes v (fun r τ => (∃ b, a.Opens r b) ∨ R r τ) a.tree.IsBody q σ :=
  fun b _ _ hb _ hq => .inl ⟨b, hb, (of_lastPlace? hq).2⟩

namespace Drawn

variable (h : a.Drawn root)
include h

theorem upholds_resting :
    Upholds a v cancelled (fun r τ => (∃ b, a.Opens r b) ∨ r = q ∧ τ = σ) (fun _ _ => True)
    (fun _ => a.tree.IsBody) True
    (fun s => Resting a initial first last s ∧ ((∀ b, ¬ a.Opens q b) → s.statuses.point q = σ))
    where
  region _ := ⟨fun _ _ _ => trivial, fun _ hf hs => ⟨_, hf, rfl, hs⟩⟩
  operand _ _ _ _ := trivial
  cancel _ := trivial
  tick hs := hs.imp_left fun hs => hs.alike .ticked
  edge hc he hs := ⟨hs.1.setEdge h hc he, fun hnot => Scope.point_setEdge.trans (hs.2 hnot)⟩
  note _ _ _ hs := hs.imp_left fun hs => hs.alike .noted
  unknown _ _ _ _ := trivial
  set := by
    rintro r τ s hR ⟨hs, hq⟩
    refine .inl ⟨?_, passes_body⟩
    by_cases hopens : ∃ b, a.Opens r b
    · refine ⟨hs.withPoint hopens, fun hnot => ?_⟩
      have hqr : q ≠ r := by
        rintro rfl
        exact hopens.elim hnot
      exact (State.point_withPoint_of_ne hqr).trans (hq hnot)
    · obtain ⟨rfl, rfl⟩ := hR.resolve_left hopens
      rw [withPoint_of_eq (hq (not_exists.mp hopens))]
      exact ⟨hs, hq⟩

theorem setPoint_resting (hq : q < a.graph.order.length)
    (hs : Resting a initial first last (s.withPoint q σ)) :
    Ends True (fun _ s' => Resting a initial first last s')
      (((Scope.full a v cancelled).setPoint q σ).run s) := by
  have hsize : s.points.size = a.graph.order.length :=
    Array.size_setIfInBounds.symm.trans hs.driven.points_size
  have hself : (s.withPoint q σ).statuses.point q = σ := by
    rw [State.point_withPoint (hsize ▸ hq), if_pos rfl]
  exact (h.upholds_resting.setPoint_of_withPoint h.code.wellFormed (.inr ⟨rfl, rfl⟩) passes_body
    (Nat.le_succ_of_le (Nat.le_add_right _ _)) ⟨hs, fun _ => hself⟩).imp fun _ _ => And.left

/-- A turn leaves the other places settled or queued. -/
theorem visit_resting (hs : Resting a initial first last s) {rest : List Nat}
    (hq : s.queue = q :: rest) : Ends True (fun _ s' => Resting a initial first last s')
      (((Scope.full a v cancelled).visit q).run { s with queue := rest }) := by
  obtain ⟨hlt, -, -⟩ := hs.driven.queued (hq ▸ List.mem_cons_self)
  exact .visit (fun _ => trivial) fun poll => h.setPoint_resting hlt ((hs.take hq).alike .ticked)

end Drawn

/-- When an analysis of a range has come to an end, every place of the range at which no function
begins has what its incoming edges carry, merged. The initial status stays with the first place only
if no edge that leads there is reached; what comes back to it takes the place of the initial
status. -/
theorem analyze_settles (t : Tree) (setting : Setting) (v : String) (initial : Status)
    (hcode : t.Code root) (ha : ofStatement t root setting = .ok a)
    (hfirst : s.first < a.graph.order.length)
    (hrun : a.analyze s v initial cancelled = some (.ok (), s'))
    {p : Nat} (hp : p < a.graph.order.length) (hf : s.first ≤ p) (hl : p ≤ s.last)
    (hb : ∀ b, ¬ a.Opens p b) : a.Settled initial s.first s'.statuses p := by
  obtain ⟨rfl, hlaid⟩ := laid_of_statement hcode ha
  have h : a.Drawn root := ⟨hcode, hlaid⟩
  have hends : Ends True (fun _ s' => Resting a initial s.first s.last s' ∧ s'.queue = [])
      (.ok (), s') := by
    refine analyze_keep (fun hnil => ?_) (h.setPoint_resting hfirst (.start rfl rfl))
      (fun s q rest hs hq => h.visit_resting hs hq) hrun
    rw [hnil] at hfirst
    exact absurd hfirst (Nat.not_lt_zero _)
  obtain ⟨hs, hempty⟩ := hends
  exact (hs.settled hp hf hl hb).resolve_left (hempty ▸ List.not_mem_nil)

end TreeScribe.Flow.Assignment
