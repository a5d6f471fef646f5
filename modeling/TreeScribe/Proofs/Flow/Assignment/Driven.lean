import TreeScribe.Proofs.Flow.Assignment.Upheld

namespace TreeScribe.Flow.Assignment

open TreeScribe.Tree

structure Driven (a : Assignment) (s : State) : Prop where
  points_size : s.points.size = a.graph.order.length
  edges_size : s.edges.size = a.graph.edges.size
  queued {p : Nat} (hp : p ∈ s.queue) :
    p < a.graph.order.length ∧ (∀ b, ¬ a.Opens p b) ∧
      s.statuses.incoming (a.pointAt p) ≠ .unreachable

variable {a : Assignment} {v : String} {cancelled : Bool} {initial : Status} {s s' : State}
  {root : NodeId} {e : EdgeId}
  {q : Nat} {σ : Status}

theorem Joined.lt (he : a.Joined e) (h : a.Drawn root) : e < a.graph.edges.size :=
  he.elim id fun ⟨_, he⟩ => h.lt_of_outgoing he

namespace Driven

theorem clear : Driven a (a.clear s) :=
  ⟨Array.size_replicate, Array.size_replicate, fun hp => absurd hp List.not_mem_nil⟩

theorem alike (hs : Driven a s) (h : s.Alike s') : Driven a s' := by
  refine ⟨h.points ▸ hs.points_size, h.edges ▸ hs.edges_size, fun hp => ?_⟩
  rw [h.statuses_eq]
  exact hs.queued (h.queue ▸ hp)

theorem withPoint (hs : Driven a s) : Driven a (s.withPoint q σ) :=
  ⟨Array.size_setIfInBounds.trans hs.points_size, hs.edges_size, hs.queued⟩

theorem dequeue (hs : Driven a s) {rest : List Nat} (hq : s.queue = q :: rest) :
    Driven a { s with queue := rest } :=
  ⟨hs.points_size, hs.edges_size, fun hp => hs.queued (hq ▸ List.mem_cons_of_mem _ hp)⟩

theorem point_withPoint (hs : Driven a s) (hq : q < a.graph.order.length) :
    (s.withPoint q σ).statuses.point q = σ := by
  rw [State.point_withPoint (hs.points_size ▸ hq), if_pos rfl]

theorem setEdge (hs : Driven a s) (h : a.Drawn root) {c : Scope} (hc : c.analysis = a)
    (he : a.Joined e) : Driven a (c.setEdge σ s e) := by
  have hlt := he.lt h
  rcases h.setEdge_cases (σ := σ) hc hs.edges_size hlt with ⟨hrun, -⟩ | ⟨-, hreached, q, hplace, hr⟩
  · rw [hrun]
    exact hs
  obtain ⟨q', hplace', -, hq, hb, hin⟩ := h.exists_target hlt
  cases hplace.symm.trans hplace'
  refine ⟨(congrArg Array.size hr.points).trans hs.points_size, hr.edges_size.trans hs.edges_size,
    fun {p} hp => ?_⟩
  have hself : (c.setEdge σ s e).statuses.edge e = σ.clean := (hr.edge e).trans (if_pos rfl)
  rcases hr.mem_queue.mp hp with hp | ⟨rfl, -⟩
  · obtain ⟨hlt, hb, hincoming⟩ := hs.queued hp
    refine ⟨hlt, hb, fun hun => hincoming (Statuses.incoming_eq_unreachable.mpr fun e' he' => ?_)⟩
    have hun := Statuses.incoming_eq_unreachable.mp hun e' he'
    by_cases hee : e' = e
    · subst hee
      exact absurd (hself.symm.trans hun) hreached
    · exact (hr.edge_of_ne hee).symm.trans hun
  · refine ⟨hq, hb, fun hun => hreached ?_⟩
    exact hself.symm.trans (Statuses.incoming_eq_unreachable.mp hun e ((hin p hq).mpr rfl))

end Driven

/-- Places that are reached begin functions only with statuses that are reached, and all of these
have a place. -/
theorem Known.upholds_driven (h : a.Known root) : Upholds a v false
    (fun q σ => q < a.graph.order.length ∧ σ ≠ .unreachable) (fun _ _ => True)
    (fun _ _ => True) False (Driven a) where
  region _ := .all
  operand _ _ _ _ := trivial
  cancel hc := Bool.noConfusion hc
  tick hs := hs.alike .ticked
  edge hc he hs := hs.setEdge h.toDrawn hc he
  note _ _ _ hs := hs.alike .noted
  unknown := by
    rintro q σ τ b ⟨hq, hreached⟩ - hm hnone
    rw [← transfer_of_ne hreached] at hm
    obtain ⟨q', -, hq', hb⟩ := h.opens_of_begun hq hm
    cases (h.beginOf_eq hq' hb.2).symm.trans hnone
  set := by
    rintro q σ s ⟨-, hreached⟩ hs
    refine .inl ⟨hs.withPoint, fun b τ q' _ hm hq' => ⟨(of_lastPlace? hq').1, ?_⟩⟩
    rw [← transfer_of_ne hreached] at hm
    exact begun_ne_unreachable hm

/-- No function is unknown: in code without functions inside functions whose body is an expression,
an analysis of any range that is not cancelled does not fail, if it comes to an end. -/
theorem analyze_finds_functions (t : Tree) (setting : Setting) (v : String) (initial : Status)
    (hcode : t.Code root) (hflat : t.Unnested root) (ha : ofStatement t root setting = .ok a)
    (hfirst : s.first < a.graph.order.length) {r : Except FlowError Unit}
    (hrun : a.analyze s v initial false = some (r, s')) : r = .ok () := by
  obtain ⟨rfl, h⟩ := known_of_statement hcode hflat ha
  have hends : Ends False (fun _ s' => Driven a s') (r, s') := by
    refine h.upholds_driven.analyze hcode.wellFormed (fun s q rest hs hq => ?_)
      (fun hne => ⟨hfirst, fun hun => hne ?_⟩)
      .clear hrun
    · obtain ⟨hlt, -, hreached⟩ := hs.queued (hq ▸ List.mem_cons_self)
      exact ⟨hs.dequeue hq, fun _ => ⟨hlt, hreached⟩⟩
    · rw [hun, point_clear]
  cases r with
  | ok => rfl
  | error x => exact hends.elim

end TreeScribe.Flow.Assignment
