import TreeScribe.Proofs.Flow.Assignment.Driven

namespace TreeScribe.Flow.Assignment

open TreeScribe.Tree

structure InStep (a : Assignment) (v : String) (p q : Nat) (b : NodeId) (s : State) : Prop where
  driven : Driven a s
  begun {τ : Status} (hm : (b, τ) ∈ (a.transfer v (a.pointAt p) (s.statuses.point p)).begun) :
    s.statuses.point q = τ

structure Deeper (a : Assignment) (p q : Nat) (ρ : Status) (r : Nat) (τ : Status) : Prop where
  lt : r < a.graph.order.length
  reached : τ ≠ .unreachable
  deeper : a.tree.depth (a.pointAt p).next < a.tree.depth (a.pointAt r).next
  same (hr : r = q) : τ = ρ

structure Left (a : Assignment) (p q : Nat) (σ ρ : Status) (s : State) : Prop where
  driven : Driven a s
  begins : s.statuses.point p = σ
  begun : s.statuses.point q = ρ

structure Beginning (a : Assignment) (v : String) (p q : Nat) (b : NodeId) (σ : Status)
    (l : List (NodeId × Status)) (s : State) : Prop where
  driven : Driven a s
  status : s.statuses.point p = σ
  ahead {x : NodeId × Status} (hx : x ∈ l) : x ∈ ((View.full a v).carry (a.pointAt p) σ).begun
  begun {τ : Status} (hm : (b, τ) ∈ ((View.full a v).carry (a.pointAt p) σ).begun) :
    (b, τ) ∈ l ∨ s.statuses.point q = τ

variable {a : Assignment} {v : String} {cancelled : Bool} {initial : Status} {s s' : State}
  {root b : NodeId} {e : EdgeId}
  {p q depth : Nat} {σ σ₀ τ τ₀ ρ : Status}

theorem Beginning.alike {l : List (NodeId × Status)} (hs : Beginning a v p q b σ l s)
    (h : s.Alike s') : Beginning a v p q b σ l s' := by
  refine ⟨hs.driven.alike h, ?_, hs.ahead, fun hm => ?_⟩
  · rw [h.statuses_eq]
    exact hs.status
  · rw [h.statuses_eq]
    exact hs.begun hm

theorem Known.begun_deeper (h : a.Known root) (hp : p < a.graph.order.length)
    (hσ : σ ≠ .unreachable) (hm : (b, τ) ∈ ((View.full a v).carry (a.pointAt p) σ).begun)
    (hq : a.beginOf b = some q) :
    q < a.graph.order.length ∧ τ ≠ .unreachable ∧
      a.tree.depth (a.pointAt p).next < a.tree.depth (a.pointAt q).next := by
  rw [← transfer_of_ne hσ] at hm
  rw [next_of_beginOf hq]
  exact ⟨(of_lastPlace? hq).1, begun_ne_unreachable hm, (h.depth_of_begun hp hm).1⟩

namespace Known

variable (h : a.Known root) (hp : p < a.graph.order.length) (hq : a.beginOf b = some q)
  (hb : (b, τ₀) ∈ (a.transfer v (a.pointAt p) σ₀).begun)
include h hp hq hb

theorem eq_of_beginOf {r : Nat} (hr : r < a.graph.order.length)
    (hσ : σ ≠ .unreachable) {b' : NodeId}
    (hm : (b', τ) ∈ ((View.full a v).carry (a.pointAt r) σ).begun) (hq' : a.beginOf b' = some q) :
    r = p := by
  rw [← transfer_of_ne hσ] at hm
  cases (next_of_beginOf hq').symm.trans (next_of_beginOf hq)
  exact h.eq_of_begun hr hp hm hb

theorem passes_deeper {r : Nat} (hR : a.Deeper p q ρ r τ) {B : NodeId → Prop} :
    a.Passes v (a.Deeper p q ρ) B r τ := by
  intro b' τ' q' _ hm hbegin
  obtain ⟨hlt, hreached, hdeeper⟩ := h.begun_deeper hR.lt hR.reached hm hbegin
  refine ⟨hlt, hreached, Nat.lt_trans hR.deeper hdeeper, ?_⟩
  rintro rfl
  cases h.eq_of_beginOf hp hq hb hR.lt hR.reached hm hbegin
  exact absurd hR.deeper (Nat.lt_irrefl _)

theorem upholds_left : Upholds a v cancelled (a.Deeper p q ρ) (fun _ _ => True)
    (fun _ _ => True) True
    (Left a p q σ ρ) where
  region _ := .all
  operand _ _ _ _ := trivial
  cancel _ := trivial
  tick hs := ⟨hs.driven.alike .ticked, hs.begins, hs.begun⟩
  edge hc he hs := ⟨hs.driven.setEdge h.toDrawn hc he, Scope.point_setEdge.trans hs.begins,
    Scope.point_setEdge.trans hs.begun⟩
  note _ _ _ hs := ⟨hs.driven.alike .noted, hs.begins, hs.begun⟩
  unknown _ _ _ _ := trivial
  set := by
    intro r τ s hR hs
    have hpr : p ≠ r := by
      rintro rfl
      exact Nat.lt_irrefl _ hR.deeper
    refine .inl ⟨⟨hs.driven.withPoint, (State.point_withPoint_of_ne hpr).trans hs.begins, ?_⟩,
      h.passes_deeper hp hq hb hR⟩
    by_cases hqr : q = r
    · subst hqr
      exact (hs.driven.point_withPoint hR.lt).trans (hR.same rfl)
    · exact (State.point_withPoint_of_ne hqr).trans hs.begun

theorem begin_next (hσ : σ ≠ .unreachable) {b' : NodeId} {q' : Nat} {l : List (NodeId × Status)}
    (hs : Beginning a v p q b σ ((b', τ) :: l) s) (hbegin : a.beginOf b' = some q')
    (hd : a.tree.size ≤ depth + a.tree.depth b') :
    Ends True (fun _ s' => Beginning a v p q b σ l s')
      (((Scope.within a v cancelled depth).setPoint q' τ).run s) := by
  have hm := hs.ahead List.mem_cons_self
  obtain ⟨hlt, hτ, hdeep⟩ := h.begun_deeper hp hσ hm hbegin
  rw [← next_of_beginOf hbegin] at hd
  have hd := Nat.le_succ_of_le hd
  have hleft (ρ : Status) :
      Upholds a v cancelled (a.Deeper p q ρ) (fun _ _ => True) (fun _ _ => True) True
        (Left a p q σ ρ) := h.upholds_left hp hq hb
  have hahead {x : NodeId × Status} (hx : x ∈ l) := hs.ahead (List.mem_cons_of_mem _ hx)
  by_cases hbb : b' = b
  · subst hbb
    obtain rfl : q' = q := Option.some.inj (hbegin.symm.trans hq)
    have hR : a.Deeper p q' τ q' τ := ⟨hlt, hτ, hdeep, fun _ => rfl⟩
    have hpq : p ≠ q' := by
      rintro rfl
      exact Nat.lt_irrefl _ hdeep
    refine ((hleft τ).setPoint_of_withPoint h.code.wellFormed hR (h.passes_deeper hp hq hb hR)
      hd ?_).imp
      fun _ s' hs' => ⟨hs'.driven, hs'.begins, hahead, fun hm' => ?_⟩
    · exact ⟨hs.driven.withPoint, (State.point_withPoint_of_ne hpq).trans hs.status,
        hs.driven.point_withPoint hlt⟩
    · rw [← transfer_of_ne hσ] at hm hm'
      exact .inr (hs'.begun.trans (h.eq_of_begun_same hp hm hm'))
  · have hqq : q' ≠ q := by
      rintro rfl
      exact hbb ((next_of_beginOf hbegin).symm.trans (next_of_beginOf hq))
    refine ((hleft (s.statuses.point q)).setPoint h.code.wellFormed
      (fun _ => ⟨hlt, hτ, hdeep, fun heq => absurd heq hqq⟩) hd ⟨hs.driven, hs.status, rfl⟩).imp
      fun _ s' hs' => ⟨hs'.driven, hs'.begins, hahead, fun hm' => ?_⟩
    refine (hs.begun hm').imp (fun hx => (List.mem_cons.mp hx).resolve_left fun heq => ?_)
      hs'.begun.trans
    exact hbb (congrArg Prod.fst heq).symm

/-- Carrying on the place that begins the function leaves the function in step with it. -/
theorem carry_begun (hσ : σ ≠ .unreachable) (hs : Driven a s)
    (hd : a.tree.size ≤ depth + a.tree.depth (a.pointAt p).next + 1) :
    Ends True (fun _ s' => InStep a v p q b s')
      (((Scope.within a v cancelled depth).carry (a.pointAt p) σ).run (s.withPoint p σ)) := by
  let A : Account a v cancelled :=
    { ahead := Beginning a v p q b σ
      mayFail := True
      notable := fun _ => True
      startable := fun _ => True
      cancel := fun _ => trivial
      tick := fun hs => hs.alike .ticked
      note := fun _ hs => hs.alike .noted
      unknown := fun _ _ _ => trivial
      begin := fun _ hbegin hd hs => h.begin_next hp hq hb hσ hs hbegin hd }
  refine (carry_of_account h.code.wellFormed .all (fun _ _ _ _ => trivial)
    hd A (fun _ _ _ => trivial)
    (fun _ _ _ _ => trivial) ⟨hs.withPoint, hs.point_withPoint hp, id, .inl⟩).imp ?_
  rintro _ s' ⟨s₁, hs₁, rfl⟩
  have hs₁ : Beginning a v p q b σ [] s₁ := hs₁
  -- the edges change neither of the two places
  have hleft : Upholds a v cancelled (a.Deeper p q (s₁.statuses.point q)) (fun _ _ => True)
    (fun _ _ => True) True
      (Left a p q σ (s₁.statuses.point q)) := h.upholds_left hp hq hb
  obtain ⟨hdriven, hbegins, hbegun⟩ := hleft.setEdges_finished ⟨hs₁.driven, hs₁.status, rfl⟩
  refine ⟨hdriven, fun {τ} hm => ?_⟩
  rw [hbegins, transfer_of_ne hσ] at hm
  exact hbegun.trans ((hs₁.begun hm).resolve_left List.not_mem_nil)

/-- An analysis keeps the function in step with the place that begins it. -/
theorem upholds_inStep :
    Upholds a v cancelled (fun r τ => r < a.graph.order.length ∧ τ ≠ .unreachable ∧ r ≠ q)
    (fun _ _ => True) (fun _ _ => True) True (InStep a v p q b) where
  region _ := .all
  operand _ _ _ _ := trivial
  cancel _ := trivial
  tick hs := ⟨hs.driven.alike .ticked, hs.begun⟩
  edge hc he hs := by
    refine ⟨hs.driven.setEdge h.toDrawn hc he, fun hm => ?_⟩
    rw [Scope.point_setEdge] at hm ⊢
    exact hs.begun hm
  note _ _ _ hs := ⟨hs.driven.alike .noted, hs.begun⟩
  unknown _ _ _ _ := trivial
  set := by
    rintro r τ s ⟨hr, hτ, hrq⟩ hs
    by_cases hrp : r = p
    · subst hrp
      exact .inr fun depth hd => h.carry_begun hp hq hb hτ hs.driven hd
    · refine .inl ⟨⟨hs.driven.withPoint, fun {τ'} hm => ?_⟩, fun b' τ' q' _ hm hbegin => ?_⟩
      · rw [State.point_withPoint_of_ne (Ne.symm hrp)] at hm
        exact (State.point_withPoint_of_ne (Ne.symm hrq)).trans (hs.begun hm)
      · obtain ⟨hlt, hreached, -⟩ := h.begun_deeper hr hτ hm hbegin
        refine ⟨hlt, hreached, ?_⟩
        rintro rfl
        exact hrp (h.eq_of_beginOf hp hq hb hr hτ hm hbegin)

end Known

/-- When an analysis has come to an end, the functions that a place begins with the status that it
is left with have the status with which it begins them. This is so for code with finally blocks too,
and for any range that does not start with the body of the function; without functions inside
functions whose body is an expression. -/
theorem analyze_begins (t : Tree) (setting : Setting) (v : String) (initial : Status)
    (hcode : t.Code root) (hflat : t.Unnested root) (ha : ofStatement t root setting = .ok a)
    (hfirst : s.first < a.graph.order.length)
    (hrun : a.analyze s v initial cancelled = some (.ok (), s')) (hp : p < a.graph.order.length)
    (hm : (b, τ) ∈ (a.transfer v (a.pointAt p) (s'.statuses.point p)).begun)
    (hb : s.first = 0 ∨ a.beginOf b ≠ some s.first) : a.before s' b = .ok τ := by
  obtain ⟨rfl, h⟩ := known_of_statement hcode hflat ha
  obtain ⟨q, h0, hlt, hopens⟩ := h.opens_of_begun hp hm
  have hq := h.beginOf_eq hlt hopens.2
  have hne : s.first ≠ q := by
    rintro rfl
    exact hb.elim (Nat.ne_of_gt h0) fun hb => hb hq
  have hends : Ends True (fun _ s' => InStep a v p q b s') (.ok (), s') := by
    refine (h.upholds_inStep hp hq hm).analyze hcode.wellFormed (fun s r rest hs hr => ?_)
      (fun hset => ⟨hfirst, fun hun => hset ?_, hne⟩) ⟨.clear, fun hm => ?_⟩ hrun
    · obtain ⟨hlt, hnot, hreached⟩ := hs.driven.queued (hr ▸ List.mem_cons_self)
      refine ⟨⟨hs.driven.dequeue hr, hs.begun⟩, fun _ => ⟨hlt, hreached, ?_⟩⟩
      rintro rfl
      exact hnot b hopens
    · rw [hun, point_clear]
    · rw [point_clear] at hm
      exact absurd rfl (ne_unreachable_of_begun hm)
  rw [before, hq]
  exact congrArg Except.ok (hends.begun hm)

end TreeScribe.Flow.Assignment
