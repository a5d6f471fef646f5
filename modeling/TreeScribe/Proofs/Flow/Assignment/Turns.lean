import Mathlib.Logic.Relation
import TreeScribe.Proofs.Flow.Assignment.Invariant

namespace TreeScribe.Flow.Assignment

open TreeScribe.Tree

variable {a : Assignment} {v : String} {initial : Status} {D : Nat → Prop} {s s' : State}
  {root : NodeId}
  {p q : Nat} {σ : Status} {depth : Nat}

structure Underway (a : Assignment) (v : String) (initial : Status) (D : Nat → Prop) (p : Nat)
    (σ : Status) (s₀ : State) (l : List (NodeId × Status)) (s : State) : Prop where
  holds : Invariant a v initial (fun r => D r ∨ r = p) s
  later : Later a (fun r => D r ∨ r = p) s₀ s
  status : s.statuses.point p = σ
  ahead {x : NodeId × Status} (hx : x ∈ l) : x ∈ (a.transfer v (a.pointAt p) σ).begun
  begun {b : NodeId} {τ : Status} {q : Nat} (hq : q < a.graph.order.length) (hb : a.Opens q b)
    (hm : (b, τ) ∈ (a.transfer v (a.pointAt p) σ).begun) : (b, τ) ∈ l ∨ s.statuses.point q = τ

theorem State.Alike.statuses_eq (h : s.Alike s') : s'.statuses = s.statuses := by
  rw [State.statuses, State.statuses, h.points, h.edges]

theorem Later.of_alike (h : s.Alike s') : Later a D s s' := by
  have hwork : s'.work a = s.work a := by rw [State.work, State.work, h.statuses_eq, h.queue]
  refine ⟨fun p => ?_, fun {p} _ => ?_, Nat.le_of_eq hwork⟩ <;> rw [h.statuses_eq]

theorem Underway.alike {s₀ : State} {l : List (NodeId × Status)}
    (hu : Underway a v initial D p σ s₀ l s) (h : s.Alike s') :
    Underway a v initial D p σ s₀ l s' := by
  refine ⟨hu.holds.alike h, hu.later.trans (.of_alike h), ?_, hu.ahead, fun hq hb hm => ?_⟩
  · rw [h.statuses_eq]
    exact hu.status
  · rw [h.statuses_eq]
    exact hu.begun hq hb hm

theorem Underway.next (h : a.Plain root)
    (hp : p < a.graph.order.length) {s₀ : State} {b : NodeId} {τ : Status}
    {l : List (NodeId × Status)} (hu : Underway a v initial D p σ s₀ ((b, τ) :: l) s)
    (hq : q < a.graph.order.length) (hb : a.Opens q b)
    (hs : Invariant a v initial (fun r => D r ∨ r = p) s')
    (hlater : Later a (fun r => D r ∨ r = p) s s') (hτ : s'.statuses.point q = τ) :
    Underway a v initial D p σ s₀ l s' := by
  have hσ : s'.statuses.point p = σ := (hlater.same (.inr rfl)).trans hu.status
  refine ⟨hs, hu.later.trans hlater, hσ, fun hx => hu.ahead (List.mem_cons_of_mem _ hx),
    fun {b' τ' q'} hq' hb' hm => ?_⟩
  rcases hu.begun hq' hb' hm with hin | heq
  · rcases List.mem_cons.mp hin with heq | hin
    · cases heq
      cases h.eq_of_opens hq hq' hb hb'
      exact .inr hτ
    · exact .inl hin
  · -- what was begun before has risen, but not above the status with which it was begun
    have hle : s'.statuses.point q' ≤ τ' := hs.begun_le hp hq' hb' (hσ.symm ▸ hm)
    exact .inr (le_antisymm hle (heq ▸ hlater.point_le q'))

theorem run_setPoint_of_eq {c : Scope} (h : s.statuses.point p = σ) :
    (c.setPoint p σ).run s = (.ok (), s) := by
  have hget : (get : Run State).run s = (.ok s, s) := rfl
  have hgetD : s.points.getD p .unreachable = σ := h
  unfold Scope.setPoint
  refine (run_bind_of_ok hget).trans ?_
  rw [if_pos hgetD]
  rfl

theorem run_setPoint_of_ne {c : Scope} (h : s.statuses.point p ≠ σ) :
    (c.setPoint p σ).run s = (c.carry (c.analysis.pointAt p) σ).run (s.withPoint p σ) := by
  have hget : (get : Run State).run s = (.ok s, s) := rfl
  have hgetD : s.points.getD p .unreachable ≠ σ := h
  unfold Scope.setPoint
  refine (run_bind_of_ok hget).trans ?_
  rw [if_neg hgetD]
  rfl

namespace Invariant

theorem later_withPoint (hs : Invariant a v initial D s) (hq : q < a.graph.order.length)
    (hle : s.statuses.point q ≤ σ) {E : Nat → Prop} (hE : ¬ E q) :
    Later a E s (s.withPoint q σ) := by
  have hpoint (r : Nat) : (s.withPoint q σ).statuses.point r =
    if r = q then σ else s.statuses.point r :=
    State.point_withPoint (hs.points_size ▸ hq)
  refine ⟨fun r => ?_, fun {r} hr => ?_, Nat.le_refl _⟩
  · rw [hpoint]
    split
    · rename_i hrq
      exact hrq ▸ hle
    · exact le_refl _
  · rw [hpoint, if_neg]
    rintro rfl
    exact hE hr

theorem carry_of_begin (h : a.Plain root) (hp : p < a.graph.order.length)
    (hσ : s.statuses.point p = σ) (hreached : σ ≠ .unreachable)
    (hdepth : a.tree.size ≤ depth + a.tree.depth (a.pointAt p).next + 1)
    (hs : Invariant a v initial (fun r => D r ∨ r = p) s)
    (hbegin : ∀ (b : NodeId) (τ : Status) (l : List (NodeId × Status)) (s' : State) (depth : Nat),
      a.tree.size ≤ depth + a.tree.depth b → Underway a v initial D p σ s ((b, τ) :: l) s' →
        ∃ q s'', a.beginOf b = some q ∧ ((Scope.within a v false depth).setPoint q τ).run s' =
        (.ok (), s'') ∧
          Underway a v initial D p σ s l s'') :
    ∃ s', ((Scope.within a v false depth).carry (a.pointAt p) σ).run s = (.ok (), s') ∧
      Invariant a v initial D s' ∧ Later a (fun r => D r ∨ r = p) s s' := by
  have htransfer := transfer_of_ne (a := a) (v := v) (x := a.pointAt p) hreached
  let S : Script a v :=
    { ahead := Underway a v initial D p σ s
      alike := fun ha hu => hu.alike ha
      begin := fun {b τ l s₁ d} hd hu => hbegin b τ l s₁ d hd hu }
  have hunguarded (hk : (a.pointAt p).kind = .stop) :
      a.tree.role (a.pointAt p).previous ≠ .finallyBlock :=
    h.unguarded (h.below_of_mark hp (leave_mem_marks hk))
  have hall : S.ahead (((View.full a v).carry (a.pointAt p) σ).begun ++ []) s := by
    refine ⟨hs, .refl, hσ, fun hx => ?_, fun _ _ hm => .inl ?_⟩
    · rw [List.append_nil] at hx
      rwa [htransfer]
    · rw [htransfer] at hm
      rwa [List.append_nil]
  obtain ⟨s₁, hrun, hu⟩ := carries h.code.wellFormed hdepth hunguarded S [] s hall
  have hu : Underway a v initial D p σ s [] s₁ := hu
  rw [← htransfer] at hrun
  obtain ⟨hinv, hpoints, hwork, hedge⟩ :=
    hu.holds.setEdges h analysis_within hp (.inr rfl) hu.status rfl
  have hpoint (r : Nat) := State.point_congr (p := r) hpoints
  refine ⟨_, hrun, hinv.drop (fun e he => ?_) fun b τ q hq hb hm => ?_, ?_⟩
  · rw [hpoint, hu.status]
    exact hedge e he
  · rw [hpoint, hu.status] at hm
    rw [hpoint]
    exact (hu.begun hq hb hm).resolve_left (List.not_mem_nil)
  · refine hu.later.trans ⟨fun r => ?_, fun {r} _ => hpoint r, hwork⟩
    rw [hpoint]

/-- The status of a point is carried on, also to the functions that it begins. -/
theorem carry (h : a.Plain root) {bound : Nat} (hp : p < a.graph.order.length)
    (hbound : a.tree.size ≤ bound + a.tree.depth (a.pointAt p).next) (hσ : s.statuses.point p = σ)
    (hreached : σ ≠ .unreachable)
    (hdepth : a.tree.size ≤ depth + a.tree.depth (a.pointAt p).next + 1)
    (hD : ∀ r, D r → a.tree.depth (a.pointAt r).next < a.tree.depth (a.pointAt p).next)
    (hs : Invariant a v initial (fun r => D r ∨ r = p) s) :
    ∃ s', ((Scope.within a v false depth).carry (a.pointAt p) σ).run s = (.ok (), s') ∧
      Invariant a v initial D s' ∧ Later a (fun r => D r ∨ r = p) s s' := by
  have hw := h.code.wellFormed
  induction bound generalizing p σ s depth D with
  | zero =>
      refine hs.carry_of_begin h hp hσ hreached hdepth fun b τ l s₁ d hd hu => ?_
      obtain ⟨hdeep, hlt, -⟩ := h.depth_of_begun hp (hu.ahead List.mem_cons_self)
      have := hw.depth_lt hlt
      omega
  | succ bound ih =>
      refine hs.carry_of_begin h hp hσ hreached hdepth fun b τ l s₁ d hd hu => ?_
      have hm := hu.ahead List.mem_cons_self
      obtain ⟨hdeep, hlt, -⟩ := h.depth_of_begun hp hm
      obtain ⟨q, h0, hq, hb⟩ := h.opens_of_begun hp hm
      have hnext : (a.pointAt q).next = b := hb.next
      have hm₁ : (b, τ) ∈ (a.transfer v (a.pointAt p) (s₁.statuses.point p)).begun := hu.status ▸ hm
      have hle : s₁.statuses.point q ≤ τ := hu.holds.begun_le hp hq hb hm₁
      have hbegin := h.beginOf_eq hq hb.2
      by_cases hsame : s₁.statuses.point q = τ
      · exact ⟨q, s₁, hbegin, run_setPoint_of_eq hsame, hu.next h hp hq hb hu.holds .refl hsame⟩
      · have hdeeper (r : Nat) (hr : D r ∨ r = p) :
            a.tree.depth (a.pointAt r).next < a.tree.depth (a.pointAt q).next := by
          rw [hnext]
          rcases hr with hr | rfl
          · exact Nat.lt_trans (hD r hr) hdeep
          · exact hdeep
        have hqD : ¬ (D q ∨ q = p) := fun hr => Nat.lt_irrefl _ (hdeeper q hr)
        have hdue : Due a v initial s₁ q τ := by
          refine ⟨fun h0' => absurd h0' (Nat.ne_of_gt h0), fun {b'} _ hb' => ?_,
            fun _ hb' => absurd hb (hb' b)⟩
          cases hb'.next.symm.trans hnext
          exact ⟨p, hp, hm₁⟩
        have hset := hu.holds.setPoint h hq hle hdue
        have hlater := hu.holds.later_withPoint (E := fun r => D r ∨ r = p) hq hle hqD
        have hself : (s₁.withPoint q τ).statuses.point q = τ := by
          rw [State.point_withPoint (hu.holds.points_size ▸ hq), if_pos rfl]
        have hbound' : a.tree.size ≤ bound + a.tree.depth (a.pointAt q).next := by
          rw [hnext]
          omega
        have hdepth' : a.tree.size ≤ d + a.tree.depth (a.pointAt q).next + 1 := by
          rw [hnext]
          omega
        obtain ⟨s₂, hrun, hinv, hlater'⟩ :=
          ih hq hbound' hself (begun_ne_unreachable hm) hdepth' hdeeper hset
        have hall := hlater.trans (hlater'.mono fun _ hr => .inl hr)
        refine ⟨q, s₂, hbegin, ?_,
          hu.next h hp hq hb hinv hall ((hlater'.same (.inr rfl)).trans hself)⟩
        rw [run_setPoint_of_ne hsame, analysis_within]
        exact hrun

end Invariant

abbrev Idle (a : Assignment) (v : String) (initial : Status) (s : State) : Prop :=
  Invariant a v initial (fun _ => False) s

theorem Invariant.carry_full (h : a.Plain root) (hp : p < a.graph.order.length)
    (hσ : s.statuses.point p = σ) (hreached : σ ≠ .unreachable)
    (hs : Invariant a v initial (fun r => False ∨ r = p) s) :
    ∃ s', ((Scope.full a v false).carry (a.pointAt p) σ).run s = (.ok (), s') ∧
      Idle a v initial s' ∧
      s'.work a ≤ s.work a ∧ s.statuses.point 0 ≤ s'.statuses.point 0 := by
  have hbound : a.tree.size ≤ a.tree.size + a.tree.depth (a.pointAt p).next := Nat.le_add_right _ _
  obtain ⟨s', hrun, hinv, hlater⟩ :=
    hs.carry h hp hbound hσ hreached (Nat.le_succ_of_le hbound) fun _ => False.elim
  exact ⟨s', hrun, hinv, hlater.work_le, hlater.point_le 0⟩

namespace Scope

def visit (c : Scope) (p : Nat) : Run Unit := do
  c.tick
  let s ← get
  c.setPoint p (incoming (c.analysis.pointAt p) s)

inductive Turn (c : Scope) (s s' : State) : Prop
  | take {before behind : List Nat} {p : Nat} (hq : s.queue = before ++ p :: behind)
    (hr : (c.visit p).run { s with queue := before ++ behind } = (.ok (), s'))

/-- In whichever order places are taken, turns come to an end, no place that is taken makes one
fail, and the statuses are then the given ones. -/
structure ComesTo (c : Scope) (s : State) (S : Statuses) : Prop where
  terminates : Acc (fun s' s => c.Turn s s') s
  proceeds {s' : State} (h : Relation.ReflTransGen c.Turn s s') {before behind : List Nat} {p : Nat}
    (hq : s'.queue = before ++ p :: behind) :
    ∃ s'', (c.visit p).run { s' with queue := before ++ behind } = (.ok (), s'')
  result {s' : State} (h : Relation.ReflTransGen c.Turn s s') (hq : s'.queue = []) : s'.statuses = S

theorem run_step_eq {c : Scope} {rest : List Nat} (hq : s.queue = p :: rest) :
    c.step.run s =
      ((c.visit p) >>= fun _ => (pure true : Run Bool)).run { s with queue := rest } := by
  have hget : (get : Run State).run s = (.ok s, s) := rfl
  have hset : (set { s with queue := rest } : Run PUnit).run s =
      (.ok PUnit.unit, { s with queue := rest }) := rfl
  unfold step visit
  refine (run_bind_of_ok hget).trans ?_
  rw [hq]
  refine (run_bind_of_ok hset).trans ?_
  simp only [bind_assoc]

theorem run_step_cons {c : Scope} {rest : List Nat} (hq : s.queue = p :: rest)
    (hr : (c.visit p).run { s with queue := rest } = (.ok (), s')) :
    c.step.run s = (.ok true, s') := by
  rw [run_step_eq hq]
  exact run_bind_of_ok hr

theorem run_step_nil {c : Scope} (hq : s.queue = []) : c.step.run s = (.ok false, s) := by
  have hget : (get : Run State).run s = (.ok s, s) := rfl
  unfold step
  refine (run_bind_of_ok hget).trans ?_
  rw [hq]
  rfl

end Scope

/-- A visit ticks, and then sets the point. -/
theorem run_visit : ((Scope.full a v false).visit p).run s =
    ((Scope.full a v false).setPoint p (s.statuses.incoming (a.pointAt p))).run
      { s with poll := s.poll.tick.2 } := by
  have hcancelled : (Scope.full a v false).cancelled = false := by rw [Scope.full, Scope.within_eq]
  unfold Scope.visit
  refine (run_bind_of_ok (run_tick hcancelled)).trans ?_
  rw [Scope.full, analysis_within]
  rfl

namespace Invariant

/-- A turn leaves less work. -/
theorem visit (h : a.Plain root) (hs : Idle a v initial s) {before behind : List Nat}
    (hq : s.queue = before ++ p :: behind) :
    ∃ s', ((Scope.full a v false).visit p).run { s with queue := before ++ behind } =
      (.ok (), s') ∧ Idle a v initial s' ∧ s'.work a < s.work a ∧
      s.statuses.point 0 ≤ s'.statuses.point 0 := by
  obtain ⟨h0, hp, hb⟩ := hs.queued (p := p) (by simp [hq])
  rw [run_visit]
  change ∃ s', ((Scope.full a v false).setPoint p (s.statuses.incoming (a.pointAt p))).run
    { s with queue := before ++ behind, poll := s.poll.tick.2 } = (.ok (), s') ∧ _
  generalize hs₁ : ({ s with queue := before ++ behind, poll := s.poll.tick.2 } : State) = s₁
  have hpoint (r : Nat) : s₁.statuses.point r = s.statuses.point r := by
    rw [← hs₁]
    rfl
  have hwork : s₁.work a < s.work a := by
    have hlength : (before ++ behind).length < s.queue.length := by
      rw [hq]
      simp
    rw [← hs₁]
    exact Nat.add_lt_add_left hlength _
  by_cases hsame : s.statuses.point p = s.statuses.incoming (a.pointAt p)
  · refine ⟨s₁, run_setPoint_of_eq ((hpoint p).trans hsame), ?_, hwork, by rw [hpoint]⟩
    refine (hs.dequeue hq hsame).alike ?_
    rw [← hs₁]
    exact ⟨rfl, rfl, rfl, rfl, rfl⟩
  · generalize hσ : s.statuses.incoming (a.pointAt p) = σ at hsame ⊢
    have hle : s.statuses.point p ≤ σ := hσ ▸ hs.merged_le h0 hp hb
    have hdue : Due a v initial s p σ :=
      ⟨fun h0' => absurd h0' (Nat.ne_of_gt h0), fun _ hb' => absurd hb' (hb _), fun _ _ => hσ.symm⟩
    have hself : (s.withPoint p σ).statuses.point p = σ := by
      rw [State.point_withPoint (hs.points_size ▸ hp), if_pos rfl]
    have hset : Invariant a v initial (fun r => False ∨ r = p) (s₁.withPoint p σ) := by
      have hincoming : (s.withPoint p σ).statuses.point p =
        (s.withPoint p σ).statuses.incoming (a.pointAt p) :=
        hself.trans hσ.symm
      refine ((hs.setPoint h hp hle hdue).dequeue hq hincoming).alike ?_
      rw [← hs₁]
      exact ⟨rfl, rfl, rfl, rfl, rfl⟩
    have hself₁ : (s₁.withPoint p σ).statuses.point p = σ := by
      rw [← hs₁]
      exact hself
    have hne : s₁.statuses.point p ≠ σ := fun heq => hsame ((hpoint p).symm.trans heq)
    have hreached : σ ≠ .unreachable := by
      rintro rfl
      exact hsame (Status.eq_unreachable_of_le hle)
    obtain ⟨s', hrun, hinv, hless, hrisen⟩ := hset.carry_full h hp hself₁ hreached
    refine ⟨s', ?_, hinv, Nat.lt_of_le_of_lt hless hwork, ?_⟩
    · rw [run_setPoint_of_ne hne, Scope.full, analysis_within]
      exact hrun
    · have hzero : (s₁.withPoint p σ).statuses.point 0 = s.statuses.point 0 := by
        rw [State.point_withPoint, if_neg (Nat.ne_of_lt h0), hpoint]
        rw [← hs₁]
        exact hs.points_size ▸ hp
      exact hzero ▸ hrisen

end Invariant

end TreeScribe.Flow.Assignment
