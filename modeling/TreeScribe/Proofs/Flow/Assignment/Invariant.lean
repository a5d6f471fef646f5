import Mathlib.Algebra.Order.BigOperators.Group.Finset
import TreeScribe.Proofs.Flow.Assignment.Performed
import TreeScribe.Proofs.Flow.Assignment.Solution

namespace TreeScribe.Flow

namespace Status

/-- How often a status can still rise, at most. -/
def room : Status → Nat
  | unreachable => 3
  | assigned => 2
  | whenTrue | whenFalse => 1
  | potential => 0

theorem room_lt {σ τ : Status} (h : σ ≤ τ) (hne : σ ≠ τ) : τ.room < σ.room := by
  revert h hne
  cases σ <;> cases τ <;> decide

end Status

namespace Assignment

open TreeScribe.Tree

namespace State

def withPoint (s : State) (p : Nat) (σ : Status) : State :=
  { s with points := s.points.setIfInBounds p σ }

/-- How often edges can rise and places be taken from the queue, at most. -/
def work (a : Assignment) (s : State) : Nat :=
  ∑ e ∈ Finset.range a.graph.edges.size, (s.statuses.edge e).room + s.queue.length

variable {s s' : State} {p q : Nat} {σ : Status}

theorem point_congr (h : s'.points = s.points) : s'.statuses.point p = s.statuses.point p := by
  rw [statuses, statuses, h]

theorem point_withPoint (hp : p < s.points.size) :
    (s.withPoint p σ).statuses.point q = if q = p then σ else s.statuses.point q := by
  simp only [statuses, withPoint, Array.getD_eq_getD_getElem?, Array.getElem?_setIfInBounds]
  by_cases hq : q = p
  · simp [hq, hp]
  · simp [hq, Ne.symm hq]

theorem point_withPoint_of_ne (h : q ≠ p) :
    (s.withPoint p σ).statuses.point q = s.statuses.point q := by
  simp only [statuses, withPoint, Array.getD_eq_getD_getElem?,
    Array.getElem?_setIfInBounds_ne (Ne.symm h)]

end State

/-- What holds of a state in which the points at the places for which `D` holds are being carried
on. -/
structure Invariant (a : Assignment) (v : String) (initial : Status) (D : Nat → Prop)
    (s : State) : Prop where
  points_size : s.points.size = a.graph.order.length
  edges_size : s.edges.size = a.graph.edges.size
  first : s.first = 0
  last : s.last = a.graph.order.length - 1
  entry : s.statuses.point 0 ≤ initial
  clean (e : EdgeId) : (s.statuses.edge e).clean = s.statuses.edge e
  carried_le {p : Nat} {e : EdgeId} (hp : p < a.graph.order.length)
    (he : e ∈ (a.pointAt p).outgoing) :
    s.statuses.edge e ≤ (a.transfer v (a.pointAt p) (s.statuses.point p)).value (a.graph.edge e)
  carried {p : Nat} {e : EdgeId} (hp : p < a.graph.order.length) (he : e ∈ (a.pointAt p).outgoing)
    (hd : ¬ D p) :
    s.statuses.edge e = (a.transfer v (a.pointAt p) (s.statuses.point p)).value (a.graph.edge e)
  begun_le {p q : Nat} {b : NodeId} {τ : Status} (hp : p < a.graph.order.length)
    (hq : q < a.graph.order.length) (hb : a.Opens q b)
    (hm : (b, τ) ∈ (a.transfer v (a.pointAt p) (s.statuses.point p)).begun) : s.statuses.point q ≤ τ
  begun {p q : Nat} {b : NodeId} {τ : Status} (hp : p < a.graph.order.length)
    (hq : q < a.graph.order.length) (hb : a.Opens q b)
    (hm : (b, τ) ∈ (a.transfer v (a.pointAt p) (s.statuses.point p)).begun) (hd : ¬ D p) :
    s.statuses.point q = τ
  traced {q : Nat} {b : NodeId} (h0 : 0 < q) (hq : q < a.graph.order.length) (hb : a.Opens q b)
    (hs : s.statuses.point q ≠ .unreachable) : ∃ τ, s.statuses.Begin a v b τ
  merged_le {p : Nat} (h0 : 0 < p) (hp : p < a.graph.order.length) (hb : ∀ b, ¬ a.Opens p b) :
    s.statuses.point p ≤ s.statuses.incoming (a.pointAt p)
  merged {p : Nat} (h0 : 0 < p) (hp : p < a.graph.order.length) (hb : ∀ b, ¬ a.Opens p b) :
    s.statuses.point p = s.statuses.incoming (a.pointAt p) ∨ p ∈ s.queue
  queued {p : Nat} (hp : p ∈ s.queue) : 0 < p ∧ p < a.graph.order.length ∧ ∀ b, ¬ a.Opens p b
  least {S : Statuses} (hs : a.Solves v initial S) : s.statuses ≤ S

structure Later (a : Assignment) (D : Nat → Prop) (s s' : State) : Prop where
  point_le (p : Nat) : s.statuses.point p ≤ s'.statuses.point p
  same {p : Nat} (hp : D p) : s'.statuses.point p = s.statuses.point p
  work_le : s'.work a ≤ s.work a

structure Due (a : Assignment) (v : String) (initial : Status) (s : State) (q : Nat)
    (σ : Status) : Prop where
  entry (h0 : q = 0) : σ = initial
  begun {b : NodeId} (h0 : 0 < q) (hb : a.Opens q b) : s.statuses.Begin a v b σ
  merged (h0 : 0 < q) (hb : ∀ b, ¬ a.Opens q b) : σ = s.statuses.incoming (a.pointAt q)

variable {a : Assignment} {v : String} {initial : Status} {D D' : Nat → Prop} {s s' s'' : State}
  {root b : NodeId}
  {p q : Nat} {σ τ : Status} {e : EdgeId}

namespace Later

theorem refl : Later a D s s := ⟨fun _ => le_refl _, fun _ => rfl, Nat.le_refl _⟩

theorem trans (h : Later a D s s') (h' : Later a D s' s'') : Later a D s s'' :=
  ⟨fun p => (h.point_le p).trans (h'.point_le p), fun hp => (h'.same hp).trans (h.same hp),
      h'.work_le.trans h.work_le⟩

theorem mono (h : Later a D s s') (hD : ∀ p, D' p → D p) : Later a D' s s' :=
  ⟨h.point_le, fun hp => h.same (hD _ hp), h.work_le⟩

end Later

namespace Invariant

theorem alike (hs : Invariant a v initial D s) (h : s.Alike s') : Invariant a v initial D s' := by
  obtain ⟨points, edges, first, last, uses, queue, poll⟩ := s
  obtain ⟨points', edges', first', last', uses', queue', poll'⟩ := s'
  obtain ⟨rfl, rfl, rfl, rfl, rfl⟩ := h
  exact ⟨hs.points_size, hs.edges_size, hs.first, hs.last, hs.entry, hs.clean, hs.carried_le,
    hs.carried, hs.begun_le, hs.begun, hs.traced, hs.merged_le, hs.merged, hs.queued, hs.least⟩

theorem drop (hs : Invariant a v initial (fun r => D r ∨ r = p) s)
    (he : ∀ e ∈ (a.pointAt p).outgoing, s.statuses.edge e =
      (a.transfer v (a.pointAt p) (s.statuses.point p)).value (a.graph.edge e))
    (hb : ∀ b τ q, q < a.graph.order.length → a.Opens q b →
      (b, τ) ∈ (a.transfer v (a.pointAt p) (s.statuses.point p)).begun → s.statuses.point q = τ) :
    Invariant a v initial D s := by
  have hor {r : Nat} (hr : ¬ D r) (hne : r ≠ p) : ¬ (D r ∨ r = p) := not_or.mpr ⟨hr, hne⟩
  refine { hs with carried := fun {r e} hr hout hd => ?_, begun :=
    fun {r q b τ} hr hq hopen hm hd => ?_ }
  · by_cases hne : r = p
    · subst hne
      exact he e hout
    · exact hs.carried hr hout (hor hd hne)
  · by_cases hne : r = p
    · subst hne
      exact hb b τ q hq hopen hm
    · exact hs.begun hr hq hopen hm (hor hd hne)

theorem dequeue (hs : Invariant a v initial D s) {before behind : List Nat}
    (hq : s.queue = before ++ p :: behind)
    (hp : s.statuses.point p = s.statuses.incoming (a.pointAt p)) :
    Invariant a v initial D { s with queue := before ++ behind } := by
  have hmem {r : Nat} : r ∈ s.queue ↔ r = p ∨ r ∈ before ++ behind := by
    rw [hq]
    simp only [List.mem_append, List.mem_cons]
    tauto
  refine ⟨hs.points_size, hs.edges_size, hs.first, hs.last, hs.entry, hs.clean, hs.carried_le,
    hs.carried, hs.begun_le,
    hs.begun, hs.traced, hs.merged_le, fun {r} h0 hr hb => ?_,
    fun hr => hs.queued (hmem.mpr (.inr hr)), hs.least⟩
  rcases hs.merged h0 hr hb with heq | hin
  · exact .inl heq
  · rcases hmem.mp hin with rfl | hin
    · exact .inl hp
    · exact .inr hin

section

variable (h : a.Plain root)
include h

/-- What the equations give a place is not above a solution. -/
theorem due_le (hs : Invariant a v initial D s) (hq : q < a.graph.order.length)
    (hdue : Due a v initial s q σ) {S : Statuses} (hS : a.Solves v initial S) : σ ≤ S.point q := by
  have hle := hs.least hS
  rcases Nat.eq_zero_or_pos q with rfl | h0
  · rw [hdue.entry rfl, hS.entry]
  · by_cases hb : ∃ b, a.Opens q b
    · obtain ⟨b, hb⟩ := hb
      obtain ⟨p, hp, hm⟩ := hdue.begun h0 hb
      obtain ⟨τ, hm', hστ⟩ := begun_mono (hle.1 p) hm
      rw [hS.begun h0 hq hb ⟨p, hp, hm'⟩]
      exact hστ
    · have hb := not_exists.mp hb
      rw [hdue.merged h0 hb, hS.merged h0 hq hb]
      exact Statuses.incoming_mono (fun e _ => hle.2 e) fun e he =>
        ⟨hs.clean e, hS.clean_edge h (h.lt_of_incoming he)⟩

theorem eq_of_due (hq : q < a.graph.order.length) (hdue : Due a v initial s q σ)
    (hp : p < a.graph.order.length) (hb : a.Opens q b)
    (hm : (b, τ) ∈ (a.transfer v (a.pointAt p) (s.statuses.point p)).begun) : σ = τ := by
  obtain ⟨q', h0, hq', hb'⟩ := h.opens_of_begun hp hm
  cases h.eq_of_opens hq hq' hb hb'
  obtain ⟨p', hp', hm'⟩ := hdue.begun h0 hb
  cases h.eq_of_begun hp hp' hm hm'
  exact h.eq_of_begun_same hp hm' hm

/-- What a point begins when it rises has not been begun with a higher status before. -/
theorem point_le_of_begun (hs : Invariant a v initial D s) (hp : p < a.graph.order.length)
    (hle : s.statuses.point p ≤ σ) (hq : q < a.graph.order.length) (hb : a.Opens q b)
    (hm : (b, τ) ∈ (a.transfer v (a.pointAt p) σ).begun) : s.statuses.point q ≤ τ := by
  by_cases hun : s.statuses.point q = .unreachable
  · rw [hun]
    exact Status.unreachable_le
  · obtain ⟨q', h0, hq', hb'⟩ := h.opens_of_begun hp hm
    cases h.eq_of_opens hq hq' hb hb'
    obtain ⟨τ', p', hp', hm'⟩ := hs.traced h0 hq hb hun
    cases h.eq_of_begun hp hp' hm hm'
    obtain ⟨τ'', hm'', hττ⟩ := begun_mono hle hm'
    cases h.eq_of_begun_same hp hm hm''
    exact (hs.begun_le hp hq hb hm').trans hττ

theorem setPoint (hs : Invariant a v initial D s) (hq : q < a.graph.order.length)
    (hle : s.statuses.point q ≤ σ) (hdue : Due a v initial s q σ) :
    Invariant a v initial (fun r => D r ∨ r = q) (s.withPoint q σ) := by
  have hpoint (r : Nat) : (s.withPoint q σ).statuses.point r =
    if r = q then σ else s.statuses.point r :=
    State.point_withPoint (hs.points_size ▸ hq)
  have hself : (s.withPoint q σ).statuses.point q = σ := by rw [hpoint, if_pos rfl]
  have hother {r : Nat} (hr : r ≠ q) : (s.withPoint q σ).statuses.point r = s.statuses.point r := by
    rw [hpoint, if_neg hr]
  have hrise (r : Nat) : s.statuses.point r ≤ (s.withPoint q σ).statuses.point r := by
    by_cases hr : r = q
    · rw [hr, hself]
      exact hle
    · rw [hother hr]
  have hbegin {b : NodeId} {τ : Status} (hb : s.statuses.Begin a v b τ) :
      ∃ τ', (s.withPoint q σ).statuses.Begin a v b τ' := by
    obtain ⟨p, hp, hm⟩ := hb
    obtain ⟨τ', hm', -⟩ := begun_mono (hrise p) hm
    exact ⟨τ', p, hp, hm'⟩
  constructor
  case points_size => exact Array.size_setIfInBounds.trans hs.points_size
  case edges_size => exact hs.edges_size
  case first => exact hs.first
  case last => exact hs.last
  case clean => exact hs.clean
  case queued => exact hs.queued
  case entry =>
    by_cases h0 : 0 = q
    · rw [h0, hself, hdue.entry h0.symm]
    · rw [hother h0]
      exact hs.entry
  case carried_le =>
    intro p e hp he
    exact (hs.carried_le hp he).trans (transfer_mono (hrise p) _)
  case carried =>
    intro p e hp he hd
    obtain ⟨hd, hne⟩ := not_or.mp hd
    rw [hother hne]
    exact hs.carried hp he hd
  case begun_le =>
    intro p r b τ hp hr hb hm
    by_cases hne : p = q
    · subst hne
      rw [hself] at hm
      have hrp : r ≠ p := by
        rintro rfl
        exact h.not_opens hp hm hb
      rw [hother hrp]
      exact hs.point_le_of_begun h hp hle hr hb hm
    · rw [hother hne] at hm
      by_cases hrq : r = q
      · subst hrq
        rw [hself, eq_of_due h hq hdue hp hb hm]
      · rw [hother hrq]
        exact hs.begun_le hp hr hb hm
  case begun =>
    intro p r b τ hp hr hb hm hd
    obtain ⟨hd, hne⟩ := not_or.mp hd
    rw [hother hne] at hm
    by_cases hrq : r = q
    · subst hrq
      rw [hself, eq_of_due h hq hdue hp hb hm]
    · rw [hother hrq]
      exact hs.begun hp hr hb hm hd
  case traced =>
    intro r b h0 hr hb hne
    by_cases hrq : r = q
    · subst hrq
      exact hbegin (hdue.begun h0 hb)
    · rw [hother hrq] at hne
      obtain ⟨τ, hτ⟩ := hs.traced h0 hr hb hne
      exact hbegin hτ
  case merged_le =>
    intro p h0 hp hb
    by_cases hpq : p = q
    · subst hpq
      rw [hself]
      exact le_of_eq (hdue.merged h0 hb)
    · rw [hother hpq]
      exact hs.merged_le h0 hp hb
  case merged =>
    intro p h0 hp hb
    by_cases hpq : p = q
    · subst hpq
      rw [hself]
      exact .inl (hdue.merged h0 hb)
    · rw [hother hpq]
      exact hs.merged h0 hp hb
  case least =>
    intro S hS
    have hleast := hs.least hS
    refine Statuses.le_def.mpr ⟨fun r => ?_, hleast.2⟩
    by_cases hrq : r = q
    · subst hrq
      rw [hself]
      exact hs.due_le h hq hdue hS
    · rw [hother hrq]
      exact hleast.1 r

end

end Invariant

structure State.Raised (s s' : State) (e : EdgeId) (σ : Status) (q : Nat) : Prop where
  points : s'.points = s.points
  edges_size : s'.edges.size = s.edges.size
  edge (e' : EdgeId) : s'.statuses.edge e' = if e' = e then σ else s.statuses.edge e'
  first : s'.first = s.first
  last : s'.last = s.last
  queue : s'.queue = if s.first ≤ q ∧ q ≤ s.last then s.queue ++ [q] else s.queue

namespace State.Raised

variable (hr : s.Raised s' e σ q) (hle : s.statuses.edge e ≤ σ)
include hr

theorem point_eq (r : Nat) : s'.statuses.point r = s.statuses.point r := point_congr hr.points

theorem edge_of_ne {e' : EdgeId} (h : e' ≠ e) : s'.statuses.edge e' = s.statuses.edge e' := by
  rw [hr.edge, if_neg h]

theorem mem_queue {r : Nat} : r ∈ s'.queue ↔ r ∈ s.queue ∨ r = q ∧ s.first ≤ q ∧ q ≤ s.last := by
  rw [hr.queue]
  split <;> simp [*]

theorem begin_iff {τ : Status} : s'.statuses.Begin a v b τ ↔ s.statuses.Begin a v b τ := by
  simp only [Statuses.Begin, hr.point_eq]

include hle

theorem edge_le (e' : EdgeId) : s.statuses.edge e' ≤ s'.statuses.edge e' := by
  rw [hr.edge]
  split
  · rename_i hee
    exact hee ▸ hle
  · exact le_refl _

/-- The edge has risen for the one place that is queued. -/
theorem work_le (hlt : e < a.graph.edges.size) (hne : s.statuses.edge e ≠ σ) :
    s'.work a ≤ s.work a := by
  have hroom : (s'.statuses.edge e).room < (s.statuses.edge e).room := by
    rw [hr.edge, if_pos rfl]
    exact Status.room_lt hle hne
  have hsum : ∑ e ∈ Finset.range a.graph.edges.size, (s'.statuses.edge e).room <
      ∑ e ∈ Finset.range a.graph.edges.size, (s.statuses.edge e).room := by
    refine Finset.sum_lt_sum (fun e' _ => ?_) ⟨e, Finset.mem_range.mpr hlt, hroom⟩
    by_cases hee : e' = e
    · rw [hee]
      exact Nat.le_of_lt hroom
    · rw [hr.edge_of_ne hee]
  have hlength : s'.queue.length ≤ s.queue.length + 1 := by
    rw [hr.queue]
    split <;> simp
  unfold State.work
  omega

end State.Raised

theorem Drawn.setEdge_cases (h : a.Drawn root) {c : Scope} (hc : c.analysis = a)
    (hsize : s.edges.size = a.graph.edges.size) (hlt : e < a.graph.edges.size) :
    c.setEdge σ s e = s ∧ (s.statuses.edge e = σ.clean ∨ σ.clean = .unreachable) ∨
      s.statuses.edge e ≠ σ.clean ∧ σ.clean ≠ .unreachable ∧
        ∃ q, a.placeOf (a.graph.edge e).target = some q ∧
        s.Raised (c.setEdge σ s e) e σ.clean q := by
  by_cases hsame : s.statuses.edge e = σ.clean ∨ σ.clean = .unreachable
  · exact .inl ⟨if_pos hsame, hsame⟩
  · obtain ⟨q, hplace, -⟩ := h.exists_target hlt
    have hrun : c.setEdge σ s e = { s with
        edges := s.edges.setIfInBounds e σ.clean
        queue := if s.first ≤ q ∧ q ≤ s.last then s.queue ++ [q] else s.queue } := by
      unfold Scope.setEdge
      refine (if_neg hsame).trans ?_
      unfold Scope.enqueue
      rw [hc, hplace]
      dsimp only
      split <;> rfl
    refine .inr ⟨fun heq => hsame (.inl heq), fun heq => hsame (.inr heq), q, hplace, ?_⟩
    rw [hrun]
    refine ⟨rfl, Array.size_setIfInBounds, fun e' => ?_, rfl, rfl, rfl⟩
    simp only [State.statuses, Array.getD_eq_getD_getElem?, Array.getElem?_setIfInBounds]
    by_cases hee : e' = e
    · simp [hee, hsize ▸ hlt]
    · simp [hee, Ne.symm hee]

namespace Invariant

section

variable (h : a.Plain root) {c : Scope} (hc : c.analysis = a)
include h

theorem raised (hs : Invariant a v initial D s) (hr : s.Raised s' e σ q)
    (hp : p < a.graph.order.length) (hd : D p) (he : e ∈ (a.pointAt p).outgoing)
    (hσ : (a.transfer v (a.pointAt p) (s.statuses.point p)).value (a.graph.edge e) = σ)
    (hplace : a.placeOf (a.graph.edge e).target = some q) : Invariant a v initial D s' := by
  have hpoint := hr.point_eq
  have hle : s.statuses.edge e ≤ σ := hσ ▸ hs.carried_le hp he
  obtain ⟨q', hplace', h0, hq, hb, hin⟩ := h.exists_target (h.lt_of_outgoing he)
  cases hplace.symm.trans hplace'
  have hclean (e' : EdgeId) : (s'.statuses.edge e').clean = s'.statuses.edge e' := by
    rw [hr.edge]
    split
    · rw [← hσ, clean_transfer]
    · exact hs.clean e'
  constructor
  case points_size => exact (congrArg Array.size hr.points).trans hs.points_size
  case edges_size => exact hr.edges_size.trans hs.edges_size
  case first => exact hr.first.trans hs.first
  case last => exact hr.last.trans hs.last
  case clean => exact hclean
  case entry =>
    rw [hpoint]
    exact hs.entry
  case carried_le =>
    intro r e' hr' he'
    rw [hpoint]
    by_cases hee : e' = e
    · subst hee
      cases h.eq_of_outgoing hr' hp he' he
      rw [hr.edge, if_pos rfl, hσ]
    · rw [hr.edge_of_ne hee]
      exact hs.carried_le hr' he'
  case carried =>
    intro r e' hr' he' hdr
    have hee : e' ≠ e := by
      rintro rfl
      cases h.eq_of_outgoing hr' hp he' he
      exact hdr hd
    rw [hpoint, hr.edge_of_ne hee]
    exact hs.carried hr' he' hdr
  case begun_le =>
    intro r q b τ hr' hq hb hm
    rw [hpoint] at hm ⊢
    exact hs.begun_le hr' hq hb hm
  case begun =>
    intro r q b τ hr' hq hb hm hdr
    rw [hpoint] at hm ⊢
    exact hs.begun hr' hq hb hm hdr
  case traced =>
    intro r b h0 hr' hb hne
    rw [hpoint] at hne
    obtain ⟨τ, hτ⟩ := hs.traced h0 hr' hb hne
    exact ⟨τ, hr.begin_iff.mpr hτ⟩
  case merged_le =>
    intro r h0 hr' hb
    rw [hpoint]
    refine (hs.merged_le h0 hr' hb).trans ?_
    exact Statuses.incoming_mono (fun e' _ => hr.edge_le hle e') fun e' _ =>
      ⟨hs.clean e', hclean e'⟩
  case merged =>
    intro r h0 hr' hb
    by_cases hrq : r = q
    · refine .inr (hr.mem_queue.mpr (.inr ⟨hrq, ?_⟩))
      rw [hs.first, hs.last]
      omega
    · -- no other place has the edge among its incoming ones
      have hincoming : s'.statuses.incoming (a.pointAt r) = s.statuses.incoming (a.pointAt r) := by
        refine Statuses.incoming_congr fun e' he' => hr.edge_of_ne ?_
        rintro rfl
        exact hrq ((hin r hr').mp he')
      rw [hpoint, hincoming]
      exact (hs.merged h0 hr' hb).imp_right fun hm => hr.mem_queue.mpr (.inl hm)
  case queued =>
    intro r hm
    rcases hr.mem_queue.mp hm with hm | ⟨rfl, -⟩
    · exact hs.queued hm
    · exact ⟨h0, hq, hb⟩
  case least =>
    intro S hS
    have hleast := hs.least hS
    refine Statuses.le_def.mpr ⟨fun r => ?_, fun e' => ?_⟩
    · rw [hpoint]
      exact hleast.1 r
    · by_cases hee : e' = e
      · subst hee
        rw [hr.edge, if_pos rfl, hS.carried hp he, ← hσ]
        exact transfer_mono (hleast.1 p) _
      · rw [hr.edge_of_ne hee]
        exact hleast.2 e'

include hc

theorem setEdge_cases (hs : Invariant a v initial D s) (hlt : e < a.graph.edges.size)
    (hle : s.statuses.edge e ≤ σ) (hclean : σ.clean = σ) :
    c.setEdge σ s e = s ∧ s.statuses.edge e = σ ∨
      s.statuses.edge e ≠ σ ∧ ∃ q, a.placeOf (a.graph.edge e).target = some q ∧
      s.Raised (c.setEdge σ s e) e σ q := by
  have hcases := h.setEdge_cases (σ := σ) hc hs.edges_size hlt
  rw [hclean] at hcases
  refine hcases.imp (fun ⟨hrun, hsame⟩ => ⟨hrun, hsame.elim id ?_⟩) fun ⟨hne, _, hr⟩ => ⟨hne, hr⟩
  rintro rfl
  exact Status.eq_unreachable_of_le hle

theorem setEdge (hs : Invariant a v initial D s) (hp : p < a.graph.order.length) (hd : D p)
    (he : e ∈ (a.pointAt p).outgoing)
    (hσ : (a.transfer v (a.pointAt p) (s.statuses.point p)).value (a.graph.edge e) = σ) :
    Invariant a v initial D (c.setEdge σ s e) ∧ (c.setEdge σ s e).points = s.points ∧
      (c.setEdge σ s e).work a ≤ s.work a ∧
      ∀ e', (c.setEdge σ s e).statuses.edge e' = if e' = e then σ else s.statuses.edge e' := by
  have hclean : σ.clean = σ := hσ ▸ clean_transfer
  have hle : s.statuses.edge e ≤ σ := hσ ▸ hs.carried_le hp he
  have hlt := h.lt_of_outgoing he
  rcases hs.setEdge_cases h hc hlt hle hclean with ⟨hrun, hedge⟩ | ⟨hne, q, hplace, hr⟩
  · rw [hrun]
    refine ⟨hs, rfl, Nat.le_refl _, fun e' => ?_⟩
    split
    · rename_i hee
      rw [hee, hedge]
    · rfl
  · exact ⟨hs.raised h hr hp hd he hσ hplace, hr.points, hr.work_le hle hlt hne, hr.edge⟩

theorem foldl_setEdge (hs : Invariant a v initial D s) (hp : p < a.graph.order.length) (hd : D p)
    (hσ : s.statuses.point p = σ) {l : List EdgeId} (hl : ∀ e ∈ l, e ∈ (a.pointAt p).outgoing)
    {s' : State} (hs' : l.foldl (fun s e =>
      c.setEdge ((a.transfer v (a.pointAt p) σ).value (a.graph.edge e)) s e) s = s') :
    Invariant a v initial D s' ∧ s'.points = s.points ∧ s'.work a ≤ s.work a ∧
      ∀ e, s'.statuses.edge e =
        if e ∈ l then (a.transfer v (a.pointAt p) σ).value (a.graph.edge e)
        else s.statuses.edge e := by
  induction l generalizing s with
  | nil =>
      subst hs'
      exact ⟨hs, rfl, Nat.le_refl _, fun e => by simp⟩
  | cons e l ih =>
      obtain ⟨hinv, hpoints, hwork, hedge⟩ :=
        hs.setEdge h hc hp hd (hl e List.mem_cons_self) (by rw [hσ])
      have hσ' : (c.setEdge ((a.transfer v (a.pointAt p) σ).value (a.graph.edge e))
          s e).statuses.point p = σ :=
        (State.point_congr hpoints).trans hσ
      obtain ⟨hinv', hpoints', hwork', hedge'⟩ :=
        ih hinv hσ' (fun e he => hl e (List.mem_cons_of_mem _ he)) hs'
      refine ⟨hinv', hpoints'.trans hpoints, hwork'.trans hwork, fun e' => ?_⟩
      rw [hedge', hedge]
      by_cases hin : e' ∈ l
      · simp [hin]
      · by_cases hee : e' = e <;> simp [hin, hee]

/-- All edges of a point that is being carried on get what is transferred to them. -/
theorem setEdges (hs : Invariant a v initial D s) (hp : p < a.graph.order.length) (hd : D p)
    (hσ : s.statuses.point p = σ)
    (hs' : c.setEdges (a.pointAt p) (a.transfer v (a.pointAt p) σ).value s = s') :
    Invariant a v initial D s' ∧ s'.points = s.points ∧ s'.work a ≤ s.work a ∧
      ∀ e ∈ (a.pointAt p).outgoing,
      s'.statuses.edge e = (a.transfer v (a.pointAt p) σ).value (a.graph.edge e) := by
  unfold Scope.setEdges at hs'
  rw [hc] at hs'
  obtain ⟨hinv, hpoints, hwork, hedge⟩ := hs.foldl_setEdge h hc hp hd hσ (fun _ he => he) hs'
  refine ⟨hinv, hpoints, hwork, fun e he => ?_⟩
  rw [hedge, if_pos he]

end

end Invariant

end Assignment

end TreeScribe.Flow
