import TreeScribe.Proofs.Flow.Assignment.Turns
import TreeScribe.Proofs.Tree.Edits

namespace TreeScribe.Flow.Assignment

open TreeScribe.Tree

variable {a : Assignment} {v : String} {initial : Status} {s s' : State} {root : NodeId}
  {S : Statuses}

namespace Invariant

theorem clear (hfirst : s.first = 0) (hlast : s.last = a.graph.order.length - 1) :
    Idle a v initial (a.clear s) := by
  have hpoint (p : Nat) : (a.clear s).statuses.point p = .unreachable := point_clear
  have hedge (e : EdgeId) : (a.clear s).statuses.edge e = .unreachable := edge_clear
  have hincoming (p : Nat) : (a.clear s).statuses.incoming (a.pointAt p) = .unreachable := by
    unfold Statuses.incoming
    generalize (a.pointAt p).incoming = l
    induction l with
    | nil => rfl
    | cons e l ih =>
        rw [List.foldl_cons, hedge]
        exact ih
  have hbegun {p : Nat} {b : NodeId} {τ : Status}
      (hm : (b, τ) ∈ (a.transfer v (a.pointAt p) ((a.clear s).statuses.point p)).begun) :
        False := by
    rw [hpoint, transfer_unreachable] at hm
    simp at hm
  constructor
  case points_size => exact Array.size_replicate
  case edges_size => exact Array.size_replicate
  case first => exact hfirst
  case last => exact hlast
  case entry =>
    rw [hpoint]
    exact Status.unreachable_le
  case clean =>
    intro e
    rw [hedge]
    rfl
  case carried_le =>
    intro p e hp he
    rw [hedge]
    exact Status.unreachable_le
  case carried =>
    intro p e hp he hd
    rw [hedge, hpoint, transfer_unreachable]
    rfl
  case begun_le =>
    intro p q b τ hp hq hb hm
    exact (hbegun hm).elim
  case begun =>
    intro p q b τ hp hq hb hm hd
    exact (hbegun hm).elim
  case traced =>
    intro q b h0 hq hb hne
    exact absurd (hpoint q) hne
  case merged_le =>
    intro p h0 hp hb
    rw [hpoint]
    exact Status.unreachable_le
  case merged =>
    intro p h0 hp hb
    exact .inl ((hpoint p).trans (hincoming p).symm)
  case queued =>
    intro p hp
    exact absurd hp List.not_mem_nil
  case least =>
    intro S hS
    refine Statuses.le_def.mpr ⟨fun p => ?_, fun e => ?_⟩
    · rw [hpoint]
      exact Status.unreachable_le
    · rw [hedge]
      exact Status.unreachable_le

/-- When nothing is queued, the statuses are the least solution. -/
theorem isLeast (hs : Idle a v initial s) (hentry : initial ≤ s.statuses.point 0)
    (hq : s.queue = []) : IsLeast {S | a.Solves v initial S} s.statuses := by
  constructor
  · constructor
    case entry => exact le_antisymm hs.entry hentry
    case merged =>
      intro p h0 hp hb
      refine (hs.merged h0 hp hb).resolve_right ?_
      rw [hq]
      exact List.not_mem_nil
    case begun =>
      rintro q b τ - hq hb ⟨p, hp, hm⟩
      exact hs.begun hp hq hb hm not_false
    case not_begun =>
      intro q b h0 hq hb hn
      by_contra hne
      obtain ⟨τ, hτ⟩ := hs.traced h0 hq hb hne
      exact hn τ hτ
    case carried =>
      intro p e hp he
      exact hs.carried hp he not_false
  · intro S hS
    exact hs.least hS

variable (h : a.Plain root)
include h

theorem begin (hfirst : s.first = 0) (hlast : s.last = a.graph.order.length - 1) :
    ∃ s', ((Scope.full a v false).setPoint 0 initial).run (a.clear s) = (.ok (), s') ∧
      Idle a v initial s' ∧
      initial ≤ s'.statuses.point 0 := by
  have hs : Idle a v initial (a.clear s) := clear hfirst hlast
  have h0 := h.idAt_zero.2
  by_cases hsame : (a.clear s).statuses.point 0 = initial
  · exact ⟨_, run_setPoint_of_eq hsame, hs, le_of_eq hsame.symm⟩
  · have hdue : Due a v initial (a.clear s) 0 initial :=
      ⟨fun _ => rfl, fun h0 => absurd h0 (Nat.lt_irrefl 0), fun h0 => absurd h0 (Nat.lt_irrefl 0)⟩
    have hself : ((a.clear s).withPoint 0 initial).statuses.point 0 = initial := by
      rw [State.point_withPoint (hs.points_size ▸ h0), if_pos rfl]
    have hreached : initial ≠ .unreachable := by
      rintro rfl
      exact hsame (Status.eq_unreachable_of_le hs.entry)
    obtain ⟨s', hrun, hinv, -, hrisen⟩ :=
      (hs.setPoint h h0 hs.entry hdue).carry_full h h0 hself hreached
    refine ⟨s', ?_, hinv, hself ▸ hrisen⟩
    rw [run_setPoint_of_ne hsame, Scope.full, analysis_within]
    exact hrun

theorem turn (hs : Idle a v initial s) (ht : (Scope.full a v false).Turn s s') :
    Idle a v initial s' ∧ s'.work a < s.work a ∧ s.statuses.point 0 ≤ s'.statuses.point 0 := by
  obtain ⟨hq, hr⟩ := ht
  obtain ⟨s'', hr', hinv, hwork, hzero⟩ := hs.visit h hq
  cases hr.symm.trans hr'
  exact ⟨hinv, hwork, hzero⟩

theorem runs (hs : Idle a v initial s)
    (ht : Relation.ReflTransGen (Scope.full a v false).Turn s s') :
    Idle a v initial s' ∧ s.statuses.point 0 ≤ s'.statuses.point 0 := by
  induction ht with
  | refl => exact ⟨hs, le_refl _⟩
  | tail _ ht ih =>
      obtain ⟨hinv, -, hzero⟩ := ih.1.turn h ht
      exact ⟨hinv, ih.2.trans hzero⟩

theorem acc_turn (hs : Idle a v initial s) :
    Acc (fun s' s => (Scope.full a v false).Turn s s') s := by
  generalize hn : s.work a = n
  induction n using Nat.strong_induction_on generalizing s with
  | _ n ih =>
      refine ⟨s, fun s' ht => ?_⟩
      obtain ⟨hinv, hwork, -⟩ := hs.turn h ht
      exact ih _ (hn ▸ hwork) hinv rfl

/-- Taking the first place in every turn comes to an end. -/
theorem turns (hs : Idle a v initial s) :
    ∃ s', (Scope.full a v false).turns s = some (.ok (), s') ∧ s'.queue = [] ∧
    Relation.ReflTransGen (Scope.full a v false).Turn s s' := by
  generalize hn : s.work a = n
  induction n using Nat.strong_induction_on generalizing s with
  | _ n ih =>
      cases hq : s.queue with
      | nil =>
          refine ⟨s, ?_, hq, .refl⟩
          rw [Scope.turns, Scope.run_step_nil hq]
      | cons p rest =>
          have hfirst : s.queue = [] ++ p :: rest := hq
          obtain ⟨s₁, hr, hinv, hwork, -⟩ := hs.visit h hfirst
          obtain ⟨s', hturns, hqueue, hruns⟩ := ih _ (hn ▸ hwork) hinv rfl
          refine ⟨s', ?_, hqueue, .head (.take hfirst hr) hruns⟩
          rw [Scope.turns, Scope.run_step_cons hq hr]
          exact hturns

/-- The end of any turns is the same. -/
theorem comesTo (hs : Idle a v initial s) (hentry : initial ≤ s.statuses.point 0)
    (hS : IsLeast {S | a.Solves v initial S} S) : (Scope.full a v false).ComesTo s S := by
  refine ⟨hs.acc_turn h, fun {s'} hruns {before behind p} hq => ?_, fun {s'} hruns hq => ?_⟩
  · obtain ⟨s'', hr, -⟩ := (hs.runs h hruns).1.visit h hq
    exact ⟨s'', hr⟩
  · obtain ⟨hinv, hzero⟩ := hs.runs h hruns
    exact (hinv.isLeast (hentry.trans hzero) hq).unique hS

end Invariant

theorem Plain.analyze_eq (h : a.Plain root) (hfirst : s.first = 0)
    (hbegin : ((Scope.full a v false).setPoint 0 initial).run (a.clear s) = (.ok (), s')) :
    a.analyze s v initial false = (Scope.full a v false).turns s' := by
  have hempty : a.graph.order.isEmpty = false := by
    rw [List.isEmpty_eq_false_iff, ← List.length_pos_iff]
    exact h.idAt_zero.2
  simp only [analyze, hempty, hfirst, hbegin]
  rfl

theorem Plain.run (h : a.Plain root) (v : String) (initial : Status) (hfirst : s.first = 0)
    (hlast : s.last = a.graph.order.length - 1) :
    ∃ s₁ s', ((Scope.full a v false).setPoint 0 initial).run (a.clear s) = (.ok (), s₁) ∧
      Idle a v initial s₁ ∧
      initial ≤ s₁.statuses.point 0 ∧ (Scope.full a v false).turns s₁ = some (.ok (), s') ∧
        a.analyze s v initial false = some (.ok (), s') ∧
        IsLeast {S | a.Solves v initial S} s'.statuses := by
  obtain ⟨s₁, hbegin, hs, hentry⟩ :
    ∃ s₁, ((Scope.full a v false).setPoint 0 initial).run (a.clear s) = (.ok (), s₁) ∧
      Idle a v initial s₁ ∧ initial ≤ s₁.statuses.point 0 := Invariant.begin h hfirst hlast
  obtain ⟨s', hturns, hqueue, hruns⟩ := hs.turns h
  obtain ⟨hinv, hzero⟩ := hs.runs h hruns
  have hleast := hinv.isLeast (hentry.trans hzero) hqueue
  exact ⟨s₁, s', hbegin, hs, hentry, hturns, (h.analyze_eq hfirst hbegin).trans hturns, hleast⟩

/-- Without finally blocks an analysis of the whole range comes to an end, and the statuses it has
then are the least solution of its equations: the entry has the initial status, the entry of a
function the status with which it is begun, every other point what its incoming edges carry, and an
edge what is transferred from its source. The statuses of a condition stand between the assigned and
the potentially assigned one. Taking the queued places in any other order gives the same
statuses. -/
theorem analyze_least (t : Tree) (setting : Setting) (v : String) (initial : Status) (s : State)
    (hcode : t.Code root) (hflat : t.Unnested root)
    (hplain : ∀ i, t.Below root i → t.role i ≠ .finallyBlock)
    (ha : ofStatement t root setting = .ok a) (hfirst : s.first = 0)
    (hlast : s.last = a.graph.order.length - 1) :
    ∃ s₁ s', ((Scope.full a v false).setPoint 0 initial).run (a.clear s) = (.ok (), s₁) ∧
      a.analyze s v initial false = some (.ok (), s') ∧
      IsLeast {S | a.Solves v initial S} s'.statuses ∧
        (Scope.full a v false).ComesTo s₁ s'.statuses := by
  obtain ⟨-, h⟩ := plain_of_statement hcode hflat hplain ha
  obtain ⟨s₁, s', hbegin, hs, hentry, -, hrun, hleast⟩ := h.run v initial hfirst hlast
  exact ⟨s₁, s', hbegin, hrun, hleast, hs.comesTo h hentry hleast⟩

/-- A loop that creates a function, which uses the variable `x`, and assigns `x` behind that. -/
def capturingLoop : Tree :=
  planted
    [.statement .whileLoop, .expression .thisRef, .statement .block, .statement .expression,
      .expression (.anonymousMethod false false), .statement .block, .statement .expression,
      .expression .identifier,
      .identifier "x" false, .statement .expression, .expression (.assignment .assign),
      .expression .identifier,
      .identifier "x" false, .expression .nullRef]
    [(1, .condition, 2), (1, .embeddedStatement, 3), (3, .statement, 4), (4, .expression, 5),
      (5, .body, 6),
      (6, .statement, 7), (7, .expression, 8), (8, .identifier, 9), (3, .statement, 10),
      (10, .expression, 11),
      (11, .left, 12), (12, .identifier, 13), (11, .right, 14)]

theorem code_capturingLoop : capturingLoop.Code 1 ∧ capturingLoop.Unnested 1 ∧
    ∀ i, capturingLoop.Below 1 i → capturingLoop.role i ≠ .finallyBlock :=
  code_of_forall (wellFormed_planted _ _) (by decide +kernel) (by decide +kernel)

/-- The analysis of the loop and of the function in it comes to an end with the least solution. -/
theorem analyze_least_loop : ∃ a s', ofStatement capturingLoop 1 ⟨.literals, false, false⟩ = .ok a ∧
    a.analyze a.start "x" .potential false = some (.ok (), s') ∧
    IsLeast {S | a.Solves "x" .potential S} s'.statuses := by
  have hok : (ofStatement capturingLoop 1 ⟨.literals, false, false⟩).isOk = true := by
    decide +kernel
  obtain ⟨hcode, hflat, hplain⟩ := code_capturingLoop
  cases ha : ofStatement capturingLoop 1 ⟨.literals, false, false⟩ with
  | error x =>
      rw [ha] at hok
      cases hok
  | ok a =>
      obtain ⟨_, s', -, hrun, hleast, -⟩ :=
        analyze_least capturingLoop _ "x" .potential a.start hcode hflat hplain ha rfl rfl
      exact ⟨a, s', rfl, hrun, hleast⟩

end TreeScribe.Flow.Assignment
