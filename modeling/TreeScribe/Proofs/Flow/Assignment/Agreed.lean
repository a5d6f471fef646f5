import TreeScribe.Proofs.Flow.Assignment.Least
import TreeScribe.Proofs.Flow.Assignment.Owned
import TreeScribe.Proofs.Flow.Assignment.Upheld

namespace TreeScribe.Flow.Assignment

open TreeScribe.Tree

def evaluatedWith (a : Assignment) (s : State) (i : NodeId) : Except FlowError Status :=
  match a.tree.kind i with
  | .statement k => if k.isLoop then a.beforeCondition s i else a.before s i
  | _ => a.before s i

def Agrees (a : Assignment) (S : Statuses) (j : NodeId) : Prop :=
  ∃ p < a.graph.order.length, a.Evaluated p j ∧ S.point p ≠ .assigned ∧ S.point p ≠ .unreachable

variable {a : Assignment} {v : String} {initial : Status} {s s' : State} {S : Statuses}
  {root i j : NodeId} {p q : Nat}
  {σ : Status} {x : Point}

theorem Status.ne_of_le {σ τ : Status} (h : σ ≤ τ) (hσ : σ ≠ .assigned)
    (hreached : σ ≠ .unreachable) : τ ≠ .assigned ∧ τ ≠ .unreachable := by
  revert h hσ hreached
  cases σ <;> cases τ <;> decide

namespace Plain

variable (h : a.Plain root)
include h

theorem upholds_agrees (hS : a.Solves v initial S) : Upholds a v false
    (fun q σ => q < a.graph.order.length ∧ σ ≤ S.point q ∧ σ ≠ .unreachable)
    a.Evaluated a.Created True
    (fun s => ∀ j ∈ s.uses, a.Agrees S j) where
  region hR := region_evaluated h.laid hR.1 h.code
  operand hR hev hc hr := evaluated_of_operand h.laid hR.1 h.code hev hc hr
  cancel _ := trivial
  tick hs := hs
  edge _ _ hs := by
    rwa [Scope.uses_setEdge]
  note := by
    rintro q σ j s ⟨hq, hle, hreached⟩ hσ hj hs k hk
    rcases List.mem_cons.mp hk with rfl | hk
    · exact ⟨q, hq, hj, Status.ne_of_le hle hσ hreached⟩
    · exact hs k hk
  unknown _ _ _ _ := trivial
  set := by
    rintro q σ s ⟨hq, hle, hreached⟩ hs
    refine .inl ⟨hs, fun b τ q' _ hm hb => ?_⟩
    rw [← transfer_of_ne hreached] at hm
    obtain ⟨hq', henters⟩ := of_lastPlace? hb
    obtain ⟨-, -, hbody⟩ := h.depth_of_begun hq hm
    obtain ⟨τ', hm', hττ⟩ := begun_mono hle hm
    have h0 : 0 < q' := by
      obtain ⟨q'', h0, hq'', hopens⟩ := h.opens_of_begun hq hm
      rwa [h.eq_of_opens hq' hq'' ⟨hbody, henters⟩ hopens]
    rw [hS.begun h0 hq' ⟨hbody, henters⟩ ⟨q, hq, hm'⟩]
    exact ⟨hq', hττ, begun_ne_unreachable hm⟩

theorem visit_agrees (hS : a.Solves v initial S)
    (hs : Idle a v initial s ∧ ∀ j ∈ s.uses, a.Agrees S j) {rest : List Nat}
    (hq : s.queue = q :: rest)
    (hr : ((Scope.full a v false).visit q).run { s with queue := rest } = (.ok (), s')) :
    Idle a v initial s' ∧ ∀ j ∈ s'.uses, a.Agrees S j := by
  obtain ⟨hs, huses⟩ := hs
  have hfirst : s.queue = [] ++ q :: rest := hq
  obtain ⟨s'', hr', hs', -⟩ := hs.visit h hfirst
  cases hr'.symm.trans hr
  obtain ⟨h0, hlt, hb⟩ := hs.queued (p := q) (by simp [hq])
  have hdue : Due a v initial s q (s.statuses.incoming (a.pointAt q)) :=
    ⟨fun h0' => absurd h0' (Nat.ne_of_gt h0), fun _ hb' => absurd hb' (hb _), fun _ _ => rfl⟩
  have hvisit := (h.upholds_agrees hS).visit (q := q) (s := { s with queue := rest })
    h.code.wellFormed huses fun hne => by
    refine ⟨hlt, hs.due_le h hlt hdue hS, fun hun => hne ?_⟩
    have hle := hs.merged_le h0 hlt hb
    exact hun.symm ▸ Status.eq_unreachable_of_le (hun ▸ hle)
  rw [hr] at hvisit
  exact ⟨hs', hvisit⟩

/-- What agrees with the statuses in which an analysis ends belongs to a statement that has been
evaluated before the variable was assigned. -/
theorem evaluatedWith_of_agrees (hj : a.Agrees s.statuses j)
    (hi : (a.tree.kind i).isStatement = true) (hown : a.tree.Own i j) :
    ∃ σ, a.evaluatedWith s i = .ok σ ∧ σ ≠ .assigned ∧ σ ≠ .unreachable := by
  obtain ⟨p, hp, ⟨hev, hown'⟩, hσ⟩ := hj
  have hnext := h.next_isStatement hp (marks_of_evaluating hev)
  cases hown.unique hown' hi hnext
  refine ⟨_, ?_, hσ⟩
  obtain ⟨k, hk⟩ : ∃ k, a.tree.kind (a.pointAt p).next = .statement k := by
    cases hk : a.tree.kind (a.pointAt p).next <;> simp_all [Kind.isStatement]
  unfold evaluatedWith
  rw [hk]
  dsimp only
  rcases hev with hcondition | ⟨hentered, hl⟩
  · obtain ⟨k', hk', hl⟩ := h.laid.stated (h.idAt_lt hp) (test_mem_marks hcondition)
    cases hk.symm.trans hk'
    rw [if_pos hl, beforeCondition, h.conditionOf_eq hp (tests_iff.mpr (test_mem_marks hcondition))]
    rfl
  · rw [if_neg (by simp [hl k hk]), before,
      h.beginOf_eq hp (enters_iff.mpr (enter_mem_marks hentered))]
    rfl

end Plain

/-- Without finally blocks, uses agree with the final statuses: an analysis of the whole range comes
to an end, and what it reports then and belongs to a statement, outside of the statements and
functions in it, is evaluated with a status that is reached and in which the variable need not be
assigned. For a loop this is the status before its condition, and else the one before the
statement. -/
theorem unassignedUses_agree (t : Tree) (setting : Setting) (v : String) (initial : Status)
    (s : State) (hcode : t.Code root) (hflat : t.Unnested root)
    (hplain : ∀ i, t.Below root i → t.role i ≠ .finallyBlock)
    (ha : ofStatement t root setting = .ok a) (hfirst : s.first = 0)
    (hlast : s.last = a.graph.order.length - 1) :
    ∃ s', a.analyze s v initial false = some (.ok (), s') ∧ ∀ i j, (t.kind i).isStatement = true →
      t.Own i j →
      j ∈ unassignedUses s' → ∃ σ, a.evaluatedWith s' i = .ok σ ∧ σ ≠ .assigned ∧
      σ ≠ .unreachable := by
  obtain ⟨rfl, h⟩ := plain_of_statement hcode hflat hplain ha
  obtain ⟨s₁, s', hbegin, hs, -, hturns, hrun, hS, -⟩ := h.run v initial hfirst hlast
  have huses : ∀ j ∈ s₁.uses, a.Agrees s'.statuses j := by
    have hset := (h.upholds_agrees hS).setPoint (s := a.clear s) (q := 0) (σ := initial)
      h.code.wellFormed
      (fun hne => ?_) (Nat.le_succ_of_le (Nat.le_add_right _ _))
        (fun j hj => absurd hj List.not_mem_nil)
    · rw [← Scope.full, hbegin] at hset
      exact hset
    · refine ⟨h.idAt_zero.2, hS.entry ▸ le_refl _, fun hun => hne ?_⟩
      have hcleared : (a.clear s).statuses.point 0 ≤ initial :=
        (Invariant.clear hfirst hlast : Idle a v initial _).entry
      exact hun.symm ▸ Status.eq_unreachable_of_le (hun ▸ hcleared)
  have hend :
      Ends True (fun _ s'' => (Idle a v initial s'' ∧ ∀ j ∈ s''.uses, a.Agrees s'.statuses j) ∧
      s''.queue = [])
        (.ok (), s') :=
    turns_keep (fun s q rest hs hq => .of_ok fun _ _ hr => h.visit_agrees hS hs hq hr)
      ⟨hs, huses⟩ hturns
  refine ⟨s', hrun, fun i j hi hown hj => ?_⟩
  exact h.evaluatedWith_of_agrees (hend.1.2 j (List.mem_reverse.mp hj)) hi hown

end TreeScribe.Flow.Assignment
