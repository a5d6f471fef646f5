import TreeScribe.Proofs.Flow.Assignment.Turns

namespace TreeScribe.Flow.Assignment

open TreeScribe.Tree

def Joined (a : Assignment) (e : EdgeId) : Prop :=
  e < a.graph.edges.size ∨ ∃ p, e ∈ (a.pointAt p).outgoing

def Passes (a : Assignment) (v : String) (R : Nat → Status → Prop) (B : NodeId → Prop) (p : Nat)
    (σ : Status) : Prop :=
  ∀ b τ q, B b → (b, τ) ∈ ((View.full a v).carry (a.pointAt p) σ).begun →
    a.beginOf b = some q → R q τ

def BegunKeep (a : Assignment) (v : String) (cancelled : Bool) (B : NodeId → Prop) (F : Prop)
    (K : State → Prop) (p : Nat) (σ : Status) : Prop :=
  ∀ b τ q depth s, B b → (b, τ) ∈ ((View.full a v).carry (a.pointAt p) σ).begun →
    a.beginOf b = some q →
    a.tree.depth (a.pointAt p).next < a.tree.depth b → (a.tree.kind b).isStatement = true →
    a.tree.size ≤ depth + a.tree.depth b → K s →
    Ends F (fun _ s' => K s') (((Scope.within a v cancelled depth).setPoint q τ).run s)

/-- `K` is kept by every step of an analysis in which points get statuses for which `R` holds, and
`F` holds if it fails. A point evaluates nodes for which `E` holds, and begins functions with bodies
for which `B` holds. A step that gives a status to a point may also be looked at as a whole. -/
structure Upholds (a : Assignment) (v : String) (cancelled : Bool) (R : Nat → Status → Prop)
    (E B : Nat → NodeId → Prop) (F : Prop) (K : State → Prop) : Prop where
  region {q : Nat} {σ : Status} (hR : R q σ) : Region a.tree (E q) (B q)
  operand {q : Nat} {σ : Status} {c : NodeId} (hR : R q σ) (hev : (a.pointAt q).Evaluating a.tree)
    (hc : a.tree.parent c = some (a.pointAt q).next)
    (hr : holdsOperand (a.tree.role c) = true ∨ (a.tree.kind c).isStatement = false) : E q c
  cancel (hc : cancelled = true) : F
  tick {s : State} {poll : Poll} (h : K s) : K { s with poll }
  edge {c : Scope} {σ : Status} {s : State} {e : EdgeId} (hc : c.analysis = a) (he : a.Joined e)
    (h : K s) : K (c.setEdge σ s e)
  note {q : Nat} {σ : Status} {j : NodeId} {s : State} (hR : R q σ) (hσ : σ ≠ .assigned)
    (hj : E q j) (h : K s) : K { s with uses := j :: s.uses }
  unknown {q : Nat} {σ τ : Status} {b : NodeId} (hR : R q σ) (hb : B q b)
    (hm : (b, τ) ∈ ((View.full a v).carry (a.pointAt q) σ).begun) (hq : a.beginOf b = none) : F
  set {q : Nat} {σ : Status} {s : State} (hR : R q σ) (h : K s) :
    (K (s.withPoint q σ) ∧ a.Passes v R (B q) q σ) ∨
      ∀ depth, a.tree.size ≤ depth + a.tree.depth (a.pointAt q).next + 1 →
        Ends F (fun _ s' => K s')
        (((Scope.within a v cancelled depth).carry (a.pointAt q) σ).run (s.withPoint q σ))

variable {a : Assignment} {v : String} {cancelled : Bool} {R : Nat → Status → Prop}
  {E B : Nat → NodeId → Prop}
  {F : Prop} {K : State → Prop} {s s' : State} {q depth : Nat} {b : NodeId} {σ : Status} {x : Point}

theorem next_of_beginOf (h : a.beginOf b = some q) : (a.pointAt q).next = b :=
  (of_enters (of_lastPlace? h).2).2

theorem Scope.setEdge_eq {c : Scope} {e : EdgeId} :
    ∃ edges queue, c.setEdge σ s e = { s with edges, queue } ∧
    ∀ q ∈ queue, q ∈ s.queue ∨ s.first ≤ q ∧ q ≤ s.last := by
  unfold setEdge enqueue
  dsimp only
  split
  · exact ⟨_, _, rfl, fun _ => .inl⟩
  · split
    · split
      · rename_i hq
        refine ⟨_, _, rfl, fun q hm => (List.mem_append.mp hm).imp_right fun hm => ?_⟩
        cases List.mem_singleton.mp hm
        exact hq
      · exact ⟨_, _, rfl, fun _ => .inl⟩
    · exact ⟨_, _, rfl, fun _ => .inl⟩

theorem Scope.uses_setEdge {c : Scope} {e : EdgeId} : (c.setEdge σ s e).uses = s.uses := by
  obtain ⟨_, _, hs, -⟩ := setEdge_eq (c := c) (σ := σ) (s := s) (e := e)
  rw [hs]

theorem Scope.point_setEdge {c : Scope} {e : EdgeId} :
    (c.setEdge σ s e).statuses.point q = s.statuses.point q := by
  obtain ⟨_, _, hs, -⟩ := setEdge_eq (c := c) (σ := σ) (s := s) (e := e)
  rw [hs]
  rfl

theorem Ends.of_ok {α : Type} {P : α → State → Prop} {o : Except FlowError α × State}
    (h : ∀ r s', o = (.ok r, s') → P r s') : Ends True P o := by
  obtain ⟨e | r, s'⟩ := o
  · trivial
  · exact h r s' rfl

section

variable {N B : NodeId → Prop} {i : NodeId}

theorem Region.all {t : Tree} : Region t (fun _ => True) fun _ => True :=
  ⟨fun _ _ _ => trivial, fun _ _ _ => trivial⟩

theorem Region.deeper (hw : a.tree.WellFormed) (h : Region a.tree N B) :
    Region a.tree (fun j => N j ∧ a.tree.depth i < a.tree.depth j) fun b =>
      B b ∧ a.tree.depth i < a.tree.depth b ∧ (a.tree.kind b).isStatement = true where
  operand hj hc hr := by
    have := hw.depth_of_parent hc
    exact ⟨h.operand hj.1 hc hr, by omega⟩
  body hj hf hs := by
    have := hw.depth_of_parent (hw.parent_of_body rfl hs).1
    exact ⟨h.body hj.1 hf hs, by omega, hs⟩

/-- A status is carried on as an account says. The functions that are begun are deeper in the
tree. -/
theorem carry_of_account (hw : a.tree.WellFormed) (hregion : Region a.tree N B)
    (hx : x.Evaluating a.tree → ∀ c, a.tree.parent c = some x.next →
      holdsOperand (a.tree.role c) = true ∨ (a.tree.kind c).isStatement = false → N c)
    (hd : a.tree.size ≤ depth + a.tree.depth x.next + 1) (A : Account a v cancelled)
    (hN : ∀ j, σ ≠ .assigned → N j → A.notable j)
    (hB : ∀ b, B b → a.tree.depth x.next < a.tree.depth b → (a.tree.kind b).isStatement = true →
      A.startable b)
    (hA : A.ahead ((View.full a v).carry x σ).begun s) :
    Ends A.mayFail (fun _ s' => ∃ s₁, A.ahead [] s₁ ∧
        s' = (Scope.within a v cancelled depth).setEdges x
        ((View.full a v).carry x σ).value ((Scope.within a v cancelled depth).finished x σ s₁))
      (((Scope.within a v cancelled depth).carry x σ).run s) := by
  refine follows_carry hw (hregion.deeper hw) (fun hev c hc hr => ⟨hx hev c hc hr, ?_⟩) hd A
    (fun j hσ hj => hN j hσ hj.1) (fun b hb => hB b hb.1 hb.2.1 hb.2.2) ?_
  · have := hw.depth_of_parent hc
    omega
  · rwa [List.append_nil]

end

theorem Ends.visit {P : Unit → State → Prop} (hcancel : cancelled = true → F)
    (h : ∀ poll,
      Ends F P
      (((Scope.full a v cancelled).setPoint q (s.statuses.incoming (a.pointAt q))).run
      { s with poll })) :
    Ends F P (((Scope.full a v cancelled).visit q).run s) := by
  unfold Scope.visit
  refine Ends.bind (P := fun _ s' => ∃ poll, s' = { s with poll }) ?_ ?_
  · rw [run_tick_eq]
    split
    · rename_i hlook
      refine hcancel ?_
      rw [Scope.full, Scope.within_eq] at hlook
      exact (Bool.and_eq_true_iff.mp hlook).2
    · exact ⟨_, rfl⟩
  · rintro _ s' ⟨poll, rfl⟩
    rw [Scope.full, analysis_within]
    exact h poll

theorem withPoint_of_eq (h : s.statuses.point q = σ) : s.withPoint q σ = s := by
  have hpoints : s.points.setIfInBounds q σ = s.points := by
    refine Array.ext (by simp) fun n hn hn' => ?_
    rw [Array.getElem_setIfInBounds]
    split
    · rename_i heq
      subst heq
      rw [← h]
      change s.points.getD q .unreachable = _
      rw [Array.getD_eq_getD_getElem?, Array.getElem?_eq_getElem hn', Option.getD_some]
    · rfl
  rw [State.withPoint, hpoints]

namespace Upholds

section

variable (hK : Upholds a v cancelled R E B F K)
include hK

theorem setEdges {c : Scope} (hc : c.analysis = a) {status : Edge → Status} (h : K s) :
    K (c.setEdges (a.pointAt q) status s) := by
  have hjoined : ∀ e ∈ (a.pointAt q).outgoing, a.Joined e := fun e he => .inr ⟨q, he⟩
  unfold Scope.setEdges
  generalize (a.pointAt q).outgoing = l at hjoined
  induction l generalizing s with
  | nil => exact h
  | cons e l ih =>
      exact ih (hK.edge hc (hjoined e List.mem_cons_self) h) fun e he =>
        hjoined e (List.mem_cons_of_mem _ he)

theorem replayFinally {c : Scope} (hc : c.analysis = a) {i : NodeId} (h : K s) :
    K (c.replayFinally i σ s) := by
  have hjoined : ∀ e ∈ c.leavingEdges i, a.Joined e := fun e he => by
    rw [Scope.leavingEdges, hc] at he
    exact .inl (List.mem_range.mp (List.mem_filter.mp he).1)
  unfold Scope.replayFinally
  generalize c.leavingEdges i = l at hjoined
  induction l generalizing s with
  | nil => exact h
  | cons e l ih =>
      refine ih ?_ fun e he => hjoined e (List.mem_cons_of_mem _ he)
      dsimp only
      split
      · exact hK.edge hc (hjoined e List.mem_cons_self) h
      · exact h

theorem finished {c : Scope} (hc : c.analysis = a) (h : K s) : K (c.finished x σ s) := by
  unfold Scope.finished
  split
  · unfold Scope.finish
    split
    · split
      · exact hK.replayFinally hc h
      · exact h
    · exact h
  · exact h
  · exact h
  · exact h

theorem setEdges_finished {status : Edge → Status} (h : K s) :
    K ((Scope.within a v cancelled depth).setEdges (a.pointAt q) status
      ((Scope.within a v cancelled depth).finished (a.pointAt q) σ s)) :=
  hK.setEdges analysis_within (hK.finished analysis_within h)

end

def account (hK : Upholds a v cancelled R E B F K) (hR : R q σ)
    (hbegin : BegunKeep a v cancelled (B q) F K q σ) : Account a v cancelled where
  ahead l s := K s ∧ ∀ x ∈ l, x ∈ ((View.full a v).carry (a.pointAt q) σ).begun
  mayFail := F
  notable j := σ ≠ .assigned ∧ E q j
  startable b := B q b ∧ a.tree.depth (a.pointAt q).next < a.tree.depth b ∧
    (a.tree.kind b).isStatement = true
  cancel := hK.cancel
  tick hs := ⟨hK.tick hs.1, hs.2⟩
  note hj hs := ⟨hK.note hR hj.1 hj.2 hs.1, hs.2⟩
  unknown hb hn hs := hK.unknown hR hb.1 (hs.2 _ List.mem_cons_self) hn
  begin hb hq hd hs :=
    (hbegin _ _ _ _ _ hb.1 (hs.2 _ List.mem_cons_self) hq hb.2.1 hb.2.2 hd hs.1).imp
    fun _ _ h => ⟨h, fun x hx => hs.2 x (List.mem_cons_of_mem _ hx)⟩

variable (hK : Upholds a v cancelled R E B F K) (hw : a.tree.WellFormed)
include hK hw

theorem carry_of_begin (hR : R q σ) (hd : a.tree.size ≤ depth + a.tree.depth (a.pointAt q).next + 1)
    (hbegin : BegunKeep a v cancelled (B q) F K q σ) (h : K s) :
    Ends F (fun _ s' => K s')
      (((Scope.within a v cancelled depth).carry (a.pointAt q) σ).run s) := by
  refine (carry_of_account hw (hK.region hR) (fun hev c => hK.operand hR hev)
    hd (hK.account hR hbegin)
    (fun j hσ hj => ⟨hσ, hj⟩) (fun b hb hdeep hs => ⟨hb, hdeep, hs⟩) ⟨h, fun _ => id⟩).imp ?_
  rintro _ s' ⟨s₁, hs₁, rfl⟩
  exact hK.setEdges_finished hs₁.1

/-- Giving a point a status keeps what is upheld. -/
theorem setPoint (hR : s.statuses.point q ≠ σ → R q σ)
    (hd : a.tree.size ≤ depth + a.tree.depth (a.pointAt q).next + 1) (h : K s) :
    Ends F (fun _ s' => K s') (((Scope.within a v cancelled depth).setPoint q σ).run s) := by
  -- what a point begins is deeper in the tree
  generalize hbound : a.tree.size - a.tree.depth (a.pointAt q).next = bound
  induction bound using Nat.strong_induction_on generalizing q σ s depth with
  | _ bound ih =>
      by_cases hsame : s.statuses.point q = σ
      · rw [run_setPoint_of_eq hsame]
        exact h
      have hR := hR hsame
      rw [run_setPoint_of_ne hsame, analysis_within]
      rcases hK.set (s := s) hR h with ⟨hset, hpass⟩ | hset
      · refine hK.carry_of_begin hw hR hd (fun b τ q' depth s hb hm hq hdeep hs hd h => ?_) hset
        have hnext := next_of_beginOf hq
        have hlt := hw.depth_lt (lt_size_of_isStatement hs)
        rw [← hnext] at hdeep hd hlt
        exact ih _ (by omega) (fun _ => hpass b τ q' hb hm hq) (by omega) h rfl
      · exact hset depth hd

theorem carry (hR : R q σ) (hpass : a.Passes v R (B q) q σ)
    (hd : a.tree.size ≤ depth + a.tree.depth (a.pointAt q).next + 1) (h : K s) :
    Ends F (fun _ s' => K s')
      (((Scope.within a v cancelled depth).carry (a.pointAt q) σ).run s) := by
  refine hK.carry_of_begin hw hR hd (fun b τ q' depth s hb hm hq _ _ hd h => ?_) h
  rw [← next_of_beginOf hq] at hd
  exact hK.setPoint hw (fun _ => hpass b τ q' hb hm hq) (Nat.le_succ_of_le hd) h

theorem setPoint_of_withPoint (hR : R q σ) (hpass : a.Passes v R (B q) q σ)
    (hd : a.tree.size ≤ depth + a.tree.depth (a.pointAt q).next + 1) (h : K (s.withPoint q σ)) :
    Ends F (fun _ s' => K s') (((Scope.within a v cancelled depth).setPoint q σ).run s) := by
  by_cases hsame : s.statuses.point q = σ
  · rw [run_setPoint_of_eq hsame]
    exact withPoint_of_eq hsame ▸ h
  · rw [run_setPoint_of_ne hsame, analysis_within]
    exact hK.carry hw hR hpass hd h

/-- A turn with a place keeps what is upheld, if what its incoming edges carry may be given to
it. -/
theorem visit (h : K s)
    (hR : s.statuses.point q ≠ s.statuses.incoming (a.pointAt q) →
      R q (s.statuses.incoming (a.pointAt q))) :
    Ends F (fun _ s' => K s') (((Scope.full a v cancelled).visit q).run s) :=
  Ends.visit hK.cancel fun _ => hK.setPoint hw hR (Nat.le_succ_of_le (Nat.le_add_right _ _))
    (hK.tick h)

end Upholds

theorem turns_keep {c : Scope} {o : Except FlowError Unit × State}
    (hvisit : ∀ s q rest, K s → s.queue = q :: rest →
      Ends F (fun _ s' => K s') ((c.visit q).run { s with queue := rest }))
    (h : K s) (ht : c.turns s = some o) : Ends F (fun _ s' => K s' ∧ s'.queue = []) o := by
  refine Scope.turns.partial_correctness c
    (fun s o => K s → Ends F (fun _ s' => K s' ∧ s'.queue = []) o) ?_ s _ ht h
  intro turns ih s o ho h
  cases hq : s.queue with
  | nil =>
      rw [Scope.run_step_nil hq] at ho
      cases ho
      exact ⟨h, hq⟩
  | cons q rest =>
      have hvisit := hvisit s q rest h hq
      rw [Scope.run_step_eq hq] at ho
      cases hv : (c.visit q).run { s with queue := rest } with
      | mk r s₁ =>
          rw [hv] at hvisit
          cases r with
          | ok u =>
              rw [run_bind_of_ok hv] at ho
              exact ih s₁ _ ho hvisit
          | error x =>
              rw [run_bind_of_error hv] at ho
              cases ho
              exact hvisit

theorem analyze_keep {initial : Status} {o : Except FlowError Unit × State}
    (hempty : a.graph.order = [] → K (a.clear s)) (hset : Ends F (fun _ s' => K s')
      (((Scope.full a v cancelled).setPoint s.first initial).run (a.clear s)))
    (hvisit : ∀ s q rest, K s → s.queue = q :: rest →
      Ends F (fun _ s' => K s') (((Scope.full a v cancelled).visit q).run { s with queue := rest }))
    (hrun : a.analyze s v initial cancelled = some o) :
    Ends F (fun _ s' => K s' ∧ s'.queue = []) o := by
  unfold Assignment.analyze at hrun
  dsimp only at hrun
  split at hrun
  · rename_i hnil
    cases hrun
    exact ⟨hempty (List.isEmpty_iff.mp hnil), rfl⟩
  · split at hrun
    · rename_i s₁ hs₁
      rw [hs₁] at hset
      exact turns_keep hvisit hset hrun
    · rename_i x s₁ hs₁
      rw [hs₁] at hset
      cases hrun
      exact hset

/-- What is upheld holds at the end of an analysis. -/
theorem Upholds.analyze (hK : Upholds a v cancelled R E B F K) (hw : a.tree.WellFormed)
    (htake : ∀ s q rest, K s → s.queue = q :: rest → K { s with queue := rest } ∧
      (s.statuses.point q ≠ s.statuses.incoming (a.pointAt q) →
        R q (s.statuses.incoming (a.pointAt q))))
    {initial : Status} {o : Except FlowError Unit × State}
    (hR : (a.clear s).statuses.point s.first ≠ initial → R s.first initial) (h : K (a.clear s))
    (hrun : a.analyze s v initial cancelled = some o) : Ends F (fun _ s' => K s') o := by
  refine (analyze_keep (fun _ => h) (hK.setPoint hw hR (Nat.le_succ_of_le (Nat.le_add_right _ _)) h)
    (fun s q rest h hq => ?_) hrun).imp fun _ _ => And.left
  obtain ⟨h, hR⟩ := htake s q rest h hq
  exact hK.visit (s := { s with queue := rest }) hw h hR

end TreeScribe.Flow.Assignment
