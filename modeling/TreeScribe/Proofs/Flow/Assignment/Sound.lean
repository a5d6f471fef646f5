import TreeScribe.Flow.Assignment.Run
import TreeScribe.Proofs.Flow.Assignment.Evaluation
import TreeScribe.Proofs.Flow.Assignment.Order
import TreeScribe.Proofs.Tree.Edits

namespace TreeScribe.Flow

namespace Status

/-- The statuses that say whether the variable is assigned, whatever a condition comes to. -/
def Settled (σ : Status) : Prop := σ = .assigned ∨ σ = .potential

/-- What a status says behind an expression with the value `x`, where `b` says whether the variable
is assigned. -/
def Knows (σ : Status) (x : Option Constant) (b : Bool) : Prop :=
  match σ with
  | assigned => b = true
  | whenTrue => x = some (.bool false) ∨ x = some (.bool true) ∧ b = true
  | whenFalse => x = some (.bool true) ∨ x = some (.bool false) ∧ b = true
  | potential | unreachable => True

variable {σ τ : Status} {x : Option Constant} {b b' p : Bool}

theorem settled_clean (h : σ ≠ .unreachable) : σ.clean.Settled := by
  cases σ <;> simp_all [clean, Settled]

theorem settled_ifTrue (h : σ ≠ .unreachable) : σ.ifTrue.Settled := by
  cases σ <;> simp_all [ifTrue, Settled]

theorem settled_ifFalse (h : σ ≠ .unreachable) : σ.ifFalse.Settled := by
  cases σ <;> simp_all [ifFalse, Settled]

theorem Settled.ne_unreachable (h : σ.Settled) : σ ≠ .unreachable := by
  rcases h with rfl | rfl <;> decide

theorem Settled.knows (h : σ.Settled) (hb : σ = .assigned → b = true) : σ.Knows x b := by
  rcases h with rfl | rfl
  · exact hb rfl
  · trivial

theorem Knows.of_clean (h : σ.Knows x b) (hc : σ.clean = .assigned) : b = true := by
  cases σ <;> first | exact h | cases hc

theorem Knows.of_ifTrue (h : σ.Knows (some (.bool true)) b) (hs : σ.ifTrue = .assigned) :
    b = true := by
  cases σ <;> simp_all [Knows, ifTrue]

theorem Knows.of_ifFalse (h : σ.Knows (some (.bool false)) b) (hs : σ.ifFalse = .assigned) :
    b = true := by
  cases σ <;> simp_all [Knows, ifFalse]

theorem Knows.negate (h : σ.Knows (some (.bool p)) b) : σ.negate.Knows (some (.bool !p)) b := by
  cases σ <;> cases p <;> simp_all [Knows, Status.negate]

/-- Only a condition has a status of a condition. -/
theorem Knows.negate_of_not_bool (h : σ.Knows x b) (hx : ∀ p, x ≠ some (.bool p))
    (y : Option Constant) : σ.negate.Knows y b := by
  cases σ <;> simp_all [Knows, Status.negate]

theorem Knows.andThen_of_false (h : σ.Knows (some (.bool false)) b) :
    (σ.andThen τ).Knows (some (.bool false)) b := by
  cases σ <;> cases τ <;> simp_all [Knows, andThen]

theorem Knows.andThen (h : σ.Knows (some (.bool true)) b) (hr : τ.Knows (some (.bool p)) b')
    (hb : b = true → b' = true) : (σ.andThen τ).Knows (some (.bool p)) b' := by
  cases σ <;> cases τ <;> cases p <;> simp_all [Knows, Status.andThen]

theorem Knows.orElse_of_true (h : σ.Knows (some (.bool true)) b) :
    (σ.orElse τ).Knows (some (.bool true)) b := by
  cases σ <;> cases τ <;> simp_all [Knows, orElse]

theorem Knows.orElse (h : σ.Knows (some (.bool false)) b) (hr : τ.Knows (some (.bool p)) b')
    (hb : b = true → b' = true) : (σ.orElse τ).Knows (some (.bool p)) b' := by
  cases σ <;> cases τ <;> cases p <;> simp_all [Knows, Status.orElse]

theorem eq_assigned_of_merge (h : (σ.clean.merge τ.clean) = .assigned) (hs : σ ≠ .unreachable)
    (ht : τ ≠ .unreachable) : σ.clean = .assigned ∧ τ.clean = .assigned := by
  revert h hs ht
  cases σ <;> cases τ <;> decide

theorem settled_merge (hs : σ ≠ .unreachable) (ht : τ ≠ .unreachable) :
    (σ.clean.merge τ.clean).Settled := by
  revert hs ht
  unfold Settled
  cases σ <;> cases τ <;> decide

end Status

namespace Assignment

inductive Excuses (a : Assignment) (cancelled : Bool) : FlowError → Prop
  | cancelled (h : cancelled = true) : Excuses a cancelled .cancelled
  | unknown {b : NodeId} (h : a.beginOf b = none) : Excuses a cancelled (.unknown a.tree b)

def Answers (c : Scope) {α : Type} (m : Run α) (P : α → Prop) : Prop :=
  ∀ s, match (m.run s).1 with
    | .ok r => P r
    | .error x => Excuses c.analysis c.cancelled x

namespace Answers

variable {c : Scope} {α β : Type} {m : Run α} {f : α → Run β} {P : α → Prop} {Q : β → Prop} {r : α}

theorem pure (h : P r) : Answers c (Pure.pure r) P := fun _ => h

theorem fail {x : FlowError} (h : Excuses c.analysis c.cancelled x) :
    Answers c (throw x : Run α) P := fun _ => h

theorem bind (h : Answers c m P) (hf : ∀ r, P r → Answers c (f r) Q) : Answers c (m >>= f) Q := by
  intro s
  have hb : (m >>= f).run s = (fun x : Except FlowError α × State => (ExceptT.bindCont f x.1) x.2)
      (m.run s) := rfl
  have h := h s
  rw [hb]
  generalize m.run s = o at h
  obtain ⟨x | r, s'⟩ := o
  · exact h
  · exact hf r h s'

theorem mono {P' : α → Prop} (h : Answers c m P) (hP : ∀ r, P r → P' r) : Answers c m P' := by
  intro s
  have h := h s
  split
  · rename_i r hr
    rw [hr] at h
    exact hP r h
  · rename_i x hx
    rw [hx] at h
    exact h

theorem of_get : Answers c (get : Run State) fun _ => True := fun _ => trivial

theorem of_set {s : State} : Answers c (set s : Run PUnit) fun _ => True := fun _ => trivial

theorem of_modify {g : State → State} : Answers c (modify g : Run PUnit) fun _ => True :=
  fun _ => trivial

end Answers

structure Sound (t : Tree) (v : String) (M : Meaning) (i : NodeId) (σ R : Status) : Prop where
  reached : R ≠ .unreachable
  assigned (hσ : σ = .assigned) : R = .assigned
  knows {b : Bool} {x : Option Constant} {b' : Bool} (hb : σ = .assigned → b = true)
    (h : Evaluates t v M i b x b') : R.Knows x b'

structure SoundAll (t : Tree) (v : String) (M : Meaning) (nodes : List NodeId)
    (σ R : Status) : Prop where
  settled : R.Settled
  assigned (hσ : σ = .assigned) : R = .assigned
  knows {b : Bool} {l : List (Option Constant)} {b' : Bool} (hb : σ = .assigned → b = true)
    (h : EvaluatesAll t v M nodes b l b') (hR : R = .assigned) : b' = true

theorem Sound.same {t : Tree} {v : String} {M : Meaning} {i : NodeId} {σ : Status}
    (hσ : σ.Settled) : Sound t v M i σ σ :=
  ⟨hσ.ne_unreachable, id, fun hb h => hσ.knows fun hs => h.keeps (hb hs)⟩

theorem Sound.of_settled {t : Tree} {v : String} {M : Meaning} {i : NodeId} {σ R : Status}
    (hR : R.Settled) (ha : σ = .assigned → R = .assigned)
    (h : ∀ {b x b'}, (σ = .assigned → b = true) → Evaluates t v M i b x b' → R = .assigned →
      b' = true) :
    Sound t v M i σ R :=
  ⟨hR.ne_unreachable, ha, fun hb hx => hR.knows (h hb hx)⟩

section

variable {c : Scope} {M : Meaning} {i : NodeId} {σ : Status}

theorem answers_tick : Answers c c.tick fun _ => True := by
  unfold Scope.tick
  refine Answers.of_get.bind fun s _ => Answers.of_set.bind fun _ _ => ?_
  split
  · rename_i h
    exact .fail (.cancelled (Bool.and_eq_true_iff.mp h).2)
  · exact .pure trivial

theorem answers_use (σ : Status) :
    Answers c (c.use i σ) fun R => σ.Settled → Sound c.tree c.variableName M i σ R := by
  unfold Scope.use
  refine Answers.of_get.bind fun s _ => ?_
  split
  · exact Answers.of_set.bind fun _ _ => .pure Sound.same
  · exact .pure Sound.same

/-- A condition with a constant value comes to that value. -/
theorem Correct.condition (hr : Correct c.tree c.variableName M c.analysis.resolver)
    {j : NodeId} {p : Bool} (hp : c.condition? j = some p) {b b' : Bool} {x : Option Constant}
    (h : Evaluates c.tree c.variableName M j b x b') : x = some (.bool p) := by
  obtain ⟨d, hd, hb⟩ := Option.bind_eq_some_iff.mp hp
  cases d <;> cases hb
  exact hr j _ hd b x b' h

section

variable (he : ∀ j σ, Answers c (c.eval j σ) fun R => σ.Settled →
    Sound c.tree c.variableName M j σ R)
include he

/-- Whatever the status before it, an evaluation fails with an excuse only. -/
theorem answers_eval (j : NodeId) (σ : Status) : Answers c (c.eval j σ) fun _ => True :=
  (he j σ).mono fun _ _ => trivial

theorem answers_statement (σ : Status) : Answers c (c.statement i σ) fun _ => True := by
  have hall (nodes : List NodeId) (σ : Status) : Answers c (c.evalAll nodes σ) fun _ => True := by
    induction nodes generalizing σ with
    | nil => exact .pure trivial
    | cons j rest ih => exact (answers_eval he j σ).bind fun σ _ => ih σ
  unfold Scope.statement
  split
  · exact answers_eval he _ σ
  · exact answers_eval he _ σ
  · exact answers_eval he _ σ
  · exact answers_eval he _ σ
  · exact answers_eval he _ σ
  · exact answers_eval he _ σ
  · exact hall _ σ
  · exact hall _ σ
  · simp only
    split
    · exact answers_eval he _ σ
    · exact .pure trivial
  · exact .pure trivial

theorem answers_carry (x : Point) (σ : Status) : Answers c (c.carry x σ) fun _ => True := by
  have hcondition : Answers c (c.condition x σ) fun _ => True :=
    (answers_eval he _ σ).bind fun _ _ => .of_modify
  have hentering : Answers c (c.entering x σ) fun _ => True := by
    unfold Scope.entering
    split
    · exact (Answers.pure (P := fun _ => True) trivial).bind fun _ _ => .of_modify
    · exact (answers_statement he σ).bind fun _ _ => .of_modify
  unfold Scope.carry
  split
  · split
    · exact hcondition
    · exact hentering
  · split
    · exact hcondition
    · exact hentering
  · exact .of_modify
  · split
    · exact (answers_eval he _ σ).bind fun _ _ => .of_modify
    · exact hcondition

theorem answers_setPoint (place : Nat) (σ : Status) :
    Answers c (c.setPoint place σ) fun _ => True := by
  unfold Scope.setPoint
  refine Answers.of_get.bind fun s _ => ?_
  split
  · exact .pure trivial
  · exact Answers.of_set.bind fun _ _ => answers_carry he _ σ

theorem answers_children (nodes : List NodeId) (σ : Status) :
    Answers c (c.children nodes σ) fun R => σ.Settled →
    SoundAll c.tree c.variableName M (nodes.filter fun j => !(c.tree.kind j).isStatement) σ R := by
  induction nodes generalizing σ with
  | nil =>
      refine .pure fun hσ => ⟨hσ, id, fun hb h hR => ?_⟩
      cases h
      exact hb hR
  | cons j rest ih =>
      refine answers_tick.bind fun _ _ => ?_
      split
      · rename_i hj
        rw [List.filter_cons_of_neg (by simp [hj])]
        exact ih σ
      · rename_i hj
        rw [List.filter_cons_of_pos (by simp [hj])]
        refine (he j σ).bind fun R₁ h₁ => (ih R₁.clean).mono fun R h hσ => ?_
        have h₁ := h₁ hσ
        have h := h (Status.settled_clean h₁.reached)
        refine ⟨h.settled, fun hs => h.assigned (by rw [h₁.assigned hs]; rfl), fun hb hl hR => ?_⟩
        cases hl with
        | cons hx hl => exact h.knows (h₁.knows hb hx).of_clean hl hR

theorem answers_assignment {left right : NodeId} (σ : Status)
    (hi : ∀ b x b', Evaluates c.tree c.variableName M i b x b' →
      b' = true ∨ ¬ Names c.tree c.variableName left ∧
      ∃ y b₁, Evaluates c.tree c.variableName M left b y b₁ ∧
        (right = .null ∧ b₁ = b' ∨ Evaluates c.tree c.variableName M right b₁ x b')) :
    Answers c (c.assignment left right σ) fun R => σ.Settled →
      Sound c.tree c.variableName M i σ R := by
  unfold Scope.assignment
  by_cases hv : c.isVariable left = true
  · rw [if_pos hv]
    refine (answers_eval he right σ).bind fun _ _ => .pure fun _ =>
      ⟨nofun, fun _ => rfl, fun {b x b'} _ h => ?_⟩
    obtain ⟨hk, hn⟩ := Bool.and_eq_true_iff.mp hv
    have hnames : Names c.tree c.variableName left :=
      .plain (of_decide_eq_true hk) (of_decide_eq_true hn)
    rcases hi b x b' h with hb | ⟨hne, -⟩
    · exact hb
    · exact absurd hnames hne
  · rw [if_neg hv]
    refine (he left σ).bind fun R₁ h₁ => ?_
    split
    · refine .pure fun hσ => ?_
      have h₁ := h₁ hσ
      refine .of_settled (Status.settled_clean h₁.reached) (fun hs => by rw [h₁.assigned hs]; rfl)
        fun hb h hR => ?_
      rcases hi _ _ _ h with hb' | ⟨-, y, b₁, hl, ⟨-, rfl⟩ | hr⟩
      · exact hb'
      · exact (h₁.knows hb hl).of_clean hR
      · exact hr.keeps ((h₁.knows hb hl).of_clean hR)
    · rename_i hright
      refine (he right R₁.clean).bind fun R₂ h₂ => .pure fun hσ => ?_
      have h₁ := h₁ hσ
      have h₂ := h₂ (Status.settled_clean h₁.reached)
      refine .of_settled (Status.settled_clean h₂.reached)
        (fun hs => by rw [h₂.assigned (by rw [h₁.assigned hs]; rfl)]; rfl) fun hb h hR => ?_
      rcases hi _ _ _ h with hb' | ⟨-, y, b₁, hl, ⟨hnull, -⟩ | hr⟩
      · exact hb'
      · exact absurd hnull hright
      · exact (h₂.knows (h₁.knows hb hl).of_clean hr).of_clean hR

theorem answers_function (σ : Status) :
    Answers c (c.function i σ) fun R => σ.Settled → Sound c.tree c.variableName M i σ R := by
  unfold Scope.function
  simp only
  split
  · split
    · exact (answers_setPoint he _ σ).bind fun _ _ => .pure Sound.same
    · rename_i hb
      exact (Answers.fail (P := fun _ => True) (.unknown hb)).bind fun _ _ => .pure Sound.same
  · exact (answers_eval he _ σ).bind fun _ _ => .pure Sound.same

theorem answers_declared (hk : c.tree.kind i = .part .variable_) (σ : Status) :
    Answers c (c.declared i σ) fun R => σ.Settled → Sound c.tree c.variableName M i σ R := by
  unfold Scope.declared
  split
  · exact .pure Sound.same
  · rename_i hi
    have hi : c.tree.hasChild i .initializer = true := by simpa using hi
    refine (he _ σ).bind fun R h => .pure fun hσ => ?_
    have h := h hσ
    split
    · rename_i hn
      refine ⟨nofun, fun _ => rfl, fun _ hx => ?_⟩
      obtain ⟨b₁, -, rfl⟩ := hx.of_initialized hk hi
      simp [Status.Knows, hn]
    · rename_i hn
      refine ⟨h.reached, h.assigned, fun hb hx => ?_⟩
      obtain ⟨b₁, hinit, rfl⟩ := hx.of_initialized hk hi
      rw [decide_eq_false hn, Bool.or_false]
      exact h.knows hb hinit

theorem answers_not (hk : c.tree.kind i = .expression (.unary .not)) (σ : Status) :
    Answers c (do return (← c.eval (c.child i .expression) σ).negate) fun R => σ.Settled →
      Sound c.tree c.variableName M i σ R := by
  refine (he _ σ).bind fun R h => .pure fun hσ => ?_
  have h := h hσ
  refine ⟨Status.negate_ne_unreachable h.reached,
    fun hs => by rw [h.assigned hs]; rfl, fun hb hx => ?_⟩
  rcases hx.of_not hk with ⟨p, rfl, hp⟩ | ⟨y, hy, hp⟩
  · exact (h.knows hb hp).negate
  · exact (h.knows hb hp).negate_of_not_bool hy _

section

variable (hr : Correct c.tree c.variableName M c.analysis.resolver)
include hr

theorem answers_logicalAnd (hk : c.tree.kind i = .expression (.binary .condAnd)) (σ : Status) :
    Answers c (c.logicalAnd (c.child i .left) (c.child i .right) σ) fun R => σ.Settled →
      Sound c.tree c.variableName M i σ R := by
  unfold Scope.logicalAnd
  cases hc : c.condition? (c.child i .left) with
  | none =>
      refine (he _ σ).bind fun R₁ h₁ => (he _ R₁.ifTrue).bind fun R₂ h₂ => .pure fun hσ => ?_
      have h₁ := h₁ hσ
      have h₂ := h₂ (Status.settled_ifTrue h₁.reached)
      refine ⟨Status.andThen_ne_unreachable,
        fun hs => by simp [h₁.assigned hs, Status.andThen], fun hb h => ?_⟩
      rcases h.of_and hk with ⟨rfl, hl⟩ | ⟨b₁, p, rfl, hl, hr⟩
      · exact (h₁.knows hb hl).andThen_of_false
      · have hl := h₁.knows hb hl
        exact hl.andThen (h₂.knows hl.of_ifTrue hr) hr.keeps
  | some value =>
      cases value with
      | true =>
          refine (he _ σ).mono fun R h hσ => ⟨(h hσ).reached, (h hσ).assigned, fun hb hx => ?_⟩
          rcases hx.of_and hk with ⟨rfl, hl⟩ | ⟨b₁, p, rfl, hl, hx⟩
          · cases hr.condition hc hl
          · exact (h hσ).knows (fun hs => hl.keeps (hb hs)) hx
      | false => exact .pure Sound.same

theorem answers_logicalOr (hk : c.tree.kind i = .expression (.binary .condOr)) (σ : Status) :
    Answers c (c.logicalOr (c.child i .left) (c.child i .right) σ) fun R => σ.Settled →
      Sound c.tree c.variableName M i σ R := by
  unfold Scope.logicalOr
  cases hc : c.condition? (c.child i .left) with
  | none =>
      refine (he _ σ).bind fun R₁ h₁ => (he _ R₁.ifFalse).bind fun R₂ h₂ => .pure fun hσ => ?_
      have h₁ := h₁ hσ
      have h₂ := h₂ (Status.settled_ifFalse h₁.reached)
      refine ⟨Status.orElse_ne_unreachable,
        fun hs => by simp [h₁.assigned hs, Status.orElse], fun hb h => ?_⟩
      rcases h.of_or hk with ⟨rfl, hl⟩ | ⟨b₁, p, rfl, hl, hr⟩
      · exact (h₁.knows hb hl).orElse_of_true
      · have hl := h₁.knows hb hl
        exact hl.orElse (h₂.knows hl.of_ifFalse hr) hr.keeps
  | some value =>
      cases value with
      | false =>
          refine (he _ σ).mono fun R h hσ => ⟨(h hσ).reached, (h hσ).assigned, fun hb hx => ?_⟩
          rcases hx.of_or hk with ⟨rfl, hl⟩ | ⟨b₁, p, rfl, hl, hx⟩
          · cases hr.condition hc hl
          · exact (h hσ).knows (fun hs => hl.keeps (hb hs)) hx
      | true => exact .pure Sound.same

theorem answers_coalesce (hk : c.tree.kind i = .expression (.binary .coalesce)) (σ : Status) :
    Answers c (c.coalesce (c.child i .left) (c.child i .right) σ) fun R => σ.Settled →
      Sound c.tree c.variableName M i σ R := by
  unfold Scope.coalesce
  split
  · rename_i hnull
    refine (he _ σ).mono fun R h hσ => ⟨(h hσ).reached, (h hσ).assigned, fun hb hx => ?_⟩
    rcases hx.of_coalesce hk with ⟨b₁, hl, hx⟩ | ⟨hne, hl⟩
    · exact (h hσ).knows (fun hs => hl.keeps (hb hs)) hx
    · exact absurd (hr _ _ hnull _ _ _ hl) hne
  · refine (he _ σ).bind fun R h => (answers_eval he _ _).bind fun _ _ => .pure fun hσ => ?_
    have h := h hσ
    refine .of_settled (Status.settled_clean h.reached) (fun hs => by rw [h.assigned hs]; rfl)
      fun hb hx hR => ?_
    rcases hx.of_coalesce hk with ⟨b₁, hl, hx⟩ | ⟨-, hl⟩
    · exact hx.keeps ((h.knows hb hl).of_clean hR)
    · exact (h.knows hb hl).of_clean hR

theorem answers_conditional (hk : c.tree.kind i = .expression .conditional) (σ : Status) :
    Answers c (c.conditional i σ) fun R => σ.Settled → Sound c.tree c.variableName M i σ R := by
  unfold Scope.conditional
  simp only
  cases hc : c.condition? (c.child i .condition) with
  | none =>
      refine (he _ σ).bind fun R₁ h₁ => (he _ R₁.ifTrue).bind fun R₂ h₂ =>
        (he _ R₁.ifFalse).bind fun R₃ h₃ => .pure fun hσ => ?_
      have h₁ := h₁ hσ
      have h₂ := h₂ (Status.settled_ifTrue h₁.reached)
      have h₃ := h₃ (Status.settled_ifFalse h₁.reached)
      refine .of_settled (Status.settled_merge h₂.reached h₃.reached) (fun hs => ?_)
        fun hb hx hR => ?_
      · have hs := h₁.assigned hs
        rw [h₂.assigned (by rw [hs]; rfl), h₃.assigned (by rw [hs]; rfl)]
        rfl
      · obtain ⟨hR₂, hR₃⟩ := Status.eq_assigned_of_merge hR h₂.reached h₃.reached
        obtain ⟨b₁, ⟨hx₁, hx⟩ | ⟨hx₁, hx⟩⟩ := hx.of_conditional hk
        · exact (h₂.knows (h₁.knows hb hx₁).of_ifTrue hx).of_clean hR₂
        · exact (h₃.knows (h₁.knows hb hx₁).of_ifFalse hx).of_clean hR₃
  | some value =>
      cases value with
      | true =>
          refine (he _ σ).mono fun R h hσ => ⟨(h hσ).reached, (h hσ).assigned, fun hb hx => ?_⟩
          obtain ⟨b₁, ⟨hx₁, hx⟩ | ⟨hx₁, hx⟩⟩ := hx.of_conditional hk
          · exact (h hσ).knows (fun hs => hx₁.keeps (hb hs)) hx
          · cases hr.condition hc hx₁
      | false =>
          refine (he _ σ).mono fun R h hσ => ⟨(h hσ).reached, (h hσ).assigned, fun hb hx => ?_⟩
          obtain ⟨b₁, ⟨hx₁, hx⟩ | ⟨hx₁, hx⟩⟩ := hx.of_conditional hk
          · cases hr.condition hc hx₁
          · exact (h hσ).knows (fun hs => hx₁.keeps (hb hs)) hx

theorem answers_expression (σ : Status) :
    Answers c (c.expression i σ) fun R => σ.Settled → Sound c.tree c.variableName M i σ R := by
  have hwrapped {k : ExpressionKind} (hk : c.tree.kind i = .expression k)
    (hw : isWrapper k = true) :
      Answers c (c.eval (c.child i .expression) σ) fun R => σ.Settled →
        Sound c.tree c.variableName M i σ R :=
    (he _ σ).mono fun R h hσ =>
      ⟨(h hσ).reached, (h hσ).assigned, fun hb hx => (h hσ).knows hb (hx.of_wrapped hk hw)⟩
  unfold Scope.expression
  split
  · exact .pure Sound.same
  · rename_i hk
    refine answers_assignment he σ fun b x b' h => ?_
    rcases h.of_assign hk with hb | ⟨hn, y, b₁, hl, hx⟩
    · exact .inl hb
    · exact .inr ⟨hn, y, b₁, hl, .inr hx⟩
  · rename_i hk
    refine answers_assignment he σ fun b x b' h => ?_
    rcases h.of_out hk with hb | ⟨hn, hl⟩
    · exact .inl hb
    · exact .inr ⟨hn, x, b', hl, .inl ⟨rfl, rfl⟩⟩
  · exact hwrapped ‹_› rfl
  · exact hwrapped ‹_› rfl
  · exact hwrapped ‹_› rfl
  · exact answers_logicalAnd he hr ‹_› σ
  · exact answers_logicalOr he hr ‹_› σ
  · exact answers_coalesce he hr ‹_› σ
  · exact answers_not he ‹_› σ
  · exact answers_conditional he hr ‹_› σ
  · exact answers_function he σ
  · exact answers_function he σ
  · exact answers_use σ
  · exact answers_declared he ‹_› σ
  · rename_i hk
    have hs : isSpecial (c.tree.kind i) = false := by
      unfold isSpecial
      split <;> simp_all
    refine (answers_children he _ σ).mono fun R h hσ => ?_
    refine .of_settled (h hσ).settled (h hσ).assigned fun hb hx hR => ?_
    obtain ⟨l, hl⟩ := hx.of_operation hs
    exact (h hσ).knows hb hl hR

end

end

end

/-- The status behind an expression is sound, whatever the depth to which it is evaluated. -/
theorem answers_within {a : Assignment} {v : String} (cancelled : Bool)
    {M : Meaning} (hr : Correct a.tree v M a.resolver) (depth : Nat) (i : NodeId) (σ : Status) :
    Answers (Scope.within a v cancelled depth)
      ((Scope.within a v cancelled depth).eval i σ) fun R =>
      σ.Settled → Sound a.tree v M i σ R := by
  induction depth generalizing i σ with
  | zero => exact .pure Sound.same
  | succ depth ih =>
      -- the scopes of all depths have the same analysis
      cases depth <;> exact answers_expression ih hr σ

/-- The status behind an expression is sound. From a status that is settled, an evaluation answers a
status, or it is cancelled, or it creates a function that has no graph. An assigned variable stays
assigned. And behind every evaluation that completes, begun with the variable assigned if the status
says so, the variable is assigned if the answer says so, and if it says so of a value that the
expression has. -/
theorem expression_sound (a : Assignment) (v : String) (cancelled : Bool) (M : Meaning)
    (hr : Correct a.tree v M a.resolver) (i : NodeId) (σ : Status)
    (hσ : σ = .assigned ∨ σ = .potential) (s : State) :
    match (((Scope.full a v cancelled).expression i σ).run s).1 with
    | .ok R => (σ = .assigned → R = .assigned) ∧ ∀ b x b', (σ = .assigned → b = true) →
        Evaluates a.tree v M i b x b' →
        (R = .assigned → b' = true) ∧ (R = .whenTrue → x = some (.bool true) → b' = true) ∧
          (R = .whenFalse → x = some (.bool false) → b' = true)
    | .error e => e = .cancelled ∧ cancelled = true ∨ ∃ body, e = .unknown a.tree body ∧
        a.beginOf body = none := by
  have h : Answers (Scope.full a v cancelled) ((Scope.full a v cancelled).expression i σ) fun R =>
      σ.Settled → Sound a.tree v M i σ R := by
    have h := answers_within cancelled hr (a.tree.size + 1) i σ
    unfold Scope.full
    cases hd : a.tree.size <;> rw [hd] at h <;> exact h
  have h := h s
  split
  · rename_i R hR
    rw [hR] at h
    have h := h hσ
    refine ⟨h.assigned, fun b x b' hb hx => ?_⟩
    have hx := h.knows hb hx
    refine ⟨?_, ?_, ?_⟩
    · rintro rfl
      exact hx
    · rintro rfl rfl
      simpa [Status.Knows] using hx
    · rintro rfl rfl
      simpa [Status.Knows] using hx
  · rename_i e he
    rw [he] at h
    have h : Excuses a cancelled e := by
      unfold Scope.full at h
      cases hd : a.tree.size <;> rw [hd] at h <;> exact h
    cases h with
    | cancelled hc => exact .inl ⟨rfl, hc⟩
    | unknown hb => exact .inr ⟨_, rfl, hb⟩

def ownValue : Resolver := fun t i =>
  match t.kind i with
  | .expression (.literal value) => some (.ofLiteral value)
  | _ => none

theorem correct_ownValue (t : Tree) (v : String) (M : Meaning) : Correct t v M ownValue := by
  intro i d hd b x b' h
  unfold ownValue at hd
  split at hd
  · rename_i value hk
    cases hd
    exact h.of_literal hk
  · cases hd

/-- `!(y || !(true && f(out x)))` -/
def negatedTest : Tree :=
  Tree.planted
    [.expression (.unary .not), .expression .parenthesized, .expression (.binary .condOr),
      .expression .identifier,
      .identifier "y" false, .expression (.unary .not), .expression .parenthesized,
      .expression (.binary .condAnd),
      .expression (.literal (.bool true)), .expression .invocation, .expression .identifier,
      .identifier "f" false,
      .expression (.direction .out), .expression .identifier, .identifier "x" false]
    [(1, .expression, 2), (2, .expression, 3), (3, .left, 4), (4, .identifier, 5), (3, .right, 6),
      (6, .expression, 7),
      (7, .expression, 8), (8, .left, 9), (8, .right, 10), (10, .target, 11), (11, .identifier, 12),
      (10, .argument, 13),
      (13, .expression, 14), (14, .identifier, 15)]

def negatedTestAnalysis : Assignment := ⟨negatedTest, ownValue, .empty⟩

/-- Where the test is true, its argument was passed; and it can be true. -/
theorem expression_sound_negatedTest : Correct negatedTest "x" (fun _ _ _ => True) ownValue ∧
    (((Scope.full negatedTestAnalysis "x" false).expression 1 .potential).run
      negatedTestAnalysis.start).1 = .ok .whenTrue ∧
    Evaluates negatedTest "x" (fun _ _ _ => True) 1 false (some (.bool true)) true ∧
    ∀ b b', Evaluates negatedTest "x" (fun _ _ _ => True) 1 b (some (.bool true)) b' →
    b' = true := by
  have hr : Correct negatedTest "x" (fun _ _ _ => True) ownValue := correct_ownValue _ _ _
  have hrun :
      (((Scope.full negatedTestAnalysis "x" false).expression 1 .potential).run
      negatedTestAnalysis.start).1 =
        .ok .whenTrue := by rfl
  have hnames : Names negatedTest "x" 14 := .plain rfl rfl
  have hcall : Evaluates negatedTest "x" (fun _ _ _ => True) 10 false (some (.bool true)) true :=
    .operation (l := [none, none])
      rfl rfl (.cons (.identifier rfl trivial) (.cons (.pass rfl hnames) .nil)) trivial
  have hand : Evaluates negatedTest "x" (fun _ _ _ => True) 8 false (some (.bool true)) true :=
    .andTrue rfl (.operation (l := []) rfl rfl .nil rfl) hcall
  have hor : Evaluates negatedTest "x" (fun _ _ _ => True) 3 false (some (.bool false)) true :=
    .orFalse (p := false) rfl (.identifier rfl trivial)
      (.not (p := true) rfl (.wrapped rfl rfl hand))
  refine ⟨hr, hrun, .not (p := false) rfl (.wrapped rfl rfl hor), fun b b' h => ?_⟩
  have hsound := expression_sound negatedTestAnalysis "x" false (fun _ _ _ => True)
    hr 1 .potential (.inr rfl)
    negatedTestAnalysis.start
  rw [hrun] at hsound
  exact (hsound.2 b _ b' nofun h).2.1 rfl rfl

end Assignment

end TreeScribe.Flow
