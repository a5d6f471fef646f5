import TreeScribe.Proofs.Flow.Assignment.Walked

namespace TreeScribe.Flow

def Status.Keeps (σ τ : Status) : Prop := σ = .assigned → τ = .assigned

/-- The expressions of a statement are evaluated where it is entered, those of a loop where it is
tested. -/
def Point.Evaluating (t : Tree) (x : Point) : Prop :=
  x.kind = .condition ∨ (x.kind = .start ∨ x.kind = .between) ∧ ∀ k, t.kind x.next = .statement k →
    k.isLoop = false

namespace Assignment

open TreeScribe.Tree

/-- An outcome is an answer for which `P` holds, or a failure, if a run may fail. -/
def Ends {α : Type} (mayFail : Prop) (P : α → State → Prop) : Except FlowError α × State → Prop
  | (.ok r, s) => P r s
  | (.error _, _) => mayFail

structure Account (a : Assignment) (v : String) (cancelled : Bool) where
  ahead : List (NodeId × Status) → State → Prop
  mayFail : Prop
  /-- the identifiers that may be noted as uses -/
  notable : NodeId → Prop
  /-- the bodies of the functions that may be begun -/
  startable : NodeId → Prop
  cancel (hc : cancelled = true) : mayFail
  tick {l : List (NodeId × Status)} {s : State} {poll : Poll} (hs : ahead l s) :
    ahead l { s with poll }
  note {j : NodeId} {l : List (NodeId × Status)} {s : State} (hj : notable j) (hs : ahead l s) :
    ahead l { s with uses := j :: s.uses }
  unknown {b : NodeId} {σ : Status} {l : List (NodeId × Status)} {s : State} (hb : startable b)
    (hn : a.beginOf b = none) (hs : ahead ((b, σ) :: l) s) : mayFail
  begin {b : NodeId} {σ : Status} {l : List (NodeId × Status)} {s : State} {q depth : Nat}
    (hb : startable b) (hq : a.beginOf b = some q) (hd : a.tree.size ≤ depth + a.tree.depth b)
    (hs : ahead ((b, σ) :: l) s) :
    Ends mayFail (fun _ s' => ahead l s') (((Scope.within a v cancelled depth).setPoint q σ).run s)

def Follows (a : Assignment) (v : String) (cancelled : Bool)
    (N B : NodeId → Prop) {α : Type} (m : Run α) (w : Walk α) : Prop :=
  ∀ A : Account a v cancelled, (∀ j, N j → A.notable j) → (∀ b, B b → A.startable b) →
    ∀ l s, A.ahead (w.begun ++ l) s →
    Ends A.mayFail (fun r s' => r = w.value ∧ A.ahead l s') (m.run s)

section

variable {α β : Type} {m : Run α} {f : α → Run β} {s s' : State} {r : α} {mayFail : Prop}
  {P P' : α → State → Prop}
  {Q : β → State → Prop}

theorem run_bind_of_ok (h : m.run s = (.ok r, s')) : (m >>= f).run s = (f r).run s' := by
  have hb : (m >>= f).run s = (fun x : Except FlowError α × State => (ExceptT.bindCont f x.1) x.2)
      (m.run s) := rfl
  rw [hb, h]
  rfl

theorem run_bind_of_error {x : FlowError} (h : m.run s = (.error x, s')) :
    (m >>= f).run s = (.error x, s') := by
  have hb : (m >>= f).run s = (fun x : Except FlowError α × State => (ExceptT.bindCont f x.1) x.2)
      (m.run s) := rfl
  rw [hb, h]
  rfl

theorem Ends.bind (h : Ends mayFail P (m.run s))
    (hf : ∀ r s', P r s' → Ends mayFail Q ((f r).run s')) : Ends mayFail Q ((m >>= f).run s) := by
  have hb : (m >>= f).run s = (fun x : Except FlowError α × State => (ExceptT.bindCont f x.1) x.2)
      (m.run s) := rfl
  rw [hb]
  generalize m.run s = o at h
  obtain ⟨x | r, s'⟩ := o
  · exact h
  · exact hf r s' h

theorem Ends.imp {o : Except FlowError α × State} (h : Ends mayFail P o)
    (hP : ∀ r s', P r s' → P' r s') : Ends mayFail P' o := by
  obtain ⟨x | r, s'⟩ := o
  · exact h
  · exact hP r s' h

end

namespace Follows

variable {a : Assignment} {v : String} {cancelled : Bool} {N N' B B' : NodeId → Prop} {α β : Type}
  {m : Run α}
  {w : Walk α} {f : α → Run β} {g : α → Walk β} {r : α}

theorem pure : Follows a v cancelled N B (Pure.pure r) (Pure.pure r) :=
  fun _ _ _ _ _ hs => ⟨rfl, hs⟩

theorem bind (h : Follows a v cancelled N B m w)
    (hf : Follows a v cancelled N B (f w.value) (g w.value)) :
    Follows a v cancelled N B (m >>= f) (w >>= g) := by
  intro A hN hB l s hs
  rw [Walk.begun_bind, List.append_assoc] at hs
  refine (h A hN hB _ s hs).bind fun r s' hr => ?_
  obtain ⟨rfl, hs'⟩ := hr
  exact hf A hN hB l s' hs'

theorem mono (h : Follows a v cancelled N B m w) (hN : ∀ j, N j → N' j) (hB : ∀ b, B b → B' b) :
    Follows a v cancelled N' B' m w :=
  fun A hN' hB' => h A (fun j hj => hN' j (hN j hj)) fun b hb => hB' b (hB b hb)

end Follows

structure Region (t : Tree) (E B : NodeId → Prop) : Prop where
  operand {i c : NodeId} (hi : E i) (hc : t.parent c = some i)
    (hr : holdsOperand (t.role c) = true ∨ (t.kind c).isStatement = false) : E c
  body {i : NodeId} (hi : E i) (hf : t.isFunction i = true)
    (hs : (t.kind (t.child i .body)).isStatement = true) : B (t.child i .body)

section

variable {a : Assignment} {v : String} {cancelled : Bool} {N B : NodeId → Prop}
  {eval : NodeId → Status → Run Status}
  {walk : NodeId → Status → Walk Status} {i left right : NodeId} {σ : Status}

theorem run_tick_eq {c : Scope} {s : State} : c.tick.run s = if s.poll.tick.1 && c.cancelled then
    (.error .cancelled, { s with poll := s.poll.tick.2 })
    else (.ok (), { s with poll := s.poll.tick.2 }) := by
  unfold Scope.tick
  change (if (s.poll.tick.1 && c.cancelled) = true then (throw .cancelled : Run Unit)
    else Pure.pure ()).run
    { s with poll := s.poll.tick.2 } = _
  split <;> rfl

theorem run_tick {c : Scope} {s : State} (hc : c.cancelled = false) :
    c.tick.run s = (.ok (), { s with poll := s.poll.tick.2 }) := by
  rw [run_tick_eq, hc, Bool.and_false]
  rfl

theorem follows_tick {α : Type} {f : Unit → Run α} {w : Walk α}
    (h : Follows a v cancelled N B (f ()) w) :
    Follows a v cancelled N B (Scope.tick ⟨a, v, cancelled, eval⟩ >>= f) w := by
  intro A hN hB l s hs
  refine Ends.bind (P := fun _ s' => A.ahead (w.begun ++ l) s') ?_ fun _ s' hs' =>
    h A hN hB l s' hs'
  rw [run_tick_eq]
  split
  · rename_i hc
    exact A.cancel (Bool.and_eq_true_iff.mp hc).2
  · exact A.tick hs

theorem follows_use (hnote : σ ≠ .assigned → N i) :
    Follows a v cancelled N B (Scope.use ⟨a, v, cancelled, eval⟩ i σ) (pure σ) := by
  intro A hN hB l s hs
  have hs : A.ahead l s := hs
  have hget : (get : Run State).run s = (.ok s, s) := rfl
  unfold Scope.use
  rw [run_bind_of_ok hget]
  split
  · rename_i hu
    exact ⟨rfl, A.note (hN i (hnote hu.1)) hs⟩
  · exact ⟨rfl, hs⟩

theorem follows_evalAll (hv : ∀ j, (walk j .assigned).value = .assigned) {nodes : List NodeId}
    (hn : ∀ j ∈ nodes, ∀ τ, σ.Keeps τ → Follows a v cancelled N B (eval j τ) (walk j τ))
    {τ : Status} (hτ : σ.Keeps τ) :
    Follows a v cancelled N B (Scope.evalAll ⟨a, v, cancelled, eval⟩ nodes τ)
      (View.walkAll ⟨a, v, walk⟩ nodes τ) := by
  induction nodes generalizing τ with
  | nil => exact .pure
  | cons j rest ih =>
      refine (hn j List.mem_cons_self τ hτ).bind
        (ih (fun k hk => hn k (List.mem_cons_of_mem _ hk)) fun hσ => ?_)
      rw [hτ hσ, hv]

section

variable (hv : ∀ j, (walk j .assigned).value = .assigned)
include hv

theorem follows_children {nodes : List NodeId}
    (hn : ∀ j ∈ nodes, (a.tree.kind j).isStatement = false → ∀ τ, σ.Keeps τ →
      Follows a v cancelled N B (eval j τ) (walk j τ))
    {τ : Status} (hτ : σ.Keeps τ) :
    Follows a v cancelled N B (Scope.children ⟨a, v, cancelled, eval⟩ nodes τ)
      (View.children ⟨a, v, walk⟩ nodes τ) := by
  induction nodes generalizing τ with
  | nil => exact .pure
  | cons j rest ih =>
      have ih {τ : Status} (hτ : σ.Keeps τ) := ih (fun k hk => hn k (List.mem_cons_of_mem _ hk)) hτ
      refine follows_tick ?_
      have htree : Scope.tree ⟨a, v, cancelled, eval⟩ = View.tree ⟨a, v, walk⟩ := rfl
      rw [View.children, htree]
      split
      · exact ih hτ
      · rename_i hj
        refine (hn j List.mem_cons_self (Bool.not_eq_true _ ▸ hj) τ hτ).bind (ih fun hσ => ?_)
        rw [hτ hσ, hv]
        rfl

theorem follows_assignment
    (hl : ∀ τ, σ.Keeps τ → Follows a v cancelled N B (eval left τ) (walk left τ))
    (hr : ∀ τ, σ.Keeps τ → Follows a v cancelled N B (eval right τ) (walk right τ)) :
    Follows a v cancelled N B (Scope.assignment ⟨a, v, cancelled, eval⟩ left right σ)
      (View.assignment ⟨a, v, walk⟩ left right σ) := by
  have hvariable : Scope.isVariable ⟨a, v, cancelled, eval⟩ left =
      View.isVariable ⟨a, v, walk⟩ left := rfl
  rw [Scope.assignment, View.assignment, hvariable]
  split
  · exact (hr σ id).bind .pure
  · refine (hl σ id).bind ?_
    split
    · exact .pure
    · refine (hr _ fun hσ => ?_).bind .pure
      rw [hσ, hv]
      rfl

theorem follows_logicalAnd
    (hl : ∀ τ, σ.Keeps τ → Follows a v cancelled N B (eval left τ) (walk left τ))
    (hr : ∀ τ, σ.Keeps τ → Follows a v cancelled N B (eval right τ) (walk right τ)) :
    Follows a v cancelled N B (Scope.logicalAnd ⟨a, v, cancelled, eval⟩ left right σ)
      (View.logicalAnd ⟨a, v, walk⟩ left right σ) := by
  have hcondition : Scope.condition? ⟨a, v, cancelled, eval⟩ left =
      View.condition? ⟨a, v, walk⟩ left := rfl
  rw [Scope.logicalAnd, View.logicalAnd, hcondition]
  cases View.condition? ⟨a, v, walk⟩ left with
  | none =>
      refine (hl σ id).bind ((hr _ fun hσ => ?_).bind .pure)
      rw [hσ, hv]
      rfl
  | some value =>
      cases value with
      | false => exact .pure
      | true => exact hr σ id

theorem follows_logicalOr
    (hl : ∀ τ, σ.Keeps τ → Follows a v cancelled N B (eval left τ) (walk left τ))
    (hr : ∀ τ, σ.Keeps τ → Follows a v cancelled N B (eval right τ) (walk right τ)) :
    Follows a v cancelled N B (Scope.logicalOr ⟨a, v, cancelled, eval⟩ left right σ)
      (View.logicalOr ⟨a, v, walk⟩ left right σ) := by
  have hcondition : Scope.condition? ⟨a, v, cancelled, eval⟩ left =
      View.condition? ⟨a, v, walk⟩ left := rfl
  rw [Scope.logicalOr, View.logicalOr, hcondition]
  cases View.condition? ⟨a, v, walk⟩ left with
  | none =>
      refine (hl σ id).bind ((hr _ fun hσ => ?_).bind .pure)
      rw [hσ, hv]
      rfl
  | some value =>
      cases value with
      | false => exact hr σ id
      | true => exact .pure

theorem follows_coalesce (hl : ∀ τ, σ.Keeps τ →
      Follows a v cancelled N B (eval left τ) (walk left τ))
    (hr : ∀ τ, σ.Keeps τ → Follows a v cancelled N B (eval right τ) (walk right τ)) :
    Follows a v cancelled N B (Scope.coalesce ⟨a, v, cancelled, eval⟩ left right σ)
      (View.coalesce ⟨a, v, walk⟩ left right σ) := by
  rw [Scope.coalesce, View.coalesce]
  change Follows a v cancelled N B (if a.resolver a.tree left = some .null then _ else _)
    (if a.resolver a.tree left = some .null then _ else _)
  split
  · exact hr σ id
  · refine (hl σ id).bind ((hr _ fun hσ => ?_).bind .pure)
    rw [hσ, hv]
    rfl

section

variable (hc : ∀ r τ, holdsOperand r = true → σ.Keeps τ →
  Follows a v cancelled N B (eval (a.tree.child i r) τ) (walk (a.tree.child i r) τ))
include hc

theorem follows_conditional :
    Follows a v cancelled N B (Scope.conditional ⟨a, v, cancelled, eval⟩ i σ)
    (View.conditional ⟨a, v, walk⟩ i σ) := by
  have hcondition : Scope.condition? ⟨a, v, cancelled, eval⟩
    (Scope.child ⟨a, v, cancelled, eval⟩ i .condition) =
      View.condition? ⟨a, v, walk⟩ (View.child ⟨a, v, walk⟩ i .condition) := rfl
  rw [Scope.conditional, View.conditional]
  simp only [hcondition]
  cases View.condition? ⟨a, v, walk⟩ (View.child ⟨a, v, walk⟩ i .condition) with
  | none =>
      have hassigned (hσ : σ = .assigned) :
          (walk (a.tree.child i .condition) σ).value = .assigned := by rw [hσ, hv]
      refine (hc .condition σ rfl id).bind ((hc .trueExpression _ rfl fun hσ => ?_).bind
        ((hc .falseExpression _ rfl fun hσ => ?_).bind .pure))
      · rw [hassigned hσ]
        rfl
      · rw [hassigned hσ]
        rfl
  | some value =>
      cases value with
      | false => exact hc .falseExpression σ rfl id
      | true => exact hc .trueExpression σ rfl id

omit hv in
theorem follows_declared : Follows a v cancelled N B (Scope.declared ⟨a, v, cancelled, eval⟩ i σ)
    (View.declared ⟨a, v, walk⟩ i σ) := by
  rw [Scope.declared, View.declared]
  change Follows a v cancelled N B (if (!a.tree.hasChild i .initializer) = true then _ else _)
    (if (!a.tree.hasChild i .initializer) = true then _ else _)
  split
  · exact .pure
  · exact (hc .initializer σ rfl id).bind .pure

end

end

theorem follows_function {depth : Nat}
    (hb : (a.tree.kind (a.tree.child i .body)).isStatement = false →
      Follows a v cancelled N B (eval (a.tree.child i .body) σ) (walk (a.tree.child i .body) σ))
    (hscope : Scope.within a v cancelled depth = ⟨a, v, cancelled, eval⟩)
    (hs : (a.tree.kind (a.tree.child i .body)).isStatement = true →
      B (a.tree.child i .body) ∧ a.tree.size ≤ depth + a.tree.depth (a.tree.child i .body)) :
    Follows a v cancelled N B (Scope.function ⟨a, v, cancelled, eval⟩ i σ)
      (View.function ⟨a, v, walk⟩ i σ) := by
  rw [Scope.function, View.function]
  change Follows a v cancelled N B
    (if (a.tree.kind (a.tree.child i .body)).isStatement = true then _ else _)
    (if (a.tree.kind (a.tree.child i .body)).isStatement = true then _ else _)
  split
  · rename_i hbody
    obtain ⟨hB, hd⟩ := hs hbody
    intro A _ hstart l s hs
    have hbegin :
        (Assignment.beginOf (Scope.analysis ⟨a, v, cancelled, eval⟩)
        (Scope.child ⟨a, v, cancelled, eval⟩ i .body)) =
        a.beginOf (a.tree.child i .body) := rfl
    simp only [hbegin]
    cases hq : a.beginOf (a.tree.child i .body) with
    | none => exact A.unknown (hstart _ hB) hq hs
    | some q =>
        have hrun := A.begin (hstart _ hB) hq hd hs
        rw [hscope] at hrun
        exact hrun.bind fun _ s' hs' => ⟨rfl, hs'⟩
  · rename_i hbody
    exact (hb (Bool.not_eq_true _ ▸ hbody)).bind .pure

/-- An expression follows its walk if its children do. -/
theorem follows_expression {depth : Nat} (hv : ∀ j, (walk j .assigned).value = .assigned)
    (h0 : ∀ τ, Follows a v cancelled N B (eval .null τ) (walk .null τ))
    (hc : ∀ r τ, holdsOperand r = true ∨ (a.tree.kind (a.tree.child i r)).isStatement = false →
      σ.Keeps τ →
      Follows a v cancelled N B (eval (a.tree.child i r) τ) (walk (a.tree.child i r) τ))
    (hm : ∀ j ∈ a.tree.children i, (a.tree.kind j).isStatement = false → ∀ τ, σ.Keeps τ →
      Follows a v cancelled N B (eval j τ) (walk j τ))
    (hnote : σ ≠ .assigned → N i)
    (hscope : Scope.within a v cancelled depth = ⟨a, v, cancelled, eval⟩)
    (hs : a.tree.isFunction i = true → (a.tree.kind (a.tree.child i .body)).isStatement = true →
      B (a.tree.child i .body) ∧ a.tree.size ≤ depth + a.tree.depth (a.tree.child i .body)) :
    Follows a v cancelled N B (Scope.expression ⟨a, v, cancelled, eval⟩ i σ)
      (View.expression ⟨a, v, walk⟩ i σ) := by
  have htree : Scope.tree ⟨a, v, cancelled, eval⟩ = a.tree := rfl
  have htree' : View.tree ⟨a, v, walk⟩ = a.tree := rfl
  have hop (r : Role) (τ : Status) (hr : holdsOperand r = true) (hτ : σ.Keeps τ) :=
    hc r τ (.inl hr) hτ
  rw [Scope.expression, View.expression, htree, htree']
  split
  · rename_i hk
    rw [hk]
    exact .pure
  · rename_i hk
    rw [hk]
    exact follows_assignment hv (fun τ => hop .left τ rfl) fun τ => hop .right τ rfl
  · rename_i hk
    rw [hk]
    exact follows_assignment hv (fun τ => hop .expression τ rfl) fun τ _ => h0 τ
  · rename_i hk
    rw [hk]
    exact hop .expression σ rfl id
  · rename_i hk
    rw [hk]
    exact hop .expression σ rfl id
  · rename_i hk
    rw [hk]
    exact hop .expression σ rfl id
  · rename_i hk
    rw [hk]
    exact follows_logicalAnd hv (fun τ => hop .left τ rfl) fun τ => hop .right τ rfl
  · rename_i hk
    rw [hk]
    exact follows_logicalOr hv (fun τ => hop .left τ rfl) fun τ => hop .right τ rfl
  · rename_i hk
    rw [hk]
    exact follows_coalesce hv (fun τ => hop .left τ rfl) fun τ => hop .right τ rfl
  · rename_i hk
    rw [hk]
    exact (hop .expression σ rfl id).bind .pure
  · rename_i hk
    rw [hk]
    exact follows_conditional hv hop
  · rename_i hk
    rw [hk]
    exact follows_function (fun hb => hc .body σ (.inr hb) id) hscope (hs (by rw [isFunction, hk]))
  · rename_i hk
    rw [hk]
    exact follows_function (fun hb => hc .body σ (.inr hb) id) hscope (hs (by rw [isFunction, hk]))
  · rename_i hk
    rw [hk]
    exact follows_use hnote
  · rename_i hk
    rw [hk]
    exact follows_declared hop
  · split
    all_goals first
      | exact follows_children hv hm id
      | simp_all

theorem follows_statement (hv : ∀ j, (walk j .assigned).value = .assigned)
    (hc : (∀ k, a.tree.kind i = .statement k → k.isLoop = false) → ∀ r τ,
      holdsOperand r = true ∨ (a.tree.kind (a.tree.child i r)).isStatement = false → σ.Keeps τ →
        Follows a v cancelled N B (eval (a.tree.child i r) τ) (walk (a.tree.child i r) τ))
    (hm : (∀ k, a.tree.kind i = .statement k → k.isLoop = false) →
      ∀ j ∈ a.tree.childrenIn i .variable_, ∀ τ, σ.Keeps τ →
      Follows a v cancelled N B (eval j τ) (walk j τ)) :
    Follows a v cancelled N B (Scope.statement ⟨a, v, cancelled, eval⟩ i σ)
      (View.statement ⟨a, v, walk⟩ i σ) := by
  have htree : Scope.tree ⟨a, v, cancelled, eval⟩ = a.tree := rfl
  have htree' : View.tree ⟨a, v, walk⟩ = a.tree := rfl
  by_cases hl : ∀ k, a.tree.kind i = .statement k → k.isLoop = false
  case neg =>
    obtain ⟨k, hk, hl⟩ : ∃ k, a.tree.kind i = .statement k ∧ k.isLoop = true := by simpa using hl
    rw [Scope.statement, View.statement, htree, htree', hk]
    cases k <;> first | exact .pure | cases hl
  have hc := hc hl
  have hm := hm hl
  have hresource : Follows a v cancelled N B
      (if (a.tree.kind (a.tree.child i .resource)).isExpression then eval (a.tree.child i .resource)
        σ else pure σ)
      (if (a.tree.kind (a.tree.child i .resource)).isExpression then walk (a.tree.child i .resource)
        σ else pure σ) := by
    split
    · rename_i he
      refine hc _ σ (.inr ?_) id
      cases hk : a.tree.kind (a.tree.child i .resource)
        <;> simp_all [Kind.isExpression, Kind.isStatement]
    · exact .pure
  rw [Scope.statement, View.statement, htree, htree']
  generalize a.tree.kind i = k
  cases k with
  | statement k =>
      cases k with
      | expression | return_ | throw | yieldReturn | lock | switch =>
          exact hc .expression σ (.inl rfl) id
      | locals | fixed => exact follows_evalAll hv hm id
      | usingResource => exact hresource
      | _ => exact .pure
  | _ => exact .pure

end

section

variable {a : Assignment} {v : String} {cancelled : Bool} {N B E : NodeId → Prop} {depth : Nat}
  {i : NodeId} {x : Point}
  {σ : Status}

theorem Scope.within_eq :
    Scope.within a v cancelled depth =
    ⟨a, v, cancelled, (Scope.within a v cancelled depth).eval⟩ := by
  cases depth <;> rfl

theorem analysis_within : (Scope.within a v cancelled depth).analysis = a := by cases depth <;> rfl

theorem Scope.tree_within : (Scope.within a v cancelled depth).tree = a.tree := by
  rw [Scope.within_eq]
  rfl

theorem Scope.variableName_within : (Scope.within a v cancelled depth).variableName = v := by
  rw [Scope.within_eq]

theorem Scope.child_within {r : Role} :
    (Scope.within a v cancelled depth).child i r = a.tree.child i r :=
  congrArg (Tree.child · i r) Scope.tree_within

theorem View.child_full {r : Role} : (View.full a v).child i r = a.tree.child i r :=
  congrArg (Tree.child · i r) View.tree_within

theorem View.full_eq : View.full a v = ⟨a, v, (View.full a v).walk⟩ := by
  unfold View.full
  cases a.tree.size <;> rfl

theorem follows_eval_of_null (hk : a.tree.kind i = .null) :
    Follows a v cancelled N B ((Scope.within a v cancelled depth).eval i σ)
      ((View.full a v).walk i σ) := by
  rw [View.full, View.walk_of_null hk]
  cases depth with
  | zero => exact .pure
  | succ depth =>
      change Follows a v cancelled N B ((Scope.within a v cancelled depth).expression i σ) _
      rw [Scope.expression, Scope.tree_within, hk]
      exact .pure

/-- Nodes that are deep enough are evaluated as they are walked. From an assigned variable no use is
noted. -/
theorem follows_eval (hw : a.tree.WellFormed) (hregion : Region a.tree E B) (hi : E i)
    (hd : a.tree.size ≤ depth + a.tree.depth i) :
    Follows a v cancelled (fun j => σ ≠ .assigned ∧ E j)
      B ((Scope.within a v cancelled depth).eval i σ)
      ((View.full a v).walk i σ) := by
  by_cases hlt : i < a.tree.size
  · induction depth generalizing i σ with
    | zero =>
        have := hw.depth_lt hlt
        omega
    | succ depth ih =>
        rw [View.walk_full hw]
        change Follows a v cancelled _ B ((Scope.within a v cancelled depth).expression i σ) _
        have hchild {j : NodeId} (hj : a.tree.parent j = some i)
            (hr : holdsOperand (a.tree.role j) = true ∨ (a.tree.kind j).isStatement = false)
              (τ : Status) (hτ : σ.Keeps τ) :
            Follows a v cancelled (fun j => σ ≠ .assigned ∧ E j)
              B ((Scope.within a v cancelled depth).eval j τ)
              ((View.full a v).walk j τ) := by
          have := hw.depth_of_parent hj
          refine (ih (hregion.operand hi hj hr) (by omega) (lt_of_parent hj)).mono (fun k hk => ?_)
            fun _ => id
          exact ⟨fun hσ => hk.1 (hτ hσ), hk.2⟩
        rw [Scope.within_eq, View.full_eq]
        have hscope : Scope.within a v cancelled depth = _ := Scope.within_eq
        refine follows_expression (fun j => View.value_assigned)
          (fun τ => follows_eval_of_null hw.null_kind)
          (fun r τ hr hτ => ?_) (fun j hj hs τ hτ => hchild (hw.mem_children.mp hj) (.inr hs) τ hτ)
            (fun hσ => ⟨hσ, hi⟩)
          hscope fun hf hs => ⟨hregion.body hi hf hs, ?_⟩
        · rcases child_eq_null_or_mem (t := a.tree) (p := i) (r := r) with hn | hm
          · rw [hn]
            exact follows_eval_of_null hw.null_kind
          · obtain ⟨hm, hrole⟩ := mem_childrenIn_iff.mp hm
            exact hchild (hw.mem_children.mp hm) (hr.imp_left fun hr => hrole.symm ▸ hr) τ hτ
        · have := hw.depth_of_parent (hw.parent_of_body rfl hs).1
          omega
  · refine follows_eval_of_null ?_
    rw [Tree.kind, node_of_size_le (Nat.le_of_not_lt hlt)]
    rfl

def Scope.finished (c : Scope) (x : Point) (σ : Status) (s : State) : State :=
  match x.kind with
  | .stop => c.finish x.previous σ s
  | .start | .between | .condition => s

def FollowsOn (a : Assignment) (v : String) (cancelled : Bool) (depth : Nat) (N B : NodeId → Prop)
    (x : Point) (m : Run Unit) (w : Walk (Edge → Status)) : Prop :=
  ∀ A : Account a v cancelled, (∀ j, N j → A.notable j) → (∀ b, B b → A.startable b) →
    ∀ l s, A.ahead (w.begun ++ l) s →
    Ends A.mayFail (fun _ s' => ∃ s₁, A.ahead l s₁ ∧
    s' = (Scope.within a v cancelled depth).setEdges x w.value s₁) (m.run s)

theorem Follows.on {m : Run Status} {w : Walk Status} {f : Status → Edge → Status}
    (h : Follows a v cancelled N B m w) : FollowsOn a v cancelled depth N B x
      (m >>= fun σ => modify ((Scope.within a v cancelled depth).setEdges x (f σ)))
      (w >>= fun σ => Pure.pure (f σ)) := by
  intro A hN hB l s hs
  rw [Walk.begun_bind, Walk.begun_pure, List.append_nil] at hs
  refine (h A hN hB l s hs).bind fun r s' hr => ?_
  obtain ⟨rfl, hs'⟩ := hr
  exact ⟨s', hs', rfl⟩

section

variable (hw : a.tree.WellFormed) (hregion : Region a.tree E B)
  (hx : x.Evaluating a.tree → ∀ c, a.tree.parent c = some x.next →
    holdsOperand (a.tree.role c) = true ∨ (a.tree.kind c).isStatement = false → E c)
  (hd : a.tree.size ≤ depth + a.tree.depth x.next + 1)
include hw hregion hx hd

theorem follows_operand (hev : x.Evaluating a.tree)
    {j : NodeId} (hj : a.tree.parent j = some x.next)
    (hr : holdsOperand (a.tree.role j) = true ∨ (a.tree.kind j).isStatement = false) (τ : Status)
    (hτ : σ.Keeps τ) : Follows a v cancelled (fun j => σ ≠ .assigned ∧ E j)
      B ((Scope.within a v cancelled depth).eval j τ)
      ((View.full a v).walk j τ) := by
  have := hw.depth_of_parent hj
  refine (follows_eval hw hregion (hx hev j hj hr) (by omega)).mono (fun k hk => ?_) fun _ => id
  exact ⟨fun hσ => hk.1 (hτ hσ), hk.2⟩

theorem follows_child (hev : x.Evaluating a.tree) (r : Role) (τ : Status)
    (hr : holdsOperand r = true ∨ (a.tree.kind (a.tree.child x.next r)).isStatement = false)
    (hτ : σ.Keeps τ) : Follows a v cancelled (fun j => σ ≠ .assigned ∧ E j)
      B ((Scope.within a v cancelled depth).eval (a.tree.child x.next r) τ)
      ((View.full a v).walk (a.tree.child x.next r) τ) := by
  rcases child_eq_null_or_mem (t := a.tree) (p := x.next) (r := r) with hn | hm
  · rw [hn]
    exact follows_eval_of_null hw.null_kind
  · obtain ⟨hm, hrole⟩ := mem_childrenIn_iff.mp hm
    exact follows_operand hw hregion hx hd hev (hw.mem_children.mp hm)
      (hr.imp_left fun hr => hrole.symm ▸ hr) τ hτ

theorem follows_condition (hev : x.Evaluating a.tree) :
    FollowsOn a v cancelled depth (fun j => σ ≠ .assigned ∧ E j) B x
    ((Scope.within a v cancelled depth).condition x σ) ((View.full a v).condition x σ) := by
  rw [Scope.condition, View.condition, Scope.child_within, View.child_full]
  exact (follows_child hw hregion hx hd hev .condition σ (.inl rfl) id).on

theorem follows_iteration (hev : x.Evaluating a.tree) :
    FollowsOn a v cancelled depth (fun j => σ ≠ .assigned ∧ E j) B x
    ((Scope.within a v cancelled depth).iteration x σ) ((View.full a v).iteration x σ) := by
  rw [Scope.iteration, View.iteration, Scope.child_within, View.child_full, Scope.tree_within,
    Scope.variableName_within]
  have htree : (View.full a v).tree = a.tree := View.tree_within
  have hname : (View.full a v).variableName = v := View.variableName_within
  rw [htree, hname]
  exact (follows_child hw hregion hx hd hev .inExpression σ (.inl rfl) id).on
    (f := fun σ _ => if a.tree.name x.next = v then .assigned else σ.clean)

theorem follows_entering (hk : x.kind = .start ∨ x.kind = .between) :
    FollowsOn a v cancelled depth (fun j => σ ≠ .assigned ∧ E j) B x
      ((Scope.within a v cancelled depth).entering x σ) ((View.full a v).entering x σ) := by
  rw [Scope.entering, View.entering]
  by_cases hσ : σ = .assigned
  · simp only [if_pos hσ]
    exact Follows.pure.on (f := fun σ _ => σ)
  · simp only [if_neg hσ]
    have hstatement : Follows a v cancelled (fun j => σ ≠ .assigned ∧ E j) B
        ((Scope.within a v cancelled depth).statement x.next σ)
          ((View.full a v).statement x.next σ) := by
      rw [Scope.within_eq, View.full_eq]
      refine follows_statement (fun j => View.value_assigned)
        (fun hl r τ hr hτ => follows_child hw hregion hx hd (.inr ⟨hk, hl⟩) r τ hr hτ)
        fun hl j hj τ hτ => follows_operand hw hregion hx hd (.inr ⟨hk, hl⟩)
          (hw.parent_of_mem_childrenIn hj) (.inl ?_) τ hτ
      rw [(mem_childrenIn_iff.mp hj).2]
      rfl
    exact hstatement.on

omit hw hregion hx hd in
theorem setEdges_clean {c : Scope} {status : Edge → Status} {s : State} :
    c.setEdges x (fun e => (status e).clean) s = c.setEdges x status s := by
  unfold Scope.setEdges Scope.setEdge
  simp only [Status.clean_clean]

theorem follows_carry (A : Account a v cancelled) (hN : ∀ j, σ ≠ .assigned → E j → A.notable j)
    (hB : ∀ b, B b → A.startable b) {l : List (NodeId × Status)} {s : State}
    (hs : A.ahead (((View.full a v).carry x σ).begun ++ l) s) :
    Ends A.mayFail (fun _ s' => ∃ s₁, A.ahead l s₁ ∧
        s' = (Scope.within a v cancelled depth).setEdges x
        ((View.full a v).carry x σ).value ((Scope.within a v cancelled depth).finished x σ s₁))
      (((Scope.within a v cancelled depth).carry x σ).run s) := by
  have htree : (View.full a v).tree = a.tree := View.tree_within
  have hN (j : NodeId) (hj : σ ≠ .assigned ∧ E j) : A.notable j := hN j hj.1 hj.2
  have hcondition (hev : x.Evaluating a.tree) := follows_condition hw hregion hx hd hev A hN hB l s
  have hiteration (hev : x.Evaluating a.tree) := follows_iteration hw hregion hx hd hev A hN hB l s
  have hentering (hk : x.kind = .start ∨ x.kind = .between) :=
    follows_entering hw hregion hx hd hk A hN hB l s
  rw [View.carry, htree] at hs ⊢
  rw [Scope.carry, Scope.tree_within]
  unfold Scope.finished
  cases hk : x.kind with
  | start | between =>
      have hentered : x.kind = .start ∨ x.kind = .between := by simp [hk]
      rw [hk] at hs
      dsimp only at hs ⊢
      split
      · rename_i hbranch
        rw [if_pos hbranch] at hs
        refine hcondition (.inr ⟨hentered, fun k hkind => ?_⟩) hs
        cases hbranch.symm.trans hkind
        rfl
      · rename_i hbranch
        rw [if_neg hbranch] at hs
        exact hentering hentered hs
  | stop =>
      rw [hk] at hs
      exact ⟨s, hs, setEdges_clean.symm⟩
  | condition =>
      rw [hk] at hs
      dsimp only at hs ⊢
      split
      · rename_i hforeach
        rw [if_pos hforeach] at hs
        exact hiteration (.inl hk) hs
      · rename_i hforeach
        rw [if_neg hforeach] at hs
        exact hcondition (.inl hk) hs

end

end

end Assignment

end TreeScribe.Flow
