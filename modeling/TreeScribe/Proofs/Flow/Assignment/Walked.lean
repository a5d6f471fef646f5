import TreeScribe.Proofs.Flow.Assignment.Functions
import TreeScribe.Proofs.Flow.Assignment.Walk
import TreeScribe.Proofs.Flow.Marks

namespace TreeScribe.Flow.Assignment

open TreeScribe.Tree

namespace View

variable {a : Assignment} {v : String} {depth : Nat} {i j : NodeId} {r : Role} {σ τ : Status}

@[simp] theorem analysis_within : (within a v depth).analysis = a := by cases depth <;> rfl

@[simp] theorem variableName_within : (within a v depth).variableName = v := by cases depth <;> rfl

@[simp] theorem tree_within : (within a v depth).tree = a.tree :=
  congrArg Assignment.tree analysis_within

theorem within_succ : within a v (depth + 1) =
    (within a v depth).through (within a v (depth + 1)).walk := by
  cases depth <;> rfl

theorem walk_succ : (within a v (depth + 1)).walk i σ = (within a v depth).expression i σ := rfl

theorem walk_of_null (hk : a.tree.kind i = .null) : (within a v depth).walk i σ = pure σ := by
  cases depth with
  | zero => rfl
  | succ depth => rw [walk_succ, expression, tree_within, hk]

/-- One more step of depth makes no difference to a node that is deep enough. -/
theorem walk_within (hw : a.tree.WellFormed) (hi : i < a.tree.size)
    (hd : a.tree.size ≤ depth + a.tree.depth i) :
    (within a v depth).walk i σ = (within a v (depth + 1)).walk i σ := by
  induction depth generalizing i σ with
  | zero =>
      have := hw.depth_lt hi
      omega
  | succ depth ih =>
      have hnull : Alike Eq (within a v depth) (within a v (depth + 1)).walk .null := by
        rintro σ _ rfl
        rw [walk_of_null hw.null_kind, walk_of_null hw.null_kind]
        exact .pure rfl
      have hchild {j : NodeId} (hj : a.tree.parent j = some i) :
          Alike Eq (within a v depth) (within a v (depth + 1)).walk j := by
        rintro σ _ rfl
        have hdepth := hw.depth_of_parent hj
        rw [ih (lt_of_parent hj) (by omega)]
        exact ⟨rfl, List.forall₂_same.mpr fun _ _ => ⟨rfl, rfl⟩⟩
      have h : Walk.Rel Eq Eq ((within a v depth).expression i σ)
          (((within a v depth).through (within a v (depth + 1)).walk).expression i σ) :=
        rel_expression kept_eq (fun r => ?_) hnull (fun j hj => ?_) rfl
      · rw [← within_succ] at h
        exact h.eq
      · rw [child, tree_within]
        rcases hw.child_cases (p := i) (r := r) with hj | hj
        · rw [hj]
          exact hnull
        · exact hchild hj
      · rw [tree_within] at hj
        exact hchild (hw.mem_children.mp hj)

theorem walk_full (hw : a.tree.WellFormed) : (full a v).walk i σ = (full a v).expression i σ := by
  by_cases hi : i < a.tree.size
  · exact walk_within hw hi (Nat.le_add_right _ _)
  · have hk : a.tree.kind i = .null := by
      rw [Tree.kind, node_of_size_le (Nat.le_of_not_lt hi)]
      rfl
    rw [full, walk_of_null hk, expression, tree_within, hk]

/-- A walk keeps what is kept by all that an evaluation does to a status. -/
theorem alike_of_kept {S : Status → Status → Prop} (hK : Kept S) :
    Alike S (within a v depth) (within a v depth).walk i := by
  induction depth generalizing i with
  | zero => exact fun _ _ h => .pure h
  | succ depth ih =>
      intro σ τ h
      have hstep : Walk.Rel S S ((within a v depth).expression i σ)
          (((within a v depth).through (within a v depth).walk).expression i τ) :=
        rel_expression hK (fun _ => ih) ih (fun _ _ => ih) h
      exact hstep

theorem alike_rises : Alike Rises (within a v depth) (within a v depth).walk i :=
  alike_of_kept kept_rises

theorem value_assigned : ((within a v depth).walk i .assigned).value = .assigned :=
  (alike_of_kept kept_assigned _ _ ⟨rfl, rfl⟩).value.1

end View

def Outlasts (l l' : List (NodeId × Status)) : Prop :=
  ∀ b σ, (b, σ) ∈ l → ∃ τ, (b, τ) ∈ l' ∧ Rises σ τ

theorem outlasts_of_forall₂ {l l' : List (NodeId × Status)}
    (h : List.Forall₂ (fun x y => x.1 = y.1 ∧ Rises x.2 y.2) l l') : Outlasts l l' := by
  intro b σ hm
  induction h with
  | nil => simp at hm
  | @cons x y l l' hxy _ ih =>
      rcases List.mem_cons.mp hm with rfl | hm
      · obtain ⟨rfl, hr⟩ := hxy
        exact ⟨y.2, List.mem_cons_self, hr⟩
      · obtain ⟨τ, hm, hr⟩ := ih hm
        exact ⟨τ, List.mem_cons_of_mem _ hm, hr⟩

namespace View

section

variable {a : Assignment} {v : String} {i : NodeId} {x : Point} {σ τ : Status}

theorem statement_rises (h : Rises σ τ) :
    Walk.Rel Rises Rises ((full a v).statement i σ) ((full a v).statement i τ) := by
  have hwalk {j : NodeId} : Alike Rises (full a v) (full a v).walk j := alike_rises
  unfold statement
  split
  · exact hwalk _ _ h
  · exact hwalk _ _ h
  · exact hwalk _ _ h
  · exact hwalk _ _ h
  · exact hwalk _ _ h
  · exact hwalk _ _ h
  · exact rel_walkAll (fun _ _ => hwalk) h
  · exact rel_walkAll (fun _ _ => hwalk) h
  · simp only
    split
    · exact hwalk _ _ h
    · exact .pure h
  · exact .pure h

theorem conditionEdge_rises (h : Rises σ τ) (e : Edge) :
    Rises (Scope.conditionEdge σ e) (Scope.conditionEdge τ e) := by
  unfold Scope.conditionEdge
  split
  · exact kept_rises.clean (kept_rises.ifTrue h)
  · exact kept_rises.clean (kept_rises.ifFalse h)
  · exact kept_rises.clean h
  · exact kept_rises.clean h

theorem carry_rises (h : Rises σ τ) :
    (∀ e, Rises (((full a v).carry x σ).value e) (((full a v).carry x τ).value e)) ∧
      Outlasts ((full a v).carry x σ).begun ((full a v).carry x τ).begun := by
  have hwalk {j : NodeId} : Alike Rises (full a v) (full a v).walk j := alike_rises
  have of_rel {w w' : Walk (Edge → Status)}
    (h : Walk.Rel Rises (fun f g => ∀ e, Rises (f e) (g e)) w w') :
      (∀ e, Rises (w.value e) (w'.value e)) ∧ Outlasts w.begun w'.begun :=
    ⟨h.value, outlasts_of_forall₂ h.begun⟩
  have hcondition :
      (∀ e, Rises (((full a v).condition x σ).value e) (((full a v).condition x τ).value e)) ∧
        Outlasts ((full a v).condition x σ).begun ((full a v).condition x τ).begun :=
    of_rel ((hwalk _ _ h).bind fun _ _ h => .pure (conditionEdge_rises h))
  have hentering :
      (∀ e, Rises (((full a v).entering x σ).value e) (((full a v).entering x τ).value e)) ∧
        Outlasts ((full a v).entering x σ).begun ((full a v).entering x τ).begun := by
    have hstatement {σ τ : Status} (h : Rises σ τ) :=
      statement_rises (a := a) (v := v) (i := x.next) h
    unfold entering
    by_cases hτ : τ = .assigned
    · -- nothing but the assigned status is reached and not above it
      have hσ : σ = .assigned := by
        subst hτ
        obtain ⟨hle, hne⟩ := h
        revert hle hne
        cases σ <;> decide
      subst hτ hσ
      exact of_rel (.pure fun _ => kept_rises.assigned)
    · by_cases hσ : σ = .assigned
      · simp only [if_pos hσ, if_neg hτ]
        refine ⟨fun _ => ⟨?_, nofun⟩, fun _ _ hm => by simp at hm⟩
        have hreached := Status.clean_ne_unreachable
          (hstatement ⟨le_refl τ, Status.ne_unreachable_of_le h.1 h.2⟩).value.2
        exact .inr (.inr (.inr ⟨rfl, hreached⟩))
      · simp only [if_neg hσ, if_neg hτ]
        exact of_rel ((hstatement h).bind fun _ _ h => .pure fun _ => kept_rises.clean h)
  unfold carry
  split
  · split
    · exact hcondition
    · exact hentering
  · split
    · exact hcondition
    · exact hentering
  · exact of_rel (.pure fun _ => kept_rises.clean h)
  · split
    · refine of_rel ((hwalk _ _ h).bind fun _ _ h => .pure fun _ => ?_)
      split
      · exact kept_rises.assigned
      · exact kept_rises.clean h
    · exact hcondition

theorem clean_value {u : View} {e : Edge} :
    ((u.carry x σ).value e).clean = (u.carry x σ).value e := by
  have hcondition : ((u.condition x σ).value e).clean = (u.condition x σ).value e := by
    change (Scope.conditionEdge _ e).clean = Scope.conditionEdge _ e
    unfold Scope.conditionEdge
    split <;> exact Status.clean_clean
  have hentering : ((u.entering x σ).value e).clean = (u.entering x σ).value e := by
    unfold entering
    split
    · rfl
    · exact Status.clean_clean
  unfold carry
  split
  · split
    · exact hcondition
    · exact hentering
  · split
    · exact hcondition
    · exact hentering
  · exact Status.clean_clean
  · split
    · change (if _ then Status.assigned else _ : Status).clean = if _ then Status.assigned else _
      split
      · rfl
      · exact Status.clean_clean
    · exact hcondition

end

section

variable {u : View} {P Q : NodeId → Prop} {left right i : NodeId} {σ : Status}

def Begins (u : View) (P : NodeId → Prop) (i : NodeId) : Prop :=
  ∀ σ, Clean P ((u.walk i σ).begun.map Prod.fst)

theorem clean_assignment (hl : u.Begins P left) (hr : u.Begins Q right) (hPQ : ∀ b, P b → ¬ Q b) :
    Clean (fun b => P b ∨ Q b) ((u.assignment left right σ).begun.map Prod.fst) := by
  unfold assignment
  split
  · simp only [Walk.begun_bind, Walk.begun_pure, List.append_nil]
    exact (hr σ).mono fun _ => .inr
  · simp only [Walk.begun_bind]
    split
    · simp only [Walk.begun_pure, List.append_nil]
      exact (hl σ).mono fun _ => .inl
    · simp only [Walk.begun_bind, Walk.begun_pure, List.append_nil, List.map_append]
      exact (hl σ).append (hr _) hPQ

theorem clean_logicalAnd (hl : u.Begins P left) (hr : u.Begins Q right) (hPQ : ∀ b, P b → ¬ Q b) :
    Clean (fun b => P b ∨ Q b) ((u.logicalAnd left right σ).begun.map Prod.fst) := by
  unfold logicalAnd
  split
  · exact (hr σ).mono fun _ => .inr
  · exact .nil
  · simp only [Walk.begun_bind, Walk.begun_pure, List.append_nil, List.map_append]
    exact (hl σ).append (hr _) hPQ

theorem clean_logicalOr (hl : u.Begins P left) (hr : u.Begins Q right) (hPQ : ∀ b, P b → ¬ Q b) :
    Clean (fun b => P b ∨ Q b) ((u.logicalOr left right σ).begun.map Prod.fst) := by
  unfold logicalOr
  split
  · exact (hr σ).mono fun _ => .inr
  · exact .nil
  · simp only [Walk.begun_bind, Walk.begun_pure, List.append_nil, List.map_append]
    exact (hl σ).append (hr _) hPQ

theorem clean_coalesce (hl : u.Begins P left) (hr : u.Begins Q right) (hPQ : ∀ b, P b → ¬ Q b) :
    Clean (fun b => P b ∨ Q b) ((u.coalesce left right σ).begun.map Prod.fst) := by
  unfold coalesce
  split
  · exact (hr σ).mono fun _ => .inr
  · simp only [Walk.begun_bind, Walk.begun_pure, List.append_nil, List.map_append]
    exact (hl σ).append (hr _) hPQ

theorem clean_children {t : Tree} (ht : u.tree = t)
    (hw : t.WellFormed) {nodes : List NodeId} (hn : nodes.Nodup)
    (hp : ∀ c ∈ nodes, t.parent c = some i)
    (hc : ∀ c ∈ nodes, (t.kind c).isStatement = false → u.Begins (t.Starts c) c) :
    Clean (t.Begun i (· ∈ nodes)) ((u.children nodes σ).begun.map Prod.fst) := by
  induction nodes generalizing σ with
  | nil => exact .nil
  | cons c rest ih =>
      obtain ⟨hcr, hn⟩ := List.nodup_cons.mp hn
      have ih (σ : Status) := ih (σ := σ) hn (fun d hd => hp d (List.mem_cons_of_mem _ hd))
        fun d hd => hc d (List.mem_cons_of_mem _ hd)
      unfold children
      rw [ht]
      split
      · refine (ih σ).mono ?_
        rintro b ⟨d, hd, hm, hs⟩
        exact ⟨d, hd, List.mem_cons_of_mem _ hm, hs⟩
      · simp only [Walk.begun_bind, List.map_append]
        refine ((hc c List.mem_cons_self (Bool.not_eq_true _ ▸ ‹_›) σ).append (ih _) ?_).mono ?_
        · rintro b hs ⟨d, hd, hm, hs'⟩
          cases hw.eq_of_below (hp c List.mem_cons_self) hd (hs.to_below hw) (hs'.to_below hw)
          exact hcr hm
        · rintro b (hs | ⟨d, hd, hm, hs⟩)
          · exact ⟨c, hp c List.mem_cons_self, List.mem_cons_self, hs⟩
          · exact ⟨d, hd, List.mem_cons_of_mem _ hm, hs⟩

section

variable {t : Tree} {root : NodeId} (hcode : t.Code root) (ht : u.tree = t) (hi : t.Below root i)
  (h0 : ∀ σ, (u.walk .null σ).begun = [])
  (hc : ∀ c, t.parent c = some i → (t.kind c).isStatement = false → u.Begins (t.Starts c) c)
include hcode ht hi h0 hc

theorem begins_child {r : Role} (hr : holdsOperand r = true) :
    u.Begins (t.Begun i (t.role · = r)) (u.child i r) := by
  intro σ
  subst ht
  rcases child_eq_null_or_mem (t := u.tree) (p := i) (r := r) with hn | hm
  · rw [child, hn, h0]
    exact .nil
  · have hp := hcode.wellFormed.parent_of_mem_childrenIn hm
    have hrole := (mem_childrenIn_iff.mp hm).2
    refine (hc _ hp (hcode.operand (hi.child hp) (by rwa [hrole])) σ).mono ?_
    exact fun b hb => ⟨_, hp, hrole, hb⟩

theorem clean_conditional :
    Clean (fun b => ∃ R, t.Begun i R b) ((u.conditional i σ).begun.map Prod.fst) := by
  have hw := hcode.wellFormed
  have hop {r : Role} (hr : holdsOperand r = true) := begins_child hcode ht hi h0 hc hr
  have hsome {r : Role} {l : List NodeId} (h : Clean (t.Begun i (t.role · = r)) l) :
      Clean (fun b => ∃ R, t.Begun i R b) l :=
    h.mono fun b hb => ⟨_, hb⟩
  unfold conditional
  simp only
  split
  · exact hsome (hop rfl σ)
  · exact hsome (hop rfl σ)
  · simp only [Walk.begun_bind, Walk.begun_pure, List.append_nil, List.map_append]
    have hrest :=
      (hop (r := .trueExpression) rfl (u.walk (u.child i .condition) σ).value.ifTrue).append
      (hop (r := .falseExpression) rfl (u.walk (u.child i .condition) σ).value.ifFalse)
      fun b h => h.disjoint_role hw nofun
    refine ((hop (r := .condition) rfl σ).append hrest ?_).mono ?_
    · intro b h
      have htrue : ¬ t.Begun i (t.role · = .trueExpression) b := h.disjoint_role hw nofun
      have hfalse : ¬ t.Begun i (t.role · = .falseExpression) b := h.disjoint_role hw nofun
      exact not_or.mpr ⟨htrue, hfalse⟩
    · rintro b (h | h | h) <;> exact ⟨_, h⟩

/-- A walk begins what the node starts. -/
theorem clean_expression (hflat : t.Unnested root) (hk : (t.kind i).isStatement = false) :
    Clean (t.Starts i) ((u.expression i σ).begun.map Prod.fst) := by
  have hw := hcode.wellFormed
  have hop {r : Role} (hr : holdsOperand r = true) := begins_child hcode ht hi h0 hc hr
  have hnull : u.Begins (fun _ => False) .null := fun σ => by
    rw [h0]
    exact .nil
  have hstarts {P : NodeId → Prop} {l : List NodeId} (hf : t.isFunction i = false) (h : Clean P l)
      (hP : ∀ b, P b → ∃ R, t.Begun i R b) : Clean (t.Starts i) l :=
    h.mono fun b hb => by
      obtain ⟨_, c, hc, -, hs⟩ := hP b hb
      exact .child hk hf hc hs
  cases hf : t.isFunction i with
  | true =>
      have hfunction : Clean (t.Starts i) ((u.function i σ).begun.map Prod.fst) := by
        unfold function
        rw [ht]
        simp only
        split
        · simp only [Walk.begun_bind, Walk.begun_begin, Walk.begun_pure, List.append_nil,
            List.map_cons, List.map_nil]
          refine ⟨by simp, fun hb => ?_⟩
          cases List.mem_singleton.mp hb
          exact .body hf (by rw [child, ht]) ‹_›
        · rename_i hs
          simp only [Walk.begun_bind, Walk.begun_pure, List.append_nil]
          rcases child_eq_null_or_mem (t := t) (p := i) (r := .body) with hn | hm
          · rw [child, ht, hn, h0]
            exact .nil
          · have hs := Bool.not_eq_true _ ▸ hs
            rw [child, ht] at hs ⊢
            refine (hc _ (hw.parent_of_mem_childrenIn hm) hs σ).mono fun b hb => ?_
            exact absurd (hb.to_below hw) (hflat i hi hf hs b hb.isBody)
      unfold expression
      unfold isFunction at hf
      rw [ht]
      split at hf
      · simp only [*]
      · simp only [*]
      · cases hf
  | false =>
      unfold expression
      rw [ht]
      split
      · exact .nil
      · exact .nil
      · exact hstarts hf (clean_assignment (hop rfl) (hop rfl) fun b h => h.disjoint_role hw nofun)
          fun b hb => hb.elim (⟨_, ·⟩) (⟨_, ·⟩)
      · exact hstarts hf (clean_assignment (hop rfl) hnull fun b _ => not_false) fun b hb =>
          hb.elim (⟨_, ·⟩) False.elim
      · exact hstarts hf (hop rfl σ) fun b hb => ⟨_, hb⟩
      · exact hstarts hf (hop rfl σ) fun b hb => ⟨_, hb⟩
      · exact hstarts hf (hop rfl σ) fun b hb => ⟨_, hb⟩
      · exact hstarts hf (clean_logicalAnd (hop rfl) (hop rfl) fun b h => h.disjoint_role hw nofun)
          fun b hb => hb.elim (⟨_, ·⟩) (⟨_, ·⟩)
      · exact hstarts hf (clean_logicalOr (hop rfl) (hop rfl) fun b h => h.disjoint_role hw nofun)
          fun b hb => hb.elim (⟨_, ·⟩) (⟨_, ·⟩)
      · exact hstarts hf (clean_coalesce (hop rfl) (hop rfl) fun b h => h.disjoint_role hw nofun)
          fun b hb => hb.elim (⟨_, ·⟩) (⟨_, ·⟩)
      · simp only [Walk.begun_bind, Walk.begun_pure, List.append_nil]
        exact hstarts hf (hop rfl σ) fun b hb => ⟨_, hb⟩
      · exact hstarts hf (clean_conditional hcode ht hi h0 hc) fun b hb => hb
      · rename_i hk
        simp [isFunction, hk] at hf
      · rename_i hk
        simp [isFunction, hk] at hf
      · unfold declared
        split
        · exact .nil
        · simp only [Walk.begun_bind, Walk.begun_pure, List.append_nil]
          exact hstarts hf (hop rfl σ) fun b hb => ⟨_, hb⟩
      · refine hstarts hf (clean_children ht hw (hw.linked.nodup i)
          (fun c hc => hw.mem_children.mp hc) ?_) fun b hb => ⟨_, hb⟩
        exact fun c hm => hc c (hw.mem_children.mp hm)

end

theorem clean_walkAll {t : Tree} (hw : t.WellFormed) {nodes : List NodeId} (hn : nodes.Nodup)
    (hp : ∀ c ∈ nodes, t.parent c = some i) (hc : ∀ c ∈ nodes, u.Begins (t.Starts c) c) :
    Clean (t.Begun i (· ∈ nodes)) ((u.walkAll nodes σ).begun.map Prod.fst) := by
  induction nodes generalizing σ with
  | nil => exact .nil
  | cons c rest ih =>
      obtain ⟨hcr, hn⟩ := List.nodup_cons.mp hn
      have ih (σ : Status) := ih (σ := σ) hn (fun d hd => hp d (List.mem_cons_of_mem _ hd))
        fun d hd => hc d (List.mem_cons_of_mem _ hd)
      unfold walkAll
      simp only [Walk.begun_bind, List.map_append]
      refine ((hc c List.mem_cons_self σ).append (ih _) ?_).mono ?_
      · rintro b hs ⟨d, hd, hm, hs'⟩
        cases hw.eq_of_below (hp c List.mem_cons_self) hd (hs.to_below hw) (hs'.to_below hw)
        exact hcr hm
      · rintro b (hs | ⟨d, hd, hm, hs⟩)
        · exact ⟨c, hp c List.mem_cons_self, List.mem_cons_self, hs⟩
        · exact ⟨d, hd, List.mem_cons_of_mem _ hm, hs⟩

end

section

variable {a : Assignment} {v : String} {root i : NodeId} {x : Point} {σ : Status}
  (hcode : a.tree.Code root)
  (hflat : a.tree.Unnested root)
include hcode hflat

theorem begins_within (depth : Nat) (hi : a.tree.Below root i)
    (hk : (a.tree.kind i).isStatement = false) : (within a v depth).Begins (a.tree.Starts i) i := by
  induction depth generalizing i with
  | zero => exact fun σ => .nil
  | succ depth ih =>
      refine fun σ => clean_expression hcode tree_within hi (fun σ => ?_)
        (fun c hc hk => ih (hi.child hc) hk) hflat hk
      rw [walk_of_null hcode.wellFormed.null_kind]
      rfl

/-- A point begins what the children of its statement start. -/
theorem clean_carry (hi : a.tree.Below root x.next) :
    Clean (a.tree.Begun x.next fun _ => True) (((full a v).carry x σ).begun.map Prod.fst) := by
  have hw := hcode.wellFormed
  have htree : (full a v).tree = a.tree := tree_within
  have hany {R : NodeId → Prop} {l : List NodeId} (h : Clean (a.tree.Begun x.next R) l) :
      Clean (a.tree.Begun x.next fun _ => True) l :=
    h.mono fun b ⟨c, hc, _, hs⟩ => ⟨c, hc, trivial, hs⟩
  have hbegins {c : NodeId} (hc : a.tree.parent c = some x.next)
    (hk : (a.tree.kind c).isStatement = false) :
      (full a v).Begins (a.tree.Starts c) c :=
    begins_within hcode hflat _ (hi.child hc) hk
  have hop {r : Role} (hr : holdsOperand r = true) (σ : Status) :
      Clean (a.tree.Begun x.next fun _ => True)
        (((full a v).walk ((full a v).child x.next r) σ).begun.map Prod.fst) := by
    refine hany (begins_child hcode htree hi (fun σ => ?_) (fun c hc hk => hbegins hc hk) hr σ)
    rw [full, walk_of_null hw.null_kind]
    rfl
  have hcondition : Clean (a.tree.Begun x.next fun _ => True)
      (((full a v).condition x σ).begun.map Prod.fst) := by
    unfold condition
    simp only [Walk.begun_bind, Walk.begun_pure, List.append_nil]
    exact hop rfl σ
  have hall : Clean (a.tree.Begun x.next fun _ => True)
      (((full a v).walkAll (a.tree.childrenIn x.next .variable_) σ).begun.map Prod.fst) := by
    refine hany (clean_walkAll hw hw.nodup_childrenIn (fun c hc => hw.parent_of_mem_childrenIn hc)
      fun c hc => ?_)
    have hp := hw.parent_of_mem_childrenIn hc
    refine hbegins hp (hcode.operand (hi.child hp) ?_)
    rw [(mem_childrenIn_iff.mp hc).2]
    rfl
  have hstatement : Clean (a.tree.Begun x.next fun _ => True)
      (((full a v).statement x.next σ).begun.map Prod.fst) := by
    unfold statement
    rw [htree]
    split
    · exact hop rfl σ
    · exact hop rfl σ
    · exact hop rfl σ
    · exact hop rfl σ
    · exact hop rfl σ
    · exact hop rfl σ
    · exact hall
    · exact hall
    · simp only
      split
      · rename_i he
        rw [child, htree] at he ⊢
        have hk : (a.tree.kind (a.tree.child x.next .resource)).isStatement = false := by
          cases hk : a.tree.kind (a.tree.child x.next .resource)
            <;> simp_all [Kind.isExpression, Kind.isStatement]
        rcases hw.child_cases (p := x.next) (r := .resource) with hn | hp
        · rw [hn, full, walk_of_null hw.null_kind]
          exact .nil
        · exact (hbegins hp hk σ).mono fun b hs => ⟨_, hp, trivial, hs⟩
      · exact .nil
    · exact .nil
  have hentering : Clean (a.tree.Begun x.next fun _ => True)
      (((full a v).entering x σ).begun.map Prod.fst) := by
    unfold entering
    split
    · exact .nil
    · simp only [Walk.begun_bind, Walk.begun_pure, List.append_nil]
      exact hstatement
  unfold carry
  split
  · split
    · exact hcondition
    · exact hentering
  · split
    · exact hcondition
    · exact hentering
  · exact .nil
  · split
    · unfold iteration
      simp only [Walk.begun_bind, Walk.begun_pure, List.append_nil]
      exact hop rfl σ
    · exact hcondition

omit hcode hflat in
theorem carry_of_loop {k : StatementKind} (hk : a.tree.kind x.next = .statement k)
    (hl : k.isLoop = true) (hx : x.kind = .start ∨ x.kind = .between) :
    ((full a v).carry x σ).begun = [] := by
  have hentering : ((full a v).entering x σ).begun = [] := by
    unfold entering statement
    rw [full, tree_within, hk]
    split
    · rfl
    · cases k <;> first | rfl | cases hl
  have hne : (full a v).tree.kind x.next ≠ .statement .branch := by
    rw [full, tree_within, hk]
    rintro ⟨⟩
    cases hl
  unfold carry
  rcases hx with hx | hx
  · rw [hx]
    simp only [if_neg hne, hentering]
  · rw [hx]
    simp only [if_neg hne, hentering]

end

end View

end TreeScribe.Flow.Assignment
