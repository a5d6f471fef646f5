import TreeScribe.Proofs.Flow.Whole

namespace TreeScribe.Flow

open TreeScribe.Tree Drawing Plan

def Succeeds {α : Type} (m : Drawing α) : Prop := ∀ d, ∃ a d', m.run d = .ok (a, d')

section

variable {α β : Type} {m : Drawing α} {f : α → Drawing β} {a : α}

theorem succeeds_bind (hm : Succeeds m) (hf : ∀ a, Succeeds (f a)) : Succeeds (m >>= f) := by
  intro d
  obtain ⟨a, d', hm⟩ := hm d
  obtain ⟨b, d'', hf⟩ := hf a d'
  exact ⟨b, d'', run_bind_eq_ok.mpr ⟨a, d', hm, hf⟩⟩

theorem succeeds_pure : Succeeds (pure a : Drawing α) := fun d => ⟨a, d, rfl⟩

theorem succeeds_get : Succeeds (get : Drawing Draft) := fun d => ⟨d, d, rfl⟩

theorem succeeds_modify {f : Draft → Draft} : Succeeds (modify f : Drawing Unit) :=
  fun d => ⟨(), f d, rfl⟩

theorem succeeds_ite {p : Prop} [Decidable p] {m' : Drawing α} (hm : p → Succeeds m)
    (hm' : ¬p → Succeeds m') : Succeeds (if p then m else m') := by
  split
  · exact hm ‹p›
  · exact hm' ‹¬p›

theorem succeeds_list {p : PointId} : Succeeds (list p) := succeeds_modify

theorem succeeds_add {previous next : NodeId} {kind : PointKind} :
    Succeeds (add previous next kind) :=
  fun _ => ⟨_, _, rfl⟩

theorem succeeds_join {source target : PointId} {kind : EdgeKind} :
    Succeeds (join source target kind) :=
  fun _ => ⟨_, _, rfl⟩

theorem succeeds_joinIf {source target : Option PointId} {kind : EdgeKind} :
    Succeeds (joinIf source target kind) :=
  fun _ => ⟨(), _, run_joinIf_eq_ok.mpr rfl⟩

theorem succeeds_startPoint {i : NodeId} : Succeeds (startPoint i) :=
  fun _ => ⟨_, _, run_startPoint_eq_ok.mpr ⟨rfl, rfl⟩⟩

theorem succeeds_conditionPoint {i : NodeId} : Succeeds (conditionPoint i) := succeeds_add

end

section

variable {c : Plan} {τ : Targets} {i j : NodeId} {p q : Option PointId}

theorem succeeds_endPoint : Succeeds (c.endPoint i) := succeeds_add

theorem succeeds_listedEnd : Succeeds (c.listedEnd i) :=
  succeeds_bind succeeds_endPoint fun _ => succeeds_bind succeeds_list fun _ => succeeds_pure

theorem succeeds_reachedEnd : Succeeds (c.reachedEnd i p) :=
  succeeds_bind succeeds_listedEnd fun _ => succeeds_bind succeeds_joinIf fun _ => succeeds_pure

theorem succeeds_leaveLoop {condition : Option Bool} {at_ stop : PointId} :
    Succeeds (leaveLoop condition at_ stop) :=
  succeeds_ite (fun _ => succeeds_joinIf) fun _ => succeeds_pure

theorem succeeds_joinCaseJumps {starts : List (NodeId × Option PointId)} {stop : PointId}
    {jumps : List PointId} : Succeeds (c.joinCaseJumps starts stop jumps) := by
  induction jumps with
  | nil => exact succeeds_pure
  | cons p rest ih =>
      exact succeeds_bind succeeds_get fun _ => succeeds_bind succeeds_join fun _ => ih

def Enterable (c : Plan) (i : NodeId) : Prop := ∀ τ p, Succeeds (c.draw τ i p)

theorem succeeds_entered {kind : EdgeKind} {isTaken : Bool} (hi : Enterable c i) :
    Succeeds (c.entered τ i p kind isTaken) :=
  succeeds_bind succeeds_startPoint fun _ =>
    succeeds_ite (fun _ => succeeds_bind succeeds_joinIf fun _ => hi _ _) fun _ => hi _ _

variable (hcancel : c.setting.cancelled = false)

include hcancel

theorem succeeds_tick : Succeeds c.tick := by
  intro d
  refine ⟨(), d.tick, ?_⟩
  simp [tick, hcancel]
  rfl

theorem succeeds_embedded (hi : Enterable c i) : Succeeds (c.embedded τ i p) :=
  succeeds_ite (fun _ => succeeds_pure) fun _ =>
    succeeds_bind (succeeds_tick hcancel) fun _ => succeeds_bind succeeds_startPoint fun _ =>
      succeeds_bind succeeds_joinIf fun _ => hi _ _

theorem succeeds_statements {nodes : List NodeId} (hn : ∀ j ∈ nodes, Enterable c j) :
    Succeeds (c.statements τ p nodes) := by
  unfold statements
  generalize none = current
  induction nodes generalizing current with
  | nil => exact succeeds_pure
  | cons j rest ih =>
      obtain ⟨hj, hrest⟩ := List.forall_mem_cons.mp hn
      refine succeeds_bind (succeeds_tick hcancel) fun _ => ?_
      have hdraw (entry : Option PointId) :
          Succeeds (do c.drawList τ p (← c.draw τ j entry) rest) :=
        succeeds_bind (hj τ entry) fun _ => ih hrest _
      cases current with
      | none =>
          exact succeeds_bind succeeds_startPoint fun _ =>
            succeeds_bind succeeds_joinIf fun _ => hdraw _
      | some q => exact hdraw (some q)

theorem succeeds_drawSections {enter : NodeId → Option PointId} {nodes : List NodeId}
    (hn : ∀ x ∈ nodes, ∀ j ∈ c.tree.childrenIn x .statement, Enterable c j) :
    Succeeds (c.drawSections τ enter nodes) := by
  induction nodes with
  | nil => exact succeeds_pure
  | cons x rest ih =>
      obtain ⟨hx, hrest⟩ := List.forall_mem_cons.mp hn
      exact succeeds_bind succeeds_get fun _ =>
        succeeds_bind (succeeds_statements hcancel hx) fun _ =>
        succeeds_bind succeeds_get fun _ => succeeds_bind (ih hrest) fun _ => succeeds_pure

theorem succeeds_drawGuarded {stop : PointId} {bodies : List NodeId}
    (hn : ∀ j ∈ bodies, Enterable c j) : Succeeds (c.drawGuarded τ i p stop bodies) := by
  induction bodies with
  | nil => exact succeeds_pure
  | cons body rest ih =>
      obtain ⟨hbody, hrest⟩ := List.forall_mem_cons.mp hn
      refine succeeds_bind (succeeds_embedded hcancel hbody) fun last => ?_
      cases last with
      | none => exact ih hrest
      | some last =>
          exact succeeds_bind succeeds_join fun _ =>
            succeeds_ite (fun _ => succeeds_bind succeeds_modify fun _ => ih hrest)
              fun _ => ih hrest

section Loops

variable (hbody : Enterable c (c.child i .embeddedStatement))

include hbody

omit hcancel in
theorem succeeds_whileLoop : Succeeds (c.whileLoop i p) :=
  succeeds_bind succeeds_endPoint fun _ => succeeds_bind succeeds_conditionPoint fun _ =>
    succeeds_bind succeeds_list fun _ => succeeds_bind succeeds_joinIf fun _ =>
      succeeds_bind (succeeds_entered hbody) fun _ => succeeds_bind succeeds_joinIf fun _ =>
        succeeds_bind succeeds_leaveLoop fun _ => succeeds_bind succeeds_list fun _ => succeeds_pure

theorem succeeds_foreachLoop : Succeeds (c.foreachLoop i p) :=
  succeeds_bind succeeds_endPoint fun _ => succeeds_bind succeeds_conditionPoint fun _ =>
    succeeds_bind succeeds_list fun _ => succeeds_bind succeeds_joinIf fun _ =>
      succeeds_bind (succeeds_embedded hcancel hbody) fun _ =>
        succeeds_bind succeeds_joinIf fun _ =>
        succeeds_bind succeeds_join fun _ => succeeds_bind succeeds_list fun _ => succeeds_pure

omit hcancel in
theorem succeeds_doLoop : Succeeds (c.doLoop i p) := by
  refine succeeds_bind succeeds_endPoint fun stop =>
    succeeds_bind succeeds_conditionPoint fun test =>
    succeeds_bind succeeds_startPoint fun first => succeeds_bind succeeds_joinIf fun _ =>
      succeeds_bind (hbody _ _) fun _ => succeeds_bind succeeds_joinIf fun _ => ?_
  have hend : Succeeds (do
      leaveLoop (c.condition (c.child i .condition)) test stop
      list test
      list stop
      return some stop) :=
    succeeds_bind succeeds_leaveLoop fun _ => succeeds_bind succeeds_list fun _ =>
      succeeds_bind succeeds_list fun _ => succeeds_pure
  exact succeeds_ite (fun _ => succeeds_bind succeeds_joinIf fun _ => hend) fun _ => hend

theorem succeeds_forLoop (hinit : ∀ j ∈ c.tree.childrenIn i .forInitializer, Enterable c j)
    (hiter : ∀ j ∈ c.tree.childrenIn i .forIterator, Enterable c j) :
    Succeeds (c.forLoop τ i p) := by
  refine succeeds_bind (succeeds_statements hcancel hinit) fun source =>
    succeeds_bind succeeds_endPoint fun stop =>
    succeeds_bind succeeds_conditionPoint fun test => succeeds_bind succeeds_list fun _ =>
      succeeds_bind succeeds_joinIf fun _ => succeeds_bind succeeds_get fun _ =>
        succeeds_bind (succeeds_statements hcancel hiter) fun iterated => ?_
  have hrest (next : PointId) : Succeeds (do
      let first ← startPoint (c.child i .embeddedStatement)
      let last ← c.draw ⟨some stop, some next⟩ (c.child i .embeddedStatement) first
      joinIf last (some next) .normal
      let condition :=
        if c.child i .condition = .null then some true else c.condition (c.child i .condition)
      if condition != some false then joinIf (some test) first .whenTrue
      leaveLoop condition test stop
      list stop
      return some stop) := by
    refine succeeds_bind succeeds_startPoint fun first => succeeds_bind (hbody _ _) fun _ =>
      succeeds_bind succeeds_joinIf fun _ => ?_
    have hend : Succeeds (do
        leaveLoop (c.loopCondition i) test stop
        list stop
        return some stop) :=
      succeeds_bind succeeds_leaveLoop fun _ => succeeds_bind succeeds_list fun _ => succeeds_pure
    exact succeeds_ite (fun _ => succeeds_bind succeeds_joinIf fun _ => hend) fun _ => hend
  cases iterated with
  | none => exact hrest test
  | some q => exact succeeds_bind succeeds_join fun _ => succeeds_bind succeeds_get fun _ => hrest _

end Loops

theorem succeeds_switch
    (hsection : ∀ s ∈ c.tree.childrenIn i .switchSection, ∀ j ∈ c.tree.childrenIn s .statement,
      Enterable c j) :
    Succeeds (c.switch τ i p) := by
  refine succeeds_bind succeeds_get fun outer => succeeds_bind succeeds_modify fun _ =>
    succeeds_bind succeeds_endPoint fun stop =>
      succeeds_bind (succeeds_drawSections hcancel hsection) fun starts => ?_
  have hend : Succeeds (do
      let jumps := (← get).caseJumps.reverse
      modify fun d => { d with caseJumps := outer.caseJumps }
      c.joinCaseJumps starts stop jumps
      list stop
      return some stop) :=
    succeeds_bind succeeds_get fun _ => succeeds_bind succeeds_modify fun _ =>
      succeeds_bind succeeds_joinCaseJumps fun _ => succeeds_bind succeeds_list fun _ =>
        succeeds_pure
  exact succeeds_ite (fun _ => succeeds_bind succeeds_joinIf fun _ => hend) fun _ => hend

theorem succeeds_tryCatch (hbody : ∀ r, holdsStatement r = true → Enterable c (c.child i r))
    (hclause : ∀ s ∈ c.tree.childrenIn i .catchClause, Enterable c (c.child s .body)) :
    Succeeds (c.tryCatch τ i p) := by
  have hguarded : ∀ j ∈ c.child i .tryBlock :: (c.tree.childrenIn i .catchClause).map fun s =>
    c.child s .body,
      Enterable c j := by
    refine List.forall_mem_cons.mpr ⟨hbody .tryBlock rfl, fun j hj => ?_⟩
    obtain ⟨s, hs, rfl⟩ := List.mem_map.mp hj
    exact hclause s hs
  refine succeeds_bind succeeds_endPoint fun stop =>
    succeeds_bind (succeeds_drawGuarded hcancel hguarded) fun _ => ?_
  have hend : Succeeds (do
      list stop
      return some stop) :=
    succeeds_bind succeeds_list fun _ => succeeds_pure
  exact succeeds_ite (fun _ => succeeds_bind (succeeds_embedded hcancel (hbody .finallyBlock rfl))
    fun _ => hend)
    fun _ => hend

omit hcancel in
theorem succeeds_branch (hbody : ∀ r, holdsStatement r = true → Enterable c (c.child i r)) :
    Succeeds (c.branch τ i p) := by
  refine succeeds_bind (succeeds_entered (hbody .trueStatement rfl)) fun positive =>
    succeeds_bind (succeeds_entered (hbody .falseStatement rfl)) fun negative =>
      succeeds_bind succeeds_listedEnd fun stop => succeeds_bind succeeds_joinIf fun _ => ?_
  exact succeeds_ite (fun _ => succeeds_bind succeeds_joinIf fun _ => succeeds_pure)
    fun _ => succeeds_ite (fun _ => succeeds_bind succeeds_joinIf fun _ => succeeds_pure) fun _ =>
      succeeds_pure

theorem succeeds_wrapped {r : Role} (hbody : Enterable c (c.child i r)) :
    Succeeds (c.wrapped τ i r p) :=
  succeeds_bind (succeeds_embedded hcancel hbody) fun _ => succeeds_reachedEnd

theorem succeeds_statement {k : StatementKind}
    (hbody : ∀ r, holdsStatement r = true → Enterable c (c.child i r))
    (hlist : ∀ r, holdsStatement r = true → ∀ j ∈ c.tree.childrenIn i r, Enterable c j)
    (hsection : ∀ s ∈ c.tree.childrenIn i .switchSection, ∀ j ∈ c.tree.childrenIn s .statement,
      Enterable c j)
    (hclause : ∀ s ∈ c.tree.childrenIn i .catchClause, Enterable c (c.child s .body))
    (hresource : (c.tree.kind (c.child i .resource)).isStatement = true →
      Enterable c (c.child i .resource)) :
    Succeeds (c.statement τ i p k) := by
  have hloop := hbody .embeddedStatement rfl
  cases k with
  | empty | expression | locals | yieldReturn => exact succeeds_reachedEnd
  | return_ | throw | yieldBreak => exact succeeds_bind succeeds_listedEnd fun _ => succeeds_pure
  | checked | unchecked | unsafeBlock => exact succeeds_wrapped hcancel (hbody .body rfl)
  | lock | fixed => exact succeeds_wrapped hcancel hloop
  | gotoCase | gotoDefault | goto =>
      exact succeeds_bind succeeds_modify fun _ => succeeds_bind succeeds_listedEnd fun _ =>
        succeeds_pure
  | label =>
      exact succeeds_bind succeeds_listedEnd fun _ => succeeds_bind succeeds_joinIf fun _ =>
        succeeds_bind succeeds_modify fun _ => succeeds_pure
  | break_ | continue_ =>
      exact succeeds_bind succeeds_joinIf fun _ => succeeds_bind succeeds_listedEnd fun _ =>
        succeeds_pure
  | block =>
      exact succeeds_bind (succeeds_statements hcancel (hlist .statement rfl)) fun _ =>
        succeeds_reachedEnd
  | branch => exact succeeds_branch hbody
  | whileLoop => exact succeeds_whileLoop hloop
  | foreachLoop => exact succeeds_foreachLoop hcancel hloop
  | doLoop => exact succeeds_doLoop hloop
  | forLoop =>
      exact succeeds_forLoop hcancel hloop (hlist .forInitializer rfl) (hlist .forIterator rfl)
  | switch => exact succeeds_switch hcancel hsection
  | tryCatch => exact succeeds_tryCatch hcancel hbody hclause
  | usingResource =>
      exact succeeds_ite
        (fun hv => succeeds_bind (succeeds_embedded hcancel (hresource hv)) fun _ =>
          succeeds_wrapped hcancel hloop)
        fun _ => succeeds_wrapped hcancel hloop

end

section

variable {t : Tree} {root i : NodeId} {s : Setting}

/-- A statement of a program can be drawn. -/
theorem succeeds_drawWithin (hprog : t.Program root)
    (hcancel : s.cancelled = false) {fuel : Nat} {τ : Targets} {p : Option PointId}
    (hi : t.Inside root i) (hk : (t.kind i).isStatement = true) :
    Succeeds (drawWithin t root s fuel τ i p) := by
  have hw := hprog.wellFormed
  induction fuel generalizing i τ p with
  | zero => exact succeeds_pure
  | succ fuel ih =>
      have hnull : Enterable ⟨t, root, s, drawWithin t root s fuel⟩ .null := by
        intro τ p
        cases fuel with
        | zero => exact succeeds_pure
        | succ fuel =>
            show Succeeds (Plan.node ⟨t, root, s, drawWithin t root s fuel⟩ τ .null p)
            simp only [Plan.node, hw.null_kind]
            exact succeeds_pure
      have hpart {j : NodeId} (hj : t.Part i j) (hr : holdsStatement (t.role j) = true) :
          Enterable ⟨t, root, s, drawWithin t root s fuel⟩ j :=
        fun τ p => ih (hi.part hk hj) (hprog.isStatement hi hk hj hr)
      obtain ⟨k, hkind⟩ : ∃ k, t.kind i = .statement k := by
        cases hkind : t.kind i with
        | statement k => exact ⟨k, rfl⟩
        | _ =>
            rw [hkind] at hk
            cases hk
      show Succeeds (Plan.node ⟨t, root, s, drawWithin t root s fuel⟩ τ i p)
      simp only [Plan.node, hkind]
      refine succeeds_statement hcancel (fun r hr => ?_) (fun r hr j hj => ?_) (fun x hx j hj => ?_)
        (fun x hx => ?_)
        fun hv => ?_
      · rcases child_eq_null_or_mem (t := t) (p := i) (r := r) with h0 | hmem
        · exact (congrArg (Enterable _) h0).mpr hnull
        · exact hpart (hw.part_of_mem hmem) ((mem_childrenIn_iff.mp hmem).2.symm ▸ hr)
      · exact hpart (hw.part_of_mem hj) ((mem_childrenIn_iff.mp hj).2.symm ▸ hr)
      · exact hpart (hw.part_of_group hx rfl (hw.parent_of_mem_childrenIn hj))
          (congrArg holdsStatement (mem_childrenIn_iff.mp hj).2)
      · rcases child_eq_null_or_mem (t := t) (p := x) (r := .body) with h0 | hmem
        · exact (congrArg (Enterable _) h0).mpr hnull
        · exact hpart (hw.part_of_group hx rfl (hw.parent_of_mem_childrenIn hmem))
            (congrArg holdsStatement (mem_childrenIn_iff.mp hmem).2)
      · have hmem := child_eq_null_or_mem.resolve_left (hw.ne_null_of_isStatement hv)
        exact fun τ p => ih (hi.part hk (hw.part_of_mem hmem)) hv

theorem succeeds_joinGotos {gotos : List PointId} : Succeeds (joinGotos t gotos) := by
  induction gotos with
  | nil => exact succeeds_pure
  | cons p rest ih =>
      exact succeeds_bind succeeds_get fun _ => succeeds_bind succeeds_joinIf fun _ => ih

/-- The graph of a statement tree can be built. -/
theorem ofStatement_eq_ok (hprog : t.Program root) (hcancel : s.cancelled = false) :
    ∃ g, Graph.ofStatement t root s = .ok g := by
  have hdrawing : Succeeds (do
      let _ ← drawWithin t root s t.size ⟨none, none⟩ root (← startPoint root)
      joinGotos t (← get).gotos.reverse) :=
    succeeds_bind succeeds_startPoint fun _ =>
      succeeds_bind (succeeds_drawWithin hprog hcancel .self hprog.root_isStatement) fun _ =>
        succeeds_bind succeeds_get fun _ => succeeds_joinGotos
  obtain ⟨_, d, hd⟩ := hdrawing (.blank .empty)
  refine ⟨{ markFrom t d.graph Graph.empty.edges.size with order := d.listed.toList }, ?_⟩
  simp only [Graph.ofStatement, Graph.draw, hprog.root_isStatement, Bool.not_true,
    Bool.false_eq_true, if_false]
  unfold Draft.blank at hd
  rw [hd]
  rfl

end

end TreeScribe.Flow
