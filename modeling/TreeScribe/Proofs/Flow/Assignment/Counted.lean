import TreeScribe.Proofs.Flow.Assignment.Evaluation
import TreeScribe.Proofs.Flow.Assignment.Least

namespace TreeScribe.Flow.Assignment

open TreeScribe.Tree

section

variable (t : Tree) (v : String) (r : Resolver)

/-- The node assigns the variable: by `=`, as an argument passed by `out`, or as a declaration with
an initializer. -/
inductive Assigns (i : NodeId) : Prop
  | assign (hk : t.kind i = .expression (.assignment .assign))
    (hl : t.kind (t.child i .left) = .expression .identifier) (hn : t.name (t.child i .left) = v)
  | pass (hk : t.kind i = .expression (.direction .out))
    (he : t.kind (t.child i .expression) = .expression .identifier)
    (hn : t.name (t.child i .expression) = v)
  | declared (hk : t.kind i = .part .variable_) (hi : t.hasChild i .initializer = true)
      (hn : t.name i = v)

def firstRoles : Kind → List Role
  | .expression (.assignment .assign) => [.left, .right]
  | .expression (.direction .out) | .expression (.unary .not) => [.expression]
  | .expression .parenthesized | .expression .checked | .expression .unchecked => [.expression]
  | .expression (.binary .condAnd) | .expression (.binary .condOr)
  | .expression (.binary .coalesce) => [.left]
  | .expression .conditional => [.condition]
  | .part .variable_ => [.initializer]
  | _ => []

/-- `j` is walked whenever `i` is. What has a constant value need not be walked. -/
inductive Always : NodeId → NodeId → Prop
  | self {i} : Always i i
  | operand {i c j} (hs : isSpecial (t.kind i) = false) (hc : c ∈ operands t i) (h : Always c j) :
      Always i j
  | first {i p j} (hp : p ∈ firstRoles (t.kind i)) (hr : r t (t.child i p) = none)
      (h : Always (t.child i p) j) : Always i j

/-- `j` is in `i`, but in no function and in no operand that `??` may skip. -/
inductive Counts : NodeId → NodeId → Prop
  | self {i} : Counts i i
  | inside {i c j} (hc : t.parent c = some i) (hf : t.isFunction i = false)
    (hr : t.kind i = .expression (.binary .coalesce) → t.role c = .right →
      r t (t.child i .left) = some .null)
    (h : Counts c j) : Counts i j

end

namespace View

section

variable {u : View} {i j c left right : NodeId} {σ : Status}

theorem value_children_assigned (hu : ∀ j, (u.walk j .assigned).value = .assigned)
    {nodes : List NodeId} : (u.children nodes .assigned).value = .assigned := by
  induction nodes with
  | nil => rfl
  | cons j rest ih =>
      unfold children
      split
      · exact ih
      · rw [Walk.value_bind, hu]
        exact ih

theorem value_children_of_mem (hu : ∀ j, (u.walk j .assigned).value = .assigned)
    {nodes : List NodeId} (hc : c ∈ nodes) (hs : (u.tree.kind c).isStatement = false)
    (h : ∀ τ, (u.walk c τ).value = .assigned) : (u.children nodes σ).value = .assigned := by
  induction nodes generalizing σ with
  | nil => cases hc
  | cons j rest ih =>
      unfold children
      rcases List.mem_cons.mp hc with rfl | hc
      · rw [if_neg (by simp [hs]), Walk.value_bind, h]
        exact value_children_assigned hu
      · split
        · exact ih hc
        · exact ih hc

theorem value_children_potential {nodes : List NodeId}
    (h : ∀ j ∈ nodes, (u.walk j .potential).value = .potential) :
    (u.children nodes .potential).value = .potential := by
  induction nodes with
  | nil => rfl
  | cons j rest ih =>
      have ih := ih fun j hj => h j (List.mem_cons_of_mem _ hj)
      unfold children
      split
      · exact ih
      · rw [Walk.value_bind, h j List.mem_cons_self]
        exact ih

theorem expression_of_operation (hs : isSpecial (u.tree.kind i) = false) :
    u.expression i σ = u.children (u.tree.children i) σ := by
  unfold expression
  split <;> simp_all

theorem isVariable_iff : u.isVariable i = true ↔
    u.tree.kind i = .expression .identifier ∧ u.tree.name i = u.variableName := by
  simp [isVariable]

theorem value_of_assigns (h : Assigns u.tree u.variableName i) :
    (u.expression i σ).value = .assigned := by
  unfold expression
  cases h with
  | assign hk hl hn =>
      have hv : u.isVariable (u.child i .left) = true := isVariable_iff.mpr ⟨hl, hn⟩
      rw [hk]
      simp only [assignment, hv]
      rfl
  | pass hk he hn =>
      have hv : u.isVariable (u.child i .expression) = true := isVariable_iff.mpr ⟨he, hn⟩
      rw [hk]
      simp only [assignment, hv]
      rfl
  | declared hk hi hn =>
      rw [hk]
      simp [declared, hi, hn, Walk.value_pure]

section

variable (hu : ∀ j, (u.walk j .assigned).value = .assigned)
include hu

theorem value_assignment_of_left (h : ∀ τ, (u.walk left τ).value = .assigned) :
    (u.assignment left right σ).value = .assigned := by
  unfold assignment
  split
  · rfl
  · rw [Walk.value_bind, h]
    split
    · rfl
    · have hclean : Status.assigned.clean = .assigned := rfl
      rw [Walk.value_bind, hclean, hu]
      rfl

theorem value_logicalAnd_of_left (hc : u.condition? left = none)
    (h : ∀ τ, (u.walk left τ).value = .assigned) :
    (u.logicalAnd left right σ).value = .assigned := by
  have htrue : Status.assigned.ifTrue = .assigned := rfl
  unfold logicalAnd
  rw [hc, Walk.value_bind, h, Walk.value_bind, htrue, hu]
  rfl

theorem value_logicalOr_of_left (hc : u.condition? left = none)
    (h : ∀ τ, (u.walk left τ).value = .assigned) :
    (u.logicalOr left right σ).value = .assigned := by
  have hfalse : Status.assigned.ifFalse = .assigned := rfl
  unfold logicalOr
  rw [hc, Walk.value_bind, h, Walk.value_bind, hfalse, hu]
  rfl

theorem value_conditional_of_condition (hc : u.condition? (u.child i .condition) = none)
    (h : ∀ τ, (u.walk (u.child i .condition) τ).value = .assigned) :
    (u.conditional i σ).value = .assigned := by
  have htrue : Status.assigned.ifTrue = .assigned := rfl
  have hfalse : Status.assigned.ifFalse = .assigned := rfl
  unfold conditional
  simp only [hc]
  rw [Walk.value_bind, h, Walk.value_bind, htrue, hu, Walk.value_bind, hfalse, hu]
  rfl

omit hu in
theorem value_assignment_of_right (hright : right ≠ .null)
    (h : ∀ τ, (u.walk right τ).value = .assigned) :
    (u.assignment left right σ).value = .assigned := by
  unfold assignment
  simp only [if_neg hright]
  split
  · rfl
  · rw [Walk.value_bind, Walk.value_bind, h]
    rfl

omit hu in
theorem value_coalesce_of_left (hc : u.analysis.resolver u.tree left = none)
    (h : ∀ τ, (u.walk left τ).value = .assigned) : (u.coalesce left right σ).value = .assigned := by
  unfold coalesce
  rw [if_neg (by simp [hc]), Walk.value_bind, h]
  rfl

omit hu in
theorem value_declared (h : ∀ τ, (u.walk (u.child i .initializer) τ).value = .assigned)
    (hi : u.tree.hasChild i .initializer = true) : (u.declared i σ).value = .assigned := by
  unfold declared
  rw [if_neg (by simp [hi]), Walk.value_bind, h]
  split <;> rfl

/-- What is evaluated in any case assigns for the whole. -/
theorem value_of_first (h0 : ∀ τ, (u.walk .null τ).value = τ)
    {p : Role} (hp : p ∈ firstRoles (u.tree.kind i))
    (hr : u.analysis.resolver u.tree (u.child i p) = none)
    (h : ∀ τ, (u.walk (u.child i p) τ).value = .assigned) :
    (u.expression i σ).value = .assigned := by
  have hcondition : u.condition? (u.child i p) = none := by
    unfold condition? Resolver.condition?
    rw [hr]
    rfl
  have hnull : u.child i p ≠ .null := by
    intro hn
    rw [hn] at h
    cases (h0 .potential).symm.trans (h .potential)
  unfold firstRoles at hp
  rw [expression]
  split at hp
  case h_12 => cases hp
  all_goals
    rename_i hk
    rw [hk]
  · rcases List.mem_pair.mp hp with rfl | rfl
    · exact value_assignment_of_left hu h
    · exact value_assignment_of_right hnull h
  all_goals cases List.mem_singleton.mp hp
  · exact value_assignment_of_left hu h
  · dsimp only
    rw [Walk.value_bind, h]
    rfl
  · exact h σ
  · exact h σ
  · exact h σ
  · exact value_logicalAnd_of_left hu hcondition h
  · exact value_logicalOr_of_left hu hcondition h
  · exact value_coalesce_of_left hr h
  · exact value_conditional_of_condition hu hcondition h
  · exact value_declared h (by simpa [hasChild, child] using hnull)

end

theorem value_assignment_potential (hv : u.isVariable left = false)
    (hl : (u.walk left .potential).value = .potential)
    (hr : (u.walk right .potential).value = .potential) :
    (u.assignment left right .potential).value = .potential := by
  have hclean : Status.potential.clean = .potential := rfl
  unfold assignment
  rw [if_neg (by simp [hv]), Walk.value_bind, hl, hclean]
  split
  · rfl
  · rw [Walk.value_bind, hr]
    rfl

theorem value_logicalAnd_potential (hl : (u.walk left .potential).value = .potential)
    (hr : (u.walk right .potential).value = .potential) :
    (u.logicalAnd left right .potential).value = .potential := by
  have htrue : Status.potential.ifTrue = .potential := rfl
  unfold logicalAnd
  split
  · exact hr
  · rfl
  · rw [Walk.value_bind, hl, Walk.value_bind, htrue, hr]
    rfl

theorem value_logicalOr_potential (hl : (u.walk left .potential).value = .potential)
    (hr : (u.walk right .potential).value = .potential) :
    (u.logicalOr left right .potential).value = .potential := by
  have hfalse : Status.potential.ifFalse = .potential := rfl
  unfold logicalOr
  split
  · exact hr
  · rfl
  · rw [Walk.value_bind, hl, Walk.value_bind, hfalse, hr]
    rfl

theorem value_coalesce_potential (hl : (u.walk left .potential).value = .potential)
    (hr : u.analysis.resolver u.tree left = some .null →
      (u.walk right .potential).value = .potential) :
    (u.coalesce left right .potential).value = .potential := by
  unfold coalesce
  split
  · exact hr ‹_›
  · rw [Walk.value_bind, hl]
    rfl

theorem value_conditional_potential
    (hc : (u.walk (u.child i .condition) .potential).value = .potential)
    (ht : (u.walk (u.child i .trueExpression) .potential).value = .potential)
    (hf : (u.walk (u.child i .falseExpression) .potential).value = .potential) :
    (u.conditional i .potential).value = .potential := by
  have htrue : Status.potential.ifTrue = .potential := rfl
  have hfalse : Status.potential.ifFalse = .potential := rfl
  unfold conditional
  dsimp only
  split
  · exact ht
  · exact hf
  · rw [Walk.value_bind, hc, Walk.value_bind, htrue, ht, Walk.value_bind, hfalse, hf]
    rfl

theorem value_function : (u.function i σ).value = σ := by
  unfold function
  dsimp only
  split <;> rfl

theorem value_declared_potential
    (hn : u.tree.hasChild i .initializer = true → u.tree.name i ≠ u.variableName)
    (h : (u.walk (u.child i .initializer) .potential).value = .potential) :
    (u.declared i .potential).value = .potential := by
  unfold declared
  split
  · rfl
  · rename_i hi
    rw [Walk.value_bind, h, if_neg (hn (by simpa using hi))]
    rfl

theorem value_expression_potential (h : ¬ Assigns u.tree u.variableName i)
    (h0 : (u.walk .null .potential).value = .potential) (hc : ∀ r, u.tree.isFunction i = false →
      (u.tree.kind i = .expression (.binary .coalesce) → r = .right →
      u.analysis.resolver u.tree (u.child i .left) = some .null) →
      (u.walk (u.child i r) .potential).value = .potential)
    (hm : isSpecial (u.tree.kind i) = false →
      ∀ j ∈ u.tree.children i, (u.walk j .potential).value = .potential) :
    (u.expression i .potential).value = .potential := by
  have hop (hi : u.tree.isFunction i = false ∧ u.tree.kind i ≠ .expression (.binary .coalesce))
    (r : Role) :
      (u.walk (u.child i r) .potential).value = .potential := hc r hi.1 fun hq => absurd hq hi.2
  unfold expression
  split
  · rfl
  · rfl
  · rename_i hk
    have hop := hop (by simp [Tree.isFunction, hk])
    refine value_assignment_potential ?_ (hop .left) (hop .right)
    by_contra hv
    obtain ⟨hl, hn⟩ := isVariable_iff.mp (by simpa using hv)
    exact h (.assign hk hl hn)
  · rename_i hk
    have hop := hop (by simp [Tree.isFunction, hk])
    refine value_assignment_potential ?_ (hop .expression) h0
    by_contra hv
    obtain ⟨he, hn⟩ := isVariable_iff.mp (by simpa using hv)
    exact h (.pass hk he hn)
  · rename_i hk
    exact hop (by simp [Tree.isFunction, hk]) .expression
  · rename_i hk
    exact hop (by simp [Tree.isFunction, hk]) .expression
  · rename_i hk
    exact hop (by simp [Tree.isFunction, hk]) .expression
  · rename_i hk
    have hop := hop (by simp [Tree.isFunction, hk])
    exact value_logicalAnd_potential (hop .left) (hop .right)
  · rename_i hk
    have hop := hop (by simp [Tree.isFunction, hk])
    exact value_logicalOr_potential (hop .left) (hop .right)
  · rename_i hk
    have hfunction : u.tree.isFunction i = false := by simp [Tree.isFunction, hk]
    have hleft : (u.walk (u.child i .left) .potential).value = .potential :=
      hc .left hfunction fun _ hr => by cases hr
    exact value_coalesce_potential hleft fun hnull => hc .right hfunction fun _ _ => hnull
  · rename_i hk
    rw [Walk.value_bind, hop (by simp [Tree.isFunction, hk]) .expression]
    rfl
  · rename_i hk
    have hop := hop (by simp [Tree.isFunction, hk])
    exact value_conditional_potential (hop .condition) (hop .trueExpression) (hop .falseExpression)
  · exact value_function
  · exact value_function
  · rename_i hk
    have hop := hop (by simp [Tree.isFunction, hk])
    exact value_declared_potential (fun hi hn => h (.declared hk hi hn)) (hop .initializer)
  · refine value_children_potential fun j hj => hm ?_ j hj
    unfold isSpecial
    split <;> simp_all

end

end View

section

variable {a : Assignment} {v : String} {root i j : NodeId} {x : Point} {σ : Status} {s : State}

theorem isFunction_of_operation {t : Tree} (hs : isSpecial (t.kind i) = false) :
    t.isFunction i = false ∧ t.kind i ≠ .expression (.binary .coalesce) := by
  constructor
  · unfold Tree.isFunction
    split <;> simp_all
  · rintro hq
    simp [hq] at hs

section

variable (hw : a.tree.WellFormed)
include hw

/-- An assignment that is always walked assigns the variable. -/
theorem value_of_always (h : Always a.tree a.resolver i j) (ha : Assigns a.tree v j) :
    ((View.full a v).walk i σ).value = .assigned := by
  have hu (j : NodeId) : ((View.full a v).walk j .assigned).value = .assigned := View.value_assigned
  induction h generalizing σ with
  | self =>
      rw [View.walk_full hw, View.full_eq]
      exact View.value_of_assigns ha
  | @operand i c j hs hc _ ih =>
      obtain ⟨hc, hk⟩ := List.mem_filter.mp hc
      rw [View.walk_full hw, View.full_eq]
      rw [View.full_eq] at hu ih
      refine Eq.trans (congrArg Walk.value (View.expression_of_operation hs)) ?_
      have hk : (a.tree.kind c).isStatement = false := by simpa using hk
      exact View.value_children_of_mem hu hc hk fun τ => ih ha
  | first hp hr _ ih =>
      have h0 (τ : Status) : ((View.full a v).walk .null τ).value = τ := by
        rw [View.full, View.walk_of_null hw.null_kind]
        rfl
      rw [View.walk_full hw, View.full_eq]
      rw [View.full_eq] at hu ih h0
      exact View.value_of_first hu h0 hp hr fun τ => ih ha

/-- Where no assignment counts, the variable stays potentially assigned. -/
theorem value_of_not_counts {depth : Nat}
    (h : ∀ j, Counts a.tree a.resolver i j → ¬ Assigns a.tree v j) :
    ((View.within a v depth).walk i .potential).value = .potential := by
  induction depth generalizing i with
  | zero => rfl
  | succ depth ih =>
      have h0 : ((View.within a v depth).walk .null .potential).value = .potential := by
        rw [View.walk_of_null hw.null_kind]
        rfl
      have hchild {c : NodeId} (hc : a.tree.parent c = some i) (hf : a.tree.isFunction i = false)
          (hr : a.tree.kind i = .expression (.binary .coalesce) → a.tree.role c = .right →
            a.resolver a.tree (a.tree.child i .left) = some .null) :
          ((View.within a v depth).walk c .potential).value = .potential :=
        ih fun j hj => h j (.inside hc hf hr hj)
      have hc (r : Role) (hf : a.tree.isFunction i = false)
          (hr : a.tree.kind i = .expression (.binary .coalesce) → r = .right →
            a.resolver a.tree (a.tree.child i .left) = some .null) :
          ((View.within a v depth).walk (a.tree.child i r) .potential).value = .potential := by
        rcases child_eq_null_or_mem (t := a.tree) (p := i) (r := r) with hn | hm
        · rw [hn]
          exact h0
        · obtain ⟨hm, hrole⟩ := mem_childrenIn_iff.mp hm
          exact hchild (hw.mem_children.mp hm) hf fun hq hright => hr hq (hrole ▸ hright)
      have hm (hs : isSpecial (a.tree.kind i) = false) (j : NodeId) (hj : j ∈ a.tree.children i) :
          ((View.within a v depth).walk j .potential).value = .potential := by
        obtain ⟨hf, hq⟩ := isFunction_of_operation hs
        exact hchild (hw.mem_children.mp hj) hf fun hq' => absurd hq' hq
      have hview : View.within a v depth = ⟨a, v, (View.within a v depth).walk⟩ := by
        cases depth <;> rfl
      change ((View.within a v depth).expression i .potential).value = .potential
      rw [hview] at h0 hc hm ⊢
      exact View.value_expression_potential (h i .self) h0 hc hm

end

theorem value_transfer (hx : enters i x = true) (hk : a.tree.kind i = .statement .expression)
    (hσ : σ ≠ .assigned) (hreached : σ ≠ .unreachable) (e : Edge) : (a.transfer v x σ).value e =
    (((View.full a v).walk (a.tree.child i .expression) σ).value).clean := by
  obtain ⟨hentered, rfl⟩ := of_enters hx
  have htree : (View.full a v).tree = a.tree := View.tree_within
  have hne : ¬ (View.full a v).tree.kind x.next = .statement .branch := by
    rw [htree, hk]
    simp
  have hstatement : (View.full a v).statement x.next σ =
      (View.full a v).walk (a.tree.child x.next .expression) σ := by
    rw [View.statement, htree, hk, View.child_full]
  rw [transfer_of_ne hreached, View.carry]
  rcases hentered with hentered | hentered
  · rw [hentered]
    simp only [if_neg hne, View.entering, if_neg hσ, hstatement]
    rfl
  · rw [hentered]
    simp only [if_neg hne, View.entering, if_neg hσ, hstatement]
    rfl

/-- Which assignments count. An analysis of the whole range without finally blocks comes to an end,
and then every edge that leaves an expression statement before which the variable is potentially
assigned carries: that the variable is assigned, if an assignment of it is always walked with the
expression, be it in a part of a conditional access or of a query; and that it is potentially
assigned, if all assignments of it are in functions or in operands that `??` may skip. -/
theorem analyze_counted (t : Tree) (setting : Setting) (v : String) (initial : Status) (s : State)
    (hcode : t.Code root) (hflat : t.Unnested root)
    (hplain : ∀ i, t.Below root i → t.role i ≠ .finallyBlock)
    (ha : ofStatement t root setting = .ok a) (hfirst : s.first = 0)
    (hlast : s.last = a.graph.order.length - 1) :
    ∃ s', a.analyze s v initial false = some (.ok (), s') ∧ ∀ i p, a.beginOf i = some p →
      t.kind i = .statement .expression → a.before s' i = .ok .potential →
      ∀ e ∈ (a.pointAt p).outgoing,
        ((∃ j, Always t a.resolver (t.child i .expression) j ∧ Assigns t v j) →
          s'.statuses.edge e = .assigned) ∧
          ((∀ j, Counts t a.resolver (t.child i .expression) j → ¬ Assigns t v j) →
            s'.statuses.edge e = .potential) := by
  obtain ⟨rfl, h⟩ := plain_of_statement hcode hflat hplain ha
  obtain ⟨_, s', -, -, -, -, hrun, hS, -⟩ := h.run v initial hfirst hlast
  refine ⟨s', hrun, fun i p hp hk hbefore e he => ?_⟩
  obtain ⟨hlt, hx⟩ := of_lastPlace? hp
  have hpoint : s'.statuses.point p = .potential := by
    rw [before, hp] at hbefore
    exact Except.ok.inj hbefore
  have hedge : s'.statuses.edge e =
      (((View.full a v).walk (a.tree.child i .expression) .potential).value).clean := by
    have hne : Status.potential ≠ .assigned ∧ Status.potential ≠ .unreachable := by decide
    rw [hS.carried hlt he, hpoint]
    exact value_transfer hx hk hne.1 hne.2 _
  rw [hedge]
  refine ⟨fun ⟨j, hj, hassigns⟩ => ?_, fun hnone => ?_⟩
  · rw [value_of_always h.code.wellFormed hj hassigns]
    rfl
  · rw [View.full, value_of_not_counts h.code.wellFormed hnone]
    rfl

/-- `a?.M(x = null);` -/
def chainedAssignment : Tree :=
  planted
    [.statement .expression, .expression (.unary .conditionalEnd), .expression .invocation,
      .expression .member,
      .expression (.unary .conditionalAccess), .expression .identifier, .identifier "a" false,
      .identifier "M" false,
      .expression (.assignment .assign), .expression .identifier, .identifier "x" false,
      .expression .nullRef]
    [(1, .expression, 2), (2, .expression, 3), (3, .target, 4), (4, .target, 5),
      (5, .expression, 6),
      (6, .identifier, 7), (4, .identifier, 8), (3, .argument, 9), (9, .left, 10),
      (10, .identifier, 11), (9, .right, 12)]

/-- The assignment counts, though it is skipped when `a` is null. -/
theorem analyze_counted_chain :
    ∃ a s', ofStatement chainedAssignment 1 ⟨.literals, false, false⟩ = .ok a ∧
    a.analyze a.start "x" .potential false = some (.ok (), s') ∧ a.before s' 1 = .ok .potential ∧
      (a.pointAt 0).outgoing = [0] ∧ s'.statuses.edge 0 = .assigned := by
  obtain ⟨hcode, hflat, hplain⟩ : chainedAssignment.Code 1 ∧ chainedAssignment.Unnested 1 ∧
      ∀ i, chainedAssignment.Below 1 i → chainedAssignment.role i ≠ .finallyBlock :=
    code_of_forall (wellFormed_planted _ _) (by decide +kernel) (by decide +kernel)
  have hgraph : (ofStatement chainedAssignment 1 ⟨.literals, false, false⟩).toOption.map
      (fun a => (a.beginOf 1, (a.pointAt 0).outgoing)) = some (some 0, [0]) := by decide +kernel
  cases ha : ofStatement chainedAssignment 1 ⟨.literals, false, false⟩ with
  | error x =>
      rw [ha] at hgraph
      cases hgraph
  | ok a =>
      rw [ha] at hgraph
      obtain ⟨hbegin, hout⟩ := Prod.mk.inj (Option.some.inj hgraph)
      obtain ⟨s', hrun, hcounted⟩ :=
        analyze_counted chainedAssignment _ "x" .potential a.start hcode hflat hplain ha rfl rfl
      have hbefore : a.before s' 1 = .ok .potential := by
        obtain ⟨-, h⟩ := plain_of_statement hcode hflat hplain ha
        obtain ⟨_, s'', -, -, -, -, hrun', hS, -⟩ := h.run (s := a.start) "x" .potential rfl rfl
        cases hrun.symm.trans hrun'
        rw [before, hbegin]
        exact congrArg Except.ok hS.entry
      have hreaches : Always chainedAssignment a.resolver 2 9 := by
        refine .operand (c := 3) (by decide +kernel) (by decide +kernel) ?_
        exact .operand (c := 9) (by decide +kernel) (by decide +kernel) .self
      have hassigns : Assigns chainedAssignment "x" 9 :=
        .assign (by decide +kernel) (by decide +kernel) (by decide +kernel)
      refine ⟨a, s', rfl, hrun, hbefore, hout, ?_⟩
      exact (hcounted 1 0 hbegin (by decide +kernel) hbefore 0 (by simp [hout])).1
        ⟨9, hreaches, hassigns⟩

end

end TreeScribe.Flow.Assignment
