import TreeScribe.Proofs.Flow.Assignment.Reads
import TreeScribe.Proofs.Flow.Assignment.Sound
import TreeScribe.Proofs.Flow.Assignment.Upheld

namespace TreeScribe.Flow.Assignment

open TreeScribe.Tree

def Notes (k : NodeId) {α : Type} (m : Run α) : Prop :=
  ∀ s r s', m.run s = (.ok r, s') → k ∈ s'.uses

def Retains (k : NodeId) {α : Type} (m : Run α) : Prop :=
  ∀ s r s', m.run s = (.ok r, s') → k ∈ s.uses → k ∈ s'.uses

section

variable {k : NodeId} {α β : Type} {m : Run α} {f : α → Run β} {r : α}

theorem run_bind_ok {s s' : State} {x : β} (h : (m >>= f).run s = (.ok x, s')) :
    ∃ r s₁, m.run s = (.ok r, s₁) ∧ (f r).run s₁ = (.ok x, s') := by
  cases hm : m.run s with
  | mk o s₁ =>
      cases o with
      | ok r => exact ⟨r, s₁, rfl, (run_bind_of_ok hm).symm.trans h⟩
      | error e => cases (run_bind_of_error hm).symm.trans h

namespace Retains

theorem pure : Retains k (Pure.pure r : Run α) := by
  intro s _ s' h hs
  cases h
  exact hs

theorem bind (h : Retains k m) (hf : ∀ r, Retains k (f r)) : Retains k (m >>= f) := by
  intro s x s' hrun hs
  obtain ⟨r, s₁, hm, hf'⟩ := run_bind_ok hrun
  exact hf r s₁ x s' hf' (h s r s₁ hm hs)

theorem of_modify {g : State → State} (h : ∀ s, k ∈ s.uses → k ∈ (g s).uses) :
    Retains k (modify g : Run PUnit) := by
  intro s _ s' hrun hs
  cases hrun
  exact h s hs

end Retains

namespace Notes

theorem bind (h : Notes k m) (hf : ∀ r, Retains k (f r)) : Notes k (m >>= f) := by
  intro s x s' hrun
  obtain ⟨r, s₁, hm, hf'⟩ := run_bind_ok hrun
  exact hf r s₁ x s' hf' (h s r s₁ hm)

theorem after {c : Scope} {P : α → Prop} (h : Answers c m P) (hf : ∀ r, P r → Notes k (f r)) :
    Notes k (m >>= f) := by
  intro s x s' hrun
  obtain ⟨r, s₁, hm, hf'⟩ := run_bind_ok hrun
  have h := h s
  rw [hm] at h
  exact hf r h s₁ x s' hf'

theorem of_value (h : ∀ s r' s', m.run s = (.ok r', s') → r' = r) (hf : Notes k (f r)) :
    Notes k (m >>= f) := by
  intro s x s' hrun
  obtain ⟨r', s₁, hm, hf'⟩ := run_bind_ok hrun
  cases h s r' s₁ hm
  exact hf s₁ x s' hf'

end Notes

end

def Scope.Notes (c : Scope) (i : NodeId) (b : Bool) (k : NodeId) : Prop :=
  ∀ σ : Status, σ.Settled → (σ = .assigned → b = true) → Assignment.Notes k (c.eval i σ)

section

variable {c : Scope} {M : Meaning} {k i : NodeId} {σ : Status} {b b₁ : Bool}

theorem retains_tick : Retains k c.tick := by
  intro s r s' h hs
  rw [run_tick_eq] at h
  split at h
  · cases h
  · cases h
    exact hs

theorem notes_use (hv : c.isVariable k = true) (ha : c.tree.hasChild k .typeArgument = false)
    (hσ : σ ≠ .assigned) : Notes k (c.use k σ) := by
  intro s r s' h
  have hget : (get : Run State).run s = (.ok s, s) := rfl
  unfold Scope.use at h
  rw [run_bind_of_ok hget] at h
  split at h
  · cases h
    exact List.mem_cons_self
  · rename_i hn
    cases h
    simpa [hσ, hv, ha] using hn

theorem isVariable_of_names {j : NodeId} (h : ¬ Names c.tree c.variableName j) :
    ¬ c.isVariable j = true := by
  intro hv
  obtain ⟨hk, hn⟩ := Bool.and_eq_true_iff.mp hv
  exact h (.plain (of_decide_eq_true hk) (of_decide_eq_true hn))

theorem retains_children {nodes : List NodeId}
    (hret : ∀ j ∈ nodes, (c.tree.kind j).isStatement = false → ∀ τ, Retains k (c.eval j τ)) :
    Retains k (c.children nodes σ) := by
  induction nodes generalizing σ with
  | nil => exact .pure
  | cons j rest ih =>
      have ih {σ : Status} := ih (σ := σ) fun i hi => hret i (List.mem_cons_of_mem _ hi)
      refine retains_tick.bind fun _ => ?_
      split
      · exact ih
      · exact (hret j List.mem_cons_self (Bool.not_eq_true _ ▸ ‹_›) σ).bind fun _ => ih

theorem condition?_of_reads (hu : Unread c.tree c.variableName M c.analysis.resolver)
    (h : Reads c.tree c.variableName M i b k) : c.condition? i = none := by
  have hr : c.analysis.resolver c.tree i = none := Classical.byContradiction fun hr => hu i hr b k h
  unfold Scope.condition? Resolver.condition?
  rw [hr]
  rfl

theorem notes_children {nodes : List NodeId}
    (he : ∀ j σ, Answers c (c.eval j σ) fun R => σ.Settled → Sound c.tree c.variableName M j σ R)
    (hret : ∀ j ∈ nodes, (c.tree.kind j).isStatement = false → ∀ τ, Retains k (c.eval j τ))
    (hn : ∀ j ∈ nodes, (c.tree.kind j).isStatement = false →
      ∀ b, Reads c.tree c.variableName M j b k → c.Notes j b k)
    (h : ReadsOne c.tree c.variableName M (nodes.filter fun j => !(c.tree.kind j).isStatement) b k)
    (hσ : σ.Settled) (hb : σ = .assigned → b = true) : Notes k (c.children nodes σ) := by
  induction nodes generalizing σ b with
  | nil => cases h
  | cons j rest ih =>
      have hret' {i : NodeId} (hi : i ∈ rest) := hret i (List.mem_cons_of_mem _ hi)
      have ih {σ : Status} {b : Bool}
          (h : ReadsOne c.tree c.variableName M
            (rest.filter fun j => !(c.tree.kind j).isStatement) b k)
          (hσ : σ.Settled) (hb : σ = .assigned → b = true) : Notes k (c.children rest σ) :=
        ih (fun i hi => hret' hi) (fun i hi => hn i (List.mem_cons_of_mem _ hi)) h hσ hb
      refine Notes.after answers_tick fun _ _ => ?_
      split
      · rename_i hj
        rw [List.filter_cons_of_neg (by simp [hj])] at h
        exact ih h hσ hb
      · rename_i hj
        rw [List.filter_cons_of_pos (by simp [hj])] at h
        cases h with
        | here h =>
            refine (hn j List.mem_cons_self (Bool.not_eq_true _ ▸ hj) b h σ hσ hb).bind fun _ => ?_
            exact retains_children fun i hi => hret' hi
        | later hx h =>
            refine Notes.after (he j σ) fun R₁ h₁ => ?_
            have h₁ := h₁ hσ
            exact ih h (Status.settled_clean h₁.reached) (h₁.knows hb hx).of_clean

section

variable (hn : ∀ r b, Reads c.tree c.variableName M (c.child i r) b k → c.Notes (c.child i r) b k)
  (h : Reads c.tree c.variableName M i b k) (hσ : σ.Settled) (hb : σ = .assigned → b = true)
include hn h hσ hb

theorem notes_out (hk : c.tree.kind i = .expression (.direction .out)) :
    Notes k (c.assignment (c.child i .expression) .null σ) := by
  unfold Scope.assignment
  obtain ⟨hother, h⟩ := h.of_out hk
  rw [if_neg (isVariable_of_names (j := c.child i .expression) hother)]
  exact (hn _ _ h σ hσ hb).bind fun _ => .pure

theorem notes_not (hk : c.tree.kind i = .expression (.unary .not)) :
    Notes k (do return (← c.eval (c.child i .expression) σ).negate) :=
  (hn _ _ (h.of_not hk) σ hσ hb).bind fun _ => .pure

theorem notes_wrapped {w : ExpressionKind} (hk : c.tree.kind i = .expression w)
    (hw : isWrapper w = true) :
    Notes k (c.eval (c.child i .expression) σ) := hn _ _ (h.of_wrapped hk hw) σ hσ hb

theorem notes_declared (hk : c.tree.kind i = .part .variable_) : Notes k (c.declared i σ) := by
  unfold Scope.declared
  obtain ⟨hi, h⟩ := h.of_declared hk
  rw [if_neg (by simp [hi])]
  exact (hn _ _ h σ hσ hb).bind fun _ => .pure

variable (he : ∀ j σ, Answers c (c.eval j σ) fun R => σ.Settled →
    Sound c.tree c.variableName M j σ R)
include he

variable (hret : ∀ r τ, Retains k (c.eval (c.child i r) τ))
include hret

theorem notes_assign (hk : c.tree.kind i = .expression (.assignment .assign))
    (h0 : c.tree.kind .null = .null) (hnames : ∀ j τ, Names c.tree c.variableName j →
      ∀ s r s', (c.eval j τ).run s = (.ok r, s') → r = τ) :
    Notes k (c.assignment (c.child i .left) (c.child i .right) σ) := by
  have hnull {b : Bool} (hr : Reads c.tree c.variableName M (c.child i .right) b k) :
      c.child i .right ≠ .null := by
    intro hr0
    rw [hr0] at hr
    exact hr.kind_ne_null h0
  unfold Scope.assignment
  rcases h.of_assign hk with ⟨hleft, hr⟩ | ⟨hleft, hl | ⟨y, b₁, hl, hr⟩⟩
  · split
    · exact (hn _ _ hr σ hσ hb).bind fun _ => .pure
    · refine Notes.of_value (hnames _ σ hleft) ?_
      rw [if_neg (hnull hr)]
      have hclean := Status.settled_clean hσ.ne_unreachable
      refine (hn _ _ hr σ.clean hclean fun hs => hb ?_).bind fun _ => .pure
      rcases hσ with rfl | rfl
      · rfl
      · cases hs
  · rw [if_neg (isVariable_of_names (j := c.child i .left) hleft)]
    refine (hn _ _ hl σ hσ hb).bind fun _ => ?_
    split
    · exact .pure
    · exact (hret .right _).bind fun _ => .pure
  · rw [if_neg (isVariable_of_names (j := c.child i .left) hleft)]
    refine Notes.after (he _ σ) fun R₁ h₁ => ?_
    have h₁ := h₁ hσ
    rw [if_neg (hnull hr)]
    exact (hn _ _ hr _ (Status.settled_clean h₁.reached) (h₁.knows hb hl).of_clean).bind fun _ =>
      .pure

section

variable (hr : Correct c.tree c.variableName M c.analysis.resolver)
  (hu : Unread c.tree c.variableName M c.analysis.resolver)
include hr hu

theorem notes_logicalAnd (hk : c.tree.kind i = .expression (.binary .condAnd)) :
    Notes k (c.logicalAnd (c.child i .left) (c.child i .right) σ) := by
  unfold Scope.logicalAnd
  rcases h.of_and hk with hl | ⟨b₁, hl, hright⟩
  · rw [condition?_of_reads (i := c.child i .left) hu hl]
    exact (hn _ _ hl σ hσ hb).bind fun _ => (hret .right _).bind fun _ => .pure
  · cases hc : c.condition? (c.child i .left) with
    | none =>
        refine Notes.after (he _ σ) fun R₁ h₁ => ?_
        have h₁ := h₁ hσ
        exact (hn _ _ hright _ (Status.settled_ifTrue h₁.reached) (h₁.knows hb hl).of_ifTrue).bind
          fun _ => .pure
    | some value =>
        cases hr.condition hc hl
        exact hn _ _ hright σ hσ fun hs => hl.keeps (hb hs)

theorem notes_logicalOr (hk : c.tree.kind i = .expression (.binary .condOr)) :
    Notes k (c.logicalOr (c.child i .left) (c.child i .right) σ) := by
  unfold Scope.logicalOr
  rcases h.of_or hk with hl | ⟨b₁, hl, hright⟩
  · rw [condition?_of_reads (i := c.child i .left) hu hl]
    exact (hn _ _ hl σ hσ hb).bind fun _ => (hret .right _).bind fun _ => .pure
  · cases hc : c.condition? (c.child i .left) with
    | none =>
        refine Notes.after (he _ σ) fun R₁ h₁ => ?_
        have h₁ := h₁ hσ
        exact (hn _ _ hright _ (Status.settled_ifFalse h₁.reached) (h₁.knows hb hl).of_ifFalse).bind
          fun _ => .pure
    | some value =>
        cases hr.condition hc hl
        exact hn _ _ hright σ hσ fun hs => hl.keeps (hb hs)

omit hr in
theorem notes_coalesce (hk : c.tree.kind i = .expression (.binary .coalesce)) :
    Notes k (c.coalesce (c.child i .left) (c.child i .right) σ) := by
  unfold Scope.coalesce
  rcases h.of_coalesce hk with hl | ⟨b₁, hl, hright⟩
  · have hnone : c.analysis.resolver c.tree (c.child i .left) ≠ some .null := fun hs =>
      hu (c.child i .left) (by simp [hs]) _ _ hl
    rw [if_neg hnone]
    exact (hn _ _ hl σ hσ hb).bind fun _ => (hret .right _).bind fun _ => .pure
  · split
    · exact hn _ _ hright σ hσ fun hs => hl.keeps (hb hs)
    · refine Notes.after (he _ σ) fun R₁ h₁ => ?_
      have h₁ := h₁ hσ
      exact (hn _ _ hright _ (Status.settled_clean h₁.reached) (h₁.knows hb hl).of_clean).bind
        fun _ => .pure

theorem notes_conditional (hk : c.tree.kind i = .expression .conditional) :
    Notes k (c.conditional i σ) := by
  unfold Scope.conditional
  simp only
  rcases h.of_conditional hk with hl | ⟨b₁, ⟨hl, h⟩ | ⟨hl, h⟩⟩
  · rw [condition?_of_reads (i := c.child i .condition) hu hl]
    exact (hn _ _ hl σ hσ hb).bind fun _ => (hret _ _).bind fun _ => (hret _ _).bind fun _ => .pure
  · cases hc : c.condition? (c.child i .condition) with
    | none =>
        refine Notes.after (he _ σ) fun R₁ h₁ => ?_
        have h₁ := h₁ hσ
        have hnotes := hn _ _ h _ (Status.settled_ifTrue h₁.reached) (h₁.knows hb hl).of_ifTrue
        exact hnotes.bind fun _ => (hret _ _).bind fun _ => .pure
    | some value =>
        cases hr.condition hc hl
        exact hn _ _ h σ hσ fun hs => hl.keeps (hb hs)
  · cases hc : c.condition? (c.child i .condition) with
    | none =>
        refine Notes.after (he _ σ) fun R₁ h₁ => Notes.after (he _ _) fun _ _ => ?_
        have h₁ := h₁ hσ
        exact (hn _ _ h _ (Status.settled_ifFalse h₁.reached) (h₁.knows hb hl).of_ifFalse).bind
          fun _ => .pure
    | some value =>
        cases hr.condition hc hl
        exact hn _ _ h σ hσ fun hs => hl.keeps (hb hs)

theorem notes_expression (h0 : c.tree.kind .null = .null)
    (hnames : ∀ j τ, Names c.tree c.variableName j →
      ∀ s r s', (c.eval j τ).run s = (.ok r, s') → r = τ)
    (hretm : ∀ j ∈ c.tree.children i, (c.tree.kind j).isStatement = false →
      ∀ τ, Retains k (c.eval j τ))
    (hm : ∀ j ∈ c.tree.children i, (c.tree.kind j).isStatement = false →
      ∀ b, Reads c.tree c.variableName M j b k →
      c.Notes j b k) : Notes k (c.expression i σ) := by
  have hfunction (hk : c.tree.isFunction i = true) : Notes k (c.function i σ) :=
    (h.not_function hk).elim
  unfold Scope.expression
  split
  · rename_i hk
    exact absurd hk h.kind_ne_null
  · exact notes_assign hn h hσ hb he hret ‹_› h0 hnames
  · exact notes_out hn h hσ hb ‹_›
  · exact notes_wrapped hn h hσ hb ‹_› rfl
  · exact notes_wrapped hn h hσ hb ‹_› rfl
  · exact notes_wrapped hn h hσ hb ‹_› rfl
  · exact notes_logicalAnd hn h hσ hb he hret hr hu ‹_›
  · exact notes_logicalOr hn h hσ hb he hret hr hu ‹_›
  · exact notes_coalesce hn h hσ hb he hret hu ‹_›
  · exact notes_not hn h hσ hb ‹_›
  · exact notes_conditional hn h hσ hb he hret hr hu ‹_›
  · rename_i hk
    exact hfunction (by rw [isFunction, hk])
  · rename_i hk
    exact hfunction (by rw [isFunction, hk])
  · rename_i hk
    obtain ⟨rfl, rfl, hname, ha⟩ := h.of_identifier hk
    refine notes_use ?_ ha fun hs => by cases hb hs
    exact Bool.and_eq_true_iff.mpr ⟨decide_eq_true hk, decide_eq_true hname⟩
  · exact notes_declared hn h hσ hb ‹_›
  · have hs : isSpecial (c.tree.kind i) = false := by
      unfold isSpecial
      split <;> simp_all
    exact notes_children he hretm hm (h.of_operation hs) hσ hb

end

end

end

section

variable {a : Assignment} {v : String} {cancelled : Bool} {M : Meaning} {i j k : NodeId} {b : Bool}
  {depth : Nat}
  {σ : Status} {s s' : State}

theorem value_of_names (h : Names a.tree v j) {s s' : State} {r : Status}
    (hr : ((Scope.within a v cancelled depth).eval j σ).run s = (.ok r, s')) : r = σ := by
  induction h generalizing depth with
  | plain hk hn =>
      cases depth with
      | zero =>
          cases hr
          rfl
      | succ depth =>
          change ((Scope.within a v cancelled depth).expression _ σ).run s = _ at hr
          rw [Scope.expression, Scope.tree_within, hk] at hr
          have hget : (get : Run State).run s = (.ok s, s) := rfl
          unfold Scope.use at hr
          rw [run_bind_of_ok hget] at hr
          split at hr <;> (cases hr; rfl)
  | parenthesized hk _ ih =>
      cases depth with
      | zero =>
          cases hr
          rfl
      | succ depth =>
          change ((Scope.within a v cancelled depth).expression _ σ).run s = _ at hr
          rw [Scope.expression, Scope.tree_within, hk] at hr
          have hr :
              ((Scope.within a v cancelled depth).eval
              ((Scope.within a v cancelled depth).child _ .expression) σ).run s =
              (.ok r, s') := hr
          rw [Scope.child_within] at hr
          exact ih hr

theorem upholds_note : Upholds a v cancelled (fun _ _ => True) (fun _ _ => True)
    (fun _ _ => True) True
    fun s => k ∈ s.uses where
  region _ := .all
  operand _ _ _ _ := trivial
  cancel _ := trivial
  tick h := h
  edge _ _ h := by
    rwa [Scope.uses_setEdge]
  note _ _ _ h := List.mem_cons_of_mem _ h
  unknown _ _ _ _ := trivial
  set _ h := .inl ⟨h, fun _ _ _ _ _ _ => trivial⟩

section

variable (hw : a.tree.WellFormed)
include hw

theorem retains_eval_of {E B : NodeId → Prop}
    (h : Follows a v cancelled E B ((Scope.within a v cancelled depth).eval j σ)
      ((View.full a v).walk j σ)) :
    Retains k ((Scope.within a v cancelled depth).eval j σ) := by
  intro s r s' hrun hs
  let A : Account a v cancelled :=
    { ahead := fun _ s => k ∈ s.uses
      mayFail := True
      notable := fun _ => True
      startable := fun _ => True
      cancel := fun _ => trivial
      tick := id
      note := fun _ hs => List.mem_cons_of_mem _ hs
      unknown := fun _ _ _ => trivial
      begin := fun {b σ l s q depth} _ hq hd hs =>
        upholds_note.setPoint hw (fun _ => trivial) (by rw [next_of_beginOf hq]; omega) hs }
  have hends := h A (fun _ _ => trivial) (fun _ _ => trivial) [] s hs
  rw [hrun] at hends
  exact hends.2

theorem retains_eval (hd : a.tree.size ≤ depth + a.tree.depth j) :
    Retains k ((Scope.within a v cancelled depth).eval j σ) :=
  retains_eval_of hw (follows_eval hw .all trivial hd)

theorem retains_child (hd : a.tree.size ≤ depth + 1 + a.tree.depth i) {r : Role} :
    Retains k ((Scope.within a v cancelled depth).eval (a.tree.child i r) σ) := by
  rcases hw.child_cases (p := i) (r := r) with hn | hp
  · rw [hn]
    exact retains_eval_of (E := fun _ => True) (B := fun _ => True)
      hw (follows_eval_of_null hw.null_kind)
  · have := hw.depth_of_parent hp
    exact retains_eval hw (by omega)

variable (hr : Correct a.tree v M a.resolver) (hu : Unread a.tree v M a.resolver)
include hr hu

theorem notes_within (h : Reads a.tree v M i b k) (hd : a.tree.size ≤ depth + a.tree.depth i) :
    (Scope.within a v cancelled depth).Notes i b k := by
  have hlt : i < a.tree.size := by
    by_contra hle
    refine h.kind_ne_null ?_
    rw [Tree.kind, node_of_size_le (Nat.le_of_not_lt hle)]
    rfl
  induction depth generalizing i b with
  | zero =>
      have := hw.depth_lt hlt
      omega
  | succ depth ih =>
      intro σ hσ hb
      have hchild {j : NodeId} (hj : a.tree.parent j = some i)
        {b : Bool} (h : Reads a.tree v M j b k) :
          (Scope.within a v cancelled depth).Notes j b k := by
        have := hw.depth_of_parent hj
        exact ih h (by omega) (lt_of_parent hj)
      have hretm (j : NodeId) (hj : j ∈ a.tree.children i) (τ : Status) :
          Retains k ((Scope.within a v cancelled depth).eval j τ) := by
        have := hw.depth_of_parent (hw.mem_children.mp hj)
        exact retains_eval hw (by omega)
      have hret (r : Role) (τ : Status) :
          Retains k ((Scope.within a v cancelled depth).eval (a.tree.child i r) τ) :=
        retains_child hw (by omega)
      have hn (r : Role) (b : Bool) (h : Reads a.tree v M (a.tree.child i r) b k) :
          (Scope.within a v cancelled depth).Notes (a.tree.child i r) b k := by
        rcases hw.child_cases (p := i) (r := r) with hnull | hp
        · exact absurd (hnull ▸ hw.null_kind) h.kind_ne_null
        · exact hchild hp h
      have he := answers_within cancelled hr depth
      change Assignment.Notes k ((Scope.within a v cancelled depth).expression i σ)
      have hnames (j : NodeId) (τ : Status) (hj : Names a.tree v j) (s : State) (r : Status)
          (s' : State) (hrun : ((Scope.within a v cancelled depth).eval j τ).run s = (.ok r, s')) :
          r = τ := value_of_names hj hrun
      rw [Scope.within_eq] at *
      exact notes_expression hn h hσ hb he hret hr hu hw.null_kind hnames
        (fun j hj _ τ => hretm j hj τ)
        fun j hj _ b h => hchild (hw.mem_children.mp hj) h

theorem notes_carry {p : Nat} (hx : (a.pointAt p).kind = .start ∨ (a.pointAt p).kind = .between)
    (hk : a.tree.kind (a.pointAt p).next = .statement .expression)
    (h : Reads a.tree v M (a.tree.child (a.pointAt p).next .expression) false k)
    (hd : a.tree.size ≤ depth + a.tree.depth (a.pointAt p).next + 1) :
    Notes k ((Scope.within a v cancelled depth).carry (a.pointAt p) .potential) := by
  have hdeep : a.tree.size ≤ depth +
      a.tree.depth (a.tree.child (a.pointAt p).next .expression) := by
    rcases hw.child_cases (p := (a.pointAt p).next) (r := .expression) with hnull | hp
    · exact absurd (hnull ▸ hw.null_kind) h.kind_ne_null
    · have := hw.depth_of_parent hp
      omega
  have hstatement :
      Notes k ((Scope.within a v cancelled depth).statement (a.pointAt p).next .potential) := by
    rw [Scope.statement, Scope.tree_within, hk, Scope.child_within]
    exact notes_within hw hr hu h hdeep .potential (.inr rfl) fun hb => by cases hb
  have hentering :
      Notes k ((Scope.within a v cancelled depth).entering (a.pointAt p) .potential) := by
    unfold Scope.entering
    have hne : Status.potential ≠ .assigned := by decide
    simp only [if_neg hne]
    have hnote : Upholds a v cancelled (fun _ _ => True) (fun _ _ => True) (fun _ _ => True)
      True fun s => k ∈ s.uses :=
      upholds_note
    exact hstatement.bind fun _ => .of_modify fun s hs => hnote.setEdges analysis_within hs
  rw [Scope.carry, Scope.tree_within]
  rcases hx with hx | hx
  · rw [hx]
    simpa [hk] using hentering
  · rw [hx]
    simpa [hk] using hentering

/-- When a place that enters the statement of the expression has become potentially assigned, what
the expression reads is noted. -/
theorem upholds_reads {p : Nat} (hx : enters i (a.pointAt p) = true)
    (hk : a.tree.kind i = .statement .expression)
    (h : Reads a.tree v M (a.tree.child i .expression) false k) :
    Upholds a v cancelled (fun _ _ => True) (fun _ _ => True) (fun _ _ => True) True
      (fun s => s.statuses.point p = .potential → k ∈ s.uses) where
  region _ := .all
  operand _ _ _ _ := trivial
  cancel _ := trivial
  tick h := h
  edge _ _ h := by
    rwa [Scope.uses_setEdge, Scope.point_setEdge]
  note _ _ _ h hp := List.mem_cons_of_mem _ (h hp)
  unknown _ _ _ _ := trivial
  set := by
    rintro q σ s - hs
    by_cases hq : q = p
    · subst hq
      obtain ⟨hentered, rfl⟩ := of_enters hx
      by_cases hσ : σ = .potential
      · subst hσ
        exact .inr fun depth hd => .of_ok fun _ s' hrun _ =>
          notes_carry hw hr hu hentered hk h hd _ _ _ hrun
      · refine .inl ⟨fun hp => hs ?_, fun _ _ _ _ _ _ => trivial⟩
        by_cases hlt : q < s.points.size
        · rw [State.point_withPoint hlt, if_pos rfl] at hp
          exact absurd hp hσ
        · simp [State.statuses, State.withPoint, hlt] at hp
    · refine .inl ⟨fun hp => hs ?_, fun _ _ _ _ _ _ => trivial⟩
      rwa [State.point_withPoint_of_ne (Ne.symm hq)] at hp

/-- No read is missed. Where an analysis has come to an end with the variable potentially assigned
before an expression statement, it reports every identifier that some evaluation of the expression,
begun with the variable not assigned, reads while the variable is not assigned. The constants of the
resolver must be right and must not read the variable. -/
theorem unassignedUses_complete (hbefore : a.before s' i = .ok .potential)
    (hk : a.tree.kind i = .statement .expression)
    (h : Reads a.tree v M (a.tree.child i .expression) false j) {initial : Status}
    (hrun : a.analyze s v initial cancelled = some (.ok (), s')) : j ∈ unassignedUses s' := by
  unfold before statusAt at hbefore
  split at hbefore
  · rename_i p hp
    have hend := (upholds_reads hw hr hu (of_lastPlace? hp).2 hk h).analyze hw
      (fun _ _ _ hs _ => ⟨hs, fun _ => trivial⟩)
      (fun _ => trivial) (fun hp => by simp at hp) hrun
    exact List.mem_reverse.mpr (hend (Except.ok.inj hbefore))
  · cases hbefore

end

end

/-- `F(x, out x, x)` -/
def readAroundPass : Tree :=
  planted
    [.expression .invocation, .expression .identifier, .identifier "F" false,
      .expression .identifier,
      .identifier "x" false, .expression (.direction .out), .expression .identifier,
      .identifier "x" false,
      .expression .identifier, .identifier "x" false]
    [(1, .target, 2), (2, .identifier, 3), (1, .argument, 4), (4, .identifier, 5),
      (1, .argument, 6), (6, .expression, 7),
      (7, .identifier, 8), (1, .argument, 9), (9, .identifier, 10)]

/-- The read before the argument passed by `out` is noted, and not the one behind it. -/
example : (((Scope.full ⟨readAroundPass, ownValue, .empty⟩ "x" false).expression 1 .potential).run
    (start ⟨readAroundPass, ownValue, .empty⟩)).2.uses = [4] := by rfl

end TreeScribe.Flow.Assignment
