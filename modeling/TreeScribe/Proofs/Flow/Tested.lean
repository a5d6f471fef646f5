import TreeScribe.Proofs.Flow.Listed
import TreeScribe.Proofs.Tree.Below

namespace TreeScribe.Flow

open TreeScribe.Tree Draft

/-- Of the loops tested from one draft to another, those are entered for which `P` does not hold. -/
structure Draft.Tests (P : NodeId → Prop) (d d' : Draft) : Prop where
  subset {m : Mark} (hm : m ∈ d.marks) : m ∈ d'.marks
  entered {j : NodeId} (hj : .test j ∈ d'.marks) : .test j ∈ d.marks ∨ .enter j ∈ d'.marks ∨ P j

namespace Draft.Tests

variable {P Q : NodeId → Prop} {d d' d₁ d₂ : Draft} {c : Plan} {i : NodeId}

theorem of_eq (h : d'.marks = d.marks) : Tests P d d' := ⟨fun hm => h ▸ hm, fun hj => .inl (h ▸ hj)⟩

theorem of_append {M : List Mark} (h : d'.marks = d.marks ++ M) (hM : ∀ j, .test j ∈ M → P j) :
    Tests P d d' := by
  refine ⟨fun hm => h ▸ List.mem_append_left _ hm, fun {j} hj => ?_⟩
  rw [h] at hj
  exact (List.mem_append.mp hj).imp_right fun hj => .inr (hM j hj)

theorem trans (h : Tests P d d₁) (h' : Tests Q d₁ d₂)
    (hQ : ∀ j, .test j ∈ d₂.marks → Q j → .enter j ∈ d₂.marks ∨ P j) : Tests P d d₂ := by
  refine ⟨fun hm => h'.subset (h.subset hm), fun {j} hj => ?_⟩
  rcases h'.entered hj with hj | hj | hq
  · exact (h.entered hj).imp_right (.imp_left h'.subset)
  · exact .inr (.inl hj)
  · exact .inr (hQ j hj hq)

theorem followed (h : Tests P d d₁) (h' : Tests (fun _ => False) d₁ d₂) : Tests P d d₂ :=
  h.trans h' fun _ _ => False.elim

theorem mono (h : Tests P d d') (hPQ : ∀ j, P j → Q j) : Tests Q d d' :=
  ⟨h.subset, fun hj => (h.entered hj).imp_right (.imp_right (hPQ _))⟩

theorem stop : Tests P d (d.stop c i) :=
  of_append marks_stop fun j hj => by
    rcases List.mem_cons.mp hj with hj | hj
    · cases hj
    · unfold ahead at hj
      split at hj
      · simp at hj
      · cases List.mem_singleton.mp hj

theorem test : Tests (· = i) d (d.test i) :=
  of_append marks_test fun j hj => by
    cases List.mem_singleton.mp hj
    rfl

theorem loop {source : Option PointId} : Tests (· = i) d (d.loop c i source) := by
  have hpoints : Tests (· = i) d ((d.stop c i).test i) := stop.trans test fun _ _ h => .inr h
  exact hpoints.followed (of_eq (by simp))

theorem left (h : Tests P d d₁) (hd : d'.marks = (d₁.stop c i).marks) : Tests P d d' :=
  (h.followed stop).followed (of_eq hd)

theorem start : Tests P d (d.start i) :=
  of_append marks_start fun j hj => by
    split at hj
    · simp at hj
    · cases List.mem_singleton.mp hj

theorem enter_mem_start (hi : i ≠ .null) : .enter i ∈ (d.start i).marks := by
  rw [marks_start, if_neg hi]
  exact List.mem_append_right _ (List.mem_singleton_self _)

theorem started (h : Tests (· = i) d₁ d') (hi : i ≠ .null) (hd : d₁.marks = (d.start i).marks) :
    Tests P d d' := by
  refine (start.followed (of_eq hd)).trans h ?_
  rintro j - rfl
  exact .inl (h.subset (hd ▸ enter_mem_start hi))

end Draft.Tests

variable {c : Plan} {task : Task} {d d' : Draft} {a : Option PointId} {i : NodeId} {m : Mark}
  {τ : Targets} {p : Option PointId}

theorem Draws.mem_marks (hw : c.tree.WellFormed) (h : Draws c task d a d') (hm : m ∈ d.marks) :
    m ∈ d'.marks := by
  obtain ⟨M, hM, -⟩ := h.marked hw
  exact hM ▸ List.mem_append_left _ hm

/-- Where a statement goes on, the next one is entered. -/
theorem Draws.mem_of_ahead (hw : c.tree.WellFormed) (h : Draws c (.node τ i p) d a d')
    (ha : a.isSome = true) (hm : m ∈ ahead c i) : m ∈ d'.marks := by
  have hstop (d : Draft) : m ∈ (d.stop c i).marks := by
    rw [marks_stop]
    exact List.mem_append_right _ (List.mem_cons_of_mem _ hm)
  have hloop (d : Draft) (source : Option PointId) : m ∈ (d.loop c i source).marks := by
    rw [marks_loop]
    simp [hm]
  cases h with
  | hole => cases ha
  | plain | final | label | goto | caseJump | break_ | continue_ | block | wrapped | usingResource
  | usingValue =>
      simp [hm]
  | branch => split <;> simp [hm]
  | switch hk h =>
      have := h.mem_marks hw (hstop _)
      simpa using this
  | whileLoop hk h | foreachLoop hk h =>
      have := h.mem_marks hw (hloop _ _)
      simpa using this
  | doLoop hk hb hbefore h =>
      have := h.mem_marks hw (m := m) (by simp [hbefore, hm])
      simpa using this
  | forLoop hk hb hi hr hahead hnext h =>
      have := hr.mem_marks hw (hloop _ _)
      have := h.mem_marks hw (m := m) (by simp [hahead, this])
      simpa using this
  | tryFinally hk hf h h' =>
      have := h'.mem_marks hw (h.mem_marks hw (hstop _))
      simpa using this
  | tryCatch hk hf h =>
      have := h.mem_marks hw (hstop _)
      simpa using this

def Plan.Holds (c : Plan) (i : NodeId) : Prop := i = .null ∨ c.tree.Below c.root i

theorem Plan.Holds.below (h : c.Holds i) (hi : i ≠ .null) : c.tree.Below c.root i :=
  h.resolve_left hi

def Task.Tests (c : Plan) : Task → Draft → Draft → Prop
  | node _ i _, d, d' => c.Holds i → Draft.Tests (· = i) d d'
  | entered _ i _ _ _, d, d'
  | embedded _ i _, d, d' => c.Holds i → Draft.Tests (fun _ => False) d d'
  | list _ _ current nodes, d, d' => ∀ x r before, c.tree.Below c.root x →
      c.tree.childrenIn x r = before ++ nodes →
    Draft.Tests (fun j => current.isSome = true ∧ nodes.head? = some j ∧
      (c.tree.kind j).isStatement = true) d d'
  | sections _ _ nodes _, d, d' => (∀ s ∈ nodes, c.tree.Below c.root s) →
      Draft.Tests (fun _ => False) d d'
  | guarded _ _ _ _ bodies, d, d' => (∀ b ∈ bodies, c.Holds b) → Draft.Tests (fun _ => False) d d'

theorem Draws.eq_of_null (hn : c.tree.kind i = .null) (h : Draws c (.node τ i p) d a d') :
    d' = d := by
  cases h with
  | hole => rfl
  | plain hk | final hk | label hk | goto hk | caseJump hk | break_ hk | continue_ hk | block hk
  | wrapped hk
  | usingResource hk | usingValue hk | branch hk | switch hk | whileLoop hk | foreachLoop hk
  | doLoop hk | forLoop hk
  | tryFinally hk | tryCatch hk => cases hn.symm.trans hk

theorem Draws.tests_of_started {P : NodeId → Prop} {d₁ : Draft} (hw : c.tree.WellFormed)
    (h : Draws c (.node τ i p) d₁ a d') (ih : c.Holds i → Draft.Tests (· = i) d₁ d')
    (hi : c.Holds i) (hd : d₁.marks = (d.start i).marks) : Draft.Tests P d d' := by
  by_cases hn : i = .null
  · subst hn
    cases h.eq_of_null hw.null_kind
    exact .of_eq (hd.trans (by simp))
  · exact (ih hi).started hn hd

theorem Draws.enter_mem {x j : NodeId} {r : Role} {before rest : List NodeId}
    {next source : Option PointId} {d₁ : Draft} (hw : c.tree.WellFormed)
    (h : Draws c (.node τ i p) d next d₁) (h' : Draws c (.list τ source next rest) d₁ a d')
    (hx : c.tree.Below c.root x) (hl : c.tree.childrenIn x r = before ++ i :: rest)
    (hq : next.isSome = true ∧ rest.head? = some j ∧ (c.tree.kind j).isStatement = true) :
    .enter j ∈ d'.marks := by
  obtain ⟨hnext, hhead, hj⟩ := hq
  obtain ⟨rest, rfl⟩ : ∃ l, rest = j :: l := by
    cases rest with
    | nil => cases hhead
    | cons k l =>
        cases hhead
        exact ⟨l, rfl⟩
  have hi : i ≠ c.root := by
    rintro rfl
    exact hw.not_below_of_parent (hw.parent_of_mem_childrenIn (r := r) (by simp [hl])) hx
  have hfollowing : c.following i = j := by
    rw [following_eq hw hl hi]
    exact if_pos hj
  refine h'.mem_marks hw (h.mem_of_ahead hw hnext ?_)
  rw [ahead, hfollowing, if_neg (hw.ne_null_of_isStatement hj)]
  exact List.mem_singleton_self _

theorem Plan.Holds.below_of_kind {k : StatementKind} (hw : c.tree.WellFormed) (h : c.Holds i)
    (hk : c.tree.kind i = .statement k) : c.tree.Below c.root i := by
  refine h.below ?_
  rintro rfl
  cases hw.null_kind.symm.trans hk

theorem holds_child {r : Role} (hw : c.tree.WellFormed) (hi : c.tree.Below c.root i) :
    c.Holds (c.child i r) :=
  hw.child_cases.imp_right hi.child

theorem holds_guarded (hw : c.tree.WellFormed) (hi : c.tree.Below c.root i) :
    ∀ b ∈ c.guarded i, c.Holds b := by
  intro b hb
  rcases List.mem_cons.mp hb with rfl | hb
  · exact holds_child hw hi
  · obtain ⟨s, hs, rfl⟩ := List.mem_map.mp hb
    exact hw.child_cases.imp_right (hi.child (hw.parent_of_mem_childrenIn hs)).child

section

variable {d₁ d₂ d₃ before ahead : Draft} {k : StatementKind} {r : Role} {P : NodeId → Prop}
  {j : NodeId}
  {last : Option PointId} {next stop : PointId} {rest : List NodeId}

theorem tests_node (hw : c.tree.WellFormed) (hk : c.tree.kind i = .statement k)
    (h : c.tree.Below c.root i → Draft.Tests (· = i) d d') : (Task.node τ i p).Tests c d d' :=
  fun hi => h (hi.below_of_kind hw hk)

theorem Task.Tests.whole (h : (Task.list τ p none (c.tree.childrenIn i r)).Tests c d d')
    (hi : c.tree.Below c.root i) : Draft.Tests P d d' :=
  (h i r [] hi rfl).mono fun _ h => by cases h.1

theorem tests_switch {starts : List (NodeId × Option PointId)} (hw : c.tree.WellFormed)
    (hk : c.tree.kind i = .statement .switch)
    (ih : (Task.sections { τ with onBreak := some d.size } (c.sectionSource i p)
      (c.tree.childrenIn i .switchSection) starts).Tests c ((d.withCaseJumps []).stop c i) d₁) :
    (Task.node τ i p).Tests c d
      ((joinJumps (c.caseTarget starts d.size) d₁.caseJumps.reverse
        ((d₁.joinWhen (c.isPassed i) p (some d.size) .normal).withCaseJumps d.caseJumps)).list
        d.size) := by
  refine tests_node hw hk fun hi => ?_
  have hjumps : Draft.Tests (· = i) d (d.withCaseJumps []) := .of_eq rfl
  have hstop : Draft.Tests (· = i) d ((d.withCaseJumps []).stop c i) :=
    hjumps.left (c := c) (i := i) rfl
  have hsections := ih fun s hs => hi.child (hw.parent_of_mem_childrenIn hs)
  exact (hstop.followed hsections).followed (.of_eq (by simp))

theorem tests_doLoop (hw : c.tree.WellFormed) (hk : c.tree.kind i = .statement .doLoop)
    (hbody : j = c.child i .embeddedStatement) (hbefore : before = (d.stop c i).test i)
    (hd : Draws c (.node ⟨some d.size, some (d.size + 1)⟩ j (before.startOf j))
      ((before.start j).joinIf p (before.startOf j) .normal) last d₁)
    (ih : (Task.node ⟨some d.size, some (d.size + 1)⟩ j (before.startOf j)).Tests c
      ((before.start j).joinIf p (before.startOf j) .normal) d₁) (condition : Option Bool) :
    (Task.node τ i p).Tests c d (((((d₁.joinIf last (some (d.size + 1)) .normal).joinWhen
      (condition != some false) (some (d.size + 1)) (before.startOf j) .whenTrue).leave
        condition (d.size + 1) d.size).list (d.size + 1)).list d.size) := by
  refine tests_node hw hk fun hi => ?_
  have hpoints : Draft.Tests (· = i) d before :=
    hbefore ▸ Tests.stop.trans .test fun _ _ h => .inr h
  have hbody : Draft.Tests (fun _ => False) before d₁ :=
    hd.tests_of_started hw ih (hbody ▸ holds_child hw hi) (by simp)
  exact (hpoints.followed hbody).followed (.of_eq (by simp))

theorem tests_forLoop {first iterated : Option PointId} (hw : c.tree.WellFormed)
    (hk : c.tree.kind i = .statement .forLoop) (hbody : j = c.child i .embeddedStatement)
    (ih : (Task.list τ p none (c.tree.childrenIn i .forInitializer)).Tests c d d₁)
    (ih' : (Task.list τ none none (c.tree.childrenIn i .forIterator)).Tests c
      (d₁.loop c i first) d₂)
    (hahead : ahead = d₂.joinIf iterated (some (d₁.size + 1)) .normal)
    (hd : Draws c (.node ⟨some d₁.size, some next⟩ j (ahead.startOf j)) (ahead.start j) last d₃)
    (ih'' : (Task.node ⟨some d₁.size, some next⟩ j (ahead.startOf j)).Tests c (ahead.start j) d₃)
    (condition : Option Bool) :
    (Task.node τ i p).Tests c d ((((d₃.joinIf last (some next) .normal).joinWhen
      (condition != some false) (some (d₁.size + 1)) (ahead.startOf j) .whenTrue).leave
        condition (d₁.size + 1) d₁.size).list d₁.size) := by
  refine tests_node hw hk fun hi => ?_
  have hloop : Draft.Tests (· = i) d d₂ :=
    ((ih.whole hi).trans .loop fun _ _ h => .inr h).followed (ih'.whole hi)
  have hturn : Draft.Tests (fun _ => False) d₂ ahead := .of_eq (by simp [hahead])
  have hbody : Draft.Tests (fun _ => False) d₂ d₃ :=
    hturn.followed (hd.tests_of_started hw ih'' (hbody ▸ holds_child hw hi) rfl)
  exact (hloop.followed hbody).followed (.of_eq (by simp))

theorem tests_first (hw : c.tree.WellFormed)
    (hd : Draws c (.node τ i (d.startOf i))
      ((d.tick.start i).joinIf p (d.startOf i) .normal) last d₁)
    (hd' : Draws c (.list τ p last rest) d₁ a d')
    (ih : (Task.node τ i (d.startOf i)).Tests c
      ((d.tick.start i).joinIf p (d.startOf i) .normal) d₁)
    (ih' : (Task.list τ p last rest).Tests c d₁ d') :
    (Task.list τ p none (i :: rest)).Tests c d d' := by
  intro x r before hx hl
  have hi : c.tree.parent i = some x := hw.parent_of_mem_childrenIn (r := r) (by simp [hl])
  have hstart : Draft.Tests (fun _ => False) d d₁ :=
    hd.tests_of_started hw ih (.inr (hx.child hi)) (by simp)
  have hrest := ih' x r (before ++ [i]) hx (by simp [hl])
  exact (hstart.trans hrest fun j _ hq => .inl (hd.enter_mem hw hd' hx hl hq)).mono fun _ =>
    False.elim

theorem tests_behind (hw : c.tree.WellFormed) (hd : Draws c (.node τ i (some next)) d.tick last d₁)
    (hd' : Draws c (.list τ p last rest) d₁ a d')
    (ih : (Task.node τ i (some next)).Tests c d.tick d₁)
    (ih' : (Task.list τ p last rest).Tests c d₁ d') :
    (Task.list τ p (some next) (i :: rest)).Tests c d d' := by
  intro x r before hx hl
  have hi : c.tree.parent i = some x := hw.parent_of_mem_childrenIn (r := r) (by simp [hl])
  have hrest := ih' x r (before ++ [i]) hx (by simp [hl])
  have htick : Draft.Tests (fun _ => False) d d.tick := .of_eq rfl
  rcases hd.isStatement_or with hk | hk
  · have hfirst : Draft.Tests (fun j => (some next).isSome = true ∧ (i :: rest).head? = some j ∧
        (c.tree.kind j).isStatement = true) d d₁ := by
      refine (htick.mono fun _ => False.elim).trans (ih (.inr (hx.child hi))) ?_
      rintro j - rfl
      exact .inr ⟨rfl, rfl, hk⟩
    exact hfirst.trans hrest fun j _ hq => .inl (hd.enter_mem hw hd' hx hl hq)
  · have hfirst : Draft.Tests (fun _ => False) d d₁ :=
      htick.followed (.of_eq (by rw [hd.eq_of_null hk]))
    exact (hfirst.trans hrest fun j _ hq => .inl (hd.enter_mem hw hd' hx hl hq)).mono fun _ =>
      False.elim

end

/-- A loop that is tested has been entered. -/
theorem Draws.tests (hw : c.tree.WellFormed) (h : Draws c task d a d') : task.Tests c d d' := by
  induction h with
  | hole => exact fun _ => .of_eq rfl
  | @plain _ i | @final _ i | @label _ i | @goto _ i | @caseJump _ i | @break_ _ i
  | @continue_ _ i =>
      exact fun _ => (Tests.of_eq rfl).left (c := c) (i := i) (by simp)
  | @block _ i _ _ _ _ hk _ ih =>
      exact tests_node hw hk fun hi => (ih.whole hi).left (c := c) (i := i) (by simp)
  | @wrapped _ i _ _ _ _ _ _ hk _ _ ih | @usingValue _ i _ _ _ _ hk _ _ ih =>
      refine tests_node hw hk fun hi => ?_
      exact ((ih (holds_child hw hi)).mono fun _ => False.elim).left (c := c) (i := i) (by simp)
  | @usingResource _ i _ _ _ _ _ _ hk _ _ _ ih ih' =>
      refine tests_node hw hk fun hi => ?_
      have hboth := (ih (holds_child hw hi)).followed (ih' (holds_child hw hi))
      exact (hboth.mono fun _ => False.elim).left (c := c) (i := i) (by simp)
  | @branch _ i _ _ _ _ _ _ hk _ _ ih ih' =>
      refine tests_node hw hk fun hi => ?_
      have hboth := (ih (holds_child hw hi)).followed (ih' (holds_child hw hi))
      refine (hboth.mono fun _ => False.elim).left (c := c) (i := i) ?_
      split <;> simp
  | switch hk _ ih => exact tests_switch hw hk ih
  | @whileLoop _ i p d _ _ hk _ ih | @foreachLoop _ i p d _ _ hk _ ih =>
      refine tests_node hw hk fun hi => ?_
      have hloop : Draft.Tests (· = i) d (d.loop c i p) := .loop
      exact (hloop.followed (ih (holds_child hw hi))).followed (.of_eq (by simp))
  | doLoop hk hbody hbefore hd ih => exact tests_doLoop hw hk hbody hbefore hd ih _
  | forLoop hk hbody _ _ hahead _ hd ih ih' ih'' =>
      exact tests_forLoop hw hk hbody ih ih' hahead hd ih'' _
  | tryFinally hk _ _ _ ih ih' =>
      refine tests_node hw hk fun hi => ?_
      have hboth := (ih (holds_guarded hw hi)).followed (ih' (holds_child hw hi))
      exact (Tests.stop.followed hboth).followed (.of_eq rfl)
  | tryCatch hk _ _ ih =>
      exact tests_node hw hk fun hi =>
        (Tests.stop.followed (ih (holds_guarded hw hi))).followed (.of_eq rfl)
  | enter hd ih => exact fun hi => hd.tests_of_started hw ih hi (by simp)
  | absent => exact fun _ => .of_eq rfl
  | embed _ hd ih => exact fun hi => hd.tests_of_started hw ih hi (by simp)
  | nil => exact fun _ _ _ _ _ => .of_eq rfl
  | first hd hd' ih ih' => exact tests_first hw hd hd' ih ih'
  | behind hd hd' ih ih' => exact tests_behind hw hd hd' ih ih'
  | noSection => exact fun _ => .of_eq rfl
  | section_ _ _ ih ih' =>
      intro hs
      exact (ih.whole (hs _ List.mem_cons_self)).followed
        (ih' fun s hr => hs s (List.mem_cons_of_mem _ hr))
  | unguarded => exact fun _ => .of_eq rfl
  | guard _ _ ih ih' =>
      intro hb
      refine ((ih (hb _ List.mem_cons_self)).followed (.of_eq (by simp))).followed (ih' ?_)
      exact fun b hr => hb b (List.mem_cons_of_mem _ hr)

end TreeScribe.Flow
