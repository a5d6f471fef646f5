import TreeScribe.Proofs.Flow.Tested

namespace TreeScribe

namespace Tree

/-- The parts that are drawn with a statement of a kind; of a single role the first child. -/
def drawnParts (t : Tree) (i : NodeId) : StatementKind → List NodeId
  | .block => t.childrenIn i .statement
  | .branch => [t.child i .trueStatement, t.child i .falseStatement]
  | .switch => (t.childrenIn i .switchSection).flatMap fun s => t.childrenIn s .statement
  | .whileLoop | .doLoop | .foreachLoop | .lock | .fixed => [t.child i .embeddedStatement]
  | .forLoop => t.childrenIn i .forInitializer ++ t.childrenIn i .forIterator ++
      [t.child i .embeddedStatement]
  | .tryCatch =>
    (t.child i .tryBlock :: (t.childrenIn i .catchClause).map fun s => t.child s .body) ++
    [t.child i .finallyBlock]
  | .usingResource => [t.child i .resource, t.child i .embeddedStatement]
  | .checked | .unchecked | .unsafeBlock => [t.child i .body]
  | _ => []

inductive Visited (t : Tree) : NodeId → NodeId → Prop
  | self {i : NodeId} (hi : (t.kind i).isStatement = true) : Visited t i i
  | part {i j l : NodeId} {k : StatementKind} (hk : t.kind i = .statement k)
      (hj : j ∈ t.drawnParts i k)
    (h : Visited t j l) : Visited t i l

variable {t : Tree} {i j : NodeId}

namespace Visited

theorem isStatement (h : t.Visited i j) : (t.kind i).isStatement = true := by
  cases h with
  | self hi => exact hi
  | part hk =>
      rw [hk]
      rfl

theorem isStatement_right (h : t.Visited i j) : (t.kind j).isStatement = true := by
  induction h with
  | self hi => exact hi
  | part _ _ _ ih => exact ih

theorem cases_of_kind {k : StatementKind} (h : t.Visited i j) (hk : t.kind i = .statement k) :
    j = i ∨ ∃ p ∈ t.drawnParts i k, t.Visited p j := by
  cases h with
  | self => exact .inl rfl
  | part hk' hp h =>
      cases hk.symm.trans hk'
      exact .inr ⟨_, hp, h⟩

end Visited

end Tree

namespace Flow

open TreeScribe.Tree Draft

structure Draft.Shows (t : Tree) (d : Draft) (j : NodeId) : Prop where
  left : .leave j ∈ d.marks
  tested {k : StatementKind} (hk : t.kind j = .statement k) (hl : k.isLoop = true) :
    .test j ∈ d.marks

structure Draft.ShowsAll (t : Tree) (d : Draft) (j : NodeId) : Prop extends Draft.Shows t d j where
  entered : .enter j ∈ d.marks

namespace Draft

variable {t : Tree} {d d' : Draft} {j : NodeId}

theorem Shows.mono (h : d.Shows t j) (hd : ∀ m ∈ d.marks, m ∈ d'.marks) : d'.Shows t j :=
  ⟨hd _ h.left, fun hk hl => hd _ (h.tested hk hl)⟩

theorem ShowsAll.mono (h : d.ShowsAll t j) (hd : ∀ m ∈ d.marks, m ∈ d'.marks) : d'.ShowsAll t j :=
  ⟨h.toShows.mono hd, hd _ h.entered⟩

theorem shows_of_left {k : StatementKind} (hk : t.kind j = .statement k) (hl : k.isLoop = false)
    (h : .leave j ∈ d.marks) : d.Shows t j := by
  refine ⟨h, fun hk' hl' => ?_⟩
  cases hk.symm.trans hk'
  cases hl.symm.trans hl'

end Draft

def Task.Shown (c : Plan) (d' : Draft) : Task → Prop
  | node _ i _ => c.Holds i → ∀ j, c.tree.Visited i j →
      d'.Shows c.tree j ∧ (j = i ∨ .enter j ∈ d'.marks)
  | entered _ i _ _ _ | embedded _ i _ => c.Holds i → ∀ j, c.tree.Visited i j → d'.ShowsAll c.tree j
  | list _ _ current nodes => ∀ x r before, c.tree.Below c.root x →
      c.tree.childrenIn x r = before ++ nodes →
    ∀ i ∈ nodes, ∀ j, c.tree.Visited i j →
      d'.Shows c.tree j ∧ (current.isSome = true ∧ nodes.head? = some j ∨ .enter j ∈ d'.marks)
  | sections _ _ nodes _ => (∀ s ∈ nodes, c.tree.Below c.root s) →
    ∀ s ∈ nodes, ∀ i ∈ c.tree.childrenIn s .statement, ∀ j, c.tree.Visited i j →
    d'.ShowsAll c.tree j
  | guarded _ _ _ _ bodies => (∀ b ∈ bodies, c.Holds b) → ∀ i ∈ bodies, ∀ j, c.tree.Visited i j →
      d'.ShowsAll c.tree j

variable {c : Plan} {task : Task} {d d' d₁ : Draft} {a : Option PointId} {i : NodeId} {τ : Targets}
  {p : Option PointId}

theorem parts_of_simple {t : Tree} {k : StatementKind}
    (h : k.isPlain = true ∨ k.isFinal = true ∨ k.isCaseJump = true) :
    t.drawnParts i k = [] ∧ k.isLoop = false := by
  cases k <;> simp_all [drawnParts, StatementKind.isPlain, StatementKind.isFinal,
    StatementKind.isCaseJump, StatementKind.isLoop]

theorem parts_of_bodyRole {t : Tree} {k : StatementKind} {r : Role} (h : k.bodyRole? = some r) :
    t.drawnParts i k = [t.child i r] ∧ k.isLoop = false := by
  cases k <;> simp_all [drawnParts, StatementKind.bodyRole?, StatementKind.isLoop]

/-- A statement shows itself and what its parts show. -/
theorem shown_of_parts {k : StatementKind} (hw : c.tree.WellFormed)
    (hk : c.tree.kind i = .statement k) (hi : d'.Shows c.tree i) (hparts : c.tree.Below c.root i →
      ∀ q ∈ c.tree.drawnParts i k, ∀ j, c.tree.Visited q j → d'.ShowsAll c.tree j) :
    (Task.node τ i p).Shown c d' := by
  intro hholds j hj
  rcases hj.cases_of_kind hk with rfl | ⟨q, hq, hj⟩
  · exact ⟨hi, .inl rfl⟩
  · have hpart := hparts (hholds.below_of_kind hw hk) q hq j hj
    exact ⟨hpart.toShows, .inr hpart.entered⟩

theorem Draws.shown_of_started (hw : c.tree.WellFormed) (h : Draws c (.node τ i p) d₁ a d')
    (ih : (Task.node τ i p).Shown c d') (hi : c.Holds i) (hd : i ≠ .null → .enter i ∈ d₁.marks) :
    ∀ j, c.tree.Visited i j → d'.ShowsAll c.tree j := by
  intro j hj
  obtain ⟨hshows, rfl | henter⟩ := ih hi j hj
  · exact ⟨hshows, h.mem_marks hw (hd (hw.ne_null_of_isStatement hj.isStatement))⟩
  · exact ⟨hshows, henter⟩

theorem Task.Shown.whole {x : NodeId} {r : Role} (hx : c.tree.Below c.root x)
    (h : (Task.list τ p none (c.tree.childrenIn x r)).Shown c d') :
    ∀ i ∈ c.tree.childrenIn x r, ∀ j, c.tree.Visited i j → d'.ShowsAll c.tree j := by
  intro i hi j hj
  obtain ⟨hshows, hcurrent | henter⟩ := h x r [] hx rfl i hi j hj
  · cases hcurrent.1
  · exact ⟨hshows, henter⟩

theorem shown_of_simple {k : StatementKind} (hw : c.tree.WellFormed)
    (hk : c.tree.kind i = .statement k) (h : c.tree.drawnParts i k = [] ∧ k.isLoop = false)
    (hi : .leave i ∈ d'.marks) : (Task.node τ i p).Shown c d' := by
  refine shown_of_parts hw hk (shows_of_left hk h.2 hi) fun _ q hq => ?_
  rw [h.1] at hq
  cases hq

theorem shows_of_loop {d : Draft} (hd : ∀ m ∈ ((d.stop c i).test i).marks, m ∈ d'.marks) :
    d'.Shows c.tree i :=
  ⟨hd _ (by simp), fun _ _ => hd _ (by simp)⟩

theorem child_eq_null_of_hasChild {t : Tree} {r : Role} (h : t.hasChild i r = false) :
    t.child i r = .null := by
  simpa [hasChild] using h

section

variable {d₂ d₃ before ahead : Draft} {k : StatementKind} {r : Role} {j : NodeId}
  {last : Option PointId} {next : PointId} {rest : List NodeId} {τ' : Targets}

theorem shown_block (hw : c.tree.WellFormed) (hk : c.tree.kind i = .statement .block)
    (ih : (Task.list τ p none (c.tree.childrenIn i .statement)).Shown c d₁) :
    (Task.node τ i p).Shown c (((d₁.stop c i).list d₁.size).joinIf a (some d₁.size) .normal) := by
  refine shown_of_parts hw hk (shows_of_left hk rfl (by simp)) fun hi q hq j hj => ?_
  exact (ih.whole hi q hq j hj).mono (by simp +contextual)

theorem shown_wrapped (hw : c.tree.WellFormed) (hk : c.tree.kind i = .statement k)
    (hr : k.bodyRole? = some r) (ih : (Task.embedded τ (c.child i r) p).Shown c d₁) :
    (Task.node τ i p).Shown c (((d₁.stop c i).list d₁.size).joinIf a (some d₁.size) .normal) := by
  obtain ⟨hparts, hl⟩ := parts_of_bodyRole (t := c.tree) (i := i) hr
  refine shown_of_parts hw hk (shows_of_left hk hl (by simp)) fun hi q hq j hj => ?_
  rw [hparts] at hq
  cases List.mem_singleton.mp hq
  exact (ih (holds_child hw hi) j hj).mono (by simp +contextual)

theorem shown_usingValue (hw : c.tree.WellFormed) (hk : c.tree.kind i = .statement .usingResource)
    (hr : (c.tree.kind (c.child i .resource)).isStatement = false)
    (ih : (Task.embedded τ (c.child i .embeddedStatement) p).Shown c d₁) :
    (Task.node τ i p).Shown c (((d₁.stop c i).list d₁.size).joinIf a (some d₁.size) .normal) := by
  refine shown_of_parts hw hk (shows_of_left hk rfl (by simp)) fun hi q hq j hj => ?_
  rcases List.mem_cons.mp hq with rfl | hq
  · have hs := hj.isStatement
    rw [show (c.tree.kind (c.tree.child i .resource)).isStatement = false from hr] at hs
    cases hs
  · cases List.mem_singleton.mp hq
    exact (ih (holds_child hw hi) j hj).mono (by simp +contextual)

theorem shown_usingResource (hw : c.tree.WellFormed)
    (hk : c.tree.kind i = .statement .usingResource)
    (hd : Draws c (.embedded τ (c.child i .embeddedStatement) a) d₁ last d₂)
    (ih : (Task.embedded τ (c.child i .resource) p).Shown c d₁)
    (ih' : (Task.embedded τ (c.child i .embeddedStatement) a).Shown c d₂) :
    (Task.node τ i p).Shown c
    (((d₂.stop c i).list d₂.size).joinIf last (some d₂.size) .normal) := by
  refine shown_of_parts hw hk (shows_of_left hk rfl (by simp)) fun hi q hq j hj => ?_
  rcases List.mem_cons.mp hq with rfl | hq
  · have hresource := (ih (holds_child hw hi) j hj).mono fun m hm => hd.mem_marks hw hm
    exact hresource.mono (by simp +contextual)
  · cases List.mem_singleton.mp hq
    exact (ih' (holds_child hw hi) j hj).mono (by simp +contextual)

theorem shown_branch {pos neg : Option PointId} {kind kind' : EdgeKind} {isTaken isTaken' : Bool}
    (hw : c.tree.WellFormed) (hk : c.tree.kind i = .statement .branch)
    (hd : Draws c (.entered τ (c.child i .falseStatement) p kind' isTaken') d₁ neg d₂)
    (ih : (Task.entered τ (c.child i .trueStatement) p kind isTaken).Shown c d₁)
    (ih' : (Task.entered τ (c.child i .falseStatement) p kind' isTaken').Shown c d₂) :
    (Task.node τ i p).Shown c (if neg.isSome
      then (((d₂.stop c i).list d₂.size).joinIf pos (some d₂.size) .normal).joinIf neg
        (some d₂.size) .normal
      else (((d₂.stop c i).list d₂.size).joinIf pos (some d₂.size) .normal).joinWhen
        (c.condition (c.child i .condition) != some true) p (some d₂.size) .whenFalse) := by
  have hend {m : Mark} (hm : m ∈ (d₂.stop c i).marks) : m ∈ (if neg.isSome
      then (((d₂.stop c i).list d₂.size).joinIf pos (some d₂.size) .normal).joinIf neg
        (some d₂.size) .normal
      else (((d₂.stop c i).list d₂.size).joinIf pos (some d₂.size) .normal).joinWhen
        (c.condition (c.child i .condition) != some true) p (some d₂.size) .whenFalse).marks := by
    split
    · simpa using hm
    · simpa using hm
  refine shown_of_parts hw hk (shows_of_left hk rfl (hend (by simp))) fun hi q hq j hj => ?_
  rcases List.mem_cons.mp hq with rfl | hq
  · refine (ih (holds_child hw hi) j hj).mono fun m hm => hend ?_
    simp [hd.mem_marks hw hm]
  · cases List.mem_singleton.mp hq
    refine (ih' (holds_child hw hi) j hj).mono fun m hm => hend ?_
    simp [hm]

theorem shown_switch {starts : List (NodeId × Option PointId)} (hw : c.tree.WellFormed)
    (hk : c.tree.kind i = .statement .switch)
    (hd : Draws c (.sections { τ with onBreak := some d.size } (c.sectionSource i p)
      (c.tree.childrenIn i .switchSection) starts) ((d.withCaseJumps []).stop c i) a d₁)
    (ih : (Task.sections { τ with onBreak := some d.size } (c.sectionSource i p)
      (c.tree.childrenIn i .switchSection) starts).Shown c d₁) :
    (Task.node τ i p).Shown c
      ((joinJumps (c.caseTarget starts d.size) d₁.caseJumps.reverse
        ((d₁.joinWhen (c.isPassed i) p (some d.size) .normal).withCaseJumps d.caseJumps)).list
        d.size) := by
  have hleft := hd.mem_marks hw (m := .leave i) (by simp)
  refine shown_of_parts hw hk (shows_of_left hk rfl (by simpa using hleft)) fun hi q hq j hj => ?_
  obtain ⟨s, hs, hq⟩ := List.mem_flatMap.mp hq
  have hsections (s : NodeId) (hs : s ∈ c.tree.childrenIn i .switchSection) :
      c.tree.Below c.root s :=
    hi.child (hw.parent_of_mem_childrenIn hs)
  exact (ih hsections s hs q hq j hj).mono (by simp)

theorem shown_loop (hw : c.tree.WellFormed) (hk : c.tree.kind i = .statement k)
    (hparts : c.tree.drawnParts i k = [c.child i .embeddedStatement])
    (hpoints : ∀ m ∈ ((d.stop c i).test i).marks, m ∈ d₁.marks)
    (ih : c.tree.Below c.root i → ∀ j, c.tree.Visited (c.child i .embeddedStatement) j →
      d₁.ShowsAll c.tree j)
    (hd : d'.marks = d₁.marks) : (Task.node τ i p).Shown c d' := by
  refine shown_of_parts hw hk (shows_of_loop (d := d) fun m hm => hd ▸ hpoints m hm)
    fun hi q hq j hj => ?_
  rw [hparts] at hq
  cases List.mem_singleton.mp hq
  exact (ih hi j hj).mono fun m hm => hd ▸ hm

theorem shown_whileLoop {kind : EdgeKind} {isTaken : Bool} (hw : c.tree.WellFormed)
    (hk : c.tree.kind i = .statement .whileLoop)
    (hd : Draws c (.entered τ' (c.child i .embeddedStatement) (some next) kind isTaken)
      (d.loop c i p) last d₁)
    (ih : (Task.entered τ' (c.child i .embeddedStatement) (some next) kind isTaken).Shown c d₁)
    (hd' : d'.marks = d₁.marks) : (Task.node τ i p).Shown c d' :=
  shown_loop hw hk rfl (d := d) (fun m hm => hd.mem_marks hw (by simpa using hm))
    (fun hi => ih (holds_child hw hi)) hd'

theorem shown_foreachLoop (hw : c.tree.WellFormed) (hk : c.tree.kind i = .statement .foreachLoop)
    (hd : Draws c (.embedded τ' (c.child i .embeddedStatement) (some next)) (d.loop c i p) last d₁)
    (ih : (Task.embedded τ' (c.child i .embeddedStatement) (some next)).Shown c d₁)
    (hd' : d'.marks = d₁.marks) : (Task.node τ i p).Shown c d' :=
  shown_loop hw hk rfl (d := d) (fun m hm => hd.mem_marks hw (by simpa using hm))
    (fun hi => ih (holds_child hw hi)) hd'

theorem shown_doLoop (hw : c.tree.WellFormed) (hk : c.tree.kind i = .statement .doLoop)
    (hbody : j = c.child i .embeddedStatement) (hbefore : before = (d.stop c i).test i)
    (hd : Draws c (.node τ' j (before.startOf j))
      ((before.start j).joinIf p (before.startOf j) .normal) last d₁)
    (ih : (Task.node τ' j (before.startOf j)).Shown c d₁) (hd' : d'.marks = d₁.marks) :
    (Task.node τ i p).Shown c d' := by
  subst hbody hbefore
  refine shown_loop hw hk rfl (d := d) (fun m hm => hd.mem_marks hw ?_) (fun hi => ?_) hd'
  · simp only [marks_joinIf, marks_start, List.mem_append, hm, true_or]
  · exact hd.shown_of_started hw ih (holds_child hw hi) fun hn => by simp [hn]

theorem shown_forLoop {first iterated : Option PointId} (hw : c.tree.WellFormed)
    (hk : c.tree.kind i = .statement .forLoop) (hbody : j = c.child i .embeddedStatement)
    (hr : Draws c (.list τ none none (c.tree.childrenIn i .forIterator))
      (d₁.loop c i first) iterated d₂)
    (hahead : ahead = d₂.joinIf iterated (some (d₁.size + 1)) .normal)
    (hd : Draws c (.node ⟨some d₁.size, some next⟩ j (ahead.startOf j)) (ahead.start j) last d₃)
    (ih : (Task.list τ p none (c.tree.childrenIn i .forInitializer)).Shown c d₁)
    (ih' : (Task.list τ none none (c.tree.childrenIn i .forIterator)).Shown c d₂)
    (ih'' : (Task.node ⟨some d₁.size, some next⟩ j (ahead.startOf j)).Shown c d₃)
    (hd' : d'.marks = d₃.marks) : (Task.node τ i p).Shown c d' := by
  have hbehind {m : Mark} (hm : m ∈ d₂.marks) :
      m ∈ d'.marks := hd' ▸ hd.mem_marks hw (by simp [hahead, hm])
  have hloop {m : Mark} (hm : m ∈ (d₁.loop c i first).marks) :
      m ∈ d'.marks := hbehind (hr.mem_marks hw hm)
  refine shown_of_parts hw hk (shows_of_loop (d := d₁) fun m hm => hloop (by simpa using hm))
    fun hi q hq j hj => ?_
  rcases List.mem_append.mp hq with hq | hq
  · rcases List.mem_append.mp hq with hq | hq
    · exact (ih.whole hi q hq j hj).mono fun m hm => hloop (by simp [hm])
    · exact (ih'.whole hi q hq j hj).mono fun m hm => hbehind hm
  · cases List.mem_singleton.mp hq
    subst hbody
    have hstarted := hd.shown_of_started hw ih'' (holds_child hw hi) (fun hn => by simp [hn]) j hj
    exact hstarted.mono fun m hm => hd' ▸ hm

theorem shown_tryFinally (hw : c.tree.WellFormed) (hk : c.tree.kind i = .statement .tryCatch)
    (hd : Draws c (.guarded τ i p d.size (c.guarded i)) (d.stop c i) a d₁)
    (hd' : Draws c (.embedded τ (c.child i .finallyBlock) p) d₁ last d₂)
    (ih : (Task.guarded τ i p d.size (c.guarded i)).Shown c d₁)
    (ih' : (Task.embedded τ (c.child i .finallyBlock) p).Shown c d₂) :
    (Task.node τ i p).Shown c (d₂.list d.size) := by
  have hleft := hd'.mem_marks hw (hd.mem_marks hw (m := .leave i) (by simp))
  refine shown_of_parts hw hk (shows_of_left hk rfl (by simpa using hleft)) fun hi q hq j hj => ?_
  rcases List.mem_append.mp hq with hq | hq
  · exact (ih (holds_guarded hw hi) q hq j hj).mono fun m hm => by simpa using hd'.mem_marks hw hm
  · cases List.mem_singleton.mp hq
    exact (ih' (holds_child hw hi) j hj).mono fun m hm => hm

theorem shown_tryCatch (hw : c.tree.WellFormed) (hk : c.tree.kind i = .statement .tryCatch)
    (hf : c.tree.hasChild i .finallyBlock = false)
    (hd : Draws c (.guarded τ i p d.size (c.guarded i)) (d.stop c i) a d₁)
    (ih : (Task.guarded τ i p d.size (c.guarded i)).Shown c d₁) :
    (Task.node τ i p).Shown c (d₁.list d.size) := by
  have hleft := hd.mem_marks hw (m := .leave i) (by simp)
  refine shown_of_parts hw hk (shows_of_left hk rfl (by simpa using hleft)) fun hi q hq j hj => ?_
  rcases List.mem_append.mp hq with hq | hq
  · exact (ih (holds_guarded hw hi) q hq j hj).mono fun m hm => hm
  · cases List.mem_singleton.mp hq
    exact absurd (child_eq_null_of_hasChild hf) (hw.ne_null_of_isStatement hj.isStatement)

theorem shown_first (hw : c.tree.WellFormed)
    (hd : Draws c (.node τ i (d.startOf i))
      ((d.tick.start i).joinIf p (d.startOf i) .normal) last d₁)
    (hd' : Draws c (.list τ p last rest) d₁ a d') (ih : (Task.node τ i (d.startOf i)).Shown c d₁)
    (ih' : (Task.list τ p last rest).Shown c d') : (Task.list τ p none (i :: rest)).Shown c d' := by
  intro x r before hx hl q hq j hj
  have hi : c.tree.parent i = some x := hw.parent_of_mem_childrenIn (r := r) (by simp [hl])
  rcases List.mem_cons.mp hq with rfl | hq
  · have hfirst := hd.shown_of_started hw ih (.inr (hx.child hi)) (fun hn => by simp [hn]) j hj
    have hstart := hfirst.mono fun m hm => hd'.mem_marks hw hm
    exact ⟨hstart.toShows, .inr hstart.entered⟩
  · obtain ⟨hshows, hcurrent | henter⟩ := ih' x r (before ++ [i]) hx (by simp [hl]) q hq j hj
    · exact
        ⟨hshows, .inr (hd.enter_mem hw hd' hx hl ⟨hcurrent.1, hcurrent.2, hj.isStatement_right⟩)⟩
    · exact ⟨hshows, .inr henter⟩

theorem shown_behind (hw : c.tree.WellFormed) (hd : Draws c (.node τ i (some next)) d.tick last d₁)
    (hd' : Draws c (.list τ p last rest) d₁ a d') (ih : (Task.node τ i (some next)).Shown c d₁)
    (ih' : (Task.list τ p last rest).Shown c d') :
    (Task.list τ p (some next) (i :: rest)).Shown c d' := by
  intro x r before hx hl y hy j hj
  have hi : c.tree.parent i = some x := hw.parent_of_mem_childrenIn (r := r) (by simp [hl])
  rcases List.mem_cons.mp hy with rfl | hy
  · obtain ⟨hshows, rfl | henter⟩ := ih (.inr (hx.child hi)) j hj
    · exact ⟨hshows.mono fun m hm => hd'.mem_marks hw hm, .inl ⟨rfl, rfl⟩⟩
    · exact ⟨hshows.mono fun m hm => hd'.mem_marks hw hm, .inr (hd'.mem_marks hw henter)⟩
  · obtain ⟨hshows, hcurrent | henter⟩ := ih' x r (before ++ [i]) hx (by simp [hl]) y hy j hj
    · exact
        ⟨hshows, .inr (hd.enter_mem hw hd' hx hl ⟨hcurrent.1, hcurrent.2, hj.isStatement_right⟩)⟩
    · exact ⟨hshows, .inr henter⟩

end

/-- What is visited is entered and left, and loops are tested. -/
theorem Draws.shown (hw : c.tree.WellFormed) (h : Draws c task d a d') : task.Shown c d' := by
  induction h with
  | hole hk =>
      intro _ j hj
      have hs := hj.isStatement
      rw [hk] at hs
      cases hs
  | plain hk h => exact shown_of_simple hw hk (parts_of_simple (.inl h)) (by simp)
  | final hk h => exact shown_of_simple hw hk (parts_of_simple (.inr (.inl h))) (by simp)
  | caseJump hk h => exact shown_of_simple hw hk (parts_of_simple (.inr (.inr h))) (by simp)
  | label hk | goto hk | break_ hk | continue_ hk =>
      exact shown_of_simple hw hk ⟨rfl, rfl⟩ (by simp)
  | block hk _ ih => exact shown_block hw hk ih
  | wrapped hk hr _ ih => exact shown_wrapped hw hk hr ih
  | usingValue hk hr _ ih => exact shown_usingValue hw hk hr ih
  | usingResource hk _ _ hd ih ih' => exact shown_usingResource hw hk hd ih ih'
  | branch hk _ hd ih ih' => exact shown_branch hw hk hd ih ih'
  | switch hk hd ih => exact shown_switch hw hk hd ih
  | whileLoop hk hd ih => exact shown_whileLoop hw hk hd ih (by simp)
  | foreachLoop hk hd ih => exact shown_foreachLoop hw hk hd ih (by simp)
  | doLoop hk hbody hbefore hd ih => exact shown_doLoop hw hk hbody hbefore hd ih (by simp)
  | forLoop hk hbody _ hr hahead _ hd ih ih' ih'' =>
      exact shown_forLoop hw hk hbody hr hahead hd ih ih' ih'' (by simp)
  | tryFinally hk _ hd hd' ih ih' => exact shown_tryFinally hw hk hd hd' ih ih'
  | tryCatch hk hf hd ih => exact shown_tryCatch hw hk hf hd ih
  | enter hd ih => exact fun hi => hd.shown_of_started hw ih hi fun hn => by simp [hn]
  | absent =>
      intro _ j hj
      exact absurd rfl (hw.ne_null_of_isStatement hj.isStatement)
  | embed hn hd ih => exact fun hi => hd.shown_of_started hw ih hi fun hn => by simp [hn]
  | nil =>
      intro _ _ _ _ _ i hi
      cases hi
  | first hd hd' ih ih' => exact shown_first hw hd hd' ih ih'
  | behind hd hd' ih ih' => exact shown_behind hw hd hd' ih ih'
  | noSection =>
      intro _ s hs
      cases hs
  | section_ _ hd ih ih' =>
      intro hs s' hs' i hi j hj
      rcases List.mem_cons.mp hs' with rfl | hs'
      · exact (ih.whole (hs _ List.mem_cons_self) i hi j hj).mono fun m hm => hd.mem_marks hw hm
      · exact ih' (fun s hr => hs s (List.mem_cons_of_mem _ hr)) s' hs' i hi j hj
  | unguarded =>
      intro _ i hi
      cases hi
  | guard _ hd ih ih' =>
      intro hb y hy j hj
      rcases List.mem_cons.mp hy with rfl | hy
      · exact (ih (hb _ List.mem_cons_self) j hj).mono fun m hm =>
          hd.mem_marks hw (by simpa using hm)
      · exact ih' (fun b hr => hb b (List.mem_cons_of_mem _ hr)) y hy j hj

end Flow

end TreeScribe
