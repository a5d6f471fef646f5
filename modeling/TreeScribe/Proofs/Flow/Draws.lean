import TreeScribe.Proofs.Flow.Drawing
import TreeScribe.Proofs.Tree.Statements

namespace TreeScribe

namespace Flow

/-- What is drawn: a statement entered at a point, a body, the statements of a list, the sections of
a switch with their first points, or the bodies that a try statement guards. -/
inductive Task where
  | node (targets : Targets) (i : NodeId) (source : Option PointId)
  | entered (targets : Targets) (i : NodeId) (source : Option PointId) (kind : EdgeKind)
      (isTaken : Bool)
  | embedded (targets : Targets) (i : NodeId) (source : Option PointId)
  | list (targets : Targets) (source current : Option PointId) (nodes : List NodeId)
  | sections (targets : Targets) (enter : NodeId → Option PointId) (nodes : List NodeId)
      (starts : List (NodeId × Option PointId))
  | guarded (targets : Targets) (i : NodeId) (source : Option PointId) (stop : PointId)
      (bodies : List NodeId)

namespace Draft

def addLabel (d : Draft) (name : String) (p : PointId) : Draft :=
  { d with labels := (name, p) :: d.labels }

def addGoto (d : Draft) (source : Option PointId) : Draft :=
  { d with gotos := source.toList ++ d.gotos }

def addCaseJump (d : Draft) (source : Option PointId) : Draft :=
  { d with caseJumps := source.toList ++ d.caseJumps }

def joinJumps (target : NodeId → PointId) : List PointId → Draft → Draft
  | [], d => d
  | p :: rest, d => joinJumps target rest (d.join p (target (d.graph.point p).next) .jump)

@[simp] theorem size_addLabel (d : Draft) (name : String) (p : PointId) :
    (d.addLabel name p).size = d.size := rfl

@[simp] theorem size_addGoto (d : Draft) (p : Option PointId) : (d.addGoto p).size = d.size := rfl

@[simp] theorem size_addCaseJump (d : Draft) (p : Option PointId) :
    (d.addCaseJump p).size = d.size := rfl

@[simp] theorem size_joinJumps (target : NodeId → PointId) (jumps : List PointId) (d : Draft) :
    (joinJumps target jumps d).size = d.size := by
  induction jumps generalizing d with
  | nil => rfl
  | cons p rest ih => rw [joinJumps, ih, size_join]

end Draft

namespace Plan

def bare (t : Tree) (root : NodeId) (s : Setting) : Plan := ⟨t, root, s, fun _ _ _ => return none⟩

/-- Whether the condition of a loop is known; a loop without one goes on forever. -/
def loopCondition (c : Plan) (i : NodeId) : Option Bool :=
  if c.child i .condition = .null then some true else c.condition (c.child i .condition)

def chosen (c : Plan) (i : NodeId) : Option NodeId :=
  (c.constant (c.child i .expression)).bind fun v =>
    c.chosenSection v (c.tree.childrenIn i .switchSection)

def isPassed (c : Plan) (i : NodeId) : Bool :=
  (c.lastSection (c.tree.childrenIn i .switchSection) isDefault).isNone && (c.chosen i).isNone

def guarded (c : Plan) (i : NodeId) : List NodeId :=
  c.child i .tryBlock :: (c.tree.childrenIn i .catchClause).map fun clause => c.child clause .body

end Plan

open Plan

/-- The task, begun with the draft `d`, ends with `d'` and goes on at `a`. This has no bound on the
depth, and a rule for every construct. -/
inductive Draws (c : Plan) : Task → Draft → Option PointId → Draft → Prop
  | hole {τ i p d} (hk : c.tree.kind i = .null) : Draws c (.node τ i p) d none d
  | plain {τ i p d k} (hk : c.tree.kind i = .statement k) (h : k.isPlain = true) :
    Draws c (.node τ i p) d (some d.size)
      (((d.stop c i).list d.size).joinIf p (some d.size) .normal)
  | final {τ i p d k} (hk : c.tree.kind i = .statement k) (h : k.isFinal = true) :
    Draws c (.node τ i p) d (some d.size) ((d.stop c i).list d.size)
  | label {τ i p d} (hk : c.tree.kind i = .statement .label) :
    Draws c (.node τ i p) d (some d.size)
      ((((d.stop c i).list d.size).joinIf p (some d.size) .normal).addLabel (c.tree.name i) d.size)
  | goto {τ i p d} (hk : c.tree.kind i = .statement .goto) :
    Draws c (.node τ i p) d (some d.size) (((d.addGoto p).stop c i).list d.size)
  | caseJump {τ i p d k} (hk : c.tree.kind i = .statement k) (h : k.isCaseJump = true) :
    Draws c (.node τ i p) d (some d.size) (((d.addCaseJump p).stop c i).list d.size)
  | break_ {τ i p d} (hk : c.tree.kind i = .statement .break_) :
    Draws c (.node τ i p) d (some d.size) (((d.joinIf p τ.onBreak .jump).stop c i).list d.size)
  | continue_ {τ i p d} (hk : c.tree.kind i = .statement .continue_) :
    Draws c (.node τ i p) d (some d.size) (((d.joinIf p τ.onContinue .jump).stop c i).list d.size)
  | block {τ i p d last d₁} (hk : c.tree.kind i = .statement .block)
    (h : Draws c (.list τ p none (c.tree.childrenIn i .statement)) d last d₁) :
    Draws c (.node τ i p) d (some d₁.size)
      (((d₁.stop c i).list d₁.size).joinIf last (some d₁.size) .normal)
  | wrapped {τ i p d k r last d₁} (hk : c.tree.kind i = .statement k) (hr : k.bodyRole? = some r)
    (h : Draws c (.embedded τ (c.child i r) p) d last d₁) :
    Draws c (.node τ i p) d (some d₁.size)
      (((d₁.stop c i).list d₁.size).joinIf last (some d₁.size) .normal)
  | usingResource {τ i p d entered d₁ last d₂} (hk : c.tree.kind i = .statement .usingResource)
    (hr : (c.tree.kind (c.child i .resource)).isStatement = true)
    (h : Draws c (.embedded τ (c.child i .resource) p) d entered d₁)
    (h' : Draws c (.embedded τ (c.child i .embeddedStatement) entered) d₁ last d₂) :
    Draws c (.node τ i p) d (some d₂.size)
      (((d₂.stop c i).list d₂.size).joinIf last (some d₂.size) .normal)
  | usingValue {τ i p d last d₁} (hk : c.tree.kind i = .statement .usingResource)
    (hr : (c.tree.kind (c.child i .resource)).isStatement = false)
    (h : Draws c (.embedded τ (c.child i .embeddedStatement) p) d last d₁) :
    Draws c (.node τ i p) d (some d₁.size)
      (((d₁.stop c i).list d₁.size).joinIf last (some d₁.size) .normal)
  | branch {τ i p d pos d₁ neg d₂} (hk : c.tree.kind i = .statement .branch)
    (h : Draws c (.entered τ (c.child i .trueStatement) p .whenTrue
      (c.condition (c.child i .condition) != some false)) d pos d₁)
    (h' : Draws c (.entered τ (c.child i .falseStatement) p .whenFalse
      (c.condition (c.child i .condition) != some true)) d₁ neg d₂) :
    Draws c (.node τ i p) d (some d₂.size) (if neg.isSome
      then (((d₂.stop c i).list d₂.size).joinIf pos (some d₂.size) .normal).joinIf neg
        (some d₂.size) .normal
      else (((d₂.stop c i).list d₂.size).joinIf pos (some d₂.size) .normal).joinWhen
        (c.condition (c.child i .condition) != some true) p (some d₂.size) .whenFalse)
  | switch {τ i p d starts a d₁} (hk : c.tree.kind i = .statement .switch)
    (h : Draws c (.sections { τ with onBreak := some d.size } (c.sectionSource i p)
      (c.tree.childrenIn i .switchSection) starts) ((d.withCaseJumps []).stop c i) a d₁) :
    Draws c (.node τ i p) d (some d.size)
      ((Draft.joinJumps (c.caseTarget starts d.size) d₁.caseJumps.reverse
        ((d₁.joinWhen (c.isPassed i) p (some d.size) .normal).withCaseJumps d.caseJumps)).list
        d.size)
  | whileLoop {τ i p d last d₁} (hk : c.tree.kind i = .statement .whileLoop)
    (h : Draws c (.entered ⟨some d.size, some (d.size + 1)⟩ (c.child i .embeddedStatement)
      (some (d.size + 1))
      .whenTrue (c.condition (c.child i .condition) != some false)) (d.loop c i p) last d₁) :
    Draws c (.node τ i p) d (some d.size) (((d₁.joinIf last (some (d.size + 1)) .normal).leave
      (c.condition (c.child i .condition)) (d.size + 1) d.size).list d.size)
  | foreachLoop {τ i p d last d₁} (hk : c.tree.kind i = .statement .foreachLoop)
    (h : Draws c (.embedded ⟨some d.size, some (d.size + 1)⟩ (c.child i .embeddedStatement)
      (some (d.size + 1)))
      (d.loop c i p) last d₁) :
    Draws c (.node τ i p) d (some d.size)
      (((d₁.joinIf last (some (d.size + 1)) .normal).join (d.size + 1) d.size .normal).list d.size)
  | doLoop {τ i p d body before last d₁} (hk : c.tree.kind i = .statement .doLoop)
    (hb : body = c.child i .embeddedStatement) (hbefore : before = (d.stop c i).test i)
    (h : Draws c (.node ⟨some d.size, some (d.size + 1)⟩ body (before.startOf body))
      ((before.start body).joinIf p (before.startOf body) .normal) last d₁) :
    Draws c (.node τ i p) d (some d.size) (((((d₁.joinIf last (some (d.size + 1)) .normal).joinWhen
      (c.condition (c.child i .condition) != some false) (some (d.size + 1))
      (before.startOf body) .whenTrue).leave
        (c.condition (c.child i .condition)) (d.size + 1) d.size).list (d.size + 1)).list d.size)
  | forLoop {τ i p d body first d₁ iterated d₂ ahead next last d₃}
      (hk : c.tree.kind i = .statement .forLoop)
    (hb : body = c.child i .embeddedStatement)
    (hi : Draws c (.list τ p none (c.tree.childrenIn i .forInitializer)) d first d₁)
    (hr : Draws c (.list τ none none (c.tree.childrenIn i .forIterator))
      (d₁.loop c i first) iterated d₂)
    (hahead : ahead = d₂.joinIf iterated (some (d₁.size + 1)) .normal)
    (hnext : next = nextOf (d₁.loop c i first).listed.size (d₁.size + 1) iterated ahead)
    (h : Draws c (.node ⟨some d₁.size, some next⟩ body (ahead.startOf body))
      (ahead.start body) last d₃) :
    Draws c (.node τ i p) d (some d₁.size) (((d₃.joinIf last (some next) .normal).joinWhen
      (c.loopCondition i != some false) (some (d₁.size + 1)) (ahead.startOf body) .whenTrue).leave
        (c.loopCondition i) (d₁.size + 1) d₁.size |>.list d₁.size)
  | tryFinally {τ i p d a d₁ last d₂} (hk : c.tree.kind i = .statement .tryCatch)
    (hf : c.tree.hasChild i .finallyBlock = true)
    (h : Draws c (.guarded τ i p d.size (c.guarded i)) (d.stop c i) a d₁)
    (h' : Draws c (.embedded τ (c.child i .finallyBlock) p) d₁ last d₂) :
    Draws c (.node τ i p) d (some d.size) (d₂.list d.size)
  | tryCatch {τ i p d a d₁} (hk : c.tree.kind i = .statement .tryCatch)
    (hf : c.tree.hasChild i .finallyBlock = false)
    (h : Draws c (.guarded τ i p d.size (c.guarded i)) (d.stop c i) a d₁) :
    Draws c (.node τ i p) d (some d.size) (d₁.list d.size)
  | enter {τ i p kind isTaken d a d'}
    (h : Draws c (.node τ i (d.startOf i))
      ((d.start i).joinWhen isTaken p (d.startOf i) kind) a d') :
    Draws c (.entered τ i p kind isTaken) d a d'
  | absent {τ p d} : Draws c (.embedded τ .null p) d p d
  | embed {τ i p d a d'} (hi : i ≠ .null)
    (h : Draws c (.node τ i (some d.size)) ((d.tick.start i).joinIf p (some d.size) .normal) a d') :
    Draws c (.embedded τ i p) d a d'
  | nil {τ p current d} : Draws c (.list τ p current []) d (current.or p) d
  | first {τ p i rest d next d₁ a d'}
    (h : Draws c (.node τ i (d.startOf i))
      ((d.tick.start i).joinIf p (d.startOf i) .normal) next d₁)
    (hr : Draws c (.list τ p next rest) d₁ a d') : Draws c (.list τ p none (i :: rest)) d a d'
  | behind {τ p q i rest d next d₁ a d'} (h : Draws c (.node τ i (some q)) d.tick next d₁)
    (hr : Draws c (.list τ p next rest) d₁ a d') : Draws c (.list τ p (some q) (i :: rest)) d a d'
  | noSection {τ enter d} : Draws c (.sections τ enter [] []) d none d
  | section_ {τ enter s rest starts d last d₁ a d'}
    (h : Draws c (.list τ (enter s) none (c.tree.childrenIn s .statement)) d last d₁)
    (hr : Draws c (.sections τ enter rest starts) d₁ a d') :
    Draws c (.sections τ enter (s :: rest) ((s, d₁.listed[d.listed.size]?) :: starts)) d a d'
  | unguarded {τ i p stop d} : Draws c (.guarded τ i p stop []) d none d
  | guard {τ i p stop body rest d last d₁ a d'} (h : Draws c (.embedded τ body p) d last d₁)
    (hr : Draws c (.guarded τ i p stop rest) (d₁.joinGuarded c.tree i last stop) a d') :
    Draws c (.guarded τ i p stop (body :: rest)) d a d'

namespace Draft

theorem caseJumps_joinWhen {d : Draft} {isTaken : Bool} {source target : Option PointId}
    {kind : EdgeKind} : (d.joinWhen isTaken source target kind).caseJumps = d.caseJumps := by
  unfold joinWhen joinIf
  repeat' split
  all_goals rfl

theorem run_joinCaseJumps {c : Plan} {starts : List (NodeId × Option PointId)} {stop : PointId}
    {u : Unit} {jumps : List PointId} {d d' : Draft}
    (h : (c.joinCaseJumps starts stop jumps).run d = .ok (u, d')) :
    d' = joinJumps (c.caseTarget starts stop) jumps d := by
  induction jumps generalizing d with
  | nil => exact run_joinCaseJumps_nil h
  | cons p rest ih => exact ih (run_joinCaseJumps_cons h)

end Draft

section

variable (t : Tree) (root : NodeId) (s : Setting)

def Drawable (draw : Targets → NodeId → Option PointId → Drawing (Option PointId))
    (i : NodeId) : Prop :=
  ∀ τ p d a d', (draw τ i p).run d = .ok (a, d') → Draws (.bare t root s) (.node τ i p) d a d'

variable {t root s} {draw : Targets → NodeId → Option PointId → Drawing (Option PointId)}
  {τ : Targets} {i : NodeId}
  {p a : Option PointId} {d d' : Draft}

theorem draws_entered {kind : EdgeKind} {isTaken : Bool} (hi : Drawable t root s draw i)
    (h : (Plan.entered ⟨t, root, s, draw⟩ τ i p kind isTaken).run d = .ok (a, d')) :
    Draws (.bare t root s) (.entered τ i p kind isTaken) d a d' :=
  .enter (hi _ _ _ _ _ (run_entered h))

theorem draws_embedded (hi : Drawable t root s draw i)
    (h : (Plan.embedded ⟨t, root, s, draw⟩ τ i p).run d = .ok (a, d')) :
    Draws (.bare t root s) (.embedded τ i p) d a d' := by
  obtain ⟨rfl, rfl, rfl⟩ | ⟨hn, h⟩ := run_embedded h
  · exact .absent
  · exact .embed hn (hi _ _ _ _ _ h)

theorem draws_list {current : Option PointId} {nodes : List NodeId}
    (hn : ∀ j ∈ nodes, Drawable t root s draw j)
    (h : (Plan.drawList ⟨t, root, s, draw⟩ τ p current nodes).run d = .ok (a, d')) :
    Draws (.bare t root s) (.list τ p current nodes) d a d' := by
  induction nodes generalizing current d with
  | nil =>
      obtain ⟨rfl, rfl⟩ := run_drawList_nil h
      exact .nil
  | cons j rest ih =>
      obtain ⟨entry, d₁, next, d₂, he, hd, h⟩ := run_drawList_cons h
      have hj := hn j List.mem_cons_self
      have hr := ih (fun x hx => hn x (List.mem_cons_of_mem _ hx)) h
      cases current with
      | none =>
          obtain ⟨rfl, rfl⟩ := he
          exact .first (hj _ _ _ _ _ hd) hr
      | some q =>
          obtain ⟨rfl, rfl⟩ := he
          exact .behind (hj _ _ _ _ _ hd) hr

theorem draws_sections {enter : NodeId → Option PointId} {nodes : List NodeId}
    {starts : List (NodeId × Option PointId)}
    (hn : ∀ x ∈ nodes, ∀ j ∈ t.childrenIn x .statement, Drawable t root s draw j)
    (h : (Plan.drawSections ⟨t, root, s, draw⟩ τ enter nodes).run d = .ok (starts, d')) :
    Draws (.bare t root s) (.sections τ enter nodes starts) d none d' := by
  induction nodes generalizing d starts with
  | nil =>
      obtain ⟨rfl, rfl⟩ := run_drawSections_nil h
      exact .noSection
  | cons x rest ih =>
      obtain ⟨last, d₁, starts', hl, hr, rfl⟩ := run_drawSections_cons h
      exact .section_ (draws_list (hn x List.mem_cons_self) hl)
        (ih (fun y hy => hn y (List.mem_cons_of_mem _ hy)) hr)

theorem draws_guarded {stop : PointId} {bodies : List NodeId} {u : Unit}
    (hn : ∀ j ∈ bodies, Drawable t root s draw j)
    (h : (Plan.drawGuarded ⟨t, root, s, draw⟩ τ i p stop bodies).run d = .ok (u, d')) :
    Draws (.bare t root s) (.guarded τ i p stop bodies) d none d' := by
  induction bodies generalizing d with
  | nil =>
      cases run_drawGuarded_nil h
      exact .unguarded
  | cons body rest ih =>
      obtain ⟨last, d₁, hb, hr⟩ := run_drawGuarded_cons h
      exact .guard (draws_embedded (hn body List.mem_cons_self) hb)
        (ih (fun y hy => hn y (List.mem_cons_of_mem _ hy)) hr)

section Node

variable (hw : t.WellFormed) (h0 : Drawable t root s draw .null)
  (hp : ∀ j, t.Part i j → Drawable t root s draw j)
include hw h0 hp

theorem drawable_child {r : Role} : Drawable t root s draw (t.child i r) := by
  rcases hw.child_cases (p := i) (r := r) with hc | hc
  · rw [hc]
    exact h0
  · exact hp _ (.child hc)

omit h0 in
theorem drawable_mem {r : Role} : ∀ j ∈ t.childrenIn i r, Drawable t root s draw j :=
  fun _ hj => hp _ (hw.part_of_mem hj)

omit h0 in
theorem draws_switch (hk : t.kind i = .statement .switch)
    (h : (Plan.switch ⟨t, root, s, draw⟩ τ i p).run d = .ok (a, d')) :
    Draws (.bare t root s) (.node τ i p) d a d' := by
  obtain ⟨starts, d₁, u, d₂, hs, hj, rfl, rfl⟩ := run_switch h
  rw [Draft.run_joinCaseJumps hj, Draft.caseJumps_joinWhen]
  refine .switch hk (draws_sections (fun x hx j hj => hp j ?_) hs)
  exact hw.part_of_group hx rfl (hw.parent_of_mem_childrenIn hj)

theorem draws_forLoop (hk : t.kind i = .statement .forLoop)
    (h : (Plan.forLoop ⟨t, root, s, draw⟩ τ i p).run d = .ok (a, d')) :
    Draws (.bare t root s) (.node τ i p) d a d' := by
  obtain ⟨first, d₁, iterated, d₂, hf, hi, last, d₃, hb, rfl, rfl⟩ := run_forLoop h
  exact .forLoop hk rfl (draws_list (drawable_mem hw hp) hf)
    (draws_list (drawable_mem hw hp) hi) rfl rfl
    (drawable_child hw h0 hp _ _ _ _ _ hb)

theorem draws_tryCatch (hk : t.kind i = .statement .tryCatch)
    (h : (Plan.tryCatch ⟨t, root, s, draw⟩ τ i p).run d = .ok (a, d')) :
    Draws (.bare t root s) (.node τ i p) d a d' := by
  obtain ⟨u, d₁, d₂, hg, hf, rfl, rfl⟩ := run_tryCatch h
  have hbodies : ∀ j ∈ Plan.guarded ⟨t, root, s, draw⟩ i, Drawable t root s draw j := by
    intro j hj
    rcases List.mem_cons.mp hj with rfl | hj
    · exact drawable_child hw h0 hp
    · obtain ⟨clause, hc, rfl⟩ := List.mem_map.mp hj
      rcases hw.child_cases (p := clause) (r := .body) with hb | hb
      · rw [Plan.child, hb]
        exact h0
      · exact hp _ (hw.part_of_group hc rfl hb)
  split at hf
  · obtain ⟨last, hl⟩ := hf
    exact .tryFinally hk ‹_› (draws_guarded hbodies hg)
      (draws_embedded (drawable_child hw h0 hp) hl)
  · subst hf
    exact .tryCatch hk (Bool.not_eq_true _ ▸ ‹_›) (draws_guarded hbodies hg)

theorem draws_usingResource (hk : t.kind i = .statement .usingResource)
    (h : (Plan.usingResource ⟨t, root, s, draw⟩ τ i p).run d = .ok (a, d')) :
    Draws (.bare t root s) (.node τ i p) d a d' := by
  obtain ⟨entered, d₁, he, h⟩ := run_usingResource h
  obtain ⟨last, d₂, hl, rfl, rfl⟩ := run_wrapped h
  have hl := draws_embedded (drawable_child hw h0 hp) hl
  split at he
  · exact .usingResource hk ‹_› (draws_embedded (drawable_child hw h0 hp) he) hl
  · obtain ⟨rfl, rfl⟩ := he
    exact .usingValue hk (Bool.not_eq_true _ ▸ ‹_›) hl

theorem draws_statement {k : StatementKind} (hk : t.kind i = .statement k)
    (h : (Plan.statement ⟨t, root, s, draw⟩ τ i p k).run d = .ok (a, d')) :
    Draws (.bare t root s) (.node τ i p) d a d' := by
  have hchild {r : Role} : Drawable t root s draw (t.child i r) := drawable_child hw h0 hp
  cases k with
  | empty | expression | locals | yieldReturn =>
      obtain ⟨rfl, rfl⟩ := run_reachedEnd_eq_ok.mp h
      exact .plain hk rfl
  | return_ | throw | yieldBreak =>
      simp only [Plan.statement, Drawing.run_bind_eq_ok, run_listedEnd_eq_ok,
        Drawing.run_pure_eq_ok] at h
      obtain ⟨_, _, ⟨rfl, rfl⟩, rfl, rfl⟩ := h
      exact .final hk rfl
  | checked | unchecked | unsafeBlock | lock | fixed =>
      obtain ⟨last, d₁, hl, rfl, rfl⟩ := run_wrapped h
      exact .wrapped hk rfl (draws_embedded hchild hl)
  | gotoCase | gotoDefault =>
      obtain ⟨rfl, rfl⟩ := run_caseJump h
      exact .caseJump hk rfl
  | label =>
      obtain ⟨rfl, _, rfl, rfl⟩ := run_label h
      exact .label hk
  | goto =>
      obtain ⟨rfl, rfl⟩ := run_goto h
      exact .goto hk
  | break_ =>
      obtain ⟨rfl, rfl⟩ := run_jump h
      exact .break_ hk
  | continue_ =>
      obtain ⟨rfl, rfl⟩ := run_jump h
      exact .continue_ hk
  | block =>
      obtain ⟨last, d₁, hl, rfl, rfl⟩ := run_block h
      exact .block hk (draws_list (drawable_mem hw hp) hl)
  | branch =>
      obtain ⟨pos, d₁, neg, d₂, hpos, hneg, rfl, rfl⟩ := run_branch h
      exact .branch hk (draws_entered hchild hpos) (draws_entered hchild hneg)
  | whileLoop =>
      obtain ⟨last, d₁, hl, rfl, rfl⟩ := run_whileLoop h
      exact .whileLoop hk (draws_entered hchild hl)
  | foreachLoop =>
      obtain ⟨last, d₁, hl, rfl, rfl⟩ := run_foreachLoop h
      exact .foreachLoop hk (draws_embedded hchild hl)
  | doLoop =>
      obtain ⟨last, d₁, hl, rfl, rfl⟩ := run_doLoop h
      exact .doLoop hk rfl rfl (hchild _ _ _ _ _ hl)
  | forLoop => exact draws_forLoop hw h0 hp hk h
  | switch => exact draws_switch hw hp hk h
  | tryCatch => exact draws_tryCatch hw h0 hp hk h
  | usingResource => exact draws_usingResource hw h0 hp hk h

theorem drawable_node : Drawable t root s (Plan.node ⟨t, root, s, draw⟩) i := by
  intro τ p d a d' h
  unfold Plan.node at h
  split at h
  · obtain ⟨rfl, rfl⟩ := Drawing.run_pure_eq_ok.mp h
    exact .hole ‹_›
  · exact draws_statement hw h0 hp ‹_› h
  · cases h

end Node

theorem drawable_null (hw : t.WellFormed) (fuel : Nat) :
    Drawable t root s (drawWithin t root s fuel) .null := by
  have hk := hw.null_kind
  cases fuel with
  | zero =>
      intro τ p d a d' h
      obtain ⟨rfl, rfl⟩ := Drawing.run_pure_eq_ok.mp h
      exact .hole hk
  | succ fuel =>
      intro τ p d a d' h
      rw [drawWithin, Plan.node] at h
      simp only [hk] at h
      obtain ⟨rfl, rfl⟩ := Drawing.run_pure_eq_ok.mp h
      exact .hole hk

/-- The bound on the depth of a drawing is large enough. -/
theorem drawable_within (hw : t.WellFormed) {fuel : Nat} (hi : i < t.size)
    (hf : t.size ≤ fuel + t.depth i) : Drawable t root s (drawWithin t root s fuel) i := by
  induction fuel generalizing i with
  | zero =>
      have := hw.depth_lt hi
      omega
  | succ fuel ih =>
      refine drawable_node hw (drawable_null hw fuel) fun j hj => ?_
      obtain ⟨hd, hlt⟩ := hw.depth_of_part hj
      exact ih hlt (by omega)

end

end Flow

end TreeScribe
