import Mathlib.Tactic.Common
import TreeScribe.Flow.Build

namespace TreeScribe.Flow

namespace Draft

def size (d : Draft) : Nat := d.graph.points.size

def addPoint (d : Draft) (previous next : NodeId) (kind : PointKind) : Draft :=
  { d with graph := (d.graph.addPoint previous next kind).2 }

def join (d : Draft) (source target : PointId) (kind : EdgeKind) : Draft :=
  { d with graph := (d.graph.connect source target kind).2 }

def joinIf (d : Draft) (source target : Option PointId) (kind : EdgeKind) : Draft :=
  match source, target with
  | some s, some t => d.join s t kind
  | _, _ => d

def joinWhen (d : Draft) (isTaken : Bool) (source target : Option PointId) (kind : EdgeKind) :
    Draft :=
  if isTaken then d.joinIf source target kind else d

def list (d : Draft) (p : PointId) : Draft := { d with listed := d.listed.push p }

def tick (d : Draft) : Draft := { d with poll := d.poll.tick.2 }

def leaving (d : Draft) (e : EdgeId) (tries : List NodeId) : Draft :=
  { d with graph := d.graph.leaving e tries }

def startOf (d : Draft) (i : NodeId) : Option PointId := if i = .null then none else some d.size

def start (d : Draft) (i : NodeId) : Draft :=
  if i = .null then d else (d.addPoint .null i .start).list d.size

def stop (d : Draft) (c : Plan) (i : NodeId) : Draft :=
  d.addPoint i (c.following i) (if c.following i = .null then .stop else .between)

def test (d : Draft) (i : NodeId) : Draft := d.addPoint .null i .condition

def loop (d : Draft) (c : Plan) (i : NodeId) (source : Option PointId) : Draft :=
  (((d.stop c i).test i).list (d.size + 1)).joinIf source (some (d.size + 1)) .normal

def leave (d : Draft) (condition : Option Bool) (at_ stop : PointId) : Draft :=
  d.joinWhen (condition != some true) (some at_) (some stop) .whenFalse

def joinGuarded (d : Draft) (t : Tree) (i : NodeId) (last : Option PointId) (stop : PointId) :
    Draft :=
  match last with
  | some last =>
    if t.hasChild i .finallyBlock then (d.join last stop .normal).leaving d.graph.edges.size [i]
    else d.join last stop .normal
  | none => d

def withCaseJumps (d : Draft) (caseJumps : List PointId) : Draft := { d with caseJumps }

@[simp] theorem size_addPoint (d : Draft) (previous next : NodeId) (kind : PointKind) :
    (d.addPoint previous next kind).size = d.size + 1 := by
  simp [addPoint, Graph.addPoint, size]

@[simp] theorem size_stop (d : Draft) (c : Plan) (i : NodeId) : (d.stop c i).size = d.size + 1 :=
  size_addPoint ..

@[simp] theorem size_test (d : Draft) (i : NodeId) : (d.test i).size = d.size + 1 :=
  size_addPoint ..

@[simp] theorem size_list (d : Draft) (p : PointId) : (d.list p).size = d.size := rfl

@[simp] theorem size_tick (d : Draft) : d.tick.size = d.size := rfl

@[simp] theorem size_join (d : Draft) (source target : PointId) (kind : EdgeKind) :
    (d.join source target kind).size = d.size := by
  simp [join, Graph.connect, size]

@[simp] theorem size_joinIf (d : Draft) (source target : Option PointId) (kind : EdgeKind) :
    (d.joinIf source target kind).size = d.size := by
  unfold joinIf
  split <;> simp

@[simp] theorem size_joinWhen (d : Draft) (isTaken : Bool) (source target : Option PointId)
    (kind : EdgeKind) : (d.joinWhen isTaken source target kind).size = d.size := by
  unfold joinWhen
  split <;> simp

@[simp] theorem size_leave (d : Draft) (condition : Option Bool) (at_ stop : PointId) :
    (d.leave condition at_ stop).size = d.size := size_joinWhen ..

@[simp] theorem size_leaving (d : Draft) (e : EdgeId) (tries : List NodeId) :
    (d.leaving e tries).size = d.size := rfl

@[simp] theorem size_loop (d : Draft) (c : Plan) (i : NodeId) (source : Option PointId) :
    (d.loop c i source).size = d.size + 2 := by
  simp [loop]

@[simp] theorem size_joinGuarded (d : Draft) (t : Tree) (i : NodeId) (last : Option PointId)
    (stop : PointId) : (d.joinGuarded t i last stop).size = d.size := by
  unfold joinGuarded
  repeat' split
  all_goals simp

@[simp] theorem size_withCaseJumps (d : Draft) (l : List PointId) :
    (d.withCaseJumps l).size = d.size := rfl

end Draft

namespace Drawing

variable {α β : Type} {d d' d'' : Draft} {m : Drawing α}

theorem run_bind_eq_ok {f : α → Drawing β} {b : β} :
    (m >>= f).run d = .ok (b, d'') ↔
    ∃ a d', m.run d = .ok (a, d') ∧ (f a).run d' = .ok (b, d'') := by
  rw [StateT.run_bind]
  cases m.run d with
  | error x => simp [bind, Except.bind]
  | ok p =>
      constructor
      · intro h
        exact ⟨p.1, p.2, rfl, h⟩
      · rintro ⟨a, d', h, hf⟩
        cases h
        exact hf

theorem run_pure_eq_ok {a b : α} : (pure a : Drawing α).run d = .ok (b, d') ↔ b = a ∧ d' = d := by
  rw [StateT.run_pure]
  constructor
  · intro h
    cases h
    exact ⟨rfl, rfl⟩
  · rintro ⟨rfl, rfl⟩
    rfl

theorem run_ite_eq_ok {p : Prop} [Decidable p] {m' : Drawing α} {a : α} :
    (if p then m else m').run d = .ok (a, d') ↔
      p ∧ m.run d = .ok (a, d') ∨ ¬p ∧ m'.run d = .ok (a, d') := by
  by_cases h : p <;> simp [h]

theorem run_get_eq_ok {a : Draft} : (get : Drawing Draft).run d = .ok (a, d') ↔ a = d ∧ d' = d :=
  run_pure_eq_ok

theorem run_modify_eq_ok {f : Draft → Draft} {u : Unit} :
    (modify f : Drawing Unit).run d = .ok (u, d') ↔ d' = f d := by
  constructor
  · intro h
    cases h
    rfl
  · rintro rfl
    rfl

theorem run_list_eq_ok {p : PointId} {u : Unit} : (list p).run d = .ok (u, d') ↔ d' = d.list p :=
  run_modify_eq_ok

theorem run_add_eq_ok {previous next : NodeId} {kind : PointKind} {p : PointId} :
    (add previous next kind).run d = .ok (p, d') ↔
    p = d.size ∧ d' = d.addPoint previous next kind := by
  constructor
  · intro h
    cases h
    exact ⟨rfl, rfl⟩
  · rintro ⟨rfl, rfl⟩
    rfl

theorem run_join_eq_ok {source target : PointId} {kind : EdgeKind} {e : EdgeId} :
    (join source target kind).run d = .ok (e, d') ↔
    e = d.graph.edges.size ∧ d' = d.join source target kind := by
  constructor
  · intro h
    cases h
    exact ⟨rfl, rfl⟩
  · rintro ⟨rfl, rfl⟩
    rfl

theorem run_joinIf_eq_ok {source target : Option PointId} {kind : EdgeKind} {u : Unit} :
    (joinIf source target kind).run d = .ok (u, d') ↔ d' = d.joinIf source target kind := by
  cases source with
  | none => simp only [joinIf, Draft.joinIf, run_pure_eq_ok, true_and]
  | some s =>
      cases target with
      | none => simp only [joinIf, Draft.joinIf, run_pure_eq_ok, true_and]
      | some t =>
          simp only [joinIf, Draft.joinIf, run_bind_eq_ok, run_join_eq_ok, run_pure_eq_ok, true_and]
          constructor
          · rintro ⟨_, _, ⟨rfl, rfl⟩, rfl⟩
            rfl
          · rintro rfl
            exact ⟨_, _, ⟨rfl, rfl⟩, rfl⟩

theorem run_joinWhen_eq_ok {isTaken : Bool} {source target : Option PointId}
    {kind : EdgeKind} {a : α} :
    (if isTaken = true then joinIf source target kind >>= fun _ => m else m).run d = .ok (a, d') ↔
      m.run (d.joinWhen isTaken source target kind) = .ok (a, d') := by
  cases isTaken with
  | false => rfl
  | true =>
      simp only [if_true, run_bind_eq_ok, run_joinIf_eq_ok, Draft.joinWhen]
      constructor
      · rintro ⟨_, _, rfl, h⟩
        exact h
      · intro h
        exact ⟨(), _, rfl, h⟩

theorem run_startPoint_eq_ok {i : NodeId} {a : Option PointId} :
    (startPoint i).run d = .ok (a, d') ↔ a = d.startOf i ∧ d' = d.start i := by
  simp only [startPoint, Draft.startOf, Draft.start]
  split
  · exact run_pure_eq_ok
  · simp only [run_bind_eq_ok, run_add_eq_ok, run_list_eq_ok, run_pure_eq_ok]
    constructor
    · rintro ⟨p, _, ⟨rfl, rfl⟩, _, _, rfl, rfl, rfl⟩
      exact ⟨rfl, rfl⟩
    · rintro ⟨rfl, rfl⟩
      exact ⟨_, _, ⟨rfl, rfl⟩, (), _, rfl, rfl, rfl⟩

theorem run_conditionPoint_eq_ok {i : NodeId} {p : PointId} :
    (conditionPoint i).run d = .ok (p, d') ↔ p = d.size ∧ d' = d.test i :=
  run_add_eq_ok

end Drawing

namespace Plan

open Drawing

variable {c : Plan} {targets : Targets} {i : NodeId} {source a : Option PointId} {d d' : Draft}

theorem run_tick_eq_ok {u : Unit} :
    c.tick.run d = .ok (u, d') → d' = d.tick := by
  simp only [tick, run_bind_eq_ok, run_get_eq_ok]
  rintro ⟨x, _, ⟨rfl, rfl⟩, _, x, hx, h⟩
  cases hx
  split at h
  · cases h
  · exact (run_pure_eq_ok.mp h).2

theorem run_endPoint_eq_ok {p : PointId} :
    (c.endPoint i).run d = .ok (p, d') ↔ p = d.size ∧ d' = d.stop c i :=
  run_add_eq_ok

theorem run_listedEnd_eq_ok {p : PointId} :
    (c.listedEnd i).run d = .ok (p, d') ↔ p = d.size ∧ d' = (d.stop c i).list d.size := by
  simp only [listedEnd, run_bind_eq_ok, run_endPoint_eq_ok, run_list_eq_ok, run_pure_eq_ok]
  constructor
  · rintro ⟨_, _, ⟨rfl, rfl⟩, _, _, rfl, rfl, rfl⟩
    exact ⟨rfl, rfl⟩
  · rintro ⟨rfl, rfl⟩
    exact ⟨_, _, ⟨rfl, rfl⟩, (), _, rfl, rfl, rfl⟩

theorem run_reachedEnd_eq_ok :
    (c.reachedEnd i source).run d = .ok (a, d') ↔
      a = some d.size ∧ d' = ((d.stop c i).list d.size).joinIf source (some d.size) .normal := by
  simp only [reachedEnd, run_bind_eq_ok, run_listedEnd_eq_ok, run_joinIf_eq_ok, run_pure_eq_ok]
  constructor
  · rintro ⟨_, _, ⟨rfl, rfl⟩, _, _, rfl, rfl, rfl⟩
    exact ⟨rfl, rfl⟩
  · rintro ⟨rfl, rfl⟩
    exact ⟨_, _, ⟨rfl, rfl⟩, (), _, rfl, rfl, rfl⟩

theorem run_entered {kind : EdgeKind} {isTaken : Bool}
    (h : (c.entered targets i source kind isTaken).run d = .ok (a, d')) :
    (c.draw targets i (d.startOf i)).run ((d.start i).joinWhen isTaken source (d.startOf i) kind) =
    .ok (a, d') := by
  simp only [entered, run_joinWhen_eq_ok, run_bind_eq_ok, run_startPoint_eq_ok] at h
  obtain ⟨_, _, ⟨rfl, rfl⟩, h⟩ := h
  exact h

theorem run_embedded (h : (c.embedded targets i source).run d = .ok (a, d')) :
    i = .null ∧ a = source ∧ d' = d ∨
      i ≠ .null ∧ (c.draw targets i (some d.size)).run
        ((d.tick.start i).joinIf source (some d.size) .normal) = .ok (a, d') := by
  simp only [embedded, run_ite_eq_ok, run_bind_eq_ok, run_startPoint_eq_ok, run_joinIf_eq_ok,
    run_pure_eq_ok] at h
  obtain ⟨hi, rfl, rfl⟩ | ⟨hi, _, _, ht, _, _, ⟨rfl, rfl⟩, _, _, rfl, h⟩ := h
  · exact .inl ⟨hi, rfl, rfl⟩
  · cases run_tick_eq_ok ht
    rw [Draft.startOf, if_neg hi] at h
    exact .inr ⟨hi, h⟩

theorem run_branch (h : (c.branch targets i source).run d = .ok (a, d')) :
    ∃ p d₁ n d₂, (c.entered targets (c.child i .trueStatement) source .whenTrue
        (c.condition (c.child i .condition) != some false)).run d = .ok (p, d₁) ∧
      (c.entered targets (c.child i .falseStatement) source .whenFalse
        (c.condition (c.child i .condition) != some true)).run d₁ = .ok (n, d₂) ∧
      a = some d₂.size ∧ d' = if n.isSome
        then (((d₂.stop c i).list d₂.size).joinIf p (some d₂.size) .normal).joinIf n
          (some d₂.size) .normal
        else (((d₂.stop c i).list d₂.size).joinIf p (some d₂.size) .normal).joinWhen
          (c.condition (c.child i .condition) != some true) source (some d₂.size) .whenFalse := by
  simp only [branch, run_bind_eq_ok, run_listedEnd_eq_ok, run_joinIf_eq_ok, run_ite_eq_ok,
    run_pure_eq_ok] at h
  obtain ⟨p, d₁, hp, n, d₂, hn, _, _, ⟨rfl, rfl⟩, _, _, rfl, h⟩ := h
  refine ⟨p, d₁, n, d₂, hp, hn, ?_⟩
  obtain ⟨hn, _, _, rfl, rfl, rfl⟩ | ⟨hn, ⟨ht, _, _, rfl, rfl, rfl⟩ | ⟨ht, rfl, rfl⟩⟩ := h
  · rw [if_pos hn]
    exact ⟨rfl, rfl⟩
  · rw [if_neg hn, Draft.joinWhen, if_pos ht]
    exact ⟨rfl, rfl⟩
  · rw [if_neg hn, Draft.joinWhen, if_neg ht]
    exact ⟨rfl, rfl⟩

theorem run_leaveLoop_eq_ok {condition : Option Bool} {at_ stop : PointId} {u : Unit} :
    (leaveLoop condition at_ stop).run d = .ok (u, d') ↔ d' = d.leave condition at_ stop := by
  simp only [leaveLoop, run_ite_eq_ok, run_joinIf_eq_ok, run_pure_eq_ok, true_and, Draft.leave,
    Draft.joinWhen]
  split <;> simp [*]

theorem run_whileLoop (h : (c.whileLoop i source).run d = .ok (a, d')) :
    ∃ last d₁, (c.entered ⟨some d.size, some (d.size + 1)⟩ (c.child i .embeddedStatement)
        (some (d.size + 1))
        .whenTrue (c.condition (c.child i .condition) != some false)).run (d.loop c i source) =
          .ok (last, d₁) ∧
      a = some d.size ∧ d' = ((d₁.joinIf last (some (d.size + 1)) .normal).leave
        (c.condition (c.child i .condition)) (d.size + 1) d.size).list d.size := by
  simp only [whileLoop, run_bind_eq_ok, run_endPoint_eq_ok, run_conditionPoint_eq_ok,
    run_list_eq_ok, run_joinIf_eq_ok, run_leaveLoop_eq_ok, run_pure_eq_ok] at h
  obtain ⟨_, _, ⟨rfl, rfl⟩, _, _, ⟨rfl, rfl⟩, _, _, rfl, _, _, rfl, last, d₁, hb, _, _, rfl, _, _,
    rfl, _, _, rfl, rfl, rfl⟩ := h
  rw [Draft.size_stop] at hb ⊢
  exact ⟨last, d₁, hb, rfl, rfl⟩

theorem run_foreachLoop (h : (c.foreachLoop i source).run d = .ok (a, d')) :
    ∃ last d₁, (c.embedded ⟨some d.size, some (d.size + 1)⟩ (c.child i .embeddedStatement)
        (some (d.size + 1))).run (d.loop c i source) = .ok (last, d₁) ∧
      a = some d.size ∧
      d' = ((d₁.joinIf last (some (d.size + 1)) .normal).join (d.size + 1) d.size .normal).list
        d.size := by
  simp only [foreachLoop, run_bind_eq_ok, run_endPoint_eq_ok, run_conditionPoint_eq_ok,
    run_list_eq_ok, run_joinIf_eq_ok, run_join_eq_ok, run_pure_eq_ok] at h
  obtain ⟨_, _, ⟨rfl, rfl⟩, _, _, ⟨rfl, rfl⟩, _, _, rfl, _, _, rfl, last, d₁, hb, _, _, rfl, _, _,
    ⟨rfl, rfl⟩, _, _, rfl, rfl, rfl⟩ := h
  rw [Draft.size_stop] at hb ⊢
  exact ⟨last, d₁, hb, rfl, rfl⟩

theorem run_doLoop (h : (c.doLoop i source).run d = .ok (a, d')) :
    let body := c.child i .embeddedStatement
    let before := (d.stop c i).test i
    ∃ last d₁, (c.draw ⟨some d.size, some (d.size + 1)⟩ body (before.startOf body)).run
        ((before.start body).joinIf source (before.startOf body) .normal) = .ok (last, d₁) ∧
      a = some d.size ∧ d' = (((((d₁.joinIf last (some (d.size + 1)) .normal).joinWhen
        (c.condition (c.child i .condition) != some false) (some (d.size + 1))
        (before.startOf body) .whenTrue).leave
          (c.condition (c.child i .condition))
          (d.size + 1) d.size).list (d.size + 1)).list d.size) := by
  simp only [doLoop, run_bind_eq_ok, run_endPoint_eq_ok, run_conditionPoint_eq_ok, run_list_eq_ok,
    run_startPoint_eq_ok, run_joinIf_eq_ok, run_leaveLoop_eq_ok, run_joinWhen_eq_ok, run_pure_eq_ok]
    at h
  obtain ⟨_, _, ⟨rfl, rfl⟩, _, _, ⟨rfl, rfl⟩, _, _, ⟨rfl, rfl⟩, _, _, rfl, last, d₁, hb, _, _, rfl,
    _, _, rfl, _, _, rfl, _, _, rfl, rfl, rfl⟩ := h
  rw [Draft.size_stop] at hb ⊢
  exact ⟨last, d₁, hb, rfl, rfl⟩

def nextOf (listed : Nat) (test : PointId) (iterated : Option PointId) (d : Draft) : PointId :=
  if iterated.isSome then d.listed.getD listed test else test

theorem run_forLoop (h : (c.forLoop targets i source).run d = .ok (a, d')) :
    let body := c.child i .embeddedStatement
    let condition := if c.child i .condition = .null then some true
      else c.condition (c.child i .condition)
    ∃ first d₁ iterated d₂,
      (c.statements targets source (c.tree.childrenIn i .forInitializer)).run d =
        .ok (first, d₁) ∧
      (c.statements targets none (c.tree.childrenIn i .forIterator)).run (d₁.loop c i first) =
      .ok (iterated, d₂) ∧
      let ahead := d₂.joinIf iterated (some (d₁.size + 1)) .normal
      let next := nextOf (d₁.loop c i first).listed.size (d₁.size + 1) iterated ahead
      ∃ last d₃, (c.draw ⟨some d₁.size, some next⟩ body (ahead.startOf body)).run
        (ahead.start body) = .ok (last, d₃) ∧
        a = some d₁.size ∧
        d' = (((d₃.joinIf last (some next) .normal).joinWhen (condition != some false)
          (some (d₁.size + 1)) (ahead.startOf body) .whenTrue).leave condition (d₁.size + 1)
          d₁.size).list d₁.size := by
  simp only [forLoop, run_bind_eq_ok, run_endPoint_eq_ok, run_conditionPoint_eq_ok, run_list_eq_ok,
    run_joinIf_eq_ok, run_get_eq_ok] at h
  obtain ⟨first, d₁, hf, _, _, ⟨rfl, rfl⟩, _, _, ⟨rfl, rfl⟩, _, _, rfl, _, _, rfl, _, _, ⟨rfl, rfl⟩,
    iterated, d₂, hi, h⟩ := h
  rw [Draft.size_stop] at hi h
  refine ⟨first, d₁, iterated, d₂, hf, hi, ?_⟩
  cases iterated with
  | some p =>
      simp only [run_bind_eq_ok, run_join_eq_ok, run_get_eq_ok, run_startPoint_eq_ok,
        run_joinIf_eq_ok, run_leaveLoop_eq_ok, run_joinWhen_eq_ok, run_list_eq_ok, run_pure_eq_ok]
        at h
      obtain ⟨_, _, ⟨rfl, rfl⟩, _, _, ⟨rfl, rfl⟩, _, _, ⟨rfl, rfl⟩, _, _, ⟨rfl, rfl⟩, last, d₃, hb,
        _, _, rfl, _, _, rfl, _, _, rfl, rfl, rfl⟩ := h
      exact ⟨last, d₃, hb, rfl, rfl⟩
  | none =>
      simp only [run_bind_eq_ok, run_startPoint_eq_ok, run_joinIf_eq_ok, run_leaveLoop_eq_ok,
        run_joinWhen_eq_ok, run_list_eq_ok, run_pure_eq_ok] at h
      obtain ⟨_, _, ⟨rfl, rfl⟩, _, _, ⟨rfl, rfl⟩, last, d₃, hb, _, _, rfl, _, _, rfl, _, _, rfl,
        rfl, rfl⟩ := h
      exact ⟨last, d₃, hb, rfl, rfl⟩

theorem run_jump {target : Option PointId} (h : (c.jump i source target).run d = .ok (a, d')) :
    a = some d.size ∧ d' = ((d.joinIf source target .jump).stop c i).list d.size := by
  simp only [jump, run_bind_eq_ok, run_joinIf_eq_ok, run_listedEnd_eq_ok, run_pure_eq_ok] at h
  obtain ⟨_, _, rfl, _, _, ⟨rfl, rfl⟩, rfl, rfl⟩ := h
  rw [Draft.size_joinIf]
  exact ⟨rfl, rfl⟩

theorem run_label (h : (c.label i source).run d = .ok (a, d')) :
    a = some d.size ∧ ∃ d₁, d₁ = ((d.stop c i).list d.size).joinIf source (some d.size) .normal ∧
      d' = { d₁ with labels := (c.tree.name i, d.size) :: d₁.labels } := by
  simp only [label, run_bind_eq_ok, run_joinIf_eq_ok, run_listedEnd_eq_ok, run_modify_eq_ok,
    run_pure_eq_ok] at h
  obtain ⟨_, _, ⟨rfl, rfl⟩, _, _, rfl, _, _, rfl, rfl, rfl⟩ := h
  exact ⟨rfl, _, rfl, rfl⟩

theorem run_goto (h : (c.goto i source).run d = .ok (a, d')) :
    a = some d.size ∧ d' = ({ d with gotos := source.toList ++ d.gotos }.stop c i).list d.size := by
  simp only [goto, run_bind_eq_ok, run_listedEnd_eq_ok, run_modify_eq_ok, run_pure_eq_ok] at h
  obtain ⟨_, _, rfl, _, _, ⟨rfl, rfl⟩, rfl, rfl⟩ := h
  exact ⟨rfl, rfl⟩

theorem run_caseJump (h : (c.caseJump i source).run d = .ok (a, d')) :
    a = some d.size ∧ d' = ((d.withCaseJumps (source.toList ++ d.caseJumps)).stop c i).list
      d.size := by
  simp only [caseJump, run_bind_eq_ok, run_listedEnd_eq_ok, run_modify_eq_ok, run_pure_eq_ok] at h
  obtain ⟨_, _, rfl, _, _, ⟨rfl, rfl⟩, rfl, rfl⟩ := h
  exact ⟨rfl, rfl⟩

theorem run_block (h : (c.block targets i source).run d = .ok (a, d')) :
    ∃ last d₁, (c.statements targets source (c.tree.childrenIn i .statement)).run d =
      .ok (last, d₁) ∧
      a = some d₁.size ∧ d' = ((d₁.stop c i).list d₁.size).joinIf last (some d₁.size) .normal := by
  simp only [block, run_bind_eq_ok, run_reachedEnd_eq_ok] at h
  exact h

theorem run_wrapped {r : Role} (h : (c.wrapped targets i r source).run d = .ok (a, d')) :
    ∃ last d₁, (c.embedded targets (c.child i r) source).run d = .ok (last, d₁) ∧
      a = some d₁.size ∧ d' = ((d₁.stop c i).list d₁.size).joinIf last (some d₁.size) .normal := by
  simp only [wrapped, run_bind_eq_ok, run_reachedEnd_eq_ok] at h
  exact h

theorem run_usingResource (h : (c.usingResource targets i source).run d = .ok (a, d')) :
    ∃ entered d₁, (if (c.tree.kind (c.child i .resource)).isStatement
        then (c.embedded targets (c.child i .resource) source).run d = .ok (entered, d₁)
        else entered = source ∧ d₁ = d) ∧
      (c.wrapped targets i .embeddedStatement entered).run d₁ = .ok (a, d') := by
  simp only [usingResource, run_ite_eq_ok, run_bind_eq_ok, run_pure_eq_ok] at h
  obtain ⟨hr, entered, d₁, he, h⟩ | ⟨hr, entered, d₁, he, h⟩ := h
  · refine ⟨entered, d₁, ?_, h⟩
    rwa [if_pos hr]
  · refine ⟨entered, d₁, ?_, h⟩
    rwa [if_neg hr]

theorem run_tryCatch (h : (c.tryCatch targets i source).run d = .ok (a, d')) :
    ∃ u d₁ d₂, (c.drawGuarded targets i source d.size (c.child i .tryBlock ::
        (c.tree.childrenIn i .catchClause).map fun clause =>
        c.child clause .body)).run (d.stop c i) = .ok (u, d₁) ∧
      (if c.tree.hasChild i .finallyBlock
        then ∃ last, (c.embedded targets (c.child i .finallyBlock) source).run d₁ = .ok (last, d₂)
        else d₂ = d₁) ∧
      a = some d.size ∧ d' = d₂.list d.size := by
  simp only [tryCatch, run_bind_eq_ok, run_endPoint_eq_ok, run_ite_eq_ok, run_list_eq_ok,
    run_pure_eq_ok] at h
  obtain ⟨_, _, ⟨rfl, rfl⟩, u, d₁, hg,
    ⟨hf, last, d₂, hl, _, _, rfl, rfl, rfl⟩ | ⟨hf, _, _, rfl, rfl, rfl⟩⟩ := h
  · refine ⟨u, d₁, d₂, hg, ?_, rfl, rfl⟩
    rw [if_pos hf]
    exact ⟨last, hl⟩
  · refine ⟨u, d₁, d₁, hg, ?_, rfl, rfl⟩
    rw [if_neg hf]

theorem run_drawGuarded_cons {stop : PointId} {body : NodeId} {rest : List NodeId} {u : Unit}
    (h : (c.drawGuarded targets i source stop (body :: rest)).run d = .ok (u, d')) :
    ∃ last d₁, (c.embedded targets body source).run d = .ok (last, d₁) ∧
      (c.drawGuarded targets i source stop rest).run (d₁.joinGuarded c.tree i last stop) =
      .ok (u, d') := by
  simp only [drawGuarded, run_bind_eq_ok] at h
  obtain ⟨last, d₁, he, h⟩ := h
  refine ⟨last, d₁, he, ?_⟩
  cases last with
  | none => exact h
  | some last =>
      simp only [run_bind_eq_ok, run_join_eq_ok, run_ite_eq_ok, run_modify_eq_ok] at h
      obtain ⟨_, _, ⟨rfl, rfl⟩, ⟨hf, _, _, rfl, h⟩ | ⟨hf, h⟩⟩ := h
      · rw [Draft.joinGuarded, if_pos hf]
        exact h
      · rw [Draft.joinGuarded, if_neg hf]
        exact h

theorem run_drawGuarded_nil {stop : PointId} {u : Unit}
    (h : (c.drawGuarded targets i source stop []).run d = .ok (u, d')) : d' = d :=
  (run_pure_eq_ok.mp h).2

theorem run_drawList_nil {current : Option PointId}
    (h : (c.drawList targets source current []).run d = .ok (a, d')) :
    a = current.or source ∧ d' = d :=
  run_pure_eq_ok.mp h

/-- The first statement of a list is entered from where the list is; what follows another goes on
behind it. -/
theorem run_drawList_cons {current : Option PointId} {rest : List NodeId}
    (h : (c.drawList targets source current (i :: rest)).run d = .ok (a, d')) :
    ∃ entry d₁ next d₂, (match current with
        | some p => entry = some p ∧ d₁ = d.tick
        | none => entry = d.startOf i ∧ d₁ = (d.tick.start i).joinIf source (d.startOf i) .normal) ∧
      (c.draw targets i entry).run d₁ = .ok (next, d₂) ∧
      (c.drawList targets source next rest).run d₂ = .ok (a, d') := by
  simp only [drawList, run_bind_eq_ok] at h
  obtain ⟨_, _, ht, h⟩ := h
  cases run_tick_eq_ok ht
  cases current with
  | some p =>
      simp only [run_bind_eq_ok, run_pure_eq_ok] at h
      obtain ⟨_, _, ⟨rfl, rfl⟩, next, d₂, hd, h⟩ := h
      exact ⟨_, _, next, d₂, ⟨rfl, rfl⟩, hd, h⟩
  | none =>
      simp only [run_bind_eq_ok, run_startPoint_eq_ok, run_joinIf_eq_ok, run_pure_eq_ok] at h
      obtain ⟨_, _, ⟨rfl, rfl⟩, _, _, rfl, _, _, ⟨rfl, rfl⟩, next, d₂, hd, h⟩ := h
      exact ⟨_, _, next, d₂, ⟨rfl, rfl⟩, hd, h⟩

theorem run_drawSections_nil {enter : NodeId → Option PointId}
    {starts : List (NodeId × Option PointId)}
    (h : (c.drawSections targets enter []).run d = .ok (starts, d')) : starts = [] ∧ d' = d :=
  run_pure_eq_ok.mp h

theorem run_drawSections_cons {enter : NodeId → Option PointId} {s : NodeId} {rest : List NodeId}
    {starts : List (NodeId × Option PointId)}
    (h : (c.drawSections targets enter (s :: rest)).run d = .ok (starts, d')) :
    ∃ last d₁ starts', (c.statements targets (enter s) (c.tree.childrenIn s .statement)).run d =
      .ok (last, d₁) ∧
      (c.drawSections targets enter rest).run d₁ = .ok (starts', d') ∧
      starts = (s, d₁.listed[d.listed.size]?) :: starts' := by
  simp only [drawSections, run_bind_eq_ok, run_get_eq_ok, run_pure_eq_ok] at h
  obtain ⟨_, _, ⟨rfl, rfl⟩, last, d₁, hl, _, d₂, ⟨rfl, rfl⟩, starts', _, hr, rfl, rfl⟩ := h
  exact ⟨last, d₂, starts', hl, hr, rfl⟩

def caseTarget (c : Plan) (starts : List (NodeId × Option PointId)) (stop : PointId)
    (jump : NodeId) : PointId :=
  ((c.jumpSection (starts.map (·.1)) jump).bind fun s => (starts.lookup s).join).getD stop

theorem run_joinCaseJumps_nil {starts : List (NodeId × Option PointId)} {stop : PointId} {u : Unit}
    (h : (c.joinCaseJumps starts stop []).run d = .ok (u, d')) : d' = d :=
  (run_pure_eq_ok.mp h).2

theorem run_joinCaseJumps_cons {starts : List (NodeId × Option PointId)} {stop p : PointId}
    {rest : List PointId} {u : Unit}
    (h : (c.joinCaseJumps starts stop (p :: rest)).run d = .ok (u, d')) :
    (c.joinCaseJumps starts stop rest).run
    (d.join p (c.caseTarget starts stop (d.graph.point p).next) .jump) =
      .ok (u, d') := by
  simp only [joinCaseJumps, run_bind_eq_ok, run_get_eq_ok, run_join_eq_ok] at h
  obtain ⟨_, _, ⟨rfl, rfl⟩, _, _, ⟨rfl, rfl⟩, h⟩ := h
  exact h

def sectionSource (c : Plan) (i : NodeId) (source : Option PointId) (s : NodeId) : Option PointId :=
  let value := c.constant (c.child i .expression)
  if value.isNone ||
      (value.bind fun v => c.chosenSection v (c.tree.childrenIn i .switchSection)) = some s
  then source else none

theorem run_switch (h : (c.switch targets i source).run d = .ok (a, d')) :
    let sections := c.tree.childrenIn i .switchSection
    let chosen := (c.constant (c.child i .expression)).bind fun v => c.chosenSection v sections
    ∃ starts d₁ u d₂,
      (c.drawSections { targets with onBreak := some d.size } (c.sectionSource i source)
        sections).run
        ((d.withCaseJumps []).stop c i) = .ok (starts, d₁) ∧
      let drawn := d₁.joinWhen ((c.lastSection sections isDefault).isNone && chosen.isNone)
        source (some d.size) .normal
      (c.joinCaseJumps starts d.size drawn.caseJumps.reverse).run
      (drawn.withCaseJumps d.caseJumps) = .ok (u, d₂) ∧
        a = some d.size ∧ d' = d₂.list d.size := by
  simp only [switch, run_bind_eq_ok, run_get_eq_ok, run_modify_eq_ok, run_endPoint_eq_ok,
    run_joinWhen_eq_ok, run_list_eq_ok, run_pure_eq_ok] at h
  obtain ⟨_, _, ⟨rfl, rfl⟩, _, _, rfl, _, _, ⟨rfl, rfl⟩, starts, d₁, hs, _, _, ⟨rfl, rfl⟩, _, _,
    rfl, u, d₂, hj, _, _, rfl, rfl, rfl⟩ := h
  exact ⟨starts, d₁, u, d₂, hs, hj, rfl, rfl⟩

end Plan

end TreeScribe.Flow
