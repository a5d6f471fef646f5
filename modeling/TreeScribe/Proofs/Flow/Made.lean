import TreeScribe.Proofs.Flow.Formed
import TreeScribe.Proofs.Flow.Stepwise

namespace TreeScribe.Flow

open TreeScribe.Tree Execution Draft

inductive Made (c : Plan) : Place → Place → EdgeKind → List NodeId → Prop
  | pass {x y kind} (hk : kind ≠ .jump) (h : c.tree.Clear x.site y.site) : Made c x y kind []
  | guard {x y i b} (hi : c.tree.Below c.root i) (hk : c.tree.kind i = .statement .tryCatch)
      (hb : b ∈ c.guarded i)
    (hx : b ≠ .null → x.site = b) (hy : y.site = i) :
    Made c x y .normal (if c.tree.hasChild i .finallyBlock then [i] else [])
  | jump {x y k} (hx : x.Enters x.next) (hk : c.tree.kind x.next = .statement k)
      (hj : k.isJump = true)
    (hg : k ≠ .goto) (h : ∀ z, c.Leads x.next z → y = z) : Made c x y .jump []

namespace Graph

variable {g : Graph} {e f : EdgeId} {tries : List NodeId}

theorem edge_leaving : (g.leaving e tries).edge f =
    if e = f ∧ f < g.edges.size then { g.edge f with leaves := (g.edge f).leaves ++ tries }
    else g.edge f := by
  simp only [leaving, edge, Array.getD_eq_getD_getElem?, Array.getElem?_modify]
  by_cases hf : f < g.edges.size
  · by_cases he : e = f <;> simp [hf, he]
  · simp [hf]

end Graph

namespace Draft

variable (c : Plan) (d : Draft)

def Makes (e : EdgeId) : Prop :=
  Made c (d.place (d.graph.edge e).source) (d.place (d.graph.edge e).target) (d.graph.edge e).kind
    (d.graph.edge e).leaves

structure Waits (P : StatementKind → Prop) (p : PointId) : Prop where
  lt : p < d.size
  enters : (d.place p).Enters (d.place p).next
  kind : ∃ k, c.tree.kind (d.place p).next = .statement k ∧ P k

structure Orderly : Prop where
  adjacent : d.graph.Adjacent
  makes {e : EdgeId} (he : e < d.graph.edges.size) : d.Makes c e
  caseJumps {p : PointId} (hp : p ∈ d.caseJumps) : d.Waits c (·.isCaseJump = true) p
  gotos {p : PointId} (hp : p ∈ d.gotos) : d.Waits c (· = .goto) p

end Draft

namespace Draft

variable {c : Plan} {d d' : Draft} {P : StatementKind → Prop} {i : NodeId} {p q : PointId}
  {kind : EdgeKind}
  {previous next : NodeId} {pointKind : PointKind}

theorem place_of_extends (h : d.graph.Extends d'.graph) (hp : p < d.size) :
    d'.place p = d.place p := h.place hp

theorem Waits.mono (h : d.Waits c P p) (hd : d.graph.Extends d'.graph) : d'.Waits c P p := by
  have hplace := place_of_extends hd h.lt
  exact ⟨Nat.lt_of_lt_of_le h.lt hd.size_le, hplace ▸ h.enters, hplace ▸ h.kind⟩

namespace Orderly

theorem grow (h : d.Orderly c) (hd : d.graph.Extends d'.graph) (ha : d'.graph.Adjacent)
    (he : ∀ e < d'.graph.edges.size, e < d.graph.edges.size ∧ d'.graph.edge e = d.graph.edge e ∨
      d'.Makes c e)
    (hc : ∀ p ∈ d'.caseJumps, p ∈ d.caseJumps ∨ d'.Waits c (·.isCaseJump = true) p)
    (hn : ∀ p ∈ d'.gotos, p ∈ d.gotos ∨ d'.Waits c (· = .goto) p) : d'.Orderly c where
  adjacent := ha
  makes := by
    intro e hlt
    rcases he e hlt with ⟨hlt, heq⟩ | he
    · unfold Makes
      rw [heq, place_of_extends hd (h.adjacent.source_lt hlt),
        place_of_extends hd (h.adjacent.target_lt hlt)]
      exact h.makes hlt
    · exact he
  caseJumps hp := (hc _ hp).elim (fun hp => (h.caseJumps hp).mono hd) id
  gotos hp := (hn _ hp).elim (fun hp => (h.gotos hp).mono hd) id

theorem addPoint (h : d.Orderly c) : (d.addPoint previous next pointKind).Orderly c :=
  h.grow Graph.extends_addPoint h.adjacent.addPoint (fun _ he => .inl ⟨he, rfl⟩) (fun _ => .inl)
    (fun _ => .inl)

theorem quiet (h : d.Orderly c) (hg : d'.graph = d.graph) (hc : d'.caseJumps = d.caseJumps)
    (hn : d'.gotos = d.gotos) : d'.Orderly c := by
  refine h.grow ?_ ?_ (fun e he => .inl ?_) (fun _ hp => .inl (hc ▸ hp))
    (fun _ hp => .inl (hn ▸ hp))
  · rw [hg]
    exact .refl _
  · rw [hg]
    exact h.adjacent
  · rw [hg] at he ⊢
    exact ⟨he, rfl⟩

theorem withoutCaseJumps (h : d.Orderly c) : (d.withCaseJumps []).Orderly c :=
  h.grow (.refl _) h.adjacent (fun _ he => .inl ⟨he, rfl⟩) (by simp [withCaseJumps]) (fun _ => .inl)

theorem join (h : d.Orderly c) (hp : p < d.size) (hq : q < d.size)
    (hm : Made c (d.place p) (d.place q) kind []) : (d.join p q kind).Orderly c := by
  refine h.grow Graph.extends_connect (h.adjacent.connect hp hq) (fun e he => ?_) (fun _ => .inl)
    (fun _ => .inl)
  have hlt : e < d.graph.edges.size + 1 := Nat.lt_of_lt_of_eq he Graph.edges_size_connect
  by_cases hn : e = d.graph.edges.size
  · right
    unfold Makes Draft.join place
    simp only [Graph.edge_connect, if_pos hn, Graph.place_connect]
    exact hm
  · left
    refine ⟨by omega, ?_⟩
    rw [Draft.join, Graph.edge_connect, if_neg hn]

theorem joinGuarded (h : d.Orderly c) (hp : p < d.size) (hq : q < d.size)
    (hm : Made c (d.place p) (d.place q)
      .normal (if c.tree.hasChild i .finallyBlock then [i] else [])) :
    (d.joinGuarded c.tree i (some p) q).Orderly c := by
  simp only [Draft.joinGuarded]
  split
  · rw [if_pos ‹_›] at hm
    refine h.grow (Graph.Extends.trans Graph.extends_connect Graph.extends_leaving)
      (h.adjacent.connect hp hq).leaving
      (fun e he => ?_) (fun _ => .inl) (fun _ => .inl)
    have hlt : e < d.graph.edges.size + 1 := by
      refine Nat.lt_of_lt_of_eq he ?_
      rw [Draft.leaving, Graph.edges_size_leaving, Draft.join, Graph.edges_size_connect]
    by_cases hn : e = d.graph.edges.size
    · right
      have hplace (r : PointId) :
          ((d.join p q .normal).leaving d.graph.edges.size [i]).place r = d.place r := by
        change ((d.graph.connect p q .normal).2.point r).place = d.place r
        exact Graph.place_connect
      have hedge : ((d.join p q .normal).leaving d.graph.edges.size [i]).graph.edge e =
          ⟨p, q, .normal, [i]⟩ := by
        rw [Draft.leaving, Graph.edge_leaving, Draft.join, Graph.edge_connect, if_pos hn,
          Graph.edges_size_connect]
        exact if_pos ⟨hn.symm, hlt⟩
      rw [Makes, hedge, hplace, hplace]
      exact hm
    · left
      refine ⟨by omega, ?_⟩
      rw [Draft.leaving, Graph.edge_leaving, if_neg fun h => hn h.1.symm, Draft.join,
        Graph.edge_connect, if_neg hn]
  · rw [if_neg ‹_›] at hm
    exact h.join hp hq hm

theorem joinJumps {target : NodeId → PointId} {jumps : List PointId} (h : d.Orderly c)
    (hj : ∀ p ∈ jumps, d.Waits c (·.isCaseJump = true) p) (ht : ∀ j, target j < d.size)
    (hs : ∀ p ∈ jumps, ∀ z, c.Leads (d.place p).next z → d.place (target (d.place p).next) = z) :
    (joinJumps target jumps d).Orderly c := by
  induction jumps generalizing d with
  | nil => exact h
  | cons p rest ih =>
      have hp := hj p List.mem_cons_self
      obtain ⟨k, hk, hcase⟩ := hp.kind
      have hjump : k.isJump = true := by cases k <;> first | rfl | cases hcase
      have hgoto : k ≠ .goto := by
        rintro rfl
        cases hcase
      have hjoin : (d.join p (target (d.place p).next) .jump).Orderly c :=
        h.join hp.lt (ht _) (.jump hp.enters hk hjump hgoto (hs p List.mem_cons_self))
      have hplace (q : PointId) : (d.join p (target (d.place p).next) .jump).place q = d.place q :=
        Graph.place_connect
      refine ih hjoin (fun q hq => (hj q (List.mem_cons_of_mem _ hq)).mono Graph.extends_connect)
        (fun j => ?_) ?_
      · change target j < (d.join p (target (d.place p).next) .jump).size
        rw [size_join]
        exact ht j
      · intro q hq z hz
        change (d.join p (target (d.place p).next) .jump).place
          (target ((d.join p (target (d.place p).next) .jump).place q).next) = z
        change c.Leads ((d.join p (target (d.place p).next) .jump).place q).next z at hz
        rw [hplace] at hz ⊢
        rw [hplace]
        exact hs q (List.mem_cons_of_mem _ hq) z hz

end Orderly

end Draft

section

variable {c : Plan} {d d' : Draft} {o : Option NodeId} {i j : NodeId} {k : StatementKind}
  {p q : PointId} {kind : EdgeKind}
  {points : List PointId}

theorem caseJumps_joinGuarded {t : Tree} :
    (d.joinGuarded t i (some p) q).caseJumps = d.caseJumps := by
  simp only [joinGuarded]
  split <;> rfl

theorem gotos_joinGuarded {t : Tree} : (d.joinGuarded t i (some p) q).gotos = d.gotos := by
  simp only [joinGuarded]
  split <;> rfl

theorem caseJumps_joinJumps {target : NodeId → PointId} {jumps : List PointId} :
    (joinJumps target jumps d).caseJumps = d.caseJumps := by
  induction jumps generalizing d with
  | nil => rfl
  | cons p rest ih => exact ih

theorem gotos_joinJumps {target : NodeId → PointId} {jumps : List PointId} :
    (joinJumps target jumps d).gotos = d.gotos := by
  induction jumps generalizing d with
  | nil => rfl
  | cons p rest ih => exact ih

/-- The switch around a jump to a case is the one that it waits in. -/
theorem place_of_leads {S j : NodeId} {x : Place} {y : NodeId → Place}
    (hk : c.tree.kind j = .statement k) (hj : k.isCaseJump = true)
    (ho : ∀ S', c.tree.SwitchAround c.root j S' → some S = some S')
    (hs : ∀ s, JumpsTo c.tree c.known S j s → y j = c.sectionPlace S s) (hx : c.Leads j x) :
    y j = x := by
  cases hx with
  | break_ hk' | continue_ hk' =>
      cases hk.symm.trans hk'
      cases hj
  | case_ hS h =>
      cases ho _ hS
      exact hs _ h

/-- Steps keep a draft orderly, and a jump to a case that begins to wait does so inside its
switch. -/
theorem Steps.orderly (h : Steps c o d d') (hd : d.Orderly c) : d'.Orderly c ∧ ∀ p ∈ d'.caseJumps,
    p ∈ d.caseJumps ∨ ∀ S, c.tree.SwitchAround c.root (d'.place p).next S → o = some S := by
  induction h with
  | refl => exact ⟨hd, fun _ => .inl⟩
  | trans h h' ih ih' =>
      obtain ⟨hd', hwait⟩ := ih hd
      obtain ⟨hd'', hwait'⟩ := ih' hd'
      refine ⟨hd'', fun p hp => (hwait' p hp).elim (fun hp => ?_) .inr⟩
      rw [place_of_extends h'.graph (hd'.caseJumps hp).lt]
      exact hwait p hp
  | quiet hg _ _ hc hn => exact ⟨hd.quiet hg hc hn, fun _ hp => .inl (hc ▸ hp)⟩
  | start | test | stop => exact ⟨hd.addPoint, fun _ => .inl⟩
  | @label o d i hk =>
      have hstop : (d.stop c i).Orderly c := hd.addPoint
      exact ⟨hstop.quiet rfl rfl rfl, fun _ => .inl⟩
  | pass hk hp hq h =>
      refine ⟨hd.join hp.lt hq.lt (.pass hk ?_), fun _ => .inl⟩
      rwa [hp.place_eq, hq.place_eq]
  | @guard o d p q x y i b hi hk hp hq hb hx hy =>
      refine ⟨hd.joinGuarded hp.lt hq.lt ?_, fun p hp => .inl (caseJumps_joinGuarded ▸ hp)⟩
      rw [hp.place_eq, hq.place_eq]
      exact .guard hi hk hb hx hy
  | @jump o d i p target hk hp he ht h =>
      cases target with
      | none => exact ⟨hd.addPoint, fun _ => .inl⟩
      | some q =>
          have hnext : (d.place p).next = i := he.1
          obtain ⟨k, hki, hj, hg⟩ :
            ∃ k, c.tree.kind i = .statement k ∧ k.isJump = true ∧ k ≠ .goto := by
            rcases hk with hk | hk
            · exact ⟨_, hk, rfl, by simp⟩
            · exact ⟨_, hk, rfl, by simp⟩
          have hmade : Made c (d.place p) (d.place q) .jump [] := by
            refine .jump (hnext ▸ he) (hnext ▸ hki) hj hg fun z hz => ?_
            obtain ⟨q', hq', hz⟩ := h z (hnext ▸ hz)
            cases hq'
            exact hz
          exact ⟨(hd.join hp (ht q rfl) hmade).addPoint, fun _ => .inl⟩
  | @goto o d i p hk hp he =>
      have hwait : d.Waits c (· = .goto) p := ⟨hp, he.1 ▸ he, _, he.1 ▸ hk, rfl⟩
      have hadd : (d.addGoto (some p)).Orderly c := by
        refine hd.grow (.refl _) hd.adjacent (fun _ he => .inl ⟨he, rfl⟩) (fun _ => .inl)
          fun q hq => ?_
        rcases List.mem_cons.mp hq with rfl | hq
        · exact .inr ⟨hwait.lt, hwait.enters, hwait.kind⟩
        · exact .inl hq
      exact ⟨hadd.addPoint, fun _ => .inl⟩
  | @caseJump o d i p k hk hj hp he h =>
      have hwait : d.Waits c (·.isCaseJump = true) p := ⟨hp, he.1 ▸ he, k, he.1 ▸ hk, hj⟩
      have hadd : (d.addCaseJump (some p)).Orderly c := by
        refine hd.grow (.refl _) hd.adjacent (fun _ he => .inl ⟨he, rfl⟩) (fun q hq => ?_)
          (fun _ => .inl)
        rcases List.mem_cons.mp hq with rfl | hq
        · exact .inr ⟨hwait.lt, hwait.enters, hwait.kind⟩
        · exact .inl hq
      refine ⟨hadd.addPoint, fun q hq => (List.mem_cons.mp hq).symm.imp id ?_⟩
      rintro rfl
      have hplace : (((d.addCaseJump (some q)).stop c i).place q) = d.place q :=
        Graph.extends_addPoint.place (g := d.graph) hp
      rw [hplace, he.1]
      exact h
  | @switch o d d' i target h ht hs ih =>
      obtain ⟨hd', hwait⟩ := ih hd.withoutCaseJumps
      have hgraph : d.graph.Extends d'.graph := h.graph
      have houter : (d'.withCaseJumps d.caseJumps).Orderly c :=
        hd'.grow (.refl _) hd'.adjacent (fun _ he => .inl ⟨he, rfl⟩)
          (fun p hp => .inr ((hd.caseJumps hp).mono hgraph)) (fun _ => .inl)
      refine ⟨houter.joinJumps (fun p hp => (hd'.caseJumps (List.mem_reverse.mp hp)).mono (.refl _))
        ht fun p hp z hz => ?_, fun p hp => .inl ?_⟩
      · have hp := List.mem_reverse.mp hp
        obtain ⟨k, hk, hj⟩ := (hd'.caseJumps hp).kind
        exact place_of_leads (y := fun j => d'.place (target j))
          hk hj ((hwait p hp).resolve_left (by simp [withCaseJumps]))
          (hs (d'.place p).next) hz
      · rw [caseJumps_joinJumps] at hp
        exact hp

namespace Draft

def sent (d : Draft) (i : NodeId) : Nat :=
  (List.range d.graph.edges.size).countP fun e =>
    (d.graph.edge e).kind = .jump ∧ (d.place (d.graph.edge e).source).next = i

def before (d : Draft) (points : List PointId) (i : NodeId) : Nat :=
  points.countP fun p => (d.place p).next = i

def waiting (d : Draft) (i : NodeId) : Nat := d.before d.caseJumps i + d.before d.gotos i

theorem sent_addPoint {previous next : NodeId} {pointKind : PointKind} (h : d.graph.Adjacent) :
    (d.addPoint previous next pointKind).sent i = d.sent i := by
  refine List.countP_congr fun e he => ?_
  have hlt := h.source_lt (List.mem_range.mp he)
  have hplace : (d.addPoint previous next pointKind).place (d.graph.edge e).source =
    d.place (d.graph.edge e).source :=
    place_of_extends Graph.extends_addPoint hlt
  change decide ((d.graph.edge e).kind = .jump ∧
    ((d.addPoint previous next pointKind).place (d.graph.edge e).source).next = i) = true ↔ _
  rw [hplace]

theorem sent_join : (d.join p q kind).sent i =
    d.sent i + if kind = .jump ∧ (d.place p).next = i then 1 else 0 := by
  have hplace (r : PointId) : (d.join p q kind).place r = d.place r := Graph.place_connect
  have hsize : (d.join p q kind).graph.edges.size = d.graph.edges.size + 1 :=
    Graph.edges_size_connect
  have hnew : (d.join p q kind).graph.edge d.graph.edges.size = ⟨p, q, kind, []⟩ := by
    rw [join, Graph.edge_connect, if_pos rfl]
  have hold (e : EdgeId) (he : e ∈ List.range d.graph.edges.size) :
      (d.join p q kind).graph.edge e = d.graph.edge e := by
    rw [join, Graph.edge_connect, if_neg (Nat.ne_of_lt (List.mem_range.mp he))]
  simp only [sent, hplace, hsize, List.range_succ, List.countP_append, List.countP_singleton, hnew,
    decide_eq_true_eq]
  congr 1
  refine List.countP_congr fun e he => ?_
  rw [hold e he]

theorem sent_joinGuarded {t : Tree} : (d.joinGuarded t j (some p) q).sent i = d.sent i := by
  have hjoin : (d.join p q .normal).sent i = d.sent i := by
    rw [sent_join, if_neg (by simp)]
    rfl
  simp only [joinGuarded]
  split
  · refine Eq.trans ?_ hjoin
    have hends (e : EdgeId) :
        (((d.join p q .normal).graph.leaving d.graph.edges.size [j]).edge e).ends =
          ((d.join p q .normal).graph.edge e).ends := Graph.ends_leaving
    have hsource (e : EdgeId) := congrArg (·.1) (hends e)
    have hkind (e : EdgeId) := congrArg (·.2.2) (hends e)
    simp only [Edge.ends] at hsource hkind
    simp only [sent, leaving, Graph.edges_size_leaving, hsource, hkind]
    rfl
  · exact hjoin

theorem sent_joinJumps {target : NodeId → PointId} {jumps : List PointId} :
    (joinJumps target jumps d).sent i = d.sent i + d.before jumps i := by
  induction jumps generalizing d with
  | nil => rfl
  | cons p rest ih =>
      have hplace (r : PointId) :
          (d.join p (target (d.graph.point p).next) .jump).place r = d.place r :=
        Graph.place_connect
      rw [joinJumps, ih, sent_join, before, before, List.countP_cons]
      simp only [hplace, true_and, decide_eq_true_eq]
      omega

theorem before_cons :
    d.before (p :: points) i = d.before points i + if (d.place p).next = i then 1 else 0 := by
  rw [before, List.countP_cons]
  simp only [before, decide_eq_true_eq]

theorem before_of_extends (hp : ∀ p ∈ points, p < d.size) (hd : d.graph.Extends d'.graph) :
    d'.before points i = d.before points i := by
  refine List.countP_congr fun p h => ?_
  rw [place_of_extends hd (hp p h)]

namespace Orderly

variable (h : d.Orderly c) (hd : d.graph.Extends d'.graph)
include h hd

theorem before_caseJumps : d'.before d.caseJumps i = d.before d.caseJumps i :=
  before_of_extends (fun _ hp => (h.caseJumps hp).lt) hd

theorem before_gotos : d'.before d.gotos i = d.before d.gotos i :=
  before_of_extends (fun _ hp => (h.gotos hp).lt) hd

theorem waiting_eq (hc : d'.caseJumps = d.caseJumps) (hn : d'.gotos = d.gotos) :
    d'.waiting i = d.waiting i := by
  rw [waiting, hc, hn, h.before_caseJumps hd, h.before_gotos hd]
  rfl

end Orderly

theorem waiting_addPoint {previous next : NodeId} {pointKind : PointKind} (h : d.Orderly c) :
    (d.addPoint previous next pointKind).waiting i = d.waiting i := by
  have hd : d.graph.Extends (d.addPoint previous next pointKind).graph := Graph.extends_addPoint
  exact h.waiting_eq hd rfl rfl

theorem count_leave_stop :
    (d.stop c j).marks.count (.leave i) = d.marks.count (.leave i) + if j = i then 1 else 0 := by
  have hahead : (ahead c j).count (.leave i) = 0 := by
    unfold ahead
    split <;> simp
  rw [marks_stop, List.count_append, List.count_cons, hahead]
  simp

end Draft

/-- A jump gets an edge at once or waits for one: its target is known, or it goes to a label. -/
def Plan.Sends (c : Plan) (i : NodeId) : Prop :=
  (∃ x, c.Leads i x) ∨ c.tree.kind i = .statement .goto

theorem Plan.Sends.isJump (h : c.Sends i) :
    ∃ k, c.tree.kind i = .statement k ∧ k.isJump = true := by
  rcases h with ⟨x, hx⟩ | hk
  · rcases hx.kind with hk | hk | ⟨k, hk, hj⟩
    · exact ⟨_, hk, rfl⟩
    · exact ⟨_, hk, rfl⟩
    · exact ⟨k, hk, by cases k <;> first | rfl | cases hj⟩
  · exact ⟨_, hk, rfl⟩

section Balance

open Draft

variable {d₁ : Draft} {j : NodeId} {k : StatementKind} {p : PointId}

/-- From one draft to another, as many edges of `i` and jumps that wait for one are made as points
behind it. -/
def Draft.Balances (i : NodeId) (d d' : Draft) : Prop :=
  d'.sent i + d'.waiting i + d.marks.count (.leave i) = d.sent i + d.waiting i +
    d'.marks.count (.leave i)

theorem balances_jump {target : Option PointId} (hd : d.Orderly c) (hi : c.Sends i)
    (hk : c.tree.kind j = .statement .break_ ∨ c.tree.kind j = .statement .continue_)
    (hp : p < d.size) (he : (d.place p).Enters j) (ht : d.Has target)
    (h : ∀ x, c.Leads j x → ∃ q, target = some q ∧ d.place q = x) :
    Draft.Balances i d ((d.joinIf (some p) target .jump).stop c j) := by
  have hall : Steps c none d ((d.joinIf (some p) target .jump).stop c j) := .jump hk hp he ht h
  have hc : ((d.joinIf (some p) target .jump).stop c j).caseJumps = d.caseJumps := by
    cases target <;> rfl
  have hn : ((d.joinIf (some p) target .jump).stop c j).gotos = d.gotos := by
    cases target <;> rfl
  rw [Draft.Balances, hd.waiting_eq hall.graph hc hn, count_leave_stop, marks_joinIf, Draft.stop]
  cases target with
  | none =>
      have hji : j ≠ i := by
        rintro rfl
        rcases hi with ⟨x, hx⟩ | hi
        · obtain ⟨q, hq, -⟩ := h x hx
          cases hq
        · rcases hk with hk | hk <;> cases hk.symm.trans hi
      rw [if_neg hji]
      change Draft.sent (Draft.addPoint d _ _ _) i + _ + _ = _
      rw [sent_addPoint hd.adjacent]
      rfl
  | some q =>
      have hadjacent : (d.join p q .jump).graph.Adjacent := hd.adjacent.connect hp (ht q rfl)
      have hnext : (d.place p).next = j := he.1
      change Draft.sent (Draft.addPoint (d.join p q .jump) _ _ _) i + _ + _ = _
      rw [sent_addPoint hadjacent, sent_join, hnext]
      simp only [true_and]
      omega

theorem balances_goto (hd : d.Orderly c) (hk : c.tree.kind j = .statement .goto) (hp : p < d.size)
    (he : (d.place p).Enters j) : Draft.Balances i d ((d.addGoto (some p)).stop c j) := by
  have hall : Steps c none d ((d.addGoto (some p)).stop c j) := .goto hk hp he
  have hadjacent : (d.addGoto (some p)).graph.Adjacent := hd.adjacent
  have hwait :
      ((d.addGoto (some p)).stop c j).waiting i = d.waiting i + if j = i then 1 else 0 := by
    change Draft.before _ d.caseJumps i + Draft.before _ (p :: d.gotos) i = _
    rw [before_cons, hd.before_caseJumps hall.graph, hd.before_gotos hall.graph,
      place_of_extends hall.graph hp, he.1]
    exact (Nat.add_assoc ..).symm
  rw [Draft.Balances, hwait, count_leave_stop, Draft.stop, sent_addPoint hadjacent]
  change d.sent i + _ + d.marks.count _ = _ + (d.marks.count _ + _)
  omega

theorem balances_caseJump (hd : d.Orderly c) (hk : c.tree.kind j = .statement k)
    (hj : k.isCaseJump = true) (hp : p < d.size) (he : (d.place p).Enters j)
    (h : ∀ S, c.tree.SwitchAround c.root j S → o = some S) :
    Draft.Balances i d ((d.addCaseJump (some p)).stop c j) := by
  have hall : Steps c o d ((d.addCaseJump (some p)).stop c j) := .caseJump hk hj hp he h
  have hadjacent : (d.addCaseJump (some p)).graph.Adjacent := hd.adjacent
  have hwait :
      ((d.addCaseJump (some p)).stop c j).waiting i = d.waiting i + if j = i then 1 else 0 := by
    change Draft.before _ (p :: d.caseJumps) i + Draft.before _ d.gotos i = _
    rw [before_cons, hd.before_caseJumps hall.graph, hd.before_gotos hall.graph,
      place_of_extends hall.graph hp, he.1]
    exact Nat.add_right_comm ..
  rw [Draft.Balances, hwait, count_leave_stop, Draft.stop, sent_addPoint hadjacent]
  change d.sent i + _ + d.marks.count _ = _ + (d.marks.count _ + _)
  omega

/-- The jumps that waited in a switch have their edges behind it. -/
theorem balances_switch {target : NodeId → PointId} (hd : d.Orderly c)
    (h : Steps c o (d.withCaseJumps []) d₁) (ih : Draft.Balances i (d.withCaseJumps []) d₁) :
    Draft.Balances i d (joinJumps target d₁.caseJumps.reverse (d₁.withCaseJumps d.caseJumps)) := by
  have hgraph : d.graph.Extends d₁.graph := h.graph
  have hjoined :
    d₁.graph.Extends (joinJumps target d₁.caseJumps.reverse (d₁.withCaseJumps d.caseJumps)).graph :=
    Steps.extends_joinJumps (d := d₁.withCaseJumps d.caseJumps)
  have hdrawn := (h.orderly hd.withoutCaseJumps).1
  have hsent : (joinJumps target d₁.caseJumps.reverse (d₁.withCaseJumps d.caseJumps)).sent i =
      d₁.sent i + d₁.before d₁.caseJumps i := by
    rw [sent_joinJumps, Draft.before, List.countP_reverse]
    rfl
  have hwait : (joinJumps target d₁.caseJumps.reverse (d₁.withCaseJumps d.caseJumps)).waiting i =
      d.before d.caseJumps i + d₁.before d₁.gotos i := by
    rw [waiting, caseJumps_joinJumps, gotos_joinJumps]
    exact congrArg₂ _ (hd.before_caseJumps (hgraph.trans hjoined)) (hdrawn.before_gotos hjoined)
  have hbefore : (d.withCaseJumps []).sent i = d.sent i ∧
    (d.withCaseJumps []).waiting i = d.before d.gotos i :=
    ⟨rfl, Nat.zero_add _⟩
  rw [Draft.Balances, marks_withCaseJumps, hbefore.1, hbefore.2, waiting] at ih
  rw [Draft.Balances, hsent, hwait, marks_joinJumps, marks_withCaseJumps, waiting]
  omega

/-- Each time that a jump is drawn that is to have an edge, it gets one or begins to wait. -/
theorem Steps.balance (h : Steps c o d d') (hd : d.Orderly c) (hi : c.Sends i) :
    Draft.Balances i d d' := by
  have hne {j : NodeId} {k : StatementKind} (hk : c.tree.kind j = .statement k)
      (hj : k.isJump = false) : j ≠ i := by
    rintro rfl
    obtain ⟨k', hk', hj'⟩ := hi.isJump
    cases hk.symm.trans hk'
    cases hj.symm.trans hj'
  induction h with
  | refl => rfl
  | trans h h' ih ih' =>
      have ih := ih hd
      have ih' := ih' (h.orderly hd).1
      rw [Draft.Balances] at *
      omega
  | @quiet o d d' hg hl ha hc hn =>
      have hs : d'.sent i = d.sent i := by
        unfold Draft.sent Draft.place
        rw [hg]
      have hw : d'.waiting i = d.waiting i := by
        unfold Draft.waiting Draft.before Draft.place
        rw [hg, hc, hn]
      have hm : d'.marks = d.marks := congrArg Graph.marks hg
      rw [Draft.Balances, hs, hw, hm]
  | @start o d j =>
      rw [Draft.Balances, sent_addPoint hd.adjacent, waiting_addPoint hd, marks_addPoint,
        List.count_append]
      simp [Point.marks]
  | @test o d j =>
      rw [Draft.Balances, Draft.test, sent_addPoint hd.adjacent, waiting_addPoint hd,
        marks_addPoint, List.count_append]
      simp [Point.marks]
  | @stop o d j k hk hj =>
      have hjump : k.isJump = false := by cases k <;> first | rfl | cases hj
      rw [Draft.Balances, count_leave_stop, if_neg (hne hk hjump), Draft.stop,
        sent_addPoint hd.adjacent, waiting_addPoint hd]
      omega
  | @label o d j hk =>
      change (d.stop c j).sent i + (d.stop c j).waiting i + _ = _ + (d.stop c j).marks.count _
      rw [count_leave_stop, if_neg (hne hk rfl), Draft.stop, sent_addPoint hd.adjacent,
        waiting_addPoint hd]
      omega
  | @pass o d p q x y kind hk hp hq h =>
      have hg : d.graph.Extends (d.join p q kind).graph := Graph.extends_connect
      rw [Draft.Balances, sent_join, if_neg (fun h => hk h.1), hd.waiting_eq hg rfl rfl, marks_join]
      omega
  | @guard o d p q x y j b hj hk hp hq hb hx' hy =>
      have hg : Steps c o d (d.joinGuarded c.tree j (some p) q) := .guard hj hk hp hq hb hx' hy
      rw [Draft.Balances, sent_joinGuarded,
        hd.waiting_eq hg.graph caseJumps_joinGuarded gotos_joinGuarded, marks_joinGuarded]
  | jump hk hp he ht h => exact balances_jump hd hi hk hp he ht h
  | goto hk hp he => exact balances_goto hd hk hp he
  | caseJump hk hj hp he h => exact balances_caseJump hd hk hj hp he h
  | switch h ht hs ih => exact balances_switch hd h (ih hd.withoutCaseJumps)

end Balance

end

end TreeScribe.Flow
