import TreeScribe.Proofs.Flow.Consulted
import TreeScribe.Proofs.Flow.Listed
import TreeScribe.Proofs.Tree.Enclosing

namespace TreeScribe

def StatementKind.isJump : StatementKind → Bool
  | .break_ | .continue_ | .goto | .gotoCase | .gotoDefault => true
  | _ => false

/-- Whether nothing waits for the drawing of a statement, and it waits for nothing: no jump and no
label. -/
def StatementKind.isOrdinary : StatementKind → Bool
  | .break_ | .continue_ | .goto | .gotoCase | .gotoDefault | .label => false
  | _ => true

namespace Flow

open TreeScribe.Tree Execution

namespace Place

/-- The statement that a place belongs to: the one before it, or else the one behind it. -/
def site (x : Place) : NodeId := if x.previous = .null then x.next else x.previous

def Enters (x : Place) (i : NodeId) : Prop := x.next = i ∧ (x.kind = .start ∨ x.kind = .between)

def start (i : NodeId) : Place := ⟨.null, i, .start⟩

def test (i : NodeId) : Place := ⟨.null, i, .condition⟩

@[simp] theorem site_start (i : NodeId) : (start i).site = i := if_pos rfl

@[simp] theorem site_test (i : NodeId) : (test i).site = i := if_pos rfl

theorem enters_start (i : NodeId) : (start i).Enters i := ⟨rfl, .inl rfl⟩

end Place

/-- A loop has iterators to go on with: a node without a kind at the end of them is no statement,
and ends them. -/
def iterates (t : Tree) (T : NodeId) : Bool :=
  t.kind T = .statement .forLoop && (t.childrenIn T .forIterator).getLast?.any fun j =>
    (t.kind j).isStatement

def resumePlace (t : Tree) (T : NodeId) : Place :=
  if iterates t T then .start (t.child T .forIterator) else .test T

namespace Plan

def stopPlace (c : Plan) (i : NodeId) : Place :=
  ⟨i, c.following i, if c.following i = .null then .stop else .between⟩

/-- The place where a section of a switch begins, behind the switch if there is nothing in it. -/
def sectionPlace (c : Plan) (S s : NodeId) : Place :=
  match c.tree.childrenIn s .statement with
  | [] => c.stopPlace S
  | j :: _ => .start j

def known (c : Plan) : Valuation := fun i v => c.constant i = v

inductive Leads (c : Plan) (i : NodeId) : Place → Prop
  | break_ {T : NodeId} (hk : c.tree.kind i = .statement .break_)
      (h : c.tree.BreaksOut c.root i T) :
    Leads c i (c.stopPlace T)
  | continue_ {T : NodeId} (hk : c.tree.kind i = .statement .continue_)
      (h : c.tree.Continues c.root i T) :
    Leads c i (resumePlace c.tree T)
  | case_ {S s : NodeId} (h : c.tree.SwitchAround c.root i S) (hs : JumpsTo c.tree c.known S i s) :
    Leads c i (c.sectionPlace S s)

variable {c : Plan} {i : NodeId} {x : Place}

theorem site_stopPlace (hi : i ≠ .null) : (c.stopPlace i).site = i := if_neg hi

theorem leaves_stopPlace : (c.stopPlace i).Leaves i := by
  refine ⟨rfl, ?_⟩
  unfold stopPlace
  split
  · exact .inr rfl
  · exact .inl rfl

theorem Leads.kind (h : c.Leads i x) :
    c.tree.kind i = .statement .break_ ∨ c.tree.kind i = .statement .continue_ ∨
    ∃ k, c.tree.kind i = .statement k ∧ k.isCaseJump = true := by
  cases h with
  | break_ hk => exact .inl hk
  | continue_ hk => exact .inr (.inl hk)
  | case_ _ hs =>
      cases hs with
      | case_ hk | default_ hk => exact .inr (.inr ⟨_, hk, rfl⟩)

theorem Leads.kind_ne_goto (h : c.Leads i x) : c.tree.kind i ≠ .statement .goto := by
  intro hgoto
  rcases h.kind with hk | hk | ⟨k, hk, hj⟩ <;> cases hk.symm.trans hgoto
  cases hj

end Plan

namespace Draft

def place (d : Draft) (p : PointId) : Place := (d.graph.point p).place

structure At (d : Draft) (p : PointId) (x : Place) : Prop where
  lt : p < d.size
  place_eq : d.place p = x

def Reaches (t : Tree) (d : Draft) (p : Option PointId) (i : NodeId) : Prop :=
  ∀ q ∈ p, q < d.size ∧ t.Clear (d.place q).site i

end Draft

inductive Steps (c : Plan) : Option NodeId → Draft → Draft → Prop
  | refl {o d} : Steps c o d d
  | trans {o d d' d''} (h : Steps c o d d') (h' : Steps c o d' d'') : Steps c o d d''
  | quiet {o d d'} (hg : d'.graph = d.graph) (hl : d.listed.toList <+: d'.listed.toList)
      (ha : d'.labels = d.labels)
    (hc : d'.caseJumps = d.caseJumps) (hn : d'.gotos = d.gotos) : Steps c o d d'
  | start {o d i} : Steps c o d (d.addPoint .null i .start)
  | test {o d i} : Steps c o d (d.test i)
  | stop {o d i k} (hk : c.tree.kind i = .statement k) (hj : k.isOrdinary = true) :
      Steps c o d (d.stop c i)
  | label {o d i} (hk : c.tree.kind i = .statement .label) :
    Steps c o d ((d.stop c i).addLabel (c.tree.name i) d.size)
  | pass {o d p q x y kind} (hk : kind ≠ .jump) (hp : d.At p x) (hq : d.At q y)
      (h : c.tree.Clear x.site y.site) :
    Steps c o d (d.join p q kind)
  | guard {o d p q x y i b} (hi : c.tree.Below c.root i) (hk : c.tree.kind i = .statement .tryCatch)
      (hp : d.At p x)
    (hq : d.At q y) (hb : b ∈ c.guarded i) (hx : b ≠ .null → x.site = b) (hy : y.site = i) :
    Steps c o d (d.joinGuarded c.tree i (some p) q)
  | jump {o d i p target} (hk : c.tree.kind i = .statement .break_ ∨
      c.tree.kind i = .statement .continue_)
    (hp : p < d.size) (he : (d.place p).Enters i) (ht : d.Has target)
    (h : ∀ x, c.Leads i x → ∃ q, target = some q ∧ d.place q = x) :
    Steps c o d ((d.joinIf (some p) target .jump).stop c i)
  | goto {o d i p} (hk : c.tree.kind i = .statement .goto) (hp : p < d.size)
      (he : (d.place p).Enters i) :
    Steps c o d ((d.addGoto (some p)).stop c i)
  | caseJump {o d i p k} (hk : c.tree.kind i = .statement k) (hj : k.isCaseJump = true)
      (hp : p < d.size)
    (he : (d.place p).Enters i) (h : ∀ S, c.tree.SwitchAround c.root i S → o = some S) :
    Steps c o d ((d.addCaseJump (some p)).stop c i)
  | switch {o d d' i target} (h : Steps c (some i) (d.withCaseJumps []) d')
      (ht : ∀ j, target j < d'.size)
    (hs : ∀ j s, JumpsTo c.tree c.known i j s → d'.place (target j) = c.sectionPlace i s) :
    Steps c o d (Draft.joinJumps target d'.caseJumps.reverse (d'.withCaseJumps d.caseJumps))

namespace Draft

variable {t : Tree} {c : Plan} {d d' d'' : Draft} {o : Option NodeId} {i j : NodeId} {p q : PointId}
  {x y : Place}
  {source target : Option PointId} {kind : EdgeKind}

theorem At.mono (h : d.At p x) (hd : d.graph.Extends d'.graph) : d'.At p x :=
  ⟨Nat.lt_of_lt_of_le h.lt hd.size_le, (hd.place h.lt).trans h.place_eq⟩

theorem at_stop : (d.stop c i).At d.size (c.stopPlace i) :=
  ⟨by rw [size_stop]; exact Nat.lt_succ_self _, place_addPoint⟩

theorem at_test : (d.test i).At d.size (.test i) :=
  ⟨by rw [size_test]; exact Nat.lt_succ_self _, place_addPoint⟩

theorem at_startOf (h : q ∈ d.startOf i) : (d.start i).At q (.start i) := by
  unfold startOf at h
  split at h
  · cases h
  · cases h
    unfold start
    rw [if_neg ‹_›]
    exact ⟨by rw [size_list, size_addPoint]; exact Nat.lt_succ_self _, place_addPoint⟩

theorem At.reaches (h : d.At p x) (hc : t.Clear x.site i) : d.Reaches t (some p) i := by
  rintro _ ⟨⟩
  exact ⟨h.lt, h.place_eq ▸ hc⟩

theorem At.reaches_test (h : d.At p (.test i)) : d.Reaches t (some p) i := by
  refine h.reaches ?_
  rw [Place.site_test]
  exact .refl ..

theorem Reaches.mono (h : d.Reaches t source i) (hd : d.graph.Extends d'.graph) :
    d'.Reaches t source i :=
  fun q hq => ⟨Nat.lt_of_lt_of_le (h q hq).1 hd.size_le,
      by rw [place, hd.place (h q hq).1]; exact (h q hq).2⟩

theorem Reaches.trans (h : d.Reaches t source i) (hc : t.Clear i j) : d.Reaches t source j :=
  fun q hq => ⟨(h q hq).1, (h q hq).2.trans hc⟩

theorem reaches_none : d.Reaches t none i := fun _ hq => nomatch hq

end Draft

namespace Steps

open Draft

variable {t : Tree} {c : Plan} {d d' d'' : Draft} {o : Option NodeId} {i j : NodeId}
  {k : StatementKind} {p q : PointId}
  {x y : Place} {source target : Option PointId} {kind : EdgeKind}

theorem extends_joinIf : d.graph.Extends (d.joinIf source target kind).graph := by
  unfold Draft.joinIf
  split
  · exact Graph.extends_connect
  · exact .refl _

theorem extends_joinJumps {targetOf : NodeId → PointId} {jumps : List PointId} :
    d.graph.Extends (joinJumps targetOf jumps d).graph := by
  induction jumps generalizing d with
  | nil => exact .refl _
  | cons p rest ih =>
      have hjoin : d.graph.Extends (d.join p (targetOf (d.graph.point p).next) .jump).graph :=
        Graph.extends_connect
      exact hjoin.trans ih

/-- What a draft has stays. -/
theorem graph (h : Steps c o d d') : d.graph.Extends d'.graph := by
  induction h with
  | refl => exact .refl _
  | trans _ _ ih ih' => exact ih.trans ih'
  | quiet hg =>
      rw [hg]
      exact .refl _
  | start | test | stop | label => exact Graph.extends_addPoint
  | pass => exact Graph.extends_connect
  | @guard o d p q x y i b =>
      simp only [joinGuarded]
      split
      · exact Graph.Extends.trans Graph.extends_connect Graph.extends_leaving
      · exact Graph.extends_connect
  | jump => exact extends_joinIf.trans Graph.extends_addPoint
  | goto | caseJump => exact Graph.extends_addPoint
  | @switch o d d' i target h ht hs ih =>
      exact Graph.Extends.trans (g := d.graph)
        ih (extends_joinJumps (d := d'.withCaseJumps d.caseJumps))

theorem listed (h : Steps c o d d') : d.listed.toList <+: d'.listed.toList := by
  induction h with
  | refl | start | test | stop | label | pass | goto | caseJump => exact List.prefix_rfl
  | trans _ _ ih ih' => exact ih.trans ih'
  | quiet _ hl => exact hl
  | @guard o d p q x y i b =>
      simp only [joinGuarded]
      split <;> exact List.prefix_rfl
  | @jump o d i p target =>
      cases target <;> exact List.prefix_rfl
  | @switch o d d' i target h ht hs ih =>
      rw [listed_joinJumps]
      exact ih

theorem tick : Steps c o d d.tick := .quiet rfl List.prefix_rfl rfl rfl rfl

theorem list : Steps c o d (d.list p) := by
  refine .quiet rfl ?_ rfl rfl rfl
  rw [Draft.list, Array.toList_push]
  exact List.prefix_append ..

theorem enter : Steps c o d (d.start i) := by
  unfold Draft.start
  split
  · exact .refl
  · exact Steps.start.trans list

theorem joinIf (hk : kind ≠ .jump) (h : ∀ q ∈ target, d.At q y ∧ d.Reaches c.tree source y.site) :
    Steps c o d (d.joinIf source target kind) := by
  unfold Draft.joinIf
  split
  · obtain ⟨hat, hreach⟩ := h _ rfl
    obtain ⟨hp, hc⟩ := hreach _ rfl
    exact .pass hk ⟨hp, rfl⟩ hat hc
  · exact .refl

theorem joinWhen {isTaken : Bool} (hk : kind ≠ .jump)
    (h : ∀ q ∈ target, d.At q y ∧ d.Reaches c.tree source y.site) :
    Steps c o d (d.joinWhen isTaken source target kind) := by
  unfold Draft.joinWhen
  split
  · exact joinIf hk h
  · exact .refl

theorem into (h : d.At p x) (hs : d.Reaches t source x.site) :
    ∀ q ∈ some p, d.At q x ∧ d.Reaches t source x.site := by
  rintro _ ⟨⟩
  exact ⟨h, hs⟩

theorem listed_mono (h : Steps c o d d') {n : Nat} (hp : d.listed[n]? = some p) :
    d'.listed[n]? = some p := by
  rw [← Array.getElem?_toList] at hp ⊢
  obtain ⟨l, hl⟩ := h.listed
  rw [← hl, List.getElem?_append_left (List.getElem?_eq_some_iff.mp hp).1, hp]

theorem site_stop (hw : c.tree.WellFormed) (hk : c.tree.kind i = .statement k) :
    (c.stopPlace i).site = i := by
  refine Plan.site_stopPlace ?_
  rintro rfl
  cases hw.null_kind.symm.trans hk

theorem reached (hw : c.tree.WellFormed) (hk : c.tree.kind i = .statement k) (h : Steps c o d d')
    (hat : d'.At q (c.stopPlace i)) (hp : d.Reaches c.tree source i) :
    Steps c o d ((d'.list q).joinIf source (some q) .normal) ∧
      ((d'.list q).joinIf source (some q) .normal).At q (c.stopPlace i) := by
  have hlist : Steps c o d (d'.list q) := h.trans list
  have hat : (d'.list q).At q (c.stopPlace i) := hat.mono (.refl _)
  have hjoin : Steps c o (d'.list q) ((d'.list q).joinIf source (some q) .normal) := by
    refine joinIf (by simp) (into hat ?_)
    rw [site_stop hw hk]
    exact hp.mono hlist.graph
  exact ⟨hlist.trans hjoin, hat.mono hjoin.graph⟩

theorem reachedEnd (hw : c.tree.WellFormed) (hk : c.tree.kind i = .statement k)
    (hj : k.isOrdinary = true) (hp : d.Reaches c.tree source i) :
    Steps c o d (((d.stop c i).list d.size).joinIf source (some d.size) .normal) ∧
      (((d.stop c i).list d.size).joinIf source (some d.size) .normal).At d.size (c.stopPlace i) :=
  reached hw hk (.stop hk hj) at_stop hp

end Steps

end Flow

end TreeScribe
