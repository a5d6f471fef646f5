import TreeScribe.Proofs.Flow.Labels

namespace TreeScribe.Flow

open TreeScribe.Tree Execution

variable {t : Tree} {root i : NodeId} {s : Setting} {g : Graph} {order : List PointId}
  {p q : PointId} {x : Place}

namespace Graph

structure Sole (g : Graph) (P : Place → Prop) (p : PointId) : Prop where
  lt : p < g.points.size
  holds : P (g.point p).place
  unique {q : PointId} (hq : q < g.points.size) (h : P (g.point q).place) : q = p

def JumpsOnlyTo (g : Graph) (p q : PointId) : Prop :=
  ∃ e, (e < g.edges.size ∧ (g.edge e).kind = .jump ∧ (g.edge e).source = p) ∧
    (g.edge e).target = q ∧
    ∀ f < g.edges.size, (g.edge f).kind = .jump → (g.edge f).source = p → f = e

theorem Sole.of_points {g' : Graph} {P : Place → Prop} (h : g.Sole P p)
    (hg : g'.points = g.points) : g'.Sole P p := by
  have hplace (q : PointId) : (g'.point q).place = (g.point q).place := by rw [point, hg, ← point]
  exact ⟨hg ▸ h.lt, hplace p ▸ h.holds, fun hq hr => h.unique (hg ▸ hq) (hplace _ ▸ hr)⟩

theorem JumpsOnlyTo.of_edges {g' : Graph} (h : g.JumpsOnlyTo p q) (hg : g'.edges = g.edges) :
    g'.JumpsOnlyTo p q := by
  simpa only [JumpsOnlyTo, edge, hg] using h

end Graph

def OpensSection (t : Tree) (S x : NodeId) (y : Place) : Prop :=
  match t.childrenIn x .statement with
  | [] => y.Leaves S
  | j :: _ => y = .start j

theorem mark_enters_iff {x : Point} : .enter i ∈ x.marks ↔ x.place.Enters i :=
  mark_enter_iff.trans and_comm

theorem mark_leaves_iff {x : Point} : .leave i ∈ x.marks ↔ x.place.Leaves i :=
  mark_leave_iff.trans and_comm

theorem exists_mark (x : Point) : ∃ m, m ∈ x.marks := by
  unfold Point.marks
  cases x.kind <;> exact ⟨_, List.mem_cons_self⟩

theorem marks_of_place {x y : Point} (h : x.place = y.place) : x.marks = y.marks := by
  obtain ⟨hprevious, hnext, hkind⟩ := Place.mk.inj h
  simp only [Point.marks, hprevious, hnext, hkind]

namespace Graph.Gains

variable (h : Graph.empty.Gains t root order g) (hp : p < g.points.size)
include h hp

theorem sole_place (hx : (g.point p).place = x) : g.Sole (· = x) p where
  lt := hp
  holds := hx
  unique {q} hq hqx := by
    obtain ⟨m, hm⟩ := exists_mark (g.point p)
    exact h.once (Nat.zero_le q) hq (Nat.zero_le p) hp (marks_of_place (hqx.trans hx.symm) ▸ hm) hm

theorem sole_enters (hi : (g.point p).place.Enters i) : g.Sole (·.Enters i) p where
  lt := hp
  holds := hi
  unique {q} hq hiq := h.once (Nat.zero_le q) hq (Nat.zero_le p) hp (mark_enters_iff.mpr hiq)
    (mark_enters_iff.mpr hi)

theorem sole_leaves (hi : (g.point p).place.Leaves i) : g.Sole (·.Leaves i) p where
  lt := hp
  holds := hi
  unique {q} hq hiq := h.once (Nat.zero_le q) hq (Nat.zero_le p) hp (mark_leaves_iff.mpr hiq)
    (mark_leaves_iff.mpr hi)

theorem sole_section {S y : NodeId}
    (hx : (g.point p).place = (Plan.bare t root s).sectionPlace S y) :
    g.Sole (OpensSection t S y) p := by
  change (g.point p).place = match t.childrenIn y .statement with
    | [] => (Plan.bare t root s).stopPlace S
    | j :: _ => .start j at hx
  unfold OpensSection
  cases hl : t.childrenIn y .statement with
  | nil =>
      rw [hl] at hx
      exact h.sole_leaves hp (hx ▸ Plan.leaves_stopPlace)
  | cons j rest =>
      rw [hl] at hx
      exact h.sole_place hp hx

end Graph.Gains

/-- A jump that has its edge once: the edge is the only jump behind the point before it. -/
theorem Draft.Resolved.jumpsOnlyTo {c : Plan} {d : Draft} (h : d.Resolved c) (hsent : d.sent i = 1)
    (hp : ∀ q < d.size, (d.place q).Enters i → q = p) (hi : (d.place p).Enters i) :
    ∃ e < d.graph.edges.size, (d.graph.edge e).kind = .jump ∧
      (d.place (d.graph.edge e).source).next = i ∧
      d.graph.JumpsOnlyTo p (d.graph.edge e).target := by
  rw [Draft.sent, List.countP_eq_length_filter] at hsent
  obtain ⟨e, he⟩ := List.length_eq_one_iff.mp hsent
  have hmem (f : EdgeId) : f = e ↔ f < d.graph.edges.size ∧ (d.graph.edge f).kind = .jump ∧
      (d.place (d.graph.edge f).source).next = i := by
    rw [← List.mem_singleton, ← he, List.mem_filter, List.mem_range, decide_eq_true_eq]
  obtain ⟨hlt, hkind, hnext⟩ := (hmem e).mp rfl
  have henters : (d.place (d.graph.edge e).source).Enters i := hnext ▸ (h.jump hlt hkind).enters
  have hsource : (d.graph.edge e).source = p := hp _ (h.adjacent.source_lt hlt) henters
  refine ⟨e, hlt, hkind, hnext, e, ⟨hlt, hkind, hsource⟩, rfl, fun f hf hfk hfs => ?_⟩
  exact (hmem f).mpr ⟨hf, hfk, hfs ▸ hi.1⟩

theorem Graph.JumpsOnlyTo.markFrom {first : EdgeId} (h : g.JumpsOnlyTo p q) :
    (markFrom t g first).JumpsOnlyTo p q := by
  have hsize : (Flow.markFrom t g first).edges.size = g.edges.size := edges_size_markFrom
  have hext : g.Extends (Flow.markFrom t g first) := extends_markFrom
  obtain ⟨e, ⟨he, hkind, hsource⟩, htarget, hsole⟩ := h
  refine ⟨e, ⟨hsize ▸ he, ?_, ?_⟩, ?_, fun f hf hfk hfs => ?_⟩
  · exact (congrArg (·.2.2) (hext.ends he)).trans hkind
  · exact (congrArg (·.1) (hext.ends he)).trans hsource
  · exact (hext.target_eq he).trans htarget
  · rw [hsize] at hf
    have hends := hext.ends hf
    exact hsole f hf ((congrArg (·.2.2) hends).symm.trans hfk)
      ((congrArg (·.1) hends).symm.trans hfs)

/-- A statement that is visited is entered at one point, and the jump that it is goes from there to
its target. -/
theorem draw_jumps (hw : t.WellFormed) (h : Graph.empty.draw t root s = .ok (order, g))
    (hi : t.Visited root i) :
    ∃ p, g.Sole (·.Enters i) p ∧
      (∀ x, (Plan.bare t root s).Leads i x → ∃ q < g.points.size, (g.point q).place = x ∧
        g.JumpsOnlyTo p q) ∧
      (t.kind i = .statement .goto →
        ∀ r < g.points.size, BehindLabel t (t.name i) (g.point r).place →
        ∃ q < g.points.size, BehindLabel t (t.name i) (g.point q).place ∧ g.JumpsOnlyTo p q ∧
          ∀ r < g.points.size, BehindLabel t (t.name i) (g.point r).place → r ≤ q) := by
  have hgains := draw_gains hw .empty h
  obtain ⟨p, ⟨hlt, hmark⟩, -⟩ := hgains.unique_mark (draw_shown hw h hi).1
  have hsole := hgains.sole_enters hlt (mark_enters_iff.mp hmark)
  obtain ⟨d, rfl, hd, hsent⟩ := draw_resolved hw h
  have hsize : (markFrom t d.graph 0).points.size = d.size := size_markFrom
  have hext : d.graph.Extends (markFrom t d.graph 0) := extends_markFrom
  have hplace {q : PointId} (hq : q < d.size) :
      ((markFrom t d.graph 0).point q).place = d.place q := hext.place hq
  have hjump (hone : d.sent i = 1) :=
    hd.jumpsOnlyTo hone (fun q hq hqi => hsole.unique (hsize ▸ hq) (hplace hq ▸ hqi))
    (hplace (hsize ▸ hlt) ▸ hsole.holds)
  refine ⟨p, hsole, fun x hx => ?_, fun hk r hr hb => ?_⟩
  · obtain ⟨e, he, hkind, hnext, hjump⟩ := hjump (hsent i hi (.inl ⟨x, hx⟩))
    have hq := hd.adjacent.target_lt he
    refine ⟨_, hsize ▸ hq, (hplace hq).trans ((hd.jump he hkind).target x ?_), hjump.markFrom⟩
    rwa [hnext]
  · obtain ⟨q, hlookup, hq, hbq, hlast⟩ := hd.named.lookup (hsize ▸ hr) (hplace (hsize ▸ hr) ▸ hb)
    obtain ⟨e, he, hkind, hnext, hjump⟩ := hjump (hsent i hi (.inr ⟨hk, by rw [hlookup]; rfl⟩))
    have htarget := (hd.jump he hkind).label (hnext ▸ hk)
    rw [hnext] at htarget
    cases hlookup.symm.trans htarget
    refine ⟨_, hsize ▸ hq, hplace hq ▸ hbq, hjump.markFrom, fun r hr hb => ?_⟩
    exact hlast r (hsize ▸ hr) (hplace (hsize ▸ hr) ▸ hb)

/-- Jumps go where the tree says. A visited `break` goes behind its loop or switch, a visited
`continue` to the iterators of its loop or else to its condition, and a jump to a case of the
innermost switch around it, where one section is meant, to the beginning of that section. -/
theorem ofStatement_jumps (hw : t.WellFormed) (h : Graph.ofStatement t root s = .ok g)
    (hi : t.Visited root i) :
    ∃ p, g.Sole (·.Enters i) p ∧
      (∀ T, t.kind i = .statement .break_ → t.BreaksOut root i T →
        ∃ q, g.Sole (·.Leaves T) q ∧ g.JumpsOnlyTo p q) ∧
      (∀ T, t.kind i = .statement .continue_ → t.Continues root i T →
        ∃ q, g.Sole (· = resumePlace t T) q ∧ g.JumpsOnlyTo p q) ∧
      ∀ S x, t.SwitchAround root i S → JumpsTo t (fun j v => s.constant t j = v) S i x →
        ∃ q, g.Sole (OpensSection t S x) q ∧ g.JumpsOnlyTo p q := by
  obtain ⟨order, F, hx, hpoints, hedges⟩ := exists_draw h
  have hgains := draw_gains hw .empty hx
  obtain ⟨p, hp, hjumps, -⟩ := draw_jumps hw hx hi
  refine ⟨p, hp.of_points hpoints, fun T hk hT => ?_, fun T hk hT => ?_, fun S x hS hcase => ?_⟩
  · obtain ⟨q, hq, hplace, hjump⟩ := hjumps _ (.break_ hk hT)
    exact ⟨q, (hgains.sole_leaves hq (hplace ▸ Plan.leaves_stopPlace)).of_points hpoints,
      hjump.of_edges hedges⟩
  · obtain ⟨q, hq, hplace, hjump⟩ := hjumps _ (.continue_ hk hT)
    exact ⟨q, (hgains.sole_place hq hplace).of_points hpoints, hjump.of_edges hedges⟩
  · obtain ⟨q, hq, hplace, hjump⟩ := hjumps _ (.case_ hS hcase)
    exact ⟨q, (hgains.sole_section hq hplace).of_points hpoints, hjump.of_edges hedges⟩

/-- A loop that ends with a node that is no statement, behind its one iterator. -/
def emptyEnding : Tree :=
  planted [.statement .forLoop, .statement .expression, .expression .thisRef, .null,
      .statement .continue_]
    [(1, .forIterator, 2), (2, .expression, 3), (1, .forIterator, 4), (1, .embeddedStatement, 5)]

/-- The loop has iterators, and still its `continue` does not go to the first one. -/
theorem continue_emptyEnding : ∃ g, Graph.ofStatement emptyEnding 1 ⟨.none, false, false⟩ = .ok g ∧
    emptyEnding.Visited 1 5 ∧ emptyEnding.kind 5 = .statement .continue_ ∧
    emptyEnding.Continues 1 5 1 ∧
      emptyEnding.kind 1 = .statement .forLoop ∧ emptyEnding.childrenIn 1 .forIterator = [2, 4] ∧
        ¬ ∃ p q, (g.point p).place.Enters 5 ∧ g.JumpsOnlyTo p q ∧ (g.point q).place = .start 2 := by
  have hjumps : (Graph.ofStatement emptyEnding 1 ⟨.none, false, false⟩).map (fun g =>
      (List.range g.edges.size).all fun e => (g.edge e).kind ≠ .jump ∨
        (g.point (g.edge e).target).kind = .condition) =
      .ok true := by decide +kernel
  have hvisited : emptyEnding.Visited 1 5 := .part (k := .forLoop) rfl (by decide) (.self rfl)
  have hcontinues : emptyEnding.Continues 1 5 1 := ⟨by decide, .self, 5, .inl (by decide), .self⟩
  cases hg : Graph.ofStatement emptyEnding 1 ⟨.none, false, false⟩ with
  | error e =>
      rw [hg] at hjumps
      cases hjumps
  | ok g =>
      rw [hg] at hjumps
      refine ⟨g, rfl, hvisited, rfl, hcontinues, rfl, rfl, ?_⟩
      rintro ⟨p, q, -, ⟨e, ⟨he, hkind, -⟩, htarget, -⟩, hq⟩
      have hcondition := List.all_eq_true.mp (Except.ok.inj hjumps) e (List.mem_range.mpr he)
      rw [decide_eq_true_eq, htarget] at hcondition
      have hstart : (g.point q).kind = .start := congrArg Place.kind hq
      rcases hcondition with h | h
      · exact h hkind
      · cases hstart.symm.trans h

/-- A switch in a loop: its first section jumps to the other one, which goes on with the loop. -/
def switchingLoop : Tree :=
  planted
    [.statement .forLoop, .statement .expression, .statement .switch,
      .expression (.literal (.string "a")),
      .part .switchSection, .part .caseLabel, .expression (.literal (.string "a")),
      .statement .gotoDefault,
      .part .switchSection, .part .caseLabel, .statement .continue_, .statement .break_]
    [(1, .forIterator, 2), (1, .embeddedStatement, 3), (3, .expression, 4), (3, .switchSection, 5),
      (3, .switchSection, 9), (5, .caseLabel, 6), (6, .expression, 7), (5, .statement, 8),
      (9, .caseLabel, 10),
      (9, .statement, 11), (9, .statement, 12)]

theorem ofStatement_jumps_switchingLoop :
    ∃ g, Graph.ofStatement switchingLoop 1 ⟨.none, false, false⟩ = .ok g ∧
    (∃ p q, g.Sole (·.Enters 8) p ∧ g.Sole (· = .start 11) q ∧ g.JumpsOnlyTo p q) ∧
    (∃ p q, g.Sole (·.Enters 11) p ∧ g.Sole (· = .start 2) q ∧ g.JumpsOnlyTo p q) ∧
    ∃ p q, g.Sole (·.Enters 12) p ∧ g.Sole (·.Leaves 3) q ∧ g.JumpsOnlyTo p q := by
  have hw : switchingLoop.WellFormed := wellFormed_planted _ _
  have hdrawn : (Graph.ofStatement switchingLoop 1 ⟨.none, false, false⟩).toBool = true := by
    decide +kernel
  have hvisited {i : NodeId} (hi : i ∈ switchingLoop.drawnParts 3 .switch)
      (hs : (switchingLoop.kind i).isStatement = true) : switchingLoop.Visited 1 i :=
    .part (k := .forLoop) (j := 3) rfl (by decide) (.part (k := .switch) rfl hi (.self hs))
  have hswitch : switchingLoop.Below 1 3 := .child .self rfl
  have hbreak : switchingLoop.BreaksOut 1 12 3 :=
    ⟨by decide, hswitch, 9, .inr (by decide), .child .self rfl⟩
  have hcontinue : switchingLoop.Continues 1 11 1 :=
    ⟨by decide, .self, 3, .inl (by decide), .child (.child .self rfl) rfl⟩
  have hin : switchingLoop.InSection 3 8 := ⟨rfl, 5, by decide, .child .self rfl⟩
  have hinnermost {S : NodeId} (hS : switchingLoop.kind S = .statement .switch) : S = 3 := by
    have honly : ∀ S < 13, switchingLoop.kind S = .statement .switch → S = 3 := by decide
    exact honly S (lt_size_of_isStatement (t := switchingLoop) (by rw [hS]; rfl)) hS
  have haround : switchingLoop.SwitchAround 1 8 3 :=
    ⟨hswitch, hin, fun _ h => hinnermost h.isSwitch ▸ .self⟩
  have hdefault :
      JumpsTo switchingLoop (fun j v => Setting.constant ⟨.none, false, false⟩ switchingLoop j = v)
      3 8 9 := by
    have hsections : ∀ x ∈ switchingLoop.childrenIn 3 .switchSection, HasDefault switchingLoop x →
        x = 9 := by
      simp only [HasDefault]
      decide
    exact .default_ rfl ⟨by decide, ⟨10, by decide, by decide⟩, fun hx h => hsections _ hx h⟩
  cases hg : Graph.ofStatement switchingLoop 1 ⟨.none, false, false⟩ with
  | error e =>
      rw [hg] at hdrawn
      cases hdrawn
  | ok g =>
      obtain ⟨p, hp, -, -, hcase⟩ := ofStatement_jumps hw hg (hvisited (i := 8) (by decide) rfl)
      obtain ⟨p', hp', -, hresume, -⟩ :=
        ofStatement_jumps hw hg (hvisited (i := 11) (by decide) rfl)
      obtain ⟨p'', hp'', hleave, -, -⟩ :=
        ofStatement_jumps hw hg (hvisited (i := 12) (by decide) rfl)
      obtain ⟨q, hq, hjump⟩ := hcase 3 9 haround hdefault
      obtain ⟨q', hq', hjump'⟩ := hresume 1 rfl hcontinue
      obtain ⟨q'', hq'', hjump''⟩ := hleave 3 rfl hbreak
      exact ⟨g, rfl, ⟨p, q, hp, hq, hjump⟩, ⟨p', q', hp', hq', hjump'⟩,
        ⟨p'', q'', hp'', hq'', hjump''⟩⟩

/-- A visited `goto` whose name some visited label has goes behind the last one that has it,
wherever that stands. -/
theorem ofStatement_goto {j : NodeId} (hw : t.WellFormed) (h : Graph.ofStatement t root s = .ok g)
    (hi : t.Visited root i) (hk : t.kind i = .statement .goto) (hj : t.Visited root j)
    (hl : IsLabel t (t.name i) j) :
    ∃ p q, g.Sole (·.Enters i) p ∧ g.JumpsOnlyTo p q ∧ q < g.points.size ∧
      BehindLabel t (t.name i) (g.point q).place ∧
        ∀ r < g.points.size, BehindLabel t (t.name i) (g.point r).place → r ≤ q := by
  obtain ⟨order, F, hx, hpoints, hedges⟩ := exists_draw h
  obtain ⟨p, hp, -, hjumps⟩ := draw_jumps hw hx hi
  obtain ⟨r, ⟨hr, hmark⟩, -⟩ := (draw_gains hw .empty hx).unique_mark (draw_shown hw hx hj).2.1
  obtain ⟨q, hq, hb, hjump, hlast⟩ := hjumps hk r hr ⟨j, mark_leaves_iff.mp hmark, hl⟩
  have hpoint (q : PointId) : g.point q = F.point q := by rw [Graph.point, hpoints, ← Graph.point]
  refine ⟨p, q, hp.of_points hpoints, hjump.of_edges hedges, hpoints ▸ hq, hpoint q ▸ hb,
    fun r hr hb => ?_⟩
  exact hlast r (hpoints ▸ hr) (hpoint r ▸ hb)

end TreeScribe.Flow
