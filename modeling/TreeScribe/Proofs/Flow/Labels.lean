import TreeScribe.Proofs.Flow.Made

namespace TreeScribe.Flow

open TreeScribe.Tree Execution Draft

def BehindLabel (t : Tree) (n : String) (x : Place) : Prop := ∃ j, x.Leaves j ∧ IsLabel t n j

namespace Draft

structure Named (t : Tree) (d : Draft) : Prop where
  mem {n : String} {p : PointId} : (n, p) ∈ d.labels ↔ p < d.size ∧ BehindLabel t n (d.place p)
  sorted : d.labels.Pairwise fun x y => y.2 < x.2

structure ToLabel (t : Tree) (d : Draft) (e : EdgeId) : Prop where
  kind : (d.graph.edge e).kind = .jump
  enters : (d.place (d.graph.edge e).source).Enters (d.place (d.graph.edge e).source).next
  goto : t.kind (d.place (d.graph.edge e).source).next = .statement .goto
  target : d.labels.lookup (t.name (d.place (d.graph.edge e).source).next) =
    some (d.graph.edge e).target
  leaves : (d.graph.edge e).leaves = []

structure Jump (c : Plan) (d : Draft) (e : EdgeId) : Prop where
  enters : (d.place (d.graph.edge e).source).Enters (d.place (d.graph.edge e).source).next
  isJump : ∃ k, c.tree.kind (d.place (d.graph.edge e).source).next = .statement k ∧ k.isJump = true
  leaves : (d.graph.edge e).leaves = []
  target : ∀ x, c.Leads (d.place (d.graph.edge e).source).next x →
    d.place (d.graph.edge e).target = x
  label (hg : c.tree.kind (d.place (d.graph.edge e).source).next = .statement .goto) :
    d.labels.lookup (c.tree.name (d.place (d.graph.edge e).source).next) =
      some (d.graph.edge e).target

structure Resolved (c : Plan) (d : Draft) : Prop where
  adjacent : d.graph.Adjacent
  makes {e : EdgeId} (he : e < d.graph.edges.size) : d.Makes c e ∨ d.ToLabel c.tree e
  named : d.Named c.tree

end Draft

section

variable {t : Tree} {c : Plan} {d d' : Draft} {o : Option NodeId} {i : NodeId} {k : StatementKind}
  {p q : PointId}
  {n : String} {kind : EdgeKind} {previous next : NodeId} {pointKind : PointKind}

theorem exists_lookup {l : List (String × PointId)} (hl : l.Pairwise fun x y => y.2 < x.2)
    (h : (n, p) ∈ l) :
    ∃ q, l.lookup n = some q ∧ p ≤ q := by
  induction hl with
  | nil => cases h
  | @cons x l hx _ ih =>
      obtain ⟨m, r⟩ := x
      by_cases hn : n = m
      · subst hn
        refine ⟨r, by simp, ?_⟩
        rcases List.mem_cons.mp h with h | h
        · cases h
          exact Nat.le_refl _
        · exact Nat.le_of_lt (hx _ h)
      · have hlookup : List.lookup n ((m, r) :: l) = l.lookup n := by
          simp [List.lookup_cons, beq_false_of_ne hn]
        rw [hlookup]
        refine ih ((List.mem_cons.mp h).resolve_left ?_)
        rintro ⟨⟩
        exact hn rfl

namespace Draft.Named

/-- The label that is found by its name is the last one that has the name. -/
theorem lookup (h : d.Named t) (hp : p < d.size) (hb : BehindLabel t n (d.place p)) :
    ∃ q, d.labels.lookup n = some q ∧ q < d.size ∧ BehindLabel t n (d.place q) ∧
      ∀ r < d.size, BehindLabel t n (d.place r) → r ≤ q := by
  obtain ⟨q, hq, -⟩ := exists_lookup h.sorted (h.mem.mpr ⟨hp, hb⟩)
  obtain ⟨hlt, hbq⟩ := h.mem.mp (mem_of_lookup hq)
  refine ⟨q, hq, hlt, hbq, fun r hr hbr => ?_⟩
  obtain ⟨q', hq', hle⟩ := exists_lookup h.sorted (h.mem.mpr ⟨hr, hbr⟩)
  cases hq.symm.trans hq'
  exact hle

theorem congr (h : d.Named t) (hl : d'.labels = d.labels) (hs : d'.size = d.size)
    (hp : ∀ p < d.size, d'.place p = d.place p) : d'.Named t where
  mem {n p} := by
    rw [hl, h.mem, hs]
    refine and_congr_right fun hlt => ?_
    rw [hp p hlt]
  sorted := hl ▸ h.sorted

theorem addPoint (h : d.Named t) (hx : ∀ n, ¬ BehindLabel t n ⟨previous, next, pointKind⟩) :
    (d.addPoint previous next pointKind).Named t where
  mem {n p} := by
    change (n, p) ∈ d.labels ↔ _
    rw [h.mem, size_addPoint]
    constructor
    · rintro ⟨hlt, hb⟩
      refine ⟨Nat.lt_succ_of_lt hlt, ?_⟩
      rwa [place_of_extends Graph.extends_addPoint hlt]
    · rintro ⟨hlt, hb⟩
      rcases Nat.lt_succ_iff_lt_or_eq.mp hlt with hlt | rfl
      · rw [place_of_extends Graph.extends_addPoint hlt] at hb
        exact ⟨hlt, hb⟩
      · have hplace : (d.addPoint previous next pointKind).place d.size =
            ⟨previous, next, pointKind⟩ := place_addPoint
        exact absurd (hplace ▸ hb) (hx n)
  sorted := h.sorted

theorem stop (h : d.Named c.tree) (hk : c.tree.kind i = .statement k) (hl : k ≠ .label) :
    (d.stop c i).Named c.tree := by
  refine h.addPoint fun n hn => ?_
  obtain ⟨j, ⟨rfl, -⟩, hj⟩ := hn
  cases hk.symm.trans hj.kind
  exact hl rfl

theorem label (h : d.Named c.tree) (hk : c.tree.kind i = .statement .label) :
    ((d.stop c i).addLabel (c.tree.name i) d.size).Named c.tree where
  mem {n p} := by
    have hnew : (d.stop c i).place d.size = c.stopPlace i := place_addPoint
    change (n, p) ∈ (c.tree.name i, d.size) :: d.labels ↔ p < (d.stop c i).size ∧
      BehindLabel c.tree n ((d.stop c i).place p)
    rw [List.mem_cons, h.mem, size_stop]
    constructor
    · rintro (hp | ⟨hlt, hb⟩)
      · cases hp
        exact ⟨Nat.lt_succ_self _, hnew ▸ ⟨i, Plan.leaves_stopPlace, hk, rfl⟩⟩
      · have hold : (d.stop c i).place p = d.place p := place_of_extends Graph.extends_addPoint hlt
        exact ⟨Nat.lt_succ_of_lt hlt, hold ▸ hb⟩
    · rintro ⟨hlt, hb⟩
      rcases Nat.lt_succ_iff_lt_or_eq.mp hlt with hlt | rfl
      · have hold : (d.stop c i).place p = d.place p := place_of_extends Graph.extends_addPoint hlt
        exact .inr ⟨hlt, hold ▸ hb⟩
      · rw [hnew] at hb
        obtain ⟨j, ⟨rfl, -⟩, -, rfl⟩ := hb
        exact .inl rfl
  sorted := .cons (fun _ hx => (h.mem.mp hx).1) h.sorted

theorem join (h : d.Named t) : (d.join p q kind).Named t :=
  h.congr rfl (size_join ..) fun _ _ => Graph.place_connect

theorem joinJumps {target : NodeId → PointId} {jumps : List PointId} (h : d.Named t) :
    (joinJumps target jumps d).Named t := by
  induction jumps generalizing d with
  | nil => exact h
  | cons p rest ih => exact ih h.join

end Draft.Named

theorem Steps.named (h : Steps c o d d') (hd : d.Named c.tree) : d'.Named c.tree := by
  induction h with
  | refl => exact hd
  | trans _ _ ih ih' => exact ih' (ih hd)
  | quiet hg _ ha =>
      refine hd.congr ha (by rw [Draft.size, hg, ← Draft.size]) fun p _ => ?_
      rw [Draft.place, hg, ← Draft.place]
  | start | test =>
      refine hd.addPoint fun n hn => ?_
      obtain ⟨j, ⟨-, hkind | hkind⟩, -⟩ := hn <;> cases hkind
  | @stop o d i k hk hj =>
      refine hd.stop hk ?_
      rintro rfl
      cases hj
  | label hk => exact hd.label hk
  | pass => exact hd.join
  | @guard o d p q x y i b =>
      simp only [joinGuarded]
      split
      · have hjoin : (d.join p q .normal).Named c.tree := hd.join
        exact hjoin.congr rfl rfl fun _ _ => rfl
      · exact hd.join
  | @jump o d i p target hk =>
      have hjoin : (d.joinIf (some p) target .jump).Named c.tree := by
        cases target with
        | none => exact hd
        | some q => exact hd.join
      rcases hk with hk | hk
      · exact hjoin.stop hk (by simp)
      · exact hjoin.stop hk (by simp)
  | @goto o d i p hk =>
      have hadd : (d.addGoto (some p)).Named c.tree := hd.congr rfl rfl fun _ _ => rfl
      exact hadd.stop hk (by simp)
  | @caseJump o d i p k hk hj =>
      have hadd : (d.addCaseJump (some p)).Named c.tree := hd.congr rfl rfl fun _ _ => rfl
      refine hadd.stop hk ?_
      rintro rfl
      cases hj
  | @switch o d d' i target _ _ _ ih =>
      have hdrawn : d'.Named c.tree := ih (hd.congr rfl rfl fun _ _ => rfl)
      have houter : (d'.withCaseJumps d.caseJumps).Named c.tree :=
        hdrawn.congr rfl rfl fun _ _ => rfl
      exact houter.joinJumps

namespace Draft

theorem Resolved.join (h : d.Resolved c) (hp : d.Waits c (· = .goto) p)
    (hq : d.labels.lookup (c.tree.name (d.place p).next) = some q) :
    (d.join p q .jump).Resolved c where
  adjacent := h.adjacent.connect hp.lt (h.named.mem.mp (mem_of_lookup hq)).1
  makes {e} he := by
    have hplace (r : PointId) : (d.join p q .jump).place r = d.place r := Graph.place_connect
    have hlt : e < d.graph.edges.size + 1 := Nat.lt_of_lt_of_eq he Graph.edges_size_connect
    by_cases hn : e = d.graph.edges.size
    · have hedge : (d.join p q .jump).graph.edge e = ⟨p, q, .jump, []⟩ := by
        rw [Draft.join, Graph.edge_connect, if_pos hn]
      obtain ⟨k, hk, rfl⟩ := hp.kind
      right
      constructor
      case kind => rw [hedge]
      case enters =>
        rw [hedge, hplace]
        exact hp.enters
      case goto =>
        rw [hedge, hplace]
        exact hk
      case target =>
        rw [hedge, hplace]
        exact hq
      case leaves => rw [hedge]
    · have hedge : (d.join p q .jump).graph.edge e = d.graph.edge e := by
        rw [Draft.join, Graph.edge_connect, if_neg hn]
      have hold : e < d.graph.edges.size := Nat.lt_of_le_of_ne (Nat.le_of_lt_succ hlt) hn
      refine (h.makes hold).imp (fun hm => ?_) fun hl => ?_
      · rw [Makes, hedge, hplace, hplace]
        exact hm
      · constructor <;> rw [hedge]
        case kind => exact hl.kind
        case enters =>
          rw [hplace]
          exact hl.enters
        case goto =>
          rw [hplace]
          exact hl.goto
        case target =>
          rw [hplace]
          exact hl.target
        case leaves => exact hl.leaves
  named := h.named.join

theorem Resolved.joinLabels {gotos : List PointId} (h : d.Resolved c)
    (hg : ∀ p ∈ gotos, d.Waits c (· = .goto) p) : (joinLabels c.tree gotos d).Resolved c := by
  induction gotos generalizing d with
  | nil => exact h
  | cons p rest ih =>
      have hrest (q : PointId) (hq : q ∈ rest) := hg q (List.mem_cons_of_mem _ hq)
      rw [Draft.joinLabels]
      cases hx : d.labels.lookup (c.tree.name (d.graph.point p).next) with
      | none => exact ih h hrest
      | some q =>
          exact ih (h.join (hg p List.mem_cons_self) hx) fun r hr =>
            (hrest r hr).mono Graph.extends_connect

theorem labels_joinLabels {gotos : List PointId} : (joinLabels t gotos d).labels = d.labels := by
  induction gotos generalizing d with
  | nil => rfl
  | cons p rest ih => rw [joinLabels, ih, labels_joinIf]

theorem sent_joinLabels {gotos : List PointId} : (joinLabels t gotos d).sent i =
    d.sent i + if (d.labels.lookup (t.name i)).isSome then d.before gotos i else 0 := by
  induction gotos generalizing d with
  | nil => simp [joinLabels, before]
  | cons p rest ih =>
      have hsent : (d.joinIf (some p) (d.labels.lookup (t.name (d.place p).next)) .jump).sent i =
        d.sent i +
          if (d.labels.lookup (t.name i)).isSome ∧ (d.place p).next = i then 1 else 0 := by
        by_cases hi : (d.place p).next = i
        · rw [hi]
          cases d.labels.lookup (t.name i) with
          | none => simp [joinIf]
          | some q => simp [joinIf, sent_join, hi]
        · cases d.labels.lookup (t.name (d.place p).next) with
          | none => simp [joinIf, hi]
          | some q => simp [joinIf, sent_join, hi]
      have hbefore :
          (d.joinIf (some p) (d.labels.lookup (t.name (d.place p).next)) .jump).before rest i =
            d.before rest i := by
        cases d.labels.lookup (t.name (d.place p).next) with
        | none => rfl
        | some q =>
            have hplace (r : PointId) : (d.join p q .jump).place r = d.place r :=
              Graph.place_connect
            simp only [before, joinIf, hplace]
      change (Draft.joinLabels t rest
        (d.joinIf (some p) (d.labels.lookup (t.name (d.place p).next)) .jump)).sent i = _
      rw [ih, labels_joinIf, hsent, hbefore, before_cons]
      by_cases hl : (d.labels.lookup (t.name i)).isSome = true
      · simp only [hl, true_and, if_true]
        omega
      · simp [hl]

end Draft

end

namespace Draft.Resolved

variable {c : Plan} {d : Draft} {e : EdgeId} (h : d.Resolved c) (he : e < d.graph.edges.size)
include h he

theorem jump (hk : (d.graph.edge e).kind = .jump) : d.Jump c e := by
  rcases h.makes he with hmade | hl
  · rw [Makes, hk] at hmade
    generalize hleaves : (d.graph.edge e).leaves = leaves at hmade
    cases hmade with
    | pass hk => exact absurd rfl hk
    | jump henters hk hj hgoto hleads =>
        refine ⟨henters, ⟨_, hk, hj⟩, hleaves, hleads, fun hg => ?_⟩
        cases hk.symm.trans hg
        exact absurd rfl hgoto
  · exact ⟨hl.enters, ⟨_, hl.goto, rfl⟩, hl.leaves, fun x hx => absurd hl.goto hx.kind_ne_goto,
      fun _ => hl.target⟩

theorem made (hk : (d.graph.edge e).kind ≠ .jump) : d.Makes c e :=
  (h.makes he).resolve_right fun hl => hk hl.kind

end Draft.Resolved

section

variable {t : Tree} {root i : NodeId} {s : Setting} {g : Graph} {order : List PointId} {d : Draft}

theorem exists_draw (h : Graph.ofStatement t root s = .ok g) :
    ∃ order F, Graph.empty.draw t root s = .ok (order, F) ∧ g.points = F.points ∧
      g.edges = F.edges := by
  unfold Graph.ofStatement at h
  cases hx : Graph.empty.draw t root s with
  | error e =>
      rw [hx] at h
      cases h
  | ok x =>
      rw [hx] at h
      cases h
      exact ⟨_, _, rfl, rfl, rfl⟩

theorem aims_root (hw : t.WellFormed) : Aims (.bare t root s) d ⟨none, none⟩ none root where
  below := .self
  hasBreak := has_none
  hasContinue := has_none
  onBreak h := absurd h (not_breaksOut_self hw)
  onContinue h := absurd h (not_continues_self hw)
  inSwitch h := absurd h (not_switchAround_self hw)

/-- No jump to a label is before a statement of another kind. -/
theorem Draft.Orderly.before_gotos_eq_zero {c : Plan} (h : d.Orderly c)
    (hk : c.tree.kind i ≠ .statement .goto) : d.before d.gotos i = 0 := by
  refine List.countP_eq_zero.mpr fun p hp hpi => ?_
  obtain ⟨k, hkind, rfl⟩ := (h.gotos hp).kind
  rw [of_decide_eq_true hpi] at hkind
  exact hk hkind

theorem Draft.Orderly.before_caseJumps_eq_zero {c : Plan} (h : d.Orderly c)
    (hwait : ∀ p ∈ d.caseJumps, ∀ S, ¬ c.tree.SwitchAround c.root (d.place p).next S)
    (hi : c.Sends i) : d.before d.caseJumps i = 0 := by
  refine List.countP_eq_zero.mpr fun p hp hpi => ?_
  have hpi : (d.place p).next = i := of_decide_eq_true hpi
  obtain ⟨k, hk, hj⟩ := (h.caseJumps hp).kind
  rw [hpi] at hk
  rcases hi with ⟨x, hx⟩ | hgoto
  · cases hx with
    | break_ hk' | continue_ hk' =>
        cases hk.symm.trans hk'
        cases hj
    | case_ hS => exact hwait p hp _ (hpi ▸ hS)
  · cases hk.symm.trans hgoto
    cases hj

/-- A statement that is visited is left once. -/
theorem count_leave {a : Option PointId} (hw : t.WellFormed)
    (hroot : (t.kind root).isStatement = true)
    (hd : Draws (.bare t root s) (.node ⟨none, none⟩ root (some 0)) ((blank .empty).start root) a d)
    (hi : .leave i ∈ d.marks) : d.marks.count (.leave i) = 1 := by
  obtain ⟨M, hM, hnodup, -⟩ := draws_marks (g := .empty) hw hroot hd
  have hM : d.marks = .enter root :: M := hM
  have hmem : .leave i ∈ M := by simpa [hM] using hi
  rw [hM, List.count_cons_of_ne (by simp), List.count_eq_one_of_mem hnodup hmem]

/-- The drawing of a statement, with its jumps to labels: each edge is there for a reason, and each
jump whose target is known has one edge. -/
theorem draw_resolved (hw : t.WellFormed) (h : Graph.empty.draw t root s = .ok (order, g)) :
    ∃ d : Draft,
    g = markFrom t d.graph 0 ∧ d.Resolved (.bare t root s) ∧ ∀ i, t.Visited root i →
      ((∃ x, (Plan.bare t root s).Leads i x) ∨
        t.kind i = .statement .goto ∧ (d.labels.lookup (t.name i)).isSome = true) →
        d.sent i = 1 := by
  obtain ⟨hroot, a, d, hd, -, rfl⟩ := draw_eq_ok hw h
  have hblank : (blank .empty).Orderly (.bare t root s) :=
    ⟨.empty, by simp [Graph.empty, blank], by simp [blank], by simp [blank]⟩
  have hnone : (blank .empty).Named t := ⟨by simp [blank, Draft.size, Graph.empty], .nil⟩
  have hfirst : Steps (.bare t root s) none (blank .empty) ((blank .empty).start root) := .enter
  have hat : ((blank .empty).start root).At 0 (.start root) :=
    at_startOf (d := blank .empty) (if_neg (hw.ne_null_of_isStatement hroot))
  obtain ⟨hsteps, -⟩ := hd.stepped hw (fun _ => aims_root hw) (entersAt_of_start hat)
  have hall := hfirst.trans hsteps
  obtain ⟨hdrawn, hwait⟩ := hall.orderly hblank
  have hresolved : d.Resolved (.bare t root s) :=
    ⟨hdrawn.adjacent, fun he => .inl (hdrawn.makes he), hall.named hnone⟩
  refine ⟨joinLabels t d.gotos.reverse d, rfl,
    hresolved.joinLabels fun p hp => hdrawn.gotos (List.mem_reverse.mp hp), fun i hi hjump => ?_⟩
  rw [labels_joinLabels] at hjump
  have hsends : (Plan.bare t root s).Sends i := hjump.imp id And.left
  have hcases : d.before d.caseJumps i = 0 := hdrawn.before_caseJumps_eq_zero (fun p hp S hS =>
    absurd ((hwait p hp).resolve_left (by simp [blank]) S hS) (by simp)) hsends
  have hgotos : (if (d.labels.lookup (t.name i)).isSome then d.before d.gotos.reverse i else 0) =
      d.before d.gotos i := by
    have hreverse : d.before d.gotos.reverse i = d.before d.gotos i := List.countP_reverse
    rcases hjump with ⟨x, hx⟩ | ⟨-, hl⟩
    · rw [hreverse, hdrawn.before_gotos_eq_zero hx.kind_ne_goto, ite_self]
    · rw [if_pos hl, hreverse]
  have hone : d.marks.count (.leave i) = 1 := by
    refine count_leave hw hroot hd ?_
    have hleft := (draw_shown hw h hi).2.1
    rwa [marks_markFrom, show (joinLabels t d.gotos.reverse d).graph.marks =
      d.marks from marks_joinLabels] at hleft
  have hbalance := hall.balance hblank hsends
  have hbefore : (blank .empty).sent i = 0 ∧ (blank .empty).waiting i = 0 ∧
    (blank .empty).marks.count (.leave i) = 0 :=
    ⟨rfl, rfl, rfl⟩
  rw [Draft.Balances, Draft.waiting] at hbalance
  rw [sent_joinLabels, hgotos]
  omega

end

end TreeScribe.Flow
