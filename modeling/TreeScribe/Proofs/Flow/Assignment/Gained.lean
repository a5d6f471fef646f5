import TreeScribe.Proofs.Flow.Tested
import TreeScribe.Proofs.Flow.Whole

namespace TreeScribe.Flow

open TreeScribe.Tree Draft

def ListsFrom (order : List PointId) (g g' : Graph) : Prop :=
  ∀ p : Nat, order.count p = if g.points.size ≤ p ∧ p < g'.points.size then 1 else 0

def Graph.TestsEntered (g : Graph) : Prop := ∀ j, .test j ∈ g.marks → .enter j ∈ g.marks

structure Graph.Gains (t : Tree) (i : NodeId) (order : List PointId) (g g' : Graph) : Prop where
  extends_ : g.Extends g'
  adjacent : g'.Adjacent
  lt_size : g.points.size < g'.points.size
  listed : ListsFrom order g g'
  entry : (g'.point g.points.size).place = ⟨.null, i, .start⟩
  inside {p : Nat} {m : Mark} (hp : g.points.size ≤ p) (hp' : p < g'.points.size)
    (hm : m ∈ (g'.point p).marks) : t.Inside i m.node ∧ (m = .enter i → p = g.points.size)
  once {p q : Nat} {m : Mark} (hp : g.points.size ≤ p) (hp' : p < g'.points.size)
    (hq : g.points.size ≤ q) (hq' : q < g'.points.size) (hm : m ∈ (g'.point p).marks)
    (hm' : m ∈ (g'.point q).marks) : p = q
  stated (hg : ∀ m ∈ g.marks, m.Stated t) : ∀ m ∈ g'.marks, m.Stated t
  tested (hg : g.TestsEntered) : g'.TestsEntered
  isStatement : (t.kind i).isStatement = true
  behind {e : EdgeId} (he : g.edges.size ≤ e) (he' : e < g'.edges.size) :
    g.points.size < (g'.edge e).target
  first : order.head? = some g.points.size

variable {t : Tree} {i : NodeId} {s : Setting} {g g' : Graph} {order : List PointId}
  {first : EdgeId}

theorem marks_congr {x y : Point} (h : x.place = y.place) : x.marks = y.marks := by
  obtain ⟨_, _, _, _, _⟩ := x
  obtain ⟨_, _, _, _, _⟩ := y
  cases h
  rfl

theorem marks_eq_flatMap :
    g.marks = (List.range g.points.size).flatMap fun p => (g.point p).marks := by
  have hpoints : g.points.toList = (List.range g.points.size).map g.point := by
    refine List.ext_getElem (by simp) fun n hn hn' => ?_
    have hlt : n < g.points.size := by simpa using hn
    rw [List.getElem_map, List.getElem_range, Graph.point, Array.getD_eq_getD_getElem?,
      Array.getElem?_eq_getElem hlt]
    simp
  rw [Graph.marks, hpoints, List.flatMap_map]

theorem marks_of_extends (h : g.Extends g') : g'.marks = g.marks ++
    (List.range' g.points.size (g'.points.size - g.points.size)).flatMap fun p =>
    (g'.point p).marks := by
  have hrange : List.range g'.points.size =
      List.range g.points.size ++ List.range' g.points.size (g'.points.size - g.points.size) := by
    have happend := List.range'_append_1 (s := 0) (m := g.points.size)
      (n := g'.points.size - g.points.size)
    rw [Nat.zero_add, Nat.add_sub_cancel' h.size_le] at happend
    rw [List.range_eq_range', List.range_eq_range', happend]
  rw [marks_eq_flatMap, marks_eq_flatMap, hrange, List.flatMap_append]
  congr 1
  refine List.flatMap_congr fun p hp => marks_congr (h.place ?_)
  exact List.mem_range.mp hp

theorem eq_of_nodup_flatMap {f : Nat → List Mark} {l : List Nat} {p q : Nat} {m : Mark}
    (h : (l.flatMap f).Nodup) (hp : p ∈ l) (hq : q ∈ l) (hm : m ∈ f p) (hm' : m ∈ f q) : p = q := by
  obtain ⟨a, ha, rfl⟩ := List.getElem_of_mem hp
  obtain ⟨b, hb, rfl⟩ := List.getElem_of_mem hq
  cases eq_of_mem_flatMap h ha hb hm hm'
  rfl

theorem marks_joinLabels {gotos : List PointId} {d : Draft} :
    (joinLabels t gotos d).marks = d.marks := by
  induction gotos generalizing d with
  | nil => rfl
  | cons p rest ih => rw [joinLabels, ih, marks_joinIf]

theorem listed_joinLabels {gotos : List PointId} {d : Draft} :
    (joinLabels t gotos d).listed = d.listed := by
  induction gotos generalizing d with
  | nil => rfl
  | cons p rest ih => rw [joinLabels, ih, listed_joinIf]

theorem size_joinLabels {gotos : List PointId} {d : Draft} :
    (joinLabels t gotos d).size = d.size := by
  induction gotos generalizing d with
  | nil => rfl
  | cons p rest ih => rw [joinLabels, ih, size_joinIf]

theorem marks_markFrom : (markFrom t g first).marks = g.marks :=
  markFrom_keeps (P := fun g' => g'.marks = g.marks) (fun _ _ _ h => h) rfl

theorem edges_size_markFrom : (markFrom t g first).edges.size = g.edges.size :=
  markFrom_keeps (P := fun g' => g'.edges.size = g.edges.size)
    (fun _ _ _ h => Graph.edges_size_leaving.trans h) rfl

section

variable {a : Option PointId} {d : Draft} (hw : t.WellFormed)
  (hroot : (t.kind i).isStatement = true)
  (hd : Draws (.bare t i s) (.node ⟨none, none⟩ i (some g.points.size)) ((blank g).start i) a d)
include hw hroot

theorem start_blank : (blank g).start i = ((blank g).addPoint .null i .start).list g.points.size :=
  if_neg (hw.ne_null_of_isStatement hroot)

theorem marks_start_blank : ((blank g).start i).marks = g.marks ++ [.enter i] := by
  rw [marks_start, if_neg (hw.ne_null_of_isStatement hroot)]
  rfl

theorem size_start_blank : ((blank g).start i).size = g.points.size + 1 := by
  rw [start_blank hw hroot, size_list, size_addPoint]
  rfl

include hd

/-- Behind the entry, a drawing marks what is inside the statement. -/
theorem draws_marks : ∃ M, d.marks = g.marks ++ .enter i :: M ∧ M.Nodup ∧
    ∀ m ∈ M, t.Inside i m.node ∧ m ≠ .enter i := by
  obtain ⟨M, hM, hclean, -⟩ := hd.marked hw
  have hahead : ahead (.bare t i s) i = [] := if_pos (if_pos rfl)
  refine ⟨M, ?_, hclean.nodup, fun m hm => (hclean.mem hm).resolve_left fun hm => ?_⟩
  · rw [hM, marks_start_blank hw hroot, List.append_assoc]
    rfl
  · rw [hahead] at hm
    cases hm

theorem draws_stated (hg : ∀ m ∈ g.marks, m.Stated t) : ∀ m ∈ d.marks, m.Stated t := by
  intro m hm
  refine (hd.states m hm).elim (fun hm => ?_) id
  rw [marks_start_blank hw hroot] at hm
  rcases List.mem_append.mp hm with hm | hm
  · exact hg m hm
  · cases List.mem_singleton.mp hm
    exact .inl hroot

theorem draws_tested (hg : g.TestsEntered) {j : NodeId} (hj : .test j ∈ d.marks) :
    .enter j ∈ d.marks := by
  have htests : Draft.Tests (· = i) ((blank g).start i) d := hd.tests hw (.inr .self)
  have hstart := marks_start_blank (g := g) hw hroot
  rcases htests.entered hj with hj | hj | rfl
  · refine htests.subset ?_
    rw [hstart] at hj ⊢
    rcases List.mem_append.mp hj with hj | hj
    · exact List.mem_append_left _ (hg j hj)
    · cases List.mem_singleton.mp hj
  · exact hj
  · refine htests.subset ?_
    rw [hstart]
    exact List.mem_append_right _ (List.mem_singleton_self _)

/-- The drawing and its jumps to labels grow behind the entry, so that no edge leads to it. -/
theorem draws_grows : Grows t (g.points.size + 1) ((blank g).start i)
    (joinLabels t d.gotos.reverse d) ∧
    d.listed.toList.head? = some g.points.size := by
  have hsize := size_start_blank (g := g) hw hroot
  have hlabels : ((blank g).start i).labels = [] := by rw [start_blank hw hroot]; rfl
  have hgotos : ((blank g).start i).gotos = [] := by rw [start_blank hw hroot]; rfl
  have hdrew := hd.drew (b := g.points.size + 1)
    ⟨Nat.le_of_eq hsize.symm, ⟨hasFrom_none, hasFrom_none⟩, has_some (hsize ▸ Nat.lt_succ_self _)⟩
  have hlabels (x : String × PointId) (hx : x ∈ d.labels) : Labelled t (g.points.size + 1) d x :=
    (hdrew.labels.cases_mem hx).resolve_right (by simp [hlabels])
  have hgotos (p : PointId) (hp : p ∈ d.gotos.reverse) : p < d.size :=
    (hdrew.gotos.cases_mem (List.mem_reverse.mp hp)).resolve_right (by simp [hgotos])
  refine ⟨hdrew.toGrows.trans (grows_joinLabels hgotos fun x hx => (hlabels x hx).1), ?_⟩
  obtain ⟨new, hnew, -⟩ := hdrew.exists_listed
  rw [hnew, start_blank hw hroot]
  rfl

end

theorem eq_of_new_marks {M : List Mark}
    (hnew : (List.range' g.points.size (g'.points.size - g.points.size)).flatMap
      (fun p => (g'.point p).marks) = M)
      (hn : M.Nodup) {p q : Nat} {m : Mark} (hp : g.points.size ≤ p) (hp' : p < g'.points.size)
      (hq : g.points.size ≤ q) (hq' : q < g'.points.size) (hm : m ∈ (g'.point p).marks)
      (hm' : m ∈ (g'.point q).marks) : p = q := by
  have hmem {p : Nat} (hp : g.points.size ≤ p) (hp' : p < g'.points.size) :
      p ∈ List.range' g.points.size (g'.points.size - g.points.size) := by
    rw [List.mem_range'_1]
    omega
  exact eq_of_nodup_flatMap (hnew ▸ hn) (hmem hp hp') (hmem hq hq') hm hm'

theorem mem_new_marks {M : List Mark}
    (hnew : (List.range' g.points.size (g'.points.size - g.points.size)).flatMap
      (fun p => (g'.point p).marks) = M) {p : Nat} {m : Mark} (hp : g.points.size ≤ p)
      (hp' : p < g'.points.size) (hm : m ∈ (g'.point p).marks) : m ∈ M := by
  refine hnew ▸ List.mem_flatMap.mpr ⟨p, ?_, hm⟩
  rw [List.mem_range'_1]
  omega

theorem draw_gains (hw : t.WellFormed) (hg : g.Adjacent) (h : g.draw t i s = .ok (order, g')) :
    g.Gains t i order g' := by
  obtain ⟨hroot, a, d, hd, rfl, rfl⟩ := draw_eq_ok hw h
  have hstart := start_blank (g := g) hw hroot
  have hsize := size_start_blank (g := g) hw hroot
  have hext : g.Extends ((blank g).start i).graph := hstart ▸ Graph.extends_addPoint
  have hedges : ((blank g).start i).graph.edges.size = g.edges.size := hstart ▸ rfl
  obtain ⟨hgrows, hhead⟩ := draws_grows hw hroot hd
  obtain ⟨M, hM, hnodup, hin⟩ := draws_marks hw hroot hd
  have hlisted : Lists (blank g) d := lists_start.trans hd.lists
  have hmarks : (joinLabels t d.gotos.reverse d).marks = d.marks := marks_joinLabels
  have hlist : (joinLabels t d.gotos.reverse d).listed = d.listed := listed_joinLabels
  have hsize' : (joinLabels t d.gotos.reverse d).size = d.size := size_joinLabels
  generalize joinLabels t d.gotos.reverse d = d' at hgrows hmarks hlist hsize' h
  have hmark : d'.graph.Extends (markFrom t d'.graph g.edges.size) := extends_markFrom
  have hlt : g.points.size < ((blank g).start i).size := hsize ▸ Nat.lt_succ_self _
  have hpoints : (markFrom t d'.graph g.edges.size).points.size = d'.size := size_markFrom
  have hrest := hgrows.graph.trans hmark
  have hentry : ((markFrom t d'.graph g.edges.size).point g.points.size).place =
      ⟨.null, i, .start⟩ := by
    rw [hrest.place hlt, hstart]
    exact place_addPoint
  generalize hF : markFrom t d'.graph g.edges.size = F at h hmark hpoints hrest hentry
  have hlt' : g.points.size < F.points.size := Nat.lt_of_lt_of_le hlt hrest.size_le
  have hmarks : F.marks = d.marks := hF ▸ marks_markFrom.trans hmarks
  have hnew :
      (List.range' g.points.size (F.points.size - g.points.size)).flatMap
      (fun p => (F.point p).marks) =
        .enter i :: M := by
    have hall := marks_of_extends (hext.trans hrest)
    rw [hmarks, hM] at hall
    exact (List.append_cancel_left hall).symm
  have hnodup : (Mark.enter i :: M).Nodup :=
    List.nodup_cons.mpr ⟨fun hm => (hin _ hm).2 rfl, hnodup⟩
  have henter : .enter i ∈ (F.point g.points.size).marks := by
    rw [marks_congr (y := ⟨.null, i, .start, [], []⟩) hentry]
    exact List.mem_cons_self
  constructor
  case extends_ => exact hext.trans hrest
  case adjacent =>
    have hadj : ((blank g).start i).graph.Adjacent := hstart ▸ hg.addPoint
    exact hF ▸ markFrom_keeps (fun _ _ _ h => h.leaving) (hgrows.adjacent hadj)
  case lt_size => exact hlt'
  case entry => exact hentry
  case isStatement => exact hroot
  case listed =>
    intro p
    have htimes := hlisted.times p
    have hnone : (blank g).timesListed p = 0 := rfl
    rw [hnone, Nat.zero_add] at htimes
    rw [hlist, hpoints, hsize']
    exact htimes
  case inside =>
    intro p m hp hp' hm
    rcases List.mem_cons.mp (mem_new_marks hnew hp hp' hm) with rfl | hm'
    · exact ⟨.self, fun _ => eq_of_new_marks hnew hnodup hp hp' (Nat.le_refl _) hlt' hm henter⟩
    · exact ⟨(hin _ hm').1, fun he => absurd he (hin _ hm').2⟩
  case once =>
    intro p q m hp hp' hq hq' hm hm'
    exact eq_of_new_marks hnew hnodup hp hp' hq hq' hm hm'
  case stated =>
    intro hstated
    rw [hmarks]
    exact draws_stated hw hroot hd hstated
  case tested =>
    intro htested j hj
    rw [hmarks] at hj ⊢
    exact draws_tested hw hroot hd htested hj
  case behind =>
    intro e he he'
    have hsize : F.edges.size = d'.graph.edges.size := hF ▸ edges_size_markFrom
    rw [hsize] at he'
    rw [hmark.target_eq he']
    exact hgrows.behind (hedges ▸ he) he'
  case first =>
    rw [hlist]
    exact hhead

end TreeScribe.Flow
