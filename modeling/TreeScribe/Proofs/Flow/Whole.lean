import TreeScribe.Proofs.Flow.Finished

namespace TreeScribe.Flow

open TreeScribe.Tree Draft

namespace Draft

def joinLabels (t : Tree) : List PointId → Draft → Draft
  | [], d => d
  | p :: rest, d => joinLabels t rest
      (d.joinIf (some p) (d.labels.lookup (t.name (d.graph.point p).next)) .jump)

def blank (g : Graph) : Draft := ⟨g, #[], [], [], [], .every drawInterval⟩

variable {t : Tree} {b : Nat} {d d' : Draft} {c : Plan} {p : PointId} {target : Option PointId}

theorem run_joinGotos {u : Unit} {gotos : List PointId}
    (h : (joinGotos t gotos).run d = .ok (u, d')) : d' = joinLabels t gotos d := by
  induction gotos generalizing d with
  | nil => exact (Drawing.run_pure_eq_ok.mp h).2
  | cons p rest ih =>
      simp only [joinGotos, Drawing.run_bind_eq_ok, Drawing.run_get_eq_ok, Drawing.run_joinIf_eq_ok]
        at h
      obtain ⟨_, _, ⟨rfl, rfl⟩, _, _, rfl, h⟩ := h
      exact ih h

theorem labels_joinIf {source : Option PointId} {kind : EdgeKind} :
    (d.joinIf source target kind).labels = d.labels := by
  unfold joinIf
  split <;> rfl

theorem mem_of_lookup {labels : List (String × PointId)} {name : String}
    (h : labels.lookup name = some p) : (name, p) ∈ labels := by
  obtain ⟨l₁, l₂, rfl, -⟩ := List.lookup_eq_some_iff.mp h
  exact List.mem_append_right _ List.mem_cons_self

theorem hasFrom_label (hl : ∀ x ∈ d.labels, b ≤ x.2 ∧ x.2 < d.size) (name : String) :
    d.HasFrom b (d.labels.lookup name) := by
  intro p hp
  exact hl (name, p) (mem_of_lookup hp)

theorem grows_joinLabels {gotos : List PointId} (hg : ∀ p ∈ gotos, p < d.size)
    (hl : ∀ x ∈ d.labels, b ≤ x.2 ∧ x.2 < d.size) : Grows t b d (joinLabels t gotos d) := by
  induction gotos generalizing d with
  | nil => exact .refl d
  | cons p rest ih =>
      refine (grows_joinIf (has_some (hg p List.mem_cons_self)) (hasFrom_label hl _)).trans
        (ih ?_ ?_)
      · intro q hq
        rw [size_joinIf]
        exact hg q (List.mem_cons_of_mem _ hq)
      · rw [labels_joinIf, size_joinIf]
        exact hl

theorem joined_joinLabels {F : Graph} {gotos : List PointId} (hg : ∀ p ∈ gotos, p < d.size)
    (hF : (joinLabels t gotos d).graph.Extends F) (hl : ∀ x ∈ d.labels, x.2 < d.size) {x : PointId}
    (hp : p ∈ gotos) (hx : d.labels.lookup (t.name (F.point p).next) = some x) : F.Joined p x := by
  induction gotos generalizing d with
  | nil => cases hp
  | cons q rest ih =>
      have hg' : ∀ p ∈ rest, p <
          (d.joinIf (some q) (d.labels.lookup (t.name (d.graph.point q).next)) .jump).size := by
        intro p hp
        rw [size_joinIf]
        exact hg p (List.mem_cons_of_mem _ hp)
      have hl' :
          ∀ x ∈ (d.joinIf (some q) (d.labels.lookup (t.name (d.graph.point q).next)) .jump).labels,
            x.2 < (d.joinIf (some q)
              (d.labels.lookup (t.name (d.graph.point q).next)) .jump).size := by
        rw [labels_joinIf, size_joinIf]
        exact hl
      rcases List.mem_cons.mp hp with rfl | hp
      · have hlt := hg p List.mem_cons_self
        have hgrows :
            Grows t 0 (d.joinIf (some p) (d.labels.lookup (t.name (d.graph.point p).next)) .jump)
              (joinLabels t rest
                (d.joinIf (some p) (d.labels.lookup (t.name (d.graph.point p).next)) .jump)) :=
          grows_joinLabels hg' fun x hx => ⟨Nat.zero_le _, hl' x hx⟩
        have hext := hgrows.graph.trans hF
        have hfirst : Grows t 0 d
            (d.joinIf (some p) (d.labels.lookup (t.name (d.graph.point p).next)) .jump) :=
          grows_joinIf (has_some hlt) (hasFrom_label (fun x hx => ⟨Nat.zero_le _, hl x hx⟩) _)
        rw [(hfirst.graph.trans hext).next_eq hlt] at hx
        rw [hx] at hext
        exact hext.joined hlt
      · exact ih hg' hF hl' hp (by rwa [labels_joinIf])

end Draft

section

variable {t : Tree} {root i j : NodeId} {s : Setting} {g g' : Graph} {order : List PointId}
  {p q : PointId}

/-- A property that what an edge leaves does not matter for. -/
theorem markFrom_keeps {P : Graph → Prop} (hP : ∀ g e tries, P g → P (g.leaving e tries))
    {first : EdgeId} (h : P g) : P (markFrom t g first) := by
  unfold markFrom
  generalize (List.range g.edges.size).drop first = edges
  induction edges generalizing g with
  | nil => exact h
  | cons e rest ih =>
      refine ih ?_
      unfold markLeaves
      split
      · exact hP _ _ _ h
      · exact h

theorem extends_markFrom {first : EdgeId} : g.Extends (markFrom t g first) :=
  markFrom_keeps (fun _ _ _ h => h.trans Graph.extends_leaving) (.refl g)

theorem size_markFrom {first : EdgeId} : (markFrom t g first).points.size = g.points.size :=
  markFrom_keeps (P := fun g' => g'.points.size = g.points.size) (fun _ _ _ h => h) rfl

theorem draw_eq_ok (hw : t.WellFormed) (h : g.draw t root s = .ok (order, g')) :
    (t.kind root).isStatement = true ∧
    ∃ a d, Draws (.bare t root s) (.node ⟨none, none⟩ root (some g.points.size))
    ((blank g).start root) a d ∧
      order = (joinLabels t d.gotos.reverse d).listed.toList ∧
      g' = markFrom t (joinLabels t d.gotos.reverse d).graph g.edges.size := by
  cases hroot : (t.kind root).isStatement with
  | false =>
      simp only [Graph.draw, hroot] at h
      cases h
  | true =>
      refine ⟨rfl, ?_⟩
      have hlt := lt_size_of_isStatement hroot
      simp only [Graph.draw, hroot, Bool.not_true, Bool.false_eq_true, if_false] at h
      generalize hrun : StateT.run _ _ = x at h
      cases x with
      | error e => cases h
      | ok x =>
          obtain ⟨u, d'⟩ := x
          cases h
          simp only [Drawing.run_bind_eq_ok, Drawing.run_startPoint_eq_ok, Drawing.run_get_eq_ok]
            at hrun
          obtain ⟨_, _, ⟨rfl, rfl⟩, a, d, hd, _, _, ⟨hg, hg'⟩, hj⟩ := hrun
          have hfirst : (blank g).startOf root = some g.points.size :=
            if_neg (hw.ne_null_of_isStatement hroot)
          have hd := drawable_within hw hlt (Nat.le_add_right _ _) _ _ _ _ _ hd
          rw [hg, hg'] at hj
          cases run_joinGotos hj
          exact ⟨a, d, hfirst ▸ hd, rfl, rfl⟩

theorem eq_of_mem_flatMap {α β : Type} {l : List α} {f : α → List β} {a b : Nat} {m : β}
    (h : (l.flatMap f).Nodup) (ha : a < l.length) (hb : b < l.length) (hma : m ∈ f l[a])
    (hmb : m ∈ f l[b]) : a = b := by
  have hd := List.pairwise_iff_getElem.mp (List.nodup_flatMap.mp h).2
  rcases Nat.lt_trichotomy a b with hab | hab | hab
  · exact absurd hmb (hd a b ha hb hab hma)
  · exact hab
  · exact absurd hma (hd b a hb ha hab hmb)

theorem mem_marks_of_leaves {x : Point} (h : x.place.Leaves i) : .leave i ∈ x.marks := by
  obtain ⟨hi, hk⟩ := h
  change x.previous = i at hi
  change x.kind = .between ∨ x.kind = .stop at hk
  rw [Point.marks, ← hi]
  rcases hk with hk | hk <;> simp [hk]

theorem leave_mem_marks (hp : p < g.points.size) (h : (g.point p).place.Leaves i) :
    .leave i ∈ g.marks := by
  refine List.mem_flatMap.mpr ⟨g.point p, ?_, mem_marks_of_leaves h⟩
  rw [Graph.point, Array.getD_eq_getD_getElem?, Array.getElem?_eq_getElem hp]
  exact Array.getElem_mem_toList hp

theorem eq_of_leaves (hg : g.marks.Nodup) (hp : p < g.points.size) (hq : q < g.points.size)
    (hpi : (g.point p).place.Leaves i) (hqi : (g.point q).place.Leaves i) : p = q := by
  have hpoint {p : PointId} (hp : p < g.points.size) : g.point p = g.points.toList[p] := by
    rw [Graph.point, Array.getD_eq_getD_getElem?, Array.getElem?_eq_getElem hp]
    rfl
  have hpi := mem_marks_of_leaves hpi
  have hqi := mem_marks_of_leaves hqi
  rw [hpoint hp] at hpi
  rw [hpoint hq] at hqi
  exact eq_of_mem_flatMap hg hp hq hpi hqi

end

section

variable {t : Tree} {root i : NodeId} {s : Setting} {g : Graph} {d : Draft} {a : Option PointId}
  {p : PointId}

/-- Only what is inside the root is marked, and each mark is made once. -/
theorem marks_of_root (hprog : t.Program root)
    (h : Draws (.bare t root s) (.node ⟨none, none⟩ root p) ((blank .empty).start root) a d) :
    d.marks.Nodup ∧ ∀ m ∈ d.marks, t.Inside root m.node := by
  have hw := hprog.wellFormed
  obtain ⟨M, hM, hclean, -⟩ := h.marked hw
  have hahead : ahead (.bare t root s) root = [] := if_pos (if_pos rfl)
  have hin {m : Mark} (hm : m ∈ M) : t.Inside root m.node ∧ m ≠ .enter root := by
    refine (hclean.mem hm).resolve_left fun hm => ?_
    rw [hahead] at hm
    cases hm
  rw [hM, marks_start, if_neg (hw.ne_null_of_isStatement hprog.root_isStatement)]
  refine ⟨List.nodup_cons.mpr ⟨fun hm => (hin hm).2 rfl, hclean.nodup⟩, fun m hm => ?_⟩
  rcases List.mem_cons.mp hm with rfl | hm
  · exact .self
  · exact (hin hm).1

theorem lookup_of_label (hprog : t.Program root)
    (h : Draws (.bare t root s) (.node ⟨none, none⟩ root p) ((blank .empty).start root) a d)
    (hl : ∀ x ∈ d.labels, Labelled t 0 d x) {n : String} {x : PointId} (hx : (n, x) ∈ d.labels) :
    d.labels.lookup n = some x := by
  obtain ⟨hnodup, hin⟩ := marks_of_root hprog h
  have hin {i : NodeId} {y : PointId} (hy : y < d.size) (hi : (d.graph.point y).place.Leaves i) :
      t.Inside root i :=
    hin _ (leave_mem_marks hy hi)
  cases hlookup : d.labels.lookup n with
  | none =>
      have hne := List.lookup_eq_none_iff.mp hlookup _ hx
      simp at hne
  | some y =>
      obtain ⟨⟨-, hx⟩, i, hki, hni, hi⟩ := hl _ hx
      obtain ⟨⟨-, hy⟩, j, hkj, hnj, hj⟩ := hl _ (mem_of_lookup hlookup)
      cases hprog.label_eq (hin hx hi) (hin hy hj) hki hkj (hni.trans hnj.symm)
      exact congrArg some (eq_of_leaves hnodup hy hx hj hi)

/-- The graph of a statement has it between its entry and its end. -/
theorem ofStatement_drawn (hprog : t.Program root) (h : Graph.ofStatement t root s = .ok g) :
    ∃ L p q, g.entry = some p ∧ p < g.points.size ∧ Drawn (.bare t root s) g L .none root p q ∧
      (∀ n x, (n, x) ∈ L → L.lookup n = some x) ∧ ∀ p q, g.Joined p q → q < g.points.size := by
  have hw := hprog.wellFormed
  have hne := hw.ne_null_of_isStatement hprog.root_isStatement
  unfold Graph.ofStatement at h
  generalize hx : Graph.empty.draw t root s = x at h
  cases x with
  | error e => cases h
  | ok x =>
      obtain ⟨order, g'⟩ := x
      cases h
      obtain ⟨-, a, d, hd, rfl, rfl⟩ := draw_eq_ok hw hx
      generalize hd₀ : (blank .empty).start root = d₀ at hd
      have hstart : Grows t 0 (blank .empty) d₀ := hd₀ ▸ grows_start (Nat.zero_le _)
      have hfirst : (blank .empty).startOf root = some 0 := if_neg hne
      have hready : d₀.Has (some 0) := hfirst ▸ hd₀ ▸ has_startOf
      have hbegins : (Task.node ⟨none, none⟩ root (some 0)).Begins 0 d₀ :=
        ⟨Nat.zero_le _, ⟨hasFrom_none, hasFrom_none⟩, hready⟩
      have hdrew := hd.drew hbegins
      have hgrows := hstart.trans hdrew.toGrows
      have hlabels (x : String × PointId) (hx : x ∈ d.labels) : Labelled t 0 d x :=
        (hgrows.labels.cases_mem hx).resolve_right (by simp [blank])
      have hgotos (p : PointId) (hp : p ∈ d.gotos.reverse) : p < d.size :=
        (hgrows.gotos.cases_mem (List.mem_reverse.mp hp)).resolve_right (by simp [blank])
      have hjoin : Grows t 0 d (joinLabels t d.gotos.reverse d) :=
        grows_joinLabels hgotos fun x hx => (hlabels x hx).1
      generalize hF :
        ({ markFrom t (joinLabels t d.gotos.reverse d).graph Graph.empty.edges.size with
        order := (joinLabels t d.gotos.reverse d).listed.toList } : Graph) = F
      have hext : (joinLabels t d.gotos.reverse d).graph.Extends F := by
        rw [← hF]
        have hmark : (joinLabels t d.gotos.reverse d).graph.Extends
            (markFrom t (joinLabels t d.gotos.reverse d).graph Graph.empty.edges.size) :=
              extends_markFrom
        exact ⟨hmark.size_le, hmark.place, hmark.outgoing, hmark.edges_le, hmark.ends⟩
      have hsettled : Settled (.bare t root s) F d.labels Exits.none.onCase d := by
        refine ⟨hjoin.graph.trans hext, List.suffix_rfl, fun hp x hx => ?_,
          fun _ _ _ hf => nomatch hf⟩
        exact joined_joinLabels hgotos hext (fun x hx => (hlabels x hx).1.2)
          (List.mem_reverse.mpr hp) hx
      have hs₀ : Settled (.bare t root s) F d.labels Exits.none.onCase
        ((blank .empty).start root) :=
        hd₀ ▸ hsettled.of_grows hdrew.toGrows
      obtain ⟨-, hnext⟩ := hs₀.of_start hne
      obtain ⟨q, rfl, hq, -⟩ := hd.shows hprog rfl hbegins hsettled
        ⟨.self, hprog.root_isStatement, nofun⟩ 0 rfl hnext
      have hadjacent : F.Adjacent := by
        have hmark :
            (markFrom t (joinLabels t d.gotos.reverse d).graph Graph.empty.edges.size).Adjacent :=
          markFrom_keeps (fun _ _ _ h => h.leaving) (hjoin.adjacent (hgrows.adjacent .empty))
        rw [← hF]
        exact ⟨hmark.outgoing, hmark.incoming, hmark.source_lt, hmark.target_lt⟩
      refine ⟨d.labels, 0, q, ?_, ?_, hq, fun n x hx => ?_, ?_⟩
      · have hlisted : d₀.listed[0]? = some 0 := by
          rw [← hd₀, start, if_neg hne]
          rfl
        rw [← hF, Graph.entry, List.head?_eq_getElem?, Array.getElem?_toList]
        exact hjoin.listed_mono (hdrew.listed_mono hlisted)
      · exact Nat.lt_of_lt_of_le (hready 0 rfl)
          (Nat.le_trans hdrew.size_le (hjoin.graph.trans hext).size_le)
      · exact lookup_of_label hprog (hd₀ ▸ hd) hlabels hx
      · rintro p q ⟨e, he, rfl⟩
        exact hadjacent.target_lt (hadjacent.outgoing.mp he).1

end

end TreeScribe.Flow
