import TreeScribe.Proofs.Flow.Assignment.Spliced

namespace TreeScribe.Flow

open TreeScribe.Tree

structure Graph.Laid (t : Tree) (root : NodeId) (order : List PointId) (g : Graph) : Prop where
  adjacent : g.Adjacent
  count (p : Nat) : order.count p = if p < g.points.size then 1 else 0
  head : order.head? = some 0
  entry : (g.point 0).place = ⟨.null, root, .start⟩
  below {p : Nat} {m : Mark} (hp : p < g.points.size) (hm : m ∈ (g.point p).marks) :
    t.Below root m.node
  once {p q : Nat} {m : Mark} (hp : p < g.points.size) (hq : q < g.points.size)
    (hm : m ∈ (g.point p).marks) (hm' : m ∈ (g.point q).marks) : p = q
  stated {p : Nat} {m : Mark} (hp : p < g.points.size) (hm : m ∈ (g.point p).marks) : m.Stated t
  tested {p : Nat} {i : NodeId} (hp : p < g.points.size) (hm : .test i ∈ (g.point p).marks) :
    g.Enters i
  behind {e : EdgeId} (he : e < g.edges.size) : 0 < (g.edge e).target
  unentered {p : Nat} {b : NodeId} (hp : p < g.points.size) (hb : t.IsBody b)
    (hm : .enter b ∈ (g.point p).marks) {e : EdgeId} (he : e < g.edges.size) : (g.edge e).target ≠ p
  filled {p : Nat} {b : NodeId} (hp : p < g.points.size) (hb : b ∈ bodiesAt t (g.point p)) :
    g.Enters b

variable {t : Tree} {root : NodeId} {s : Setting} {g g' : Graph} {order order' : List PointId}
  {fuel : Nat}

theorem Splices.head (h : Splices t s fuel order g order' g') : order'.head? = order.head? := by
  cases h <;> rfl

theorem ofNested_eq_ok (h : Graph.ofNested t root s = .ok g) :
    ∃ first g₁ g₂, Graph.empty.draw t root s = .ok (first, g₁) ∧
    Splices t s t.size first g₁ g.order g₂ ∧ g = { g₂ with order := g.order } := by
  simp only [Graph.ofNested, except_bind_eq_ok, Prod.exists] at h
  obtain ⟨first, g₁, hd, order, g₂, hs, h⟩ := h
  cases h
  exact ⟨first, g₁, g₂, hd, splices_of_run hs, rfl⟩

theorem splices_laid (hcode : t.Code root) {first : List PointId} {g₁ : Graph}
    (hd : Graph.empty.draw t root s = .ok (first, g₁)) (hs : Splices t s t.size first g₁ order g) :
    g.Laid t root order := by
  have hw := hcode.wellFormed
  have hgains := draw_gains hw .empty hd
  have hroot := hgains.expands hcode .empty .self
  have hsize : Graph.empty.points.size = 0 := rfl
  have hstated := hgains.stated fun m hm => by simp [Graph.marks, Graph.empty] at hm
  -- the root is taken for the one body that is drawn so far
  have hinside : Graph.empty.Expands t (fun i => ∃ b ∈ [root], t.Inside b i) first g₁ :=
    { hroot with region := fun hp hp' hm =>
      ⟨root, List.mem_singleton_self _, hroot.region hp hp' hm⟩ }
  have hbelow (b : NodeId) (hb : b ∈ [root]) : t.Below root b := List.mem_singleton.mp hb ▸ .self
  have hstarted {b : NodeId} (hb : b ∈ bodiesOf t g₁ first) : ∃ i, t.StartedIn root i b := by
    obtain ⟨_, _, i, _, _, r, hr, hsb⟩ := startedIn_of_mem hcode hbelow hinside hstated hb
    cases List.mem_singleton.mp hr
    exact ⟨i, hsb⟩
  have hsingle : t.Separate [root] :=
    ⟨List.nodup_singleton _, fun hb hb' hne =>
      absurd (by rw [List.mem_singleton.mp hb, List.mem_singleton.mp hb']) hne⟩
  obtain ⟨new, hperm, hnew, hfills⟩ := hs.expands hcode hgains.adjacent
    (fun p hp => (mem_of_listed hroot.listed hp).2)
    (fun b hb => by
      obtain ⟨i, hsb⟩ := hstarted hb
      exact hsb.to_below hw)
    (separate_bodiesOf hcode hbelow hinside hstated hsingle) hstated
    (fun b hb => by
      obtain ⟨i, hsb⟩ := hstarted hb
      obtain ⟨_, _, _, hstatement⟩ := hsb.isBody
      exact ⟨lt_size_of_isStatement hstatement, Nat.le_add_right _ _⟩)
  have hall : Graph.empty.Expands t (t.Below root) (first ++ new) g := by
    refine hroot.append hnew (fun i hi => hi.to_below) (fun i hi => ?_)
      fun hp hp' hq hq' hm hm' => ?_
    · obtain ⟨b, hb, hi⟩ := hi
      obtain ⟨_, hsb⟩ := hstarted hb
      exact (hsb.to_below hw).trans hi
    · obtain ⟨b, hb, hi⟩ := hnew.region hq hq' hm'
      obtain ⟨_, hsb⟩ := hstarted hb
      exact hsb.not_below_inside hcode .self (.inl rfl) (hroot.region hp hp' hm) hi
  have hcount (p : Nat) : order.count p = if p < g.points.size then 1 else 0 := by
    rw [hperm.count_eq, hall.listed]
    simp [hsize]
  refine ⟨hall.adjacent, hcount, ?_, ?_, fun hp => hall.region (Nat.zero_le _) hp, fun hp hq => ?_,
    fun hp hm => ?_,
    fun hp hm => ?_, fun {e} he => ?_,
    fun hp hb hm e he => hall.unentered (Nat.zero_le _) hp hb hm he, fun {p b} hp hb => ?_⟩
  · rw [hs.head, hgains.first]
    rfl
  · exact (hnew.extends_.place hgains.lt_size).trans hgains.entry
  · exact hall.once (Nat.zero_le _) hp (Nat.zero_le _) hq
  · exact hnew.stated hstated _ (mem_marks hp hm)
  · have hempty : Graph.empty.TestsEntered := fun j hj => by simp [Graph.marks, Graph.empty] at hj
    have hentered := hall.tested hempty _ (mem_marks hp hm)
    rw [marks_eq_flatMap] at hentered
    obtain ⟨q, hq, hm⟩ := List.mem_flatMap.mp hentered
    exact ⟨q, List.mem_range.mp hq, hm⟩
  · by_cases hlt : e < g₁.edges.size
    · rw [hnew.extends_.target_eq hlt]
      exact hgains.behind (Nat.zero_le _) hlt
    · exact Nat.lt_of_lt_of_le hgains.lt_size (hnew.behind (Nat.le_of_not_lt hlt) he)
  · refine hfills b (List.mem_flatMap.mpr ⟨p, List.count_pos_iff.mp ?_, hb⟩)
    rw [hcount, if_pos hp]
    exact Nat.one_pos

theorem ofNested_laid (hcode : t.Code root) (h : Graph.ofNested t root s = .ok g) :
    g.Laid t root g.order := by
  obtain ⟨first, g₁, g₂, hd, hs, hg⟩ := ofNested_eq_ok h
  have hlaid := splices_laid hcode hd hs
  rw [hg]
  have hadjacent := hlaid.adjacent
  exact { hlaid with
    adjacent := ⟨hadjacent.outgoing, hadjacent.incoming, hadjacent.source_lt, hadjacent.target_lt⟩
    tested := hlaid.tested
    filled := hlaid.filled }

end TreeScribe.Flow
