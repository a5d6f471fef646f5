import TreeScribe.Proofs.Flow.Draws

namespace TreeScribe.Flow

structure Place where
  previous : NodeId
  next : NodeId
  kind : PointKind

def Point.place (x : Point) : Place := ⟨x.previous, x.next, x.kind⟩

def Place.Leaves (x : Place) (i : NodeId) : Prop :=
  x.previous = i ∧ (x.kind = .between ∨ x.kind = .stop)

def Edge.ends (x : Edge) : PointId × PointId × EdgeKind := (x.source, x.target, x.kind)

namespace Graph

variable {g g' g'' : Graph} {p q : PointId} {e : EdgeId} {source target : PointId} {kind : EdgeKind}
  {previous next : NodeId} {pointKind : PointKind} {tries : List NodeId}

def Joined (g : Graph) (p q : PointId) : Prop := ∃ e ∈ (g.point p).outgoing, (g.edge e).target = q

structure Extends (g g' : Graph) : Prop where
  size_le : g.points.size ≤ g'.points.size
  place {p : PointId} (hp : p < g.points.size) : (g'.point p).place = (g.point p).place
  outgoing (p : PointId) : (g.point p).outgoing <+: (g'.point p).outgoing
  edges_le : g.edges.size ≤ g'.edges.size
  ends {e : EdgeId} (he : e < g.edges.size) : (g'.edge e).ends = (g.edge e).ends

structure Adjacent (g : Graph) : Prop where
  outgoing {p : PointId} {e : EdgeId} :
    e ∈ (g.point p).outgoing ↔ e < g.edges.size ∧ (g.edge e).source = p
  incoming {p : PointId} {e : EdgeId} :
    e ∈ (g.point p).incoming ↔ e < g.edges.size ∧ (g.edge e).target = p
  source_lt {e : EdgeId} (he : e < g.edges.size) : (g.edge e).source < g.points.size
  target_lt {e : EdgeId} (he : e < g.edges.size) : (g.edge e).target < g.points.size

@[simp] theorem size_connect : (g.connect source target kind).2.points.size = g.points.size := by
  simp [connect]

@[simp] theorem edges_size_connect :
    (g.connect source target kind).2.edges.size = g.edges.size + 1 := by
  simp [connect]

@[simp] theorem size_addPoint :
    (g.addPoint previous next pointKind).2.points.size = g.points.size + 1 := by
  simp [addPoint]

@[simp] theorem edges_size_leaving : (g.leaving e tries).edges.size = g.edges.size := by
  simp [leaving]

theorem point_of_size_le (hp : g.points.size ≤ p) : g.point p = ⟨.null, .null, .start, [], []⟩ := by
  rw [point, Array.getD_eq_getD_getElem?, Array.getElem?_eq_none hp]
  rfl

theorem point_addPoint : (g.addPoint previous next pointKind).2.point p =
    if p = g.points.size then ⟨previous, next, pointKind, [], []⟩ else g.point p := by
  simp only [addPoint, point, Array.getD_eq_getD_getElem?, Array.getElem?_push]
  split <;> rfl

theorem outgoing_addPoint :
    ((g.addPoint previous next pointKind).2.point p).outgoing = (g.point p).outgoing := by
  rw [point_addPoint]
  split
  · rw [point_of_size_le (Nat.le_of_eq (Eq.symm ‹_›))]
  · rfl

theorem incoming_addPoint :
    ((g.addPoint previous next pointKind).2.point p).incoming = (g.point p).incoming := by
  rw [point_addPoint]
  split
  · rw [point_of_size_le (Nat.le_of_eq (Eq.symm ‹_›))]
  · rfl

theorem point_connect (hp : p < g.points.size) : (g.connect source target kind).2.point p =
    { g.point p with
      outgoing := (g.point p).outgoing ++ if source = p then [g.edges.size] else []
      incoming := (g.point p).incoming ++ if target = p then [g.edges.size] else [] } := by
  simp only [connect, point, Array.getD_eq_getD_getElem?, Array.getElem?_modify]
  rw [Array.getElem?_eq_getElem hp]
  by_cases hs : source = p <;> by_cases ht : target = p <;> simp [hs, ht]

theorem place_connect : ((g.connect source target kind).2.point p).place = (g.point p).place := by
  by_cases hp : p < g.points.size
  · rw [point_connect hp]
    rfl
  · rw [point_of_size_le (Nat.le_of_not_lt hp), point_of_size_le]
    rw [size_connect]
    exact Nat.le_of_not_lt hp

theorem outgoing_connect (hs : source < g.points.size) :
    ((g.connect source target kind).2.point p).outgoing =
    (g.point p).outgoing ++ if source = p then [g.edges.size] else [] := by
  by_cases hp : p < g.points.size
  · rw [point_connect hp]
  · have hne : source ≠ p := fun h => hp (h ▸ hs)
    rw [point_of_size_le (Nat.le_of_not_lt hp), point_of_size_le, if_neg hne]
    · rfl
    · rw [size_connect]
      exact Nat.le_of_not_lt hp

theorem incoming_connect (ht : target < g.points.size) :
    ((g.connect source target kind).2.point p).incoming =
    (g.point p).incoming ++ if target = p then [g.edges.size] else [] := by
  by_cases hp : p < g.points.size
  · rw [point_connect hp]
  · have hne : target ≠ p := fun h => hp (h ▸ ht)
    rw [point_of_size_le (Nat.le_of_not_lt hp), point_of_size_le, if_neg hne]
    · rfl
    · rw [size_connect]
      exact Nat.le_of_not_lt hp

theorem edge_connect : (g.connect source target kind).2.edge e =
    if e = g.edges.size then ⟨source, target, kind, []⟩ else g.edge e := by
  simp only [connect, edge, Array.getD_eq_getD_getElem?, Array.getElem?_push]
  split <;> rfl

theorem ends_leaving {f : EdgeId} : ((g.leaving f tries).edge e).ends = (g.edge e).ends := by
  simp only [leaving, edge, Array.getD_eq_getD_getElem?, Array.getElem?_modify]
  split
  · cases g.edges[e]? <;> rfl
  · rfl

namespace Extends

theorem refl (g : Graph) : g.Extends g :=
  ⟨Nat.le_refl _, fun _ => rfl, fun _ => List.prefix_rfl, Nat.le_refl _, fun _ => rfl⟩

theorem trans (h : g.Extends g') (h' : g'.Extends g'') : g.Extends g'' where
  size_le := Nat.le_trans h.size_le h'.size_le
  place hp := (h'.place (Nat.lt_of_lt_of_le hp h.size_le)).trans (h.place hp)
  outgoing p := (h.outgoing p).trans (h'.outgoing p)
  edges_le := Nat.le_trans h.edges_le h'.edges_le
  ends he := (h'.ends (Nat.lt_of_lt_of_le he h.edges_le)).trans (h.ends he)

theorem next_eq (h : g.Extends g') (hp : p < g.points.size) :
    (g'.point p).next = (g.point p).next :=
  congrArg Place.next (h.place hp)

theorem target_eq (h : g.Extends g') (he : e < g.edges.size) :
    (g'.edge e).target = (g.edge e).target :=
  congrArg (·.2.1) (h.ends he)

end Extends

theorem extends_addPoint : g.Extends (g.addPoint previous next pointKind).2 := by
  refine ⟨by simp, fun hp => ?_, fun p => ?_, Nat.le_refl _, fun _ => rfl⟩
  · rw [point_addPoint, if_neg (Nat.ne_of_lt hp)]
  · exact ⟨[], by rw [outgoing_addPoint, List.append_nil]⟩

theorem extends_connect : g.Extends (g.connect source target kind).2 := by
  refine ⟨by simp, fun _ => place_connect, fun p => ?_, by simp, fun he => ?_⟩
  · by_cases hs : source < g.points.size
    · rw [outgoing_connect hs]
      exact List.prefix_append ..
    · by_cases hp : p < g.points.size
      · rw [point_connect hp]
        exact List.prefix_append ..
      · rw [point_of_size_le (Nat.le_of_not_lt hp)]
        exact List.nil_prefix
  · rw [edge_connect, if_neg (Nat.ne_of_lt he)]

theorem extends_leaving : g.Extends (g.leaving e tries) :=
  ⟨Nat.le_refl _, fun _ => rfl, fun _ => List.prefix_rfl, by simp, fun _ => ends_leaving⟩

theorem Extends.joined (h : (g.connect p q kind).2.Extends g') (hp : p < g.points.size) :
    g'.Joined p q := by
  refine ⟨g.edges.size, (h.outgoing p).subset ?_, ?_⟩
  · rw [outgoing_connect hp, if_pos rfl]
    exact List.mem_append_right _ List.mem_cons_self
  · rw [h.target_eq (Nat.lt_of_lt_of_eq (Nat.lt_succ_self _) edges_size_connect.symm), edge_connect,
      if_pos rfl]

namespace Adjacent

theorem empty : Graph.empty.Adjacent := by
  refine ⟨?_, ?_, ?_, ?_⟩ <;> simp [Graph.empty, point, edge]

theorem addPoint (h : g.Adjacent) : (g.addPoint previous next pointKind).2.Adjacent where
  outgoing := by
    intro p e
    rw [outgoing_addPoint]
    exact h.outgoing
  incoming := by
    intro p e
    rw [incoming_addPoint]
    exact h.incoming
  source_lt he := by
    rw [size_addPoint]
    exact Nat.lt_succ_of_lt (h.source_lt he)
  target_lt he := by
    rw [size_addPoint]
    exact Nat.lt_succ_of_lt (h.target_lt he)

theorem connect (h : g.Adjacent) (hs : source < g.points.size) (ht : target < g.points.size) :
    (g.connect source target kind).2.Adjacent where
  outgoing := by
    intro p e
    rw [outgoing_connect hs, edge_connect, edges_size_connect, List.mem_append, h.outgoing]
    by_cases he : e = g.edges.size
    · by_cases hp : source = p <;> simp [he, hp]
    · have hlt : e < g.edges.size + 1 ↔ e < g.edges.size := by
        rw [Nat.lt_succ_iff, Nat.le_iff_lt_or_eq]
        exact or_iff_left he
      by_cases hp : source = p <;> simp [he, hp, hlt]
  incoming := by
    intro p e
    rw [incoming_connect ht, edge_connect, edges_size_connect, List.mem_append, h.incoming]
    by_cases he : e = g.edges.size
    · by_cases hp : target = p <;> simp [he, hp]
    · have hlt : e < g.edges.size + 1 ↔ e < g.edges.size := by
        rw [Nat.lt_succ_iff, Nat.le_iff_lt_or_eq]
        exact or_iff_left he
      by_cases hp : target = p <;> simp [he, hp, hlt]
  source_lt := by
    intro e he
    rw [edges_size_connect] at he
    rw [edge_connect, size_connect]
    split
    · exact hs
    · exact h.source_lt (Nat.lt_of_le_of_ne (Nat.le_of_lt_succ he) ‹_›)
  target_lt := by
    intro e he
    rw [edges_size_connect] at he
    rw [edge_connect, size_connect]
    split
    · exact ht
    · exact h.target_lt (Nat.lt_of_le_of_ne (Nat.le_of_lt_succ he) ‹_›)

theorem leaving (h : g.Adjacent) {f : EdgeId} : (g.leaving f tries).Adjacent := by
  have hs {e : EdgeId} : ((g.leaving f tries).edge e).source = (g.edge e).source :=
    congrArg (·.1) ends_leaving
  have ht {e : EdgeId} : ((g.leaving f tries).edge e).target = (g.edge e).target :=
    congrArg (·.2.1) ends_leaving
  constructor
  · intro p e
    rw [edges_size_leaving, hs]
    exact h.outgoing
  · intro p e
    rw [edges_size_leaving, ht]
    exact h.incoming
  · intro e he
    rw [edges_size_leaving] at he
    rw [hs]
    exact h.source_lt he
  · intro e he
    rw [edges_size_leaving] at he
    rw [ht]
    exact h.target_lt he

end Adjacent

end Graph

/-- `l'` is `l` with more in front, all of which `P` holds for. -/
def Added {α : Type} (P : α → Prop) (l l' : List α) : Prop := ∃ new, l' = new ++ l ∧ ∀ x ∈ new, P x

namespace Added

variable {α : Type} {P Q : α → Prop} {l l' l'' : List α}

theorem refl (l : List α) : Added P l l := ⟨[], rfl, by simp⟩

theorem trans (h : Added P l l') (h' : Added Q l' l'') (hPQ : ∀ x, P x → Q x) : Added Q l l'' := by
  obtain ⟨new, rfl, hn⟩ := h
  obtain ⟨new', rfl, hn'⟩ := h'
  refine ⟨new' ++ new, (List.append_assoc ..).symm, fun x hx => ?_⟩
  rcases List.mem_append.mp hx with hx | hx
  · exact hn' x hx
  · exact hPQ x (hn x hx)

theorem cons {a : α} (ha : P a) : Added P l (a :: l) := ⟨[a], rfl, by simpa using ha⟩

theorem cases_mem (h : Added P l l') {x : α} (hx : x ∈ l') : P x ∨ x ∈ l := by
  obtain ⟨new, rfl, hn⟩ := h
  exact (List.mem_append.mp hx).imp_left (hn x)

theorem suffix (h : Added P l l') : l <:+ l' := by
  obtain ⟨new, rfl, -⟩ := h
  exact List.suffix_append ..

end Added

namespace Draft

variable {t : Tree} {b : Nat} {d d' d'' : Draft} {c : Plan} {i : NodeId} {p : PointId}
  {source target : Option PointId}
  {kind : EdgeKind}

def Has (d : Draft) (o : Option PointId) : Prop := ∀ p ∈ o, p < d.size

def HasFrom (b : Nat) (d : Draft) (o : Option PointId) : Prop := ∀ p ∈ o, b ≤ p ∧ p < d.size

theorem has_some (hp : p < d.size) : d.Has (some p) := by
  rintro _ ⟨⟩
  exact hp

theorem hasFrom_some (hb : b ≤ p) (hp : p < d.size) : d.HasFrom b (some p) := by
  rintro _ ⟨⟩
  exact ⟨hb, hp⟩

theorem has_none : d.Has none := fun _ hp => nomatch hp

theorem hasFrom_none : d.HasFrom b none := fun _ hp => nomatch hp

theorem Has.mono (h : d.Has source) (hd : d.size ≤ d'.size) : d'.Has source :=
  fun p hp => Nat.lt_of_lt_of_le (h p hp) hd

theorem HasFrom.mono (h : d.HasFrom b source) (hd : d.size ≤ d'.size) : d'.HasFrom b source :=
  fun p hp => ⟨(h p hp).1, Nat.lt_of_lt_of_le (h p hp).2 hd⟩

def Labelled (t : Tree) (b : Nat) (d : Draft) (x : String × PointId) : Prop :=
  (b ≤ x.2 ∧ x.2 < d.size) ∧
    ∃ i, t.kind i = .statement .label ∧ t.name i = x.1 ∧ (d.graph.point x.2).place.Leaves i

theorem Labelled.mono {x : String × PointId} (h : Labelled t b d x)
    (hd : d.graph.Extends d'.graph) : Labelled t b d' x := by
  obtain ⟨⟨hb, hx⟩, i, hk, hn, hl⟩ := h
  refine ⟨⟨hb, Nat.lt_of_lt_of_le hx hd.size_le⟩, i, hk, hn, ?_⟩
  rwa [hd.place hx]

structure Evolves (t : Tree) (b : Nat) (d d' : Draft) : Prop where
  graph : d.graph.Extends d'.graph
  listed : Added (fun p => b ≤ p ∧ p < d'.size) d.listed.toList.reverse d'.listed.toList.reverse
  labels : Added (Labelled t b d') d.labels d'.labels
  gotos : Added (· < d'.size) d.gotos d'.gotos
  behind {e : EdgeId} (he : d.graph.edges.size ≤ e) (he' : e < d'.graph.edges.size) :
    b ≤ (d'.graph.edge e).target
  adjacent : d.graph.Adjacent → d'.graph.Adjacent

structure Grows (t : Tree) (b : Nat) (d d' : Draft) : Prop extends Evolves t b d d' where
  caseJumps : Added (· < d'.size) d.caseJumps d'.caseJumps

namespace Evolves

theorem size_le (h : Evolves t b d d') : d.size ≤ d'.size := h.graph.size_le

theorem refl (d : Draft) : Evolves t b d d :=
  ⟨.refl _, .refl _, .refl _, .refl _, fun he he' => absurd he' (Nat.not_lt.mpr he), id⟩

theorem trans (h : Evolves t b d d') (h' : Evolves t b d' d'') : Evolves t b d d'' where
  graph := h.graph.trans h'.graph
  listed := h.listed.trans h'.listed fun _ hp => ⟨hp.1, Nat.lt_of_lt_of_le hp.2 h'.size_le⟩
  labels := h.labels.trans h'.labels fun _ hx => hx.mono h'.graph
  gotos := h.gotos.trans h'.gotos fun _ hp => Nat.lt_of_lt_of_le hp h'.size_le
  behind := by
    intro e he he'
    by_cases hd : e < d'.graph.edges.size
    · rw [h'.graph.target_eq hd]
      exact h.behind he hd
    · exact h'.behind (Nat.le_of_not_lt hd) he'
  adjacent := h'.adjacent ∘ h.adjacent

theorem of_graph_eq (hg : d'.graph = d.graph)
    (listed : Added (fun p => b ≤ p ∧ p < d'.size) d.listed.toList.reverse d'.listed.toList.reverse)
    (labels : Added (Labelled t b d') d.labels d'.labels)
    (gotos : Added (· < d'.size) d.gotos d'.gotos) : Evolves t b d d' := by
  refine ⟨?_, listed, labels, gotos, fun he he' => ?_, fun h => ?_⟩
  · rw [hg]
    exact .refl _
  · rw [hg] at he'
    exact absurd he' (Nat.not_lt.mpr he)
  · rwa [hg]

end Evolves

namespace Grows

theorem refl (d : Draft) : Grows t b d d := ⟨.refl d, .refl _⟩

theorem trans (h : Grows t b d d') (h' : Grows t b d' d'') : Grows t b d d'' :=
  ⟨h.toEvolves.trans h'.toEvolves,
      h.caseJumps.trans h'.caseJumps fun _ hp => Nat.lt_of_lt_of_le hp h'.size_le⟩

theorem has (h : Grows t b d d') (hs : d.Has source) : d'.Has source := hs.mono h.size_le

theorem hasFrom (h : Grows t b d d') (hs : d.HasFrom b source) : d'.HasFrom b source :=
  hs.mono h.size_le

end Grows

theorem grows_addPoint {previous next : NodeId} {kind : PointKind} :
    Grows t b d (d.addPoint previous next kind) :=
  ⟨⟨Graph.extends_addPoint, .refl _, .refl _, .refl _, fun he he' => absurd he' (Nat.not_lt.mpr he),
    Graph.Adjacent.addPoint⟩, .refl _⟩

theorem grows_stop : Grows t b d (d.stop c i) := grows_addPoint

theorem grows_test : Grows t b d (d.test i) := grows_addPoint

theorem place_addPoint {previous next : NodeId} {kind : PointKind} :
    ((d.addPoint previous next kind).graph.point d.size).place = ⟨previous, next, kind⟩ := by
  rw [addPoint, Graph.point_addPoint, show d.size = d.graph.points.size from rfl, if_pos rfl]
  rfl

theorem leaves_stop : ((d.stop c i).graph.point d.size).place.Leaves i := by
  rw [stop, place_addPoint]
  refine ⟨rfl, ?_⟩
  split
  · exact .inr rfl
  · exact .inl rfl

theorem grows_join {source target : PointId} (hs : source < d.size)
    (ht : b ≤ target ∧ target < d.size) : Grows t b d (d.join source target kind) := by
  refine ⟨⟨Graph.extends_connect, .refl _, .refl _, .refl _, fun he he' => ?_,
    fun h => h.connect hs ht.2⟩, .refl _⟩
  have he' := Nat.le_of_lt_succ (Nat.lt_of_lt_of_eq he' Graph.edges_size_connect)
  rw [join, Graph.edge_connect, if_pos (Nat.le_antisymm he' he)]
  exact ht.1

theorem grows_joinIf (hs : d.Has source) (ht : d.HasFrom b target) :
    Grows t b d (d.joinIf source target kind) := by
  unfold joinIf
  split
  · exact grows_join (hs _ rfl) (ht _ rfl)
  · exact .refl d

theorem grows_joinWhen {isTaken : Bool} (hs : d.Has source) (ht : d.HasFrom b target) :
    Grows t b d (d.joinWhen isTaken source target kind) := by
  unfold joinWhen
  split
  · exact grows_joinIf hs ht
  · exact .refl d

theorem grows_leave {condition : Option Bool} {at_ stop : PointId} (hs : at_ < d.size)
    (ht : b ≤ stop ∧ stop < d.size) : Grows t b d (d.leave condition at_ stop) :=
  grows_joinWhen (has_some hs) (hasFrom_some ht.1 ht.2)

theorem grows_list (hp : b ≤ p ∧ p < d.size) : Grows t b d (d.list p) := by
  refine ⟨.of_graph_eq rfl ?_ (.refl _) (.refl _), .refl _⟩
  rw [list, Array.toList_push, List.reverse_append]
  exact .cons hp

theorem grows_tick : Grows t b d d.tick := ⟨.of_graph_eq rfl (.refl _) (.refl _) (.refl _), .refl _⟩

theorem evolves_withCaseJumps {l : List PointId} : Evolves t b d (d.withCaseJumps l) :=
  .of_graph_eq rfl (.refl _) (.refl _) (.refl _)

theorem grows_addLabel {name : String} (hp : b ≤ p ∧ p < d.size) (hk : t.kind i = .statement .label)
    (hn : t.name i = name) (hl : (d.graph.point p).place.Leaves i) :
    Grows t b d (d.addLabel name p) :=
  ⟨.of_graph_eq rfl (.refl _) (.cons ⟨hp, i, hk, hn, hl⟩) (.refl _), .refl _⟩

theorem added_source (hs : d.Has source) {l : List PointId} :
    Added (· < d.size) l (source.toList ++ l) :=
  ⟨_, rfl, fun p hp => hs p (Option.mem_toList.mp hp)⟩

theorem grows_addGoto (hs : d.Has source) : Grows t b d (d.addGoto source) :=
  ⟨.of_graph_eq rfl (.refl _) (.refl _) (added_source hs), .refl _⟩

theorem grows_addCaseJump (hs : d.Has source) : Grows t b d (d.addCaseJump source) :=
  ⟨.of_graph_eq rfl (.refl _) (.refl _) (.refl _), added_source hs⟩

theorem grows_leaving {e : EdgeId} {tries : List NodeId} : Grows t b d (d.leaving e tries) :=
  ⟨⟨Graph.extends_leaving, .refl _, .refl _, .refl _,
    fun he he' => absurd (Nat.lt_of_lt_of_eq he' Graph.edges_size_leaving) (Nat.not_lt.mpr he),
    fun h => h.leaving⟩, .refl _⟩

theorem has_startOf : (d.start i).Has (d.startOf i) := by
  intro p hp
  unfold startOf at hp
  unfold start
  split at hp
  · cases hp
  · cases hp
    rw [if_neg ‹_›, size_list, size_addPoint]
    exact Nat.lt_succ_self _

theorem hasFrom_startOf (hb : b ≤ d.size) : (d.start i).HasFrom b (d.startOf i) := by
  intro p hp
  refine ⟨?_, has_startOf p hp⟩
  unfold startOf at hp
  split at hp
  · cases hp
  · cases hp
    exact hb

theorem grows_start (hb : b ≤ d.size) : Grows t b d (d.start i) := by
  unfold start
  split
  · exact .refl d
  · refine grows_addPoint.trans (grows_list ⟨hb, ?_⟩)
    rw [size_addPoint]
    exact Nat.lt_succ_self _

theorem grows_loop (hb : b ≤ d.size) (hs : d.Has source) : Grows t b d (d.loop c i source) := by
  have ht : b ≤ d.size + 1 ∧ d.size + 1 < ((d.stop c i).test i).size := by
    rw [size_test, size_stop]
    omega
  have hg : Grows t b d ((d.stop c i).test i) := grows_stop.trans grows_test
  exact (hg.trans (grows_list ht)).trans (grows_joinIf (hg.has hs) (hasFrom_some ht.1 ht.2))

theorem grows_joinGuarded {u : Tree} {last : Option PointId} {stop : PointId} (hs : d.Has last)
    (ht : b ≤ stop ∧ stop < d.size) : Grows t b d (d.joinGuarded u i last stop) := by
  unfold joinGuarded
  split
  · split
    · exact (grows_join (hs _ rfl) ht).trans grows_leaving
    · exact grows_join (hs _ rfl) ht
  · exact .refl d

theorem grows_joinJumps {targetOf : NodeId → PointId} {jumps : List PointId}
    (hs : ∀ p ∈ jumps, p < d.size) (ht : ∀ j, b ≤ targetOf j ∧ targetOf j < d.size) :
    Grows t b d (joinJumps targetOf jumps d) := by
  induction jumps generalizing d with
  | nil => exact .refl d
  | cons p rest ih =>
      refine (grows_join (hs p List.mem_cons_self) (ht _)).trans (ih (fun q hq => ?_) fun j => ?_)
      · rw [size_join]
        exact hs q (List.mem_cons_of_mem _ hq)
      · rw [size_join]
        exact ht j

theorem grows_listedEnd (hb : b ≤ d.size) : Grows t b d ((d.stop c i).list d.size) := by
  refine grows_stop.trans (grows_list ⟨hb, ?_⟩)
  rw [size_stop]
  exact Nat.lt_succ_self _

theorem lt_size_listedEnd : d.size < ((d.stop c i).list d.size).size := by
  rw [size_list, size_stop]
  exact Nat.lt_succ_self _

theorem grows_reachedEnd (hb : b ≤ d.size) (hs : d.Has source) :
    Grows t b d (((d.stop c i).list d.size).joinIf source (some d.size) .normal) :=
  (grows_listedEnd hb).trans
    (grows_joinIf (hs.mono (Nat.le_of_lt lt_size_listedEnd)) (hasFrom_some hb lt_size_listedEnd))

theorem lt_size_reachedEnd :
    d.size < (((d.stop c i).list d.size).joinIf source (some d.size) .normal).size := by
  rw [size_joinIf]
  exact lt_size_listedEnd

theorem Evolves.exists_listed (h : Evolves t b d d') :
    ∃ new, d'.listed.toList = d.listed.toList ++ new ∧ ∀ p ∈ new, b ≤ p ∧ p < d'.size := by
  obtain ⟨new, he, hnew⟩ := h.listed
  refine ⟨new.reverse, ?_, fun p hp => hnew p (List.mem_reverse.mp hp)⟩
  rw [← List.reverse_reverse d'.listed.toList, he, List.reverse_append, List.reverse_reverse]

theorem Evolves.mem_listed (h : Evolves t b d d') {n : Nat} (hn : d.listed.size ≤ n)
    (hp : p ∈ d'.listed[n]?) : b ≤ p ∧ p < d'.size := by
  obtain ⟨new, hl, hnew⟩ := h.exists_listed
  rw [← Array.getElem?_toList, hl, List.getElem?_append_right (by simpa using hn)] at hp
  exact hnew p (List.mem_of_getElem? hp)

theorem Evolves.listed_mono (h : Evolves t b d d') {n : Nat} (hp : d.listed[n]? = some p) :
    d'.listed[n]? = some p := by
  obtain ⟨new, hl, -⟩ := h.exists_listed
  rw [← Array.getElem?_toList] at hp ⊢
  rw [hl, List.getElem?_append_left (List.getElem?_eq_some_iff.mp hp).1, hp]

end Draft

namespace Task

def targets : Task → Targets
  | node τ .. | entered τ .. | embedded τ .. | list τ .. | sections τ .. | guarded τ .. => τ

def Ready (b : Nat) (d : Draft) : Task → Prop
  | node _ _ p | entered _ _ p _ _ | embedded _ _ p => d.Has p
  | list _ p q _ => d.Has p ∧ d.Has q
  | sections _ enter _ _ => ∀ s, d.Has (enter s)
  | guarded _ _ p stop _ => d.Has p ∧ b ≤ stop ∧ stop < d.size

def starts : Task → List (NodeId × Option PointId)
  | sections _ _ _ starts => starts
  | _ => []

end Task

structure Targets.From (b : Nat) (d : Draft) (τ : Targets) : Prop where
  onBreak : d.HasFrom b τ.onBreak
  onContinue : d.HasFrom b τ.onContinue

structure Task.Begins (b : Nat) (d : Draft) (task : Task) : Prop where
  le_size : b ≤ d.size
  targets : task.targets.From b d
  ready : task.Ready b d

structure Draft.Drew (t : Tree) (b : Nat) (d d' : Draft) (a : Option PointId)
    (starts : List (NodeId × Option PointId)) : Prop extends Grows t b d d' where
  has : d'.Has a
  starts {x : NodeId × Option PointId} (hx : x ∈ starts) : d'.HasFrom b x.2

def Task.Grown (c : Plan) (b : Nat) (d : Draft) (a : Option PointId) (d' : Draft)
    (task : Task) : Prop :=
  task.Begins b d → Draft.Drew c.tree b d d' a task.starts

section

open Draft

variable {t : Tree} {b : Nat} {c : Plan} {task task' : Task} {d d₁ d₂ d₃ d' before ahead : Draft}
  {τ : Targets} {i j : NodeId} {a p last : Option PointId} {stop test next : PointId}
  {starts : List (NodeId × Option PointId)}

theorem Targets.From.grows (h : τ.From b d) (hg : Grows t b d d') : τ.From b d' :=
  ⟨hg.hasFrom h.onBreak, hg.hasFrom h.onContinue⟩

theorem Draft.Drew.of_grows (hg : Grows t b d d') (ha : d'.Has a) : Drew t b d d' a [] :=
  ⟨hg, ha, fun hx => by cases hx⟩

namespace Task.Begins

theorem later (h : task.Begins b d) (hg : Grows t b d d₁) (hτ : task'.targets = task.targets)
    (hr : task'.Ready b d₁) : task'.Begins b d₁ :=
  ⟨Nat.le_trans h.le_size hg.size_le, hτ ▸ h.targets.grows hg, hr⟩

theorem also (h : task.Begins b d) (hτ : task'.targets = task.targets) (hr : task'.Ready b d) :
    task'.Begins b d :=
  ⟨h.le_size, hτ ▸ h.targets, hr⟩

theorem in_loop (h : (node τ i p).Begins b d) (hd : Grows t b d d₁) {first : Option PointId}
    (hτ : task.targets = ⟨some d₁.size, some (d₁.size + 1)⟩)
    (hr : task.Ready b (d₁.loop c i first)) : task.Begins b (d₁.loop c i first) := by
  have hb := Nat.le_trans h.le_size hd.size_le
  have hsize : (d₁.loop c i first).size = d₁.size + 2 := size_loop ..
  have hstop : d₁.size < (d₁.loop c i first).size := by omega
  have htest : d₁.size + 1 < (d₁.loop c i first).size := by omega
  have hpoints : Targets.From b (d₁.loop c i first) ⟨some d₁.size, some (d₁.size + 1)⟩ :=
    ⟨hasFrom_some hb hstop, hasFrom_some (Nat.le_succ_of_le hb) htest⟩
  exact ⟨Nat.le_trans hb (Nat.le_of_lt hstop), hτ ▸ hpoints, hr⟩

end Task.Begins

theorem caseTarget_bounds {starts : List (NodeId × Option PointId)} {stop : PointId}
    (hs : ∀ x ∈ starts, d.HasFrom b x.2) (hstop : b ≤ stop ∧ stop < d.size) (j : NodeId) :
    b ≤ c.caseTarget starts stop j ∧ c.caseTarget starts stop j < d.size := by
  unfold Plan.caseTarget
  cases ht : (c.jumpSection (starts.map (·.1)) j).bind fun s => (starts.lookup s).join with
  | none => exact hstop
  | some p =>
      obtain ⟨s, -, hl⟩ := Option.bind_eq_some_iff.mp ht
      obtain ⟨l₁, l₂, hl, -⟩ := List.lookup_eq_some_iff.mp (Option.join_eq_some_iff.mp hl)
      exact hs (s, some p) (hl ▸ List.mem_append_right _ List.mem_cons_self) p rfl

/-- A switch gives the jumps to its cases their targets, and leaves those of an outer switch as they
are. -/
theorem grows_switch {p : Option PointId} {starts : List (NodeId × Option PointId)} {d₁ : Draft}
    {isPassed : Bool} (hb : b ≤ d.size) (hp : d.Has p) (hg : Evolves t b d d₁)
    (hj : ∀ q ∈ d₁.caseJumps, q < d₁.size) (hd : d.size < d₁.size)
    (hs : ∀ x ∈ starts, d₁.HasFrom b x.2) :
    Grows t b d ((joinJumps (c.caseTarget starts d.size) d₁.caseJumps.reverse
      ((d₁.joinWhen isPassed p (some d.size) .normal).withCaseJumps d.caseJumps)).list d.size) := by
  have hp₁ : d₁.Has p := fun q hq => Nat.lt_of_lt_of_le (hp q hq) hg.size_le
  have hpass : Grows t b d₁ (d₁.joinWhen isPassed p (some d.size) .normal) :=
    grows_joinWhen hp₁ (hasFrom_some hb hd)
  generalize he : (d₁.joinWhen isPassed p (some d.size) .normal).withCaseJumps d.caseJumps = d₂
  have hsize : d₂.size = d₁.size := by simp [← he]
  have hjoin : Grows t b d₂
      ((joinJumps (c.caseTarget starts d.size) d₁.caseJumps.reverse d₂).list d.size) := by
    refine (grows_joinJumps (fun q hq => ?_) fun j => ?_).trans (grows_list ⟨hb, ?_⟩)
    · rw [hsize]
      exact hj q (List.mem_reverse.mp hq)
    · rw [hsize]
      exact caseTarget_bounds hs ⟨hb, hd⟩ j
    · rwa [size_joinJumps, hsize]
  have hevolves : Evolves t b d d₂ := he ▸ (hg.trans hpass.toEvolves).trans evolves_withCaseJumps
  refine ⟨hevolves.trans hjoin.toEvolves, ?_⟩
  have hcase := hjoin.caseJumps
  rwa [show d₂.caseJumps = d.caseJumps from he ▸ rfl] at hcase

variable (t) in
theorem grows_turned {last : Option PointId} {next test stop : PointId} (condition : Option Bool)
    (hl : d.Has last) (hn : b ≤ next ∧ next < d.size) (ht : test < d.size)
    (hs : b ≤ stop ∧ stop < d.size) {first : Option PointId} (hf : d.HasFrom b first) : Grows t b d
      (((d.joinIf last (some next) .normal).joinWhen (condition != some false) (some test) first
      .whenTrue).leave condition test stop) := by
  refine ((grows_joinIf hl (hasFrom_some hn.1 hn.2)).trans
    (grows_joinWhen (has_some ?_) (hf.mono ?_))).trans
    (grows_leave ?_ ⟨hs.1, ?_⟩)
  · rwa [size_joinIf]
  · exact Nat.le_of_eq (size_joinIf ..).symm
  · rwa [size_joinWhen, size_joinIf]
  · rw [size_joinWhen, size_joinIf]
    exact hs.2

theorem nextOf_bounds {iterated : Option PointId} {listed : Nat} {test : PointId} {d₀ : Draft}
    (hg : Grows t b d₀ d) (hl : d₀.listed.size ≤ listed) (ht : b ≤ test ∧ test < d.size) :
    b ≤ Plan.nextOf listed test iterated d ∧ Plan.nextOf listed test iterated d < d.size := by
  unfold Plan.nextOf
  split
  · rw [Array.getD_eq_getD_getElem?]
    cases hp : d.listed[listed]? with
    | none => exact ht
    | some p => exact hg.mem_listed hl hp
  · exact ht

theorem has_sectionSource {i s : NodeId} {p : Option PointId} (hp : d.Has p) :
    d.Has (c.sectionSource i p s) := by
  unfold Plan.sectionSource
  simp only
  split
  · exact hp
  · exact has_none

theorem grown_label (hk : c.tree.kind i = .statement .label) :
    (Task.node τ i p).Grown c b d (some d.size)
      ((((d.stop c i).list d.size).joinIf p (some d.size) .normal).addLabel (c.tree.name i)
        d.size) := by
  intro h
  have hend : Grows c.tree b d (((d.stop c i).list d.size).joinIf p (some d.size) .normal) :=
    grows_reachedEnd h.le_size h.ready
  have hjoin : Grows c.tree b ((d.stop c i).list d.size)
      (((d.stop c i).list d.size).joinIf p (some d.size) .normal) :=
    grows_joinIf (h.ready.mono (Nat.le_of_lt lt_size_listedEnd))
      (hasFrom_some h.le_size lt_size_listedEnd)
  have hleaves : ((((d.stop c i).list d.size).joinIf p (some d.size) .normal).graph.point
      d.size).place.Leaves i := by
    rw [hjoin.graph.place lt_size_listedEnd]
    exact leaves_stop
  exact .of_grows (hend.trans (grows_addLabel ⟨h.le_size, lt_size_reachedEnd⟩ hk rfl hleaves))
    (has_some lt_size_reachedEnd)

theorem grown_jump (ha : d.HasFrom b a) :
    (Task.node τ i p).Grown c b d (some d.size) (((d.joinIf p a .jump).stop c i).list d.size) := by
  intro h
  have hd : d.size < ((d.joinIf p a .jump).stop c i).size := by simp
  exact .of_grows ((grows_joinIf h.ready ha).trans (grows_stop.trans (grows_list ⟨h.le_size, hd⟩)))
    (has_some hd)

theorem drew_end (h : task.Begins b d) (hg : Grows c.tree b d d₁) (hl : d₁.Has last) :
    Drew c.tree b d (((d₁.stop c i).list d₁.size).joinIf last (some d₁.size) .normal)
      (some d₁.size) [] :=
  .of_grows (hg.trans (grows_reachedEnd (Nat.le_trans h.le_size hg.size_le) hl))
    (has_some lt_size_reachedEnd)

theorem grown_usingResource
    (ih : (Task.embedded τ (c.child i .resource) p).Grown c b d a d₁)
    (ih' : (Task.embedded τ (c.child i .embeddedStatement) a).Grown c b d₁ last d₂) :
    (Task.node τ i p).Grown c b d (some d₂.size)
      (((d₂.stop c i).list d₂.size).joinIf last (some d₂.size) .normal) := by
  intro h
  have hd := ih (h.also rfl h.ready)
  have hd' := ih' (h.later hd.toGrows rfl hd.has)
  exact drew_end h (hd.toGrows.trans hd'.toGrows) hd'.has

theorem grown_branch {pos neg : Option PointId} {kind kind' : EdgeKind} {isTaken isTaken' : Bool}
    (ih : (Task.entered τ (c.child i .trueStatement) p kind isTaken).Grown c b d pos d₁)
    (ih' : (Task.entered τ (c.child i .falseStatement) p kind' isTaken').Grown c b d₁ neg d₂) :
    (Task.node τ i p).Grown c b d (some d₂.size) (if neg.isSome
      then (((d₂.stop c i).list d₂.size).joinIf pos (some d₂.size) .normal).joinIf neg
        (some d₂.size) .normal
      else (((d₂.stop c i).list d₂.size).joinIf pos (some d₂.size) .normal).joinWhen
        (c.condition (c.child i .condition) != some true) p (some d₂.size) .whenFalse) := by
  intro h
  have hd := ih (h.also rfl h.ready)
  have hd' := ih' (h.later hd.toGrows rfl (hd.toGrows.has h.ready))
  have hg := hd.toGrows.trans hd'.toGrows
  have hb := Nat.le_trans h.le_size hg.size_le
  have hend : Grows c.tree b d₂ (((d₂.stop c i).list d₂.size).joinIf pos (some d₂.size) .normal) :=
    grows_reachedEnd hb (hd'.toGrows.has hd.has)
  split
  · refine .of_grows ((hg.trans hend).trans
      (grows_joinIf (hend.has hd'.has) (hasFrom_some hb lt_size_reachedEnd))) (has_some ?_)
    rw [size_joinIf]
    exact lt_size_reachedEnd
  · refine .of_grows ((hg.trans hend).trans
      (grows_joinWhen ((hg.trans hend).has h.ready) (hasFrom_some hb lt_size_reachedEnd)))
        (has_some ?_)
    rw [size_joinWhen]
    exact lt_size_reachedEnd

theorem Task.Begins.in_switch {nodes : List NodeId} (h : (Task.node τ i p).Begins b d) :
    (Task.sections { τ with onBreak := some d.size } (c.sectionSource i p) nodes starts).Begins b
      ((d.withCaseJumps []).stop c i) := by
  have hstop : d.size < ((d.withCaseJumps []).stop c i).size := by simp
  have hle := Nat.le_of_lt hstop
  exact ⟨Nat.le_trans h.le_size hle, ⟨hasFrom_some h.le_size hstop, h.targets.onContinue.mono hle⟩,
    fun s => has_sectionSource (h.ready.mono hle)⟩

theorem grown_switch {nodes : List NodeId}
    (ih : (Task.sections { τ with onBreak := some d.size } (c.sectionSource i p)
      nodes starts).Grown c b
      ((d.withCaseJumps []).stop c i) a d₁) :
    (Task.node τ i p).Grown c b d (some d.size)
      ((Draft.joinJumps (c.caseTarget starts d.size) d₁.caseJumps.reverse
        ((d₁.joinWhen (c.isPassed i) p (some d.size) .normal).withCaseJumps d.caseJumps)).list
        d.size) := by
  intro h
  have hd := ih h.in_switch
  have hlt : d.size < d₁.size := Nat.lt_of_lt_of_le (by simp) hd.size_le
  have hjumps (q : PointId) (hq : q ∈ d₁.caseJumps) : q < d₁.size :=
    (hd.caseJumps.cases_mem hq).resolve_right (by simp [stop, addPoint, withCaseJumps])
  refine .of_grows (grows_switch h.le_size h.ready ?_ hjumps hlt fun x hx => hd.starts hx)
    (has_some ?_)
  · exact (evolves_withCaseJumps.trans grows_stop.toEvolves).trans hd.toEvolves
  · simpa using hlt

theorem grown_whileLoop {kind : EdgeKind} {isTaken : Bool}
    (ih : (Task.entered ⟨some d.size, some (d.size + 1)⟩ j (some (d.size + 1)) kind isTaken).Grown c
      b
      (d.loop c i p) last d₁) (condition : Option Bool) :
    (Task.node τ i p).Grown c b d (some d.size)
      (((d₁.joinIf last (some (d.size + 1)) .normal).leave condition (d.size + 1) d.size).list
        d.size) := by
  intro h
  have hloop : Grows c.tree b d (d.loop c i p) := grows_loop h.le_size h.ready
  have hsize : (d.loop c i p).size = d.size + 2 := size_loop ..
  have htest : d.size + 1 < (d.loop c i p).size := by omega
  have hd := ih (h.in_loop (t := c.tree) (.refl d) rfl (has_some htest))
  have hle := hd.size_le
  have hb := h.le_size
  have hbt : b ≤ d.size + 1 ∧ d.size + 1 < d₁.size := by omega
  have hstop : d.size < d₁.size := Nat.lt_of_succ_lt hbt.2
  have hback : Grows c.tree b d₁ (d₁.joinIf last (some (d.size + 1)) .normal) :=
    grows_joinIf hd.has (hasFrom_some hbt.1 hbt.2)
  refine .of_grows ((((hloop.trans hd.toGrows).trans hback).trans (grows_leave ?_ ⟨hb, ?_⟩)).trans
    (grows_list ⟨hb, ?_⟩)) (has_some ?_)
  all_goals simp [hbt.2, hstop]

theorem grown_foreachLoop
    (ih : (Task.embedded ⟨some d.size, some (d.size + 1)⟩ j (some (d.size + 1))).Grown c b
      (d.loop c i p) last d₁) :
    (Task.node τ i p).Grown c b d (some d.size)
      (((d₁.joinIf last (some (d.size + 1)) .normal).join (d.size + 1) d.size .normal).list
        d.size) := by
  intro h
  have hloop : Grows c.tree b d (d.loop c i p) := grows_loop h.le_size h.ready
  have hsize : (d.loop c i p).size = d.size + 2 := size_loop ..
  have htest : d.size + 1 < (d.loop c i p).size := by omega
  have hd := ih (h.in_loop (t := c.tree) (.refl d) rfl (has_some htest))
  have hle := hd.size_le
  have hb := h.le_size
  have hbt : b ≤ d.size + 1 ∧ d.size + 1 < d₁.size := by omega
  have hstop : d.size < d₁.size := Nat.lt_of_succ_lt hbt.2
  have hback : Grows c.tree b d₁ (d₁.joinIf last (some (d.size + 1)) .normal) :=
    grows_joinIf hd.has (hasFrom_some hbt.1 hbt.2)
  refine .of_grows ((((hloop.trans hd.toGrows).trans hback).trans (grows_join ?_ ⟨hb, ?_⟩)).trans
    (grows_list ⟨hb, ?_⟩)) (has_some ?_)
  all_goals simp [hbt.2, hstop]

theorem Task.Begins.in_doLoop (h : (Task.node τ i p).Begins b d)
    (hbefore : before = (d.stop c i).test i) :
    Grows c.tree b d ((before.start j).joinIf p (before.startOf j) .normal) ∧
      (Task.node ⟨some d.size, some (d.size + 1)⟩ j (before.startOf j)).Begins b
        ((before.start j).joinIf p (before.startOf j) .normal) := by
  have hpoints : Grows c.tree b d before := hbefore ▸ grows_stop.trans grows_test
  have hsize : before.size = d.size + 2 := by simp [hbefore]
  have hb := h.le_size
  have hb' := Nat.le_trans hb hpoints.size_le
  have hstart : Grows c.tree b before (before.start j) := grows_start hb'
  have hjoin : Grows c.tree b (before.start j)
    ((before.start j).joinIf p (before.startOf j) .normal) :=
    grows_joinIf ((hpoints.trans hstart).has h.ready) (hasFrom_startOf hb')
  have hle := (hstart.trans hjoin).size_le
  have hstop : d.size < before.size := by omega
  have htest : b ≤ d.size + 1 ∧ d.size + 1 < before.size := by omega
  exact ⟨hpoints.trans (hstart.trans hjoin), Nat.le_trans hb' hle,
    ⟨hasFrom_some hb (Nat.lt_of_lt_of_le hstop hle),
    hasFrom_some htest.1 (Nat.lt_of_lt_of_le htest.2 hle)⟩, hjoin.has has_startOf⟩

theorem grown_doLoop (hbefore : before = (d.stop c i).test i)
    (ih : (Task.node ⟨some d.size, some (d.size + 1)⟩ j (before.startOf j)).Grown c b
      ((before.start j).joinIf p (before.startOf j) .normal) last d₁) (condition : Option Bool) :
    (Task.node τ i p).Grown c b d (some d.size)
    (((((d₁.joinIf last (some (d.size + 1)) .normal).joinWhen
      (condition != some false) (some (d.size + 1)) (before.startOf j) .whenTrue).leave
        condition (d.size + 1) d.size).list (d.size + 1)).list d.size) := by
  intro h
  obtain ⟨hentered, hbegins⟩ := h.in_doLoop (j := j) hbefore
  have hd := ih hbegins
  have hsize : before.size = d.size + 2 := by simp [hbefore]
  have hstart : before.size ≤ (before.start j).size :=
    (grows_start (t := c.tree) (Nat.zero_le _)).size_le
  have hle := hd.size_le
  rw [size_joinIf] at hle
  have hb := h.le_size
  have hfirst : d₁.HasFrom b (before.startOf j) := (hasFrom_startOf (by omega)).mono hle
  have htest : b ≤ d.size + 1 ∧ d.size + 1 < d₁.size := by omega
  have hstop : b ≤ d.size ∧ d.size < d₁.size := by omega
  have hturn := grows_turned c.tree condition hd.has htest htest.2 hstop hfirst
  refine .of_grows (((hentered.trans hd.toGrows).trans hturn).trans
    ((grows_list ⟨htest.1, ?_⟩).trans (grows_list ⟨hb, ?_⟩))) (has_some ?_)
  all_goals simp [htest.2, hstop.2]

theorem Task.Begins.in_forLoop {first iterated : Option PointId}
    (h : (Task.node τ i p).Begins b d) (hd : Drew c.tree b d d₁ first [])
    (hd' : Drew c.tree b (d₁.loop c i first) d₂ iterated [])
    (hahead : ahead = d₂.joinIf iterated (some (d₁.size + 1)) .normal)
    (hnext : next = Plan.nextOf (d₁.loop c i first).listed.size (d₁.size + 1) iterated ahead) :
    Grows c.tree b d₂ ahead ∧ (b ≤ next ∧ next < ahead.size) ∧
      (Task.node ⟨some d₁.size, some next⟩ j (ahead.startOf j)).Begins b (ahead.start j) := by
  have hb := Nat.le_trans h.le_size hd.size_le
  have hsize : (d₁.loop c i first).size = d₁.size + 2 := size_loop ..
  have hle := hd'.size_le
  have htest : b ≤ d₁.size + 1 ∧ d₁.size + 1 < d₂.size := by omega
  have hjoin : Grows c.tree b d₂ ahead :=
    hahead ▸ grows_joinIf hd'.has (hasFrom_some htest.1 htest.2)
  have hsize' : ahead.size = d₂.size := by simp [hahead]
  have hnext : b ≤ next ∧ next < ahead.size := by
    rw [hnext]
    exact nextOf_bounds (hd'.toGrows.trans hjoin) (Nat.le_refl _) (hsize'.symm ▸ htest)
  have hba : b ≤ ahead.size := by omega
  have hle' : ahead.size ≤ (ahead.start j).size := (grows_start (t := c.tree) hba).size_le
  have hstop : d₁.size < (ahead.start j).size := by omega
  exact ⟨hjoin, hnext, Nat.le_trans hba hle',
    ⟨hasFrom_some hb hstop, hasFrom_some hnext.1 (Nat.lt_of_lt_of_le hnext.2 hle')⟩, has_startOf⟩

theorem grown_forLoop {first iterated : Option PointId} {nodes nodes' : List NodeId}
    (ih : (Task.list τ p none nodes).Grown c b d first d₁)
    (ihr : (Task.list τ none none nodes').Grown c b (d₁.loop c i first) iterated d₂)
    (hahead : ahead = d₂.joinIf iterated (some (d₁.size + 1)) .normal)
    (hnext : next = Plan.nextOf (d₁.loop c i first).listed.size (d₁.size + 1) iterated ahead)
    (ihb : (Task.node ⟨some d₁.size, some next⟩ j (ahead.startOf j)).Grown c b
      (ahead.start j) last d₃)
    (condition : Option Bool) :
    (Task.node τ i p).Grown c b d (some d₁.size) ((((d₃.joinIf last (some next) .normal).joinWhen
      (condition != some false) (some (d₁.size + 1)) (ahead.startOf j) .whenTrue).leave
        condition (d₁.size + 1) d₁.size).list d₁.size) := by
  intro h
  have hd := ih (h.also rfl ⟨h.ready, has_none⟩)
  have hb := Nat.le_trans h.le_size hd.size_le
  have hloop : Grows c.tree b d₁ (d₁.loop c i first) := grows_loop hb hd.has
  have hsize : (d₁.loop c i first).size = d₁.size + 2 := size_loop ..
  have hd' := ihr (h.later (hd.toGrows.trans hloop) rfl ⟨has_none, has_none⟩)
  obtain ⟨hjoin, hbounds, hbegins⟩ := h.in_forLoop (j := j) hd hd' hahead hnext
  have hbody := ihb hbegins
  have hba : b ≤ ahead.size := Nat.le_trans hbounds.1 (Nat.le_of_lt hbounds.2)
  have hstart : Grows c.tree b ahead (ahead.start j) := grows_start hba
  have hle := hd'.size_le
  have hle' := hstart.size_le
  have hle'' := hbody.size_le
  have hsize' : ahead.size = d₂.size := by simp [hahead]
  have hnext' := Nat.lt_of_lt_of_le hbounds.2 (Nat.le_trans hle' hle'')
  have htest : d₁.size + 1 < d₃.size := by omega
  have hturn := grows_turned c.tree condition hbody.has ⟨hbounds.1, hnext'⟩
    htest ⟨hb, Nat.lt_of_succ_lt htest⟩
    ((hasFrom_startOf hba).mono hle'')
  have hall :=
    ((hd.toGrows.trans hloop).trans hd'.toGrows).trans (hjoin.trans (hstart.trans hbody.toGrows))
  refine .of_grows (hall.trans (hturn.trans (grows_list ⟨hb, ?_⟩))) (has_some ?_)
  all_goals simp [Nat.lt_of_succ_lt htest]

theorem Task.Begins.in_try {bodies : List NodeId} (h : (Task.node τ i p).Begins b d) :
    (Task.guarded τ i p d.size bodies).Begins b (d.stop c i) :=
  h.later (t := c.tree) grows_stop rfl ⟨h.ready.mono (by simp), h.le_size, by simp⟩

theorem grown_tryFinally {bodies : List NodeId}
    (ih : (Task.guarded τ i p d.size bodies).Grown c b (d.stop c i) a d₁)
    (ih' : (Task.embedded τ (c.child i .finallyBlock) p).Grown c b d₁ last d₂) :
    (Task.node τ i p).Grown c b d (some d.size) (d₂.list d.size) := by
  intro h
  have hstop : Grows c.tree b d (d.stop c i) := grows_stop
  have hd := ih h.in_try
  have hg := hstop.trans hd.toGrows
  have hd' := ih' (h.later hg rfl (hg.has h.ready))
  have hlt : d.size < d₂.size :=
    Nat.lt_of_lt_of_le (Nat.lt_of_lt_of_le (by simp) hd.size_le) hd'.size_le
  exact .of_grows ((hg.trans hd'.toGrows).trans (grows_list ⟨h.le_size, hlt⟩)) (has_some hlt)

theorem grown_tryCatch {bodies : List NodeId}
    (ih : (Task.guarded τ i p d.size bodies).Grown c b (d.stop c i) a d₁) :
    (Task.node τ i p).Grown c b d (some d.size) (d₁.list d.size) := by
  intro h
  have hstop : Grows c.tree b d (d.stop c i) := grows_stop
  have hd := ih h.in_try
  have hlt : d.size < d₁.size := Nat.lt_of_lt_of_le (by simp) hd.size_le
  exact .of_grows ((hstop.trans hd.toGrows).trans (grows_list ⟨h.le_size, hlt⟩)) (has_some hlt)

theorem Task.Begins.entered {kind : EdgeKind} {isTaken : Bool}
    (h : (Task.entered τ i p kind isTaken).Begins b d) :
    Grows c.tree b d ((d.start i).joinWhen isTaken p (d.startOf i) kind) ∧
      (Task.node τ i (d.startOf i)).Begins b
      ((d.start i).joinWhen isTaken p (d.startOf i) kind) := by
  have hstart : Grows c.tree b d (d.start i) := grows_start h.le_size
  have hjoin : Grows c.tree b (d.start i) ((d.start i).joinWhen isTaken p (d.startOf i) kind) :=
    grows_joinWhen (hstart.has h.ready) (hasFrom_startOf h.le_size)
  exact ⟨hstart.trans hjoin, h.later (hstart.trans hjoin) rfl (hjoin.has has_startOf)⟩

theorem Task.Begins.started (h : task.Begins b d) (hp : d.Has p) (hτ : task.targets = τ) :
    Grows c.tree b d ((d.tick.start i).joinIf p (d.startOf i) .normal) ∧
      (Task.node τ i (d.startOf i)).Begins b ((d.tick.start i).joinIf p (d.startOf i) .normal) := by
  have hstart : Grows c.tree b d (d.tick.start i) := grows_tick.trans (grows_start h.le_size)
  have hjoin : Grows c.tree b (d.tick.start i) ((d.tick.start i).joinIf p (d.startOf i) .normal) :=
    grows_joinIf (hstart.has hp) (hasFrom_startOf (d := d.tick) h.le_size)
  exact ⟨hstart.trans hjoin,
    h.later (hstart.trans hjoin) hτ.symm (hjoin.has (has_startOf (d := d.tick)))⟩

theorem grown_first {nodes : List NodeId}
    (ih : (Task.node τ i (d.startOf i)).Grown c b
      ((d.tick.start i).joinIf p (d.startOf i) .normal) last d₁)
    (ih' : (Task.list τ p last nodes).Grown c b d₁ a d') :
    (Task.list τ p none (i :: nodes)).Grown c b d a d' := by
  intro h
  obtain ⟨hentered, hbegins⟩ := h.started (c := c) (i := i) h.ready.1 rfl
  have hd := ih hbegins
  have hg := hentered.trans hd.toGrows
  have hd' := ih' (h.later hg rfl ⟨hg.has h.ready.1, hd.has⟩)
  exact .of_grows (hg.trans hd'.toGrows) hd'.has

theorem grown_behind {q : PointId} {nodes : List NodeId}
    (ih : (Task.node τ i (some q)).Grown c b d.tick last d₁)
    (ih' : (Task.list τ p last nodes).Grown c b d₁ a d') :
    (Task.list τ p (some q) (i :: nodes)).Grown c b d a d' := by
  intro h
  have htick : Grows c.tree b d d.tick := grows_tick
  have hd := ih (h.later htick rfl h.ready.2)
  have hg := htick.trans hd.toGrows
  have hd' := ih' (h.later hg rfl ⟨hg.has h.ready.1, hd.has⟩)
  exact .of_grows (hg.trans hd'.toGrows) hd'.has

theorem grown_section {enter : NodeId → Option PointId} {s : NodeId} {nodes rest : List NodeId}
    (ih : (Task.list τ (enter s) none nodes).Grown c b d last d₁)
    (ih' : (Task.sections τ enter rest starts).Grown c b d₁ a d') :
    (Task.sections τ enter (s :: rest) ((s, d₁.listed[d.listed.size]?) :: starts)).Grown c b d
    a d' := by
  intro h
  have hd := ih (h.also rfl ⟨h.ready s, has_none⟩)
  have hd' := ih' (h.later hd.toGrows rfl fun s => hd.toGrows.has (h.ready s))
  refine ⟨hd.toGrows.trans hd'.toGrows, hd'.has, fun {x} hx => ?_⟩
  rcases List.mem_cons.mp hx with rfl | hx
  · exact hd'.toGrows.hasFrom fun q hq => hd.mem_listed (Nat.le_refl _) hq
  · exact hd'.starts hx

theorem Task.Begins.guarded {body : NodeId} {rest : List NodeId}
    (h : (Task.guarded τ i p stop (body :: rest)).Begins b d) (hd : Drew c.tree b d d₁ last []) :
    Grows c.tree b d₁ (d₁.joinGuarded c.tree i last stop) ∧
      (Task.guarded τ i p stop rest).Begins b (d₁.joinGuarded c.tree i last stop) := by
  obtain ⟨hp, hbs, hlt⟩ := h.ready
  have hlt := Nat.lt_of_lt_of_le hlt hd.size_le
  have hjoin : Grows c.tree b d₁ (d₁.joinGuarded c.tree i last stop) :=
    grows_joinGuarded hd.has ⟨hbs, hlt⟩
  have hg := hd.toGrows.trans hjoin
  exact ⟨hjoin, h.later hg rfl ⟨hg.has hp, hbs, Nat.lt_of_lt_of_le hlt hjoin.size_le⟩⟩

theorem grown_guard {body : NodeId} {rest : List NodeId}
    (ih : (Task.embedded τ body p).Grown c b d last d₁)
    (ih' : (Task.guarded τ i p stop rest).Grown c b (d₁.joinGuarded c.tree i last stop) a d') :
    (Task.guarded τ i p stop (body :: rest)).Grown c b d a d' := by
  intro h
  have hd := ih (h.also rfl h.ready.1)
  obtain ⟨hjoin, hbegins⟩ := h.guarded hd
  have hd' := ih' hbegins
  exact .of_grows ((hd.toGrows.trans hjoin).trans hd'.toGrows) hd'.has

/-- Drawing adds behind the base, and goes on at a point that is there. -/
theorem Draws.drew (h : Draws c task d a d') : task.Grown c b d a d' := by
  induction h with
  | hole => exact fun _ => .of_grows (.refl _) has_none
  | plain =>
      exact fun h => .of_grows (grows_reachedEnd h.le_size h.ready) (has_some lt_size_reachedEnd)
  | final => exact fun h => .of_grows (grows_listedEnd h.le_size) (has_some lt_size_listedEnd)
  | label hk => exact grown_label hk
  | goto =>
      exact fun h => .of_grows ((grows_addGoto h.ready).trans (grows_listedEnd h.le_size))
        (has_some lt_size_listedEnd)
  | caseJump =>
      exact fun h => .of_grows ((grows_addCaseJump h.ready).trans (grows_listedEnd h.le_size))
        (has_some lt_size_listedEnd)
  | break_ => exact fun h => grown_jump h.targets.onBreak h
  | continue_ => exact fun h => grown_jump h.targets.onContinue h
  | block _ _ ih =>
      intro h
      have hd := ih (h.also rfl ⟨h.ready, has_none⟩)
      exact drew_end h hd.toGrows hd.has
  | wrapped _ _ _ ih | usingValue _ _ _ ih =>
      intro h
      have hd := ih (h.also rfl h.ready)
      exact drew_end h hd.toGrows hd.has
  | usingResource _ _ _ _ ih ih' => exact grown_usingResource ih ih'
  | branch _ _ _ ih ih' => exact grown_branch ih ih'
  | switch _ _ ih => exact grown_switch ih
  | whileLoop _ _ ih => exact grown_whileLoop ih _
  | foreachLoop _ _ ih => exact grown_foreachLoop ih
  | doLoop _ _ hbefore _ ih => exact grown_doLoop hbefore ih _
  | forLoop _ _ _ _ hahead hnext _ ih ihr ihb => exact grown_forLoop ih ihr hahead hnext ihb _
  | tryFinally _ _ _ _ ih ih' => exact grown_tryFinally ih ih'
  | tryCatch _ _ _ ih => exact grown_tryCatch ih
  | enter _ ih =>
      intro h
      obtain ⟨hentered, hbegins⟩ := h.entered (c := c)
      have hd := ih hbegins
      exact .of_grows (hentered.trans hd.toGrows) hd.has
  | absent => exact fun h => .of_grows (.refl _) h.ready
  | @embed τ i p d a d' hi _ ih =>
      intro h
      have hfirst : d.startOf i = some d.size := if_neg hi
      obtain ⟨hentered, hbegins⟩ := h.started (c := c) (i := i) h.ready rfl
      rw [hfirst] at hentered hbegins
      have hd := ih hbegins
      exact .of_grows (hentered.trans hd.toGrows) hd.has
  | @nil τ p current d =>
      intro h
      refine .of_grows (.refl _) ?_
      cases current with
      | none => exact h.ready.1
      | some q => exact h.ready.2
  | first _ _ ih ih' => exact grown_first ih ih'
  | behind _ _ ih ih' => exact grown_behind ih ih'
  | noSection => exact fun _ => .of_grows (.refl _) has_none
  | section_ _ _ ih ih' => exact grown_section ih ih'
  | unguarded => exact fun _ => .of_grows (.refl _) has_none
  | guard _ _ ih ih' => exact grown_guard ih ih'

end

end TreeScribe.Flow
