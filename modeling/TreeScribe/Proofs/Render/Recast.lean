import TreeScribe.Proofs.Layout.Filled
import TreeScribe.Proofs.Layout.Started
import TreeScribe.Proofs.Sink.Rearranged
import TreeScribe.Proofs.Sink.Recorded

namespace TreeScribe

open Recording (record rangeAt)

variable {t u v : Tree} {i j x : NodeId} {before l : List Call} {spots : List Spot} {plan : Plan}
  {r : TextRange}
  {e : NodeId × List Spot} {s : Spot}

/-- The tree `u` is what recording the words and children of `i` in `t` makes of `t`, if the calls
go to `w`. -/
structure Recast {W : Type} [Sink W] (t : Tree) (w : W) (i : NodeId) (spots : List Spot)
    (plan : Plan) (u : Tree) : Prop where
  kept : Kept t u
  parent {x : NodeId} (hx : x < t.size)
    (hk : t.isTokenNode x = false ∨ ∀ p ∈ t.parent x, p ∉ (plan ++ [(i, spots)]).map (·.1)) :
    u.parent x = t.parent x
  children {q : NodeId} (hq : q ∉ (plan ++ [(i, spots)]).map (·.1)) : u.children q = t.children q
  rearranged {e : NodeId × List Spot} (he : e ∈ plan ++ [(i, spots)]) :
    t.Rearranged e.1 (record t w e.1 e.2) u
  names {e : NodeId × List Spot} (he : e ∈ plan ++ [(i, spots)]) {s : Spot} (hs : s ∈ e.2)
    {j : NodeId} (hj : s.call = .identifier j) {r : TextRange} (hr : rangeAt t w s = some r) :
    u.placements[j]? = some ⟨some r.start, some r.stop⟩
  words {e : NodeId × List Spot} (he : e ∈ plan ++ [(i, spots)]) (hl : t.IsLeaf e.1)
    {s : Spot} (hs : s ∈ e.2)
    (hc : t.IsWord e.1 s.call) {r : TextRange} (hr : rangeAt t w s = some r) :
    u.placements[e.1]? = some ⟨some r.start, some r.stop⟩
  placement_old {x : NodeId} (hx : x < t.size) (hb : ¬ t.Below i x) :
    u.placements[x]? = t.placements[x]?
  marks : u.marks = t.marks

theorem placements_foldl_setRange (places : List (NodeId × TextRange)) :
    (places.reverse.foldl (fun t (i, r) => t.mapPlacements (·.setRange i r)) u).placements[x]? =
      match places.lookup x with
      | some r => some ⟨some r.start, some r.stop⟩
      | none => u.placements[x]? := by
  rw [List.foldl_reverse]
  induction places with
  | nil => rfl
  | cons y places ih =>
      obtain ⟨i, r⟩ := y
      rw [List.foldr_cons, List.lookup_cons]
      change (Placements.setRange _ i r)[x]? = _
      rw [Placements.getElem?_setRange, ih]
      by_cases hx : x = i
      · simp [hx]
      · simp [hx, beq_eq_false_iff_ne.mpr hx]

theorem nodes_foldl_setRange (places : List (NodeId × TextRange)) :
    let v := places.foldl (fun t (i, r) => t.mapPlacements (·.setRange i r)) u
    v.nodes = u.nodes ∧ v.marks = u.marks := by
  induction places generalizing u with
  | nil => exact ⟨rfl, rfl⟩
  | cons y places ih => exact ih

theorem sameLinks_of_nodes (h : v.nodes = u.nodes) : Tree.SameLinks u v := by
  have hn (x : NodeId) : v.node x = u.node x := by rw [Tree.node, Tree.node, h]
  exact ⟨fun x => congrArg Node.parent (hn x), fun x => congrArg Node.firstChild (hn x),
    fun x => congrArg Node.lastChild (hn x), fun x => congrArg Node.nextSibling (hn x),
    fun x => congrArg Node.prevSibling (hn x)⟩

theorem Kept.of_nodes (hk : Kept t v) (h : u.nodes = v.nodes) : Kept t u := by
  have hn (x : NodeId) : u.node x = v.node x := by rw [Tree.node, Tree.node, h]
  have hkind (x : NodeId) : u.kind x = v.kind x := congrArg Node.kind (hn x)
  have hsize : u.size = v.size := congrArg Array.size h
  have hv := hk.wellFormed
  refine ⟨(sameLinks_of_nodes h).wellFormed hv ((hkind _).trans hv.null_kind) (hsize ▸ hv.size_pos),
    hsize ▸ hk.size_le,
    fun hx => (hkind _).trans (hk.kind_old hx),
    fun hx => (congrArg Node.role (hn _)).trans (hk.role_old hx),
    fun hx hu => ?_⟩
  rw [Tree.isTokenNode, hkind]
  exact hk.kind_new hx (hsize ▸ hu)

namespace Recording

theorem exists_of_apply {W : Type} {w : Recording W} {w' : W} (hu : w.apply t = .ok (w', u)) :
    ∃ v, w.plan.reverse.foldlM (fun t (i, entries) => t.arrange i entries) t = .ok v ∧
      u.nodes = v.nodes ∧
      u.marks = v.marks ∧ ∀ x, u.placements[x]? =
        match w.located.lookup x with
        | some r => some ⟨some r.start, some r.stop⟩
        | none => v.placements[x]? := by
  rw [apply] at hu
  simp only [bind, Except.bind, pure, Except.pure] at hu
  split at hu
  · cases hu
  · rename_i v hv
    cases hu
    obtain ⟨hnodes, hmarks⟩ := nodes_foldl_setRange (u := v) w.located.reverse
    exact ⟨v, hv, hnodes, hmarks, fun _ => placements_foldl_setRange w.located⟩

variable {W : Type} [Sink W] {w : W}

theorem node?_entryOf {e : Extent} {r : Option TextRange} {c : Call} :
    (entryOf e r c).bind Entry.node? = c.node? := by
  unfold entryOf
  split
  · rfl
  · rfl
  · cases r <;> rfl
  · cases Modifier.ofKeyword? _ <;> cases r <;> rfl
  · split
    · rfl
    · cases r <;> rfl
  · rename_i hs hi _ _ _
    cases c with
    | start j => exact absurd rfl (hs j)
    | identifier j => exact absurd rfl (hi j)
    | _ => rfl

theorem nodes_record : (record t w i spots).filterMap Entry.node? = nodesOf spots := by
  rw [record, List.filterMap_filterMap, nodesOf]
  exact List.filterMap_congr fun s _ => node?_entryOf

theorem node_mem_record : .node j ∈ record t w i spots ↔ j ∈ nodesOf spots := by
  rw [← nodes_record (w := w) (i := i), List.mem_filterMap]
  constructor
  · exact fun h => ⟨_, h, rfl⟩
  · rintro ⟨a, ha, hj⟩
    cases a with
    | node =>
        cases hj
        exact ha
    | token | modifier => cases hj

theorem located_putAll_blanks {w : Recording W} (h : ∀ c ∈ l, c.isBlank = true) :
    (Sink.putAll t w l).plan = w.plan ∧ (Sink.putAll t w l).located = w.located := by
  induction l generalizing w with
  | nil => exact ⟨rfl, rfl⟩
  | cons c l ih =>
      obtain ⟨hp, hl⟩ := ih (w := Sink.put t w c) fun d hd => h d (List.mem_cons_of_mem _ hd)
      rw [Sink.putAll_cons, hp, hl]
      cases c with
      | space | indent | unindent | newLine => exact ⟨rfl, rfl⟩
      | _ => cases h _ List.mem_cons_self

end Recording

theorem Body.lt (h : Body t i before spots plan l) : i < t.size := by
  by_contra hi
  have hk : t.kind i = .null := by rw [Tree.kind, Tree.node_of_size_le (Nat.not_lt.mp hi)]; rfl
  cases h with
  | word hc => exact absurd hc.1 (by simp [hk, Kind.isVisited])
  | composite hk' _ _ =>
      rcases hk' with ⟨p, hp, -⟩ | ⟨hv, -⟩
      · exact hi (Tree.lt_of_parent hp)
      · simp [hk, Kind.isVisited] at hv

theorem Tree.Below.lt (h : t.Below i x) (hi : i < t.size) : x < t.size := by
  cases h with
  | self => exact hi
  | child _ hp => exact Tree.lt_of_parent hp

namespace Body

variable {W : Type} [Sink W] {w w' : W} (ht : t.WellFormed) (h : Body t i [.start i] spots plan l)

include ht h

theorem arranged (hv : ((plan ++ [(i, spots)]).map fun e => (e.1, record t w e.1 e.2)).foldlM
    (fun t (i, entries) => t.arrange i entries) t = .ok v) :
    t.Arranged ((plan ++ [(i, spots)]).map fun e => (e.1, record t w e.1 e.2)) v := by
  refine Tree.arranged ht (fun e he => ?_) ?_ (fun e he => ?_) hv
  · obtain ⟨e, he', rfl⟩ := List.mem_map.mp he
    exact (h.below he').lt h.lt
  · rw [List.map_map]
    exact h.nodup_starts ht
  · obtain ⟨e, he', rfl⟩ := List.mem_map.mp he
    rw [Recording.nodes_record]
    exact h.nodup_of_mem he'

theorem recast {tail : List Call} (htail : ∀ c ∈ tail, c.isBlank = true)
    (hu : (Sink.putAll t (Recording.new w) (.start i :: (l ++ .finish i :: tail))).apply t =
      .ok (w', u)) :
    Recast t w i spots plan u := by
  have hcalls : Call.start i :: (l ++ .finish i :: tail) = (.start i :: (l ++ [.finish i])) ++
      tail := by simp
  have hmap : ((plan ++ [(i, spots)]).map fun e => (e.1, record t w e.1 e.2)).map (·.1) =
      (plan ++ [(i, spots)]).map (·.1) := by simp
  have hr (q : NodeId) : Recording.Recorded t w q [⟨[], .start i⟩] (plan ++ [(i, spots)])
    (Recording.new w)
      (Sink.putAll t (Recording.new w) (.start i :: (l ++ [.finish i]))) := h.recorded ht rfl
  -- the blanks after the node is finished are not recorded
  obtain ⟨hplan, hlocated⟩ := Recording.located_putAll_blanks (t := t)
    (w := Sink.putAll t (Recording.new w) (.start i :: (l ++ [.finish i]))) htail
  rw [(hr .null).planned, ← Sink.putAll_append, ← hcalls] at hplan
  rw [← Sink.putAll_append, ← hcalls] at hlocated
  obtain ⟨v, hv, hnodes, hmarks, hplaces⟩ := Recording.exists_of_apply hu
  rw [hplan, Recording.new, List.append_nil, List.reverse_reverse] at hv
  rw [hlocated] at hplaces
  generalize Sink.putAll t (Recording.new w) (.start i :: (l ++ [.finish i])) = w₁ at hr hplaces
  have harr := h.arranged ht hv
  have hfree {x : NodeId} (hx : ¬ t.Below i x) : u.placements[x]? = v.placements[x]? := by
    rw [hplaces, (hr (x + 1)).frame (Nat.ne_of_lt (Nat.lt_succ_self x))
      (by simpa [nodesOf, Call.node?] using hx)]
    rfl
  have hset {x : NodeId} {r : TextRange} (hx : w₁.located.lookup x = some r) :
      u.placements[x]? = some ⟨some r.start, some r.stop⟩ := by rw [hplaces, hx]
  have hlinks := sameLinks_of_nodes hnodes
  have hchildren : u.children = v.children := hlinks.children_eq harr.kept.wellFormed
  have hn (x : NodeId) : u.node x = v.node x := by rw [Tree.node, Tree.node, hnodes]
  exact {
    kept := harr.kept.of_nodes hnodes
    parent := fun hx hk => by rw [hlinks.parent, harr.parent ht hx (hmap.symm ▸ hk)]
    children := fun hq => by rw [hchildren, harr.children (hmap.symm ▸ hq)]
    rearranged := fun he => by
      obtain ⟨pieces, hpieces, hk⟩ := harr.rearranged (List.mem_map_of_mem he)
      refine ⟨pieces, hpieces.imp fun a piece ha => ha.imp fun x k r rg hx hat => ?_,
        hchildren ▸ hk⟩
      have hbelow : ¬ t.Below i x := fun hb => absurd (hb.lt h.lt) (Nat.not_lt.mpr hx)
      have hsize : u.size = v.size := congrArg Array.size hnodes
      exact ⟨hsize ▸ hat.lt, (congrArg Node.kind (hn x)).trans hat.kind,
        (congrArg Node.role (hn x)).trans hat.role, hchildren ▸ hat.children,
        (hfree hbelow).trans hat.place⟩
    names := fun he _ hs _ hj _ hr' => hset ((hr .null).names (List.mem_cons_of_mem _ he) hs hj hr')
    words := fun he hl _ hs hc _ hr' => hset ((hr .null).words he hl hs hc hr')
    placement_old := fun hx hb => by rw [hfree hb, harr.placement_old hx]
    marks := hmarks.trans harr.marks }

end Body

namespace Tree

variable {p : Policy} {c : Cancellation} {done : Rendering}

theorem issued_of_write (hd : t.write p c i = .ok done) : (Layout.ofNode t p i).failure? = none ∧
    done.text = (Sink.putAll t (Composed.new p) ((Layout.ofNode t p i).issued true)).text := by
  rw [write] at hd
  rcases hs : t.render p c i (.new (Composed.new p)) with ⟨s, failed⟩
  rw [hs] at hd
  cases failed with
  | some e => cases hd
  | none =>
      cases hd
      obtain ⟨hsink, hfail⟩ := Progress.run_issued hs
      exact ⟨hfail, congrArg Composed.text hsink⟩

theorem run_of_writePlaced (hp : t.writePlaced p c i = .ok (done, u)) : ∃ s w,
    t.render p c i (.new (Recording.new (Composed.new p))) = (s, none) ∧
    s.sink.apply t = .ok (w, u) ∧
      done = ⟨w.text, s.events⟩ := by
  rw [writePlaced] at hp
  rcases hs : t.render p c i (.new (Recording.new (Composed.new p))) with ⟨s, failed⟩
  rw [hs] at hp
  cases failed with
  | some e => cases hp
  | none =>
      simp only at hp
      split at hp
      · rename_i w v hw
        cases hp
        exact ⟨s, w, rfl, hw, rfl⟩
      · cases hp

/-- What is applied is what the calls of the layout record. -/
theorem apply_of_writePlaced (hp : t.writePlaced p c i = .ok (done, u)) :
    (Layout.ofNode t p i).failure? = none ∧
    ∃ w, (Sink.putAll t (Recording.new (Composed.new p)) ((Layout.ofNode t p i).issued true)).apply
    t = .ok (w, u) := by
  obtain ⟨s, w, hs, hw, -⟩ := run_of_writePlaced hp
  obtain ⟨hsink, hfail⟩ := Progress.run_issued hs
  rw [hsink] at hw
  exact ⟨hfail, w, hw⟩

/-- When writing succeeds, writing with places does, and the tree comes from what the layout
says. -/
theorem recast_of_write (ht : t.WellFormed) (hd : t.write p c i = .ok done) :
    ∃ u, t.writePlaced p c i = .ok (done, u) ∧
      ((Layout.ofNode t p i).issued true = [] ∧ u = t ∨ ∃ l spots plan tail,
        (Layout.ofNode t p i).issued true = .start i :: (l ++ .finish i :: tail) ∧
        (∀ c ∈ tail, c.isBlank = true) ∧
          Body t i [.start i] spots plan l ∧ Recast t (Composed.new p) i spots plan u) := by
  have hsame := t.fst_writePlaced (i := i) (p := p) (c := c) ht
  rw [hd] at hsame
  cases hp : t.writePlaced p c i with
  | error e =>
      rw [hp] at hsame
      cases hsame
  | ok out =>
      obtain ⟨done', u⟩ := out
      rw [hp] at hsame
      cases hsame
      refine ⟨u, rfl, ?_⟩
      obtain ⟨hfail, w, hw⟩ := apply_of_writePlaced hp
      rcases Layout.visits_ofNodeWithin ht t.size i hfail true []
        with he | ⟨l, spots, plan, tail, he, hb, htail⟩
      · rw [Layout.ofNode, he] at hw
        cases hw
        exact .inl ⟨he, rfl⟩
      · rw [Layout.ofNode, he] at hw
        exact .inr ⟨l, spots, plan, tail, he, htail, hb, hb.recast ht htail hw⟩

end Tree

end TreeScribe
