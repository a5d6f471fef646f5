import TreeScribe.Proofs.Render.Lined
import TreeScribe.Proofs.Sink.Spanned

namespace TreeScribe

open Recording (rangeAt)

namespace Tree

/-- A node that takes a place for a word: a name, a node of one word that no block takes the place
of, or a node that reaches from its first word to its last one. -/
def IsRanged (t : Tree) (calls : List Call) (x : NodeId) : Prop :=
  (∃ name verbatim, t.kind x = .identifier name verbatim) ∧ .identifier x ∈ calls ∨
    t.IsLeaf x ∧ ¬ t.InPlaceOfBlock x ∧ .start x ∈ calls ∨
    Extent.ofKind (t.kind x) = .tokens ∧ .start x ∈ calls ∧
      ∃ y c, t.Below x y ∧ c ∈ wrote y [] calls ∧ c.writesWord t = true

theorem IsRanged.extent_ne {t : Tree} {calls : List Call} {x : NodeId} (h : t.IsRanged calls x) :
    Extent.ofKind (t.kind x) ≠ .error := by
  rcases h with ⟨⟨name, verbatim, hk⟩, -⟩ | ⟨⟨hk, -⟩, -⟩ | ⟨hk, -⟩
  · simp [hk, Extent.ofKind]
  · rcases hk with hk | hk | hk | ⟨v, hk⟩ | ⟨word, hk⟩ <;> simp [hk, Extent.ofKind]
  · simp [hk]

/-- The places in `u` of nodes that reach from word to word enclose the places of what is below
them. -/
def Encloses (t : Tree) (calls : List Call) (u : Tree) : Prop :=
  ∀ n x, Extent.ofKind (t.kind n) = .tokens → .start n ∈ calls → t.IsRanged calls x → t.Below n x →
    ∃ r r', u.placements.rangeOf n = some r ∧ u.placements.rangeOf x = some r' ∧ r'.Within r

end Tree

variable {t u : Tree} {i n x : NodeId} {before l tail calls : List Call} {spots : List Spot}
  {plan : Plan} {p : Policy}
  {s : Spot} {e : NodeId × List Spot}

theorem Recording.exists_rangeAt_of_writesWord (hc : s.call.writesWord t = true) :
    ∃ r, rangeAt t (Composed.new p) s = some r := by
  obtain ⟨r, hr, -⟩ := Composed.rising.word (Sink.putAll t (Composed.new p) s.before) hc
  exact ⟨r, rangeAt_eq.trans hr⟩

namespace Body

theorem isWord_of_isLeaf (h : Body t i before spots plan l) (hl : t.IsLeaf i)
    (hb : ¬ t.InPlaceOfBlock i) :
    ∃ s ∈ spots, t.IsWord i s.call := by
  cases h with
  | word hc => exact ⟨_, List.mem_singleton_self _, hc⟩
  | composite hk =>
      obtain ⟨c, -, hc⟩ := Tree.exists_wordOf? hl
      rcases hk with hk | ⟨-, hk⟩
      · exact absurd hk hb
      · rw [hc] at hk
        cases hk

variable {w' : Recording Composed} {first : Option Location} {new : List (NodeId × TextRange)}

theorem exists_range (ht : t.WellFormed) (h : Body t i [.start i] spots plan l)
    (htail : ∀ c ∈ tail, c.isBlank = true)
    (hr : Recording.Recorded t (Composed.new p) .null [⟨[], .start i⟩] (plan ++ [(i, spots)])
      (Recording.new (Composed.new p)) w')
    (hs : Recording.Spanned t Composed.mark .null [⟨[], .start i⟩] (plan ++ [(i, spots)])
      (Recording.new (Composed.new p)) w' first new)
    (hx : t.IsRanged (.start i :: (l ++ .finish i :: tail)) x) :
    (∃ r, w'.located.lookup x = some r) ∧
      ∀ e ∈ plan ++ [(i, spots)], t.Below e.1 x → t.Speaks (plan ++ [(i, spots)]) e.1 := by
  rcases hx with ⟨⟨name, verbatim, hk⟩, hx⟩ | ⟨hl, hb, hx⟩ | ⟨hk, hx, y, c, hb, hc, hw⟩
  · have hx : .identifier x ∈ l := by
      have hnone : .identifier x ∉ tail := fun hx => by cases htail _ hx
      simpa [hnone] using hx
    obtain ⟨e, he, s, hs, hc⟩ := h.exists_spot hx rfl
    have hw : s.call.writesWord t = true := by
      simp [hc, Call.writesWord, TextSink.identifierText?, hk]
    obtain ⟨r, hrange⟩ := Recording.exists_rangeAt_of_writesWord (p := p) hw
    refine ⟨⟨r, hr.names (List.mem_cons_of_mem _ he) hs hc hrange⟩, fun e' he' hb => ?_⟩
    cases hb with
    | self => exact absurd rfl (h.ne_of_name ht he hs hc he')
    | child hb hp =>
        cases hp.symm.trans (h.parent_of_spot he hs (by rw [hc]; rfl))
        exact ⟨e, he, hb, s, hs, hw⟩
  · obtain ⟨e, he, rfl⟩ := List.mem_map.mp ((h.mem_starts_iff htail).mp (mem_starts.mpr hx))
    obtain ⟨_, _, _, hbody⟩ := h.body_of_mem he
    obtain ⟨s, hs, hc⟩ := hbody.isWord_of_isLeaf hl hb
    have hw := (Tree.writesWord_of_isLeaf hl hc.2).1
    obtain ⟨r, hrange⟩ := Recording.exists_rangeAt_of_writesWord (p := p) hw
    exact ⟨⟨r, hr.words he hl hs hc hrange⟩, fun e' _ hb => ⟨e, he, hb, s, hs, hw⟩⟩
  · have hy : y ∈ (plan ++ [(i, spots)]).map (·.1) := by
      by_contra hy
      rw [h.wrote_of_notMem htail hy] at hc
      cases hc
    obtain ⟨e', he', rfl⟩ := List.mem_map.mp hy
    rw [h.wrote_of_mem ht htail he'] at hc
    obtain ⟨s, hse, rfl⟩ := List.mem_map.mp hc
    obtain ⟨e, he, rfl⟩ := List.mem_map.mp ((h.mem_starts_iff htail).mp (mem_starts.mpr hx))
    refine ⟨?_, fun e'' _ hb' => ⟨e', he', hb'.trans hb, s, hse, hw⟩⟩
    obtain ⟨r, hnew⟩ := hs.placed he hk ⟨e', he', hb, s, hse, hw⟩
    refine Option.isSome_iff_exists.mp
      (List.lookup_isSome_iff.mpr ⟨(e.1, r), ?_, beq_self_eq_true _⟩)
    rw [hs.located]
    exact List.mem_append_left _ hnew

theorem spanned_run (ht : t.WellFormed) (h : Body t i [.start i] spots plan l)
    (htail : ∀ c ∈ tail, c.isBlank = true)
    (hnames : t.NamesIn (.start i :: (l ++ .finish i :: tail))) {w : Composed}
    (hu : (Sink.putAll t (Recording.new (Composed.new p))
      (.start i :: (l ++ .finish i :: tail))).apply t =
      .ok (w, u)) : ∃ w' first new,
    Recording.Recorded t (Composed.new p) .null [⟨[], .start i⟩] (plan ++ [(i, spots)])
      (Recording.new (Composed.new p)) w' ∧
    Recording.Spanned t Composed.mark .null [⟨[], .start i⟩] (plan ++ [(i, spots)])
      (Recording.new (Composed.new p)) w' first new ∧
    (Sink.putAll t (Recording.new (Composed.new p))
      (.start i :: (l ++ .finish i :: tail))).located = new ∧
    ∀ y r, new.lookup y = some r → u.placements.rangeOf y = some r ∧ (y, r) ∈ new := by
  have hcalls : Call.start i :: (l ++ .finish i :: tail) = (.start i :: (l ++ [.finish i])) ++
      tail := by simp
  have hr : Recording.Recorded t (Composed.new p) .null [⟨[], .start i⟩] (plan ++ [(i, spots)])
      (Recording.new (Composed.new p))
      (Sink.putAll t (Recording.new (Composed.new p)) (.start i :: (l ++ [.finish i]))) :=
        h.recorded ht rfl
  have hbounded : Recording.Bounded Composed.mark (Recording.new (Composed.new p)).inner := nofun
  obtain ⟨first, new, hs⟩ :
    ∃ first new, Recording.Spanned t Composed.mark .null [⟨[], .start i⟩] (plan ++ [(i, spots)])
      (Recording.new (Composed.new p))
      (Sink.putAll t (Recording.new (Composed.new p)) (.start i :: (l ++ [.finish i]))) first new :=
    h.spanned ht Composed.rising (fun j hj => hnames j (by simp [hj])) rfl hbounded
  -- the blanks after the node is finished are not recorded
  have hlocated :
      (Sink.putAll t (Recording.new (Composed.new p))
      (.start i :: (l ++ .finish i :: tail))).located = new := by
    rw [hcalls, Sink.putAll_append, (Recording.located_putAll_blanks htail).2]
    exact hs.located.trans (List.append_nil new)
  obtain ⟨v, -, -, -, hplaces⟩ := Recording.exists_of_apply hu
  change ∀ y, u.placements[y]? = _ at hplaces
  rw [hlocated] at hplaces
  refine ⟨_, first, new, hr, hs, hlocated, fun y r hy => ?_⟩
  obtain ⟨l₁, l₂, he, -⟩ := List.lookup_eq_some_iff.mp hy
  exact ⟨Placements.rangeOf_eq (by rw [hplaces, hy]), by simp [he]⟩

theorem encloses (ht : t.WellFormed) (h : Body t i [.start i] spots plan l)
    (htail : ∀ c ∈ tail, c.isBlank = true)
    (hnames : t.NamesIn (.start i :: (l ++ .finish i :: tail))) {w : Composed}
    (hu : (Sink.putAll t (Recording.new (Composed.new p))
      (.start i :: (l ++ .finish i :: tail))).apply t =
      .ok (w, u)) :
    t.Encloses (.start i :: (l ++ .finish i :: tail)) u := by
  intro n x hk hn hx hb
  obtain ⟨w', first, new, hr, hs, -, hplaced⟩ := h.spanned_run ht htail hnames hu
  obtain ⟨⟨r', hr'⟩, hspeaks⟩ := h.exists_range ht htail hr hs hx
  rw [hs.located.trans (List.append_nil new)] at hr'
  obtain ⟨e, he, rfl⟩ := List.mem_map.mp ((h.mem_starts_iff htail).mp (mem_starts.mpr hn))
  obtain ⟨r₀, hr₀⟩ := hs.placed he hk (hspeaks e he hb)
  obtain ⟨r, hr⟩ := Option.isSome_iff_exists.mp
    (List.lookup_isSome_iff.mpr ⟨(e.1, r₀), hr₀, beq_self_eq_true _⟩)
  obtain ⟨hn, hnew⟩ := hplaced _ _ hr
  obtain ⟨hx', hnew'⟩ := hplaced _ _ hr'
  exact ⟨r, r', hn, hx', hs.nested hnew hnew' hk hx.extent_ne hb⟩

end Body

/-- Places lie within places: where names are written for identifiers, a node that reaches from its
first word to its last one has a place in which the place of whatever is ranged below it lies. -/
theorem writePlaced_encloses (t : Tree) (p : Policy) (c : Cancellation) (i : NodeId)
    (done : Rendering) (u : Tree) (ht : t.WellFormed) (hnames : t.NamesIn (t.callsSent p i))
    (hd : t.writePlaced p c i = .ok (done, u)) : t.Encloses (t.callsSent p i) u := by
  obtain ⟨hfail, w, hw⟩ := Tree.apply_of_writePlaced hd
  rw [Tree.callsSent_eq hfail] at hnames ⊢
  rcases Layout.visits_ofNodeWithin ht t.size i hfail true []
    with he | ⟨l, spots, plan, tail, he, h, htail⟩
  · rw [Layout.ofNode, he]
    intro n x _ hn
    cases hn
  · rw [Layout.ofNode, he] at hnames hw ⊢
    exact h.encloses ht htail hnames hw

/-- `this + ` with an error behind it. -/
def erroneousSum : Tree :=
  .planted [.expression (.binary .add), .expression .thisRef, .expression .error]
    [(1, .left, 2), (1, .right, 3)]

/-- The place of an error is none of a word, and the sum stops before it. -/
example : (erroneousSum.writePlaced .allman .never 1).map (fun (done, u) => (done.text,
    [1, 2, 3].map fun x => (u.placements.rangeOf x).map fun r => (r.start.offset, r.stop.offset))) =
    .ok ("this + /* error */", [some (0, 6), some (0, 4), some (7, 18)]) := by decide +kernel

end TreeScribe
