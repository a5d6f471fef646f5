import TreeScribe.Proofs.Render.Enclosed
import TreeScribe.Proofs.Render.Indented
import TreeScribe.Proofs.Sink.Tracked

namespace TreeScribe

/-- A sequence point is that of a statement and, if not empty, covers the range that has been
located for it; empty statements are left out. -/
def Event.Covers (t : Tree) (located : List (NodeId × TextRange)) : Event → Prop
  | .sequencePoint i range _ => (t.kind i).isStatement = true ∧
    (Extent.ofKind (t.kind i) = .tokens → range.start.offset < range.stop.offset →
      ∃ r, (i, r) ∈ located ∧ range.start.offset ≤ r.start.offset ∧
      r.stop.offset = range.stop.offset)
  | _ => True

theorem Event.Covers.mono {t : Tree} {located located' : List (NodeId × TextRange)} {e : Event}
    (h : e.Covers t located) (hl : located ⊆ located') : e.Covers t located' := by
  cases e with
  | sequencePoint i range spans =>
      refine ⟨h.1, fun hk hlt => ?_⟩
      obtain ⟨r, hr, hrange⟩ := h.2 hk hlt
      exact ⟨r, hl hr, hrange⟩
  | _ => trivial

namespace Progress

variable {t : Tree} {cancellation : Cancellation} {s s' : Nesting}
  {p p' : Progress (Recording Composed)} {c : Call}
  {l : Layout}

/-- The sequence point of a node covers what is located for the node when it finishes. -/
theorem covers_of_finish {w : Recording Composed} {i : NodeId} {f : Location}
    {first : Option Location} {n : Nat} {es : List Entry}
    {outer : List (NodeId × Extent × List Entry)} {fs : List (Option Location)} {e : Event}
    (hnode : Composed.Started w.inner f first n)
    (ho : w.outline = (i, Extent.ofKind (t.kind i), es) :: outer) (hfs : w.firsts = first :: fs)
    (he : sequencePoint? t i (some f) (Sink.lastRange w) = some e) :
    e.Covers t (Sink.put t w (.finish i)).located := by
  obtain ⟨-, new, hlocated, hnew, hplaced⟩ := Recording.finish_ranges (t := t) (j := i) ho hfs
  obtain ⟨_, r, _, hf, hr, rfl, hpoint⟩ := sequencePoint?_eq_some he
  cases hf
  refine ⟨hpoint, fun hk hlt => ?_⟩
  rcases hnode.last hr with hle | ⟨f', hf', hle⟩
  · exact absurd hlt (Nat.not_lt.mpr hle)
  · have hbetween : TextRange.Between ⟨f', r.stop, hle⟩ first (Sink.lastRange w.inner) :=
      ⟨f', r, hf', hr, Nat.le_refl _, Nat.le_refl _⟩
    obtain ⟨r', hr'⟩ := hplaced hk _ hbetween
    obtain ⟨-, ⟨f'', l, hf'', hl, hstart, hstop⟩, hwithin⟩ := hnew _ hr'
    -- the location table has the widest range between the first and the last word, so it stops
    -- where the text does
    cases hf'.symm.trans hf''
    cases hr.symm.trans hl
    refine ⟨r', hlocated ▸ List.mem_append_left _ hr', (hnode.noted hf').1.trans hstart, ?_⟩
    exact Nat.le_antisymm hstop (hwithin _ hbetween).2

structure Followed (t : Tree) (s : Nesting) (p : Progress (Recording Composed)) : Prop where
  bounded : Recording.Bounded Composed.mark p.sink.inner
  heads : p.sink.heads = s.opened.map fun e => (e.1, Extent.ofKind (t.kind e.1))
  chained : p.sink.firsts.Pairwise fun f g => f.isSome = true → g.isSome = true
  tracked : ∃ k, p.sink.inner.level = s.levels + k ∧
    Composed.Tracked p.sink.inner k p.starts p.sink.firsts s.opened
  covers : ∀ e ∈ p.heard, e.Covers t p.sink.located

namespace Followed

theorem hear (h : Followed t s p) (es : List Event) (hsink : p'.sink = p.sink)
    (hstarts : p'.starts = p.starts) (hheard : p'.heard = es ++ p.heard)
    (hes : ∀ e ∈ es, e.Covers t []) : Followed t s p' := by
  refine ⟨hsink ▸ h.bounded, hsink ▸ h.heads, hsink ▸ h.chained, hsink ▸ hstarts ▸ h.tracked, ?_⟩
  rw [hheard, hsink]
  exact List.forall_mem_append.mpr ⟨fun e he => (hes e he).mono (List.nil_subset _), h.covers⟩

theorem level_put {k : Nat} (hl : p.sink.inner.level = s.levels + k) (hc : s.read? t c = some s') :
    (Sink.put t p.sink c).inner.level = s'.levels + (k + (c.endsStray t).toNat) := by
  rw [Recording.respects_inner.put, Composed.level_put, hl, Nesting.shift_of_read? hc,
    Nat.add_assoc]

theorem bounded_put (h : Followed t s p) :
    Recording.Bounded Composed.mark (Sink.put t p.sink c).inner :=
  (Recording.Advanced.put_recording Composed.rising h.bounded).bounded

theorem put (h : Followed t s p) (hc : s.read? t c = some s') (hs : ∀ i, c ≠ .start i)
    (hf : ∀ i, c ≠ .finish i) (hn : t.NamesIn [c]) : Followed t s' (p.put t c) := by
  have hname (i : NodeId) (hi : c = .identifier i) : c.writesWord t = true := by
    obtain ⟨name, verbatim, hk⟩ := hn i (hi ▸ List.mem_singleton_self _)
    simp [hi, Call.writesWord, TextSink.identifierText?, hk]
  obtain ⟨a, hmoves, hheads, hfirsts, hlocated⟩ := Recording.exists_noting (w := p.sink) hs hf hname
  obtain ⟨k, hlevel, htracked⟩ := h.tracked
  have hopened : s'.opened = s.opened := by
    cases Nesting.reads_of_read? hc with
    | start => exact absurd rfl (hs _)
    | finish => exact absurd rfl (hf _)
    | _ => rfl
  have hdepth : Composed.depth s.opened + k ≤ p.sink.inner.level := by
    rw [hlevel]
    exact Nat.add_le_add_right (Nat.le_add_left _ _) _
  -- noting stops at a node that has its first word, and by the chain all around it have theirs
  rw [Recording.noteAny_eq_map h.chained] at hfirsts
  refine ⟨h.bounded_put, ?_, ?_, ⟨_, level_put hlevel hc, ?_⟩,
    fun e he => (h.covers e he).mono hlocated⟩
  · rw [hopened]
    exact hheads.trans h.heads
  · change (Sink.put t p.sink c).firsts.Pairwise _
    rw [hfirsts, List.pairwise_map]
    refine h.chained.imp fun {f g} hfg hf => ?_
    cases a <;> cases f <;> simp_all
  · rw [hopened]
    exact hfirsts ▸ htracked.move hdepth (Nat.le_add_right _ _) hmoves

theorem start {i : NodeId} (h : Followed t s p) (hc : s.read? t (.start i) = some s') :
    Followed t s' (p.write t (.start i)) := by
  obtain ⟨k, hlevel, htracked⟩ := h.tracked
  have hlevel' := level_put hlevel hc
  obtain ⟨b, n, o⟩ := s
  cases hc
  obtain ⟨l, hl, -⟩ := Composed.exists_location p.sink.inner
  have hinner : (Sink.put t p.sink (.start i)).inner = Sink.put t p.sink.inner (.start i) :=
    Recording.respects_inner.put _ _
  have hdepth : p.sink.inner.level = n + Composed.depth o + k := hlevel
  have hfirsts : (Sink.put t p.sink (.start i)).firsts = none :: p.sink.firsts :=
    Recording.firsts_start
  have hnode : Composed.Started (Sink.put t p.sink.inner (.start i))
    l none (n + Composed.depth o + k) :=
    hdepth ▸ (Composed.Started.start h.bounded hl).move (Nat.le_refl _) (.silent rfl)
  have hle : Composed.depth o + k ≤ p.sink.inner.level := by omega
  refine ⟨h.bounded_put, Recording.heads_start.trans (congrArg _ h.heads), ?_, ⟨_, hlevel', ?_⟩, ?_⟩
  · change (Sink.put t p.sink (.start i)).firsts.Pairwise _
    rw [hfirsts]
    exact .cons (by simp) h.chained
  · change Composed.Tracked (Sink.put t p.sink (.start i)).inner k
      (Sink.location p.sink.inner :: p.starts)
      (Sink.put t p.sink (.start i)).firsts ((i, n) :: o)
    rw [hinner, hfirsts, hl]
    exact .cons hnode (htracked.silent hle (Nat.le_refl k) rfl)
  · have hlocated : (Sink.put t p.sink (.start i)).located = p.sink.located :=
      Recording.put_start.2.2
    exact fun e he => (h.covers e he).mono fun _ hy => hlocated.symm ▸ hy

theorem finish {i : NodeId} (h : Followed t s p) (hc : s.read? t (.finish i) = some s') :
    Followed t s' (p.write t (.finish i)) := by
  obtain ⟨k, hlevel, htracked⟩ := h.tracked
  have hlevel' := level_put hlevel hc
  cases Nesting.reads_of_read? hc with
  | other _ _ hf => exact absurd rfl (hf i)
  | finish b m o i =>
  generalize hst : p.starts = starts, hfs : p.sink.firsts = firsts at htracked
  cases htracked with
  | @cons l first _ _ starts firsts _ hnode hrest =>
  have hinner : (Sink.put t p.sink (.finish i)).inner = Sink.put t p.sink.inner (.finish i) :=
    Recording.respects_inner.put _ _
  obtain ⟨⟨es, outer, houtline⟩, hheads⟩ := Recording.heads_finish (t := t) (i := i) h.heads
  obtain ⟨hfirsts, new, hlocated, -⟩ := Recording.finish_ranges (t := t) (j := i) houtline hfs
  have hle : Composed.depth o + k ≤ p.sink.inner.level := by
    have hlevel : p.sink.inner.level = _ + (m + Composed.depth o) + k := hlevel
    omega
  have hchained := hfs ▸ h.chained
  rw [Progress.write, finish_eq hst]
  refine ⟨h.bounded_put, hheads, ?_, ⟨_, hlevel', ?_⟩, ?_⟩
  · exact hfirsts.symm ▸ hchained.of_cons
  · change Composed.Tracked (Sink.put t p.sink (.finish i)).inner _ starts
      (Sink.put t p.sink (.finish i)).firsts o
    rw [hinner, hfirsts]
    exact hrest.silent hle (Nat.le_add_right _ _) rfl
  · refine List.forall_mem_append.mpr ⟨fun e he => ?_, fun e he => (h.covers e he).mono ?_⟩
    · exact covers_of_finish hnode houtline hfs (Option.mem_toList.mp he)
    · exact hlocated.symm ▸ List.subset_append_right _ _

theorem write (h : Followed t s p) (hc : s.read? t c = some s') (hn : t.NamesIn [c]) :
    Followed t s' (p.write t c) := by
  have hother {q : Progress (Recording Composed)} (hq : Followed t s q) (hs : ∀ i, c ≠ .start i)
    (hf : ∀ i, c ≠ .finish i) :
      Followed t s' (q.put t c) := hq.put hc hs hf hn
  have hline {b : Bool} : Followed t s { p with isLineStart := b } :=
    h.hear [] rfl rfl rfl (by simp)
  cases c with
  | start i => exact h.start hc
  | finish i => exact h.finish hc
  | identifier i =>
      have hput := hother (hline (b := false)) (by simp) (by simp)
      obtain ⟨es, hes, hname⟩ :=
        reportName_eq (t := t) (Progress.put t { p with isLineStart := false } (.identifier i)) i
      have hwrite : p.write t (.identifier i) = _ := hes
      rw [hwrite]
      refine hput.hear _ rfl rfl rfl fun e he => ?_
      have he := hname e he
      cases e with
      | sequencePoint => cases he
      | _ => trivial
  | keyword | token | literal | primitiveType | special | newLine =>
      exact hother hline (by simp) (by simp)
  | space | indent | unindent => exact hother h (by simp) (by simp)

theorem report {e : Event} (h : Followed t s p) (he : e.Covers t []) : Followed t s (p.report e) :=
  h.hear [e] rfl rfl rfl (by simpa using he)

theorem closeBrace (h : Followed t s (p.write t (.token (.token "\x7d") "\x7d"))) :
    Followed t s (p.closeBrace t) := by
  rw [Progress.closeBrace]
  generalize p.write t (.token (.token "\x7d") "\x7d") = q at h
  simp only
  split
  · exact h
  · rename_i outer _
    have hq : Followed t s { q with braces := outer } := h.hear [] rfl rfl rfl (by simp)
    split
    · exact hq.report trivial
    · exact hq

theorem step {c : Command} (h : Followed t s p) (hc : c.nest? t s = some s')
    (hn : t.NamesIn (c.issued p.isLineStart)) (hs : p.step t cancellation c = (p', none)) :
    Followed t s' p' := by
  cases c with
  | write d =>
      rw [Command.nest?] at hc
      split at hc
      · cases hc
      · cases hs
        exact h.write hc hn
  | openBrace kind =>
      have hw : Followed t s' (p.write t (.token (.token "\x7b") "\x7b")) := h.write hc hn
      cases hs
      exact hw.hear [] rfl rfl rfl (by simp)
  | closeBrace =>
      cases hs
      exact (h.write hc hn).closeBrace
  | gap | freshLine =>
      cases hc
      cases hs
      split
      · exact h
      · exact h.write rfl (by simp [Tree.NamesIn])
  | reference | separator =>
      cases hc
      simp only [Progress.step, Prod.mk.injEq, and_true] at hs
      split at hs
      · cases hs
        exact h.report trivial
      · cases hs
        exact h
  | tick =>
      cases hc
      simp only [Progress.step, Prod.mk.injEq] at hs
      obtain ⟨rfl, -⟩ := hs
      exact h.hear [] rfl rfl rfl (by simp)
  | fail => cases hs

theorem run (h : Followed t s p) (hl : l.nest? t s = some s')
    (hn : t.NamesIn (l.issued p.isLineStart)) (hr : Progress.run t cancellation l p = (p', none)) :
    Followed t s' p' := by
  induction l generalizing p s with
  | nil =>
      cases hl
      cases hr
      exact h
  | cons c l ih =>
      rw [Layout.nest?_cons] at hl
      obtain ⟨s₁, hc, hl⟩ := Option.bind_eq_some_iff.mp hl
      rw [Progress.run] at hr
      rcases hs : p.step t cancellation c with ⟨q, e⟩
      rw [hs] at hr
      cases e with
      | some e => cases hr
      | none =>
          rw [Layout.issued, ← (step_issued hs).2.1] at hn
          exact ih (h.step hc (fun j hj => hn j (List.mem_append_left _ hj)) hs) hl
            (fun j hj => hn j (List.mem_append_right _ hj)) hr

end Followed

end Progress

namespace Tree

variable {t u : Tree} {p : Policy} {c : Cancellation} {i : NodeId} {done : Rendering}

theorem exists_place_of_located (ht : t.WellFormed) (hnames : t.NamesIn (t.callsSent p i))
    (hfail : (Layout.ofNode t p i).failure? = none) {w : Composed} {y : NodeId} {r : TextRange}
    (hw : (Sink.putAll t (Recording.new (Composed.new p)) (t.callsSent p i)).apply t = .ok (w, u))
    (hy : (y, r) ∈ (Sink.putAll t (Recording.new (Composed.new p)) (t.callsSent p i)).located)
    (hk : Extent.ofKind (t.kind y) = .tokens) :
    ∃ r', u.placements.rangeOf y = some r' ∧ r'.start.offset = r.start.offset ∧
      r'.stop.offset = r.stop.offset := by
  rw [callsSent_eq hfail] at hnames hw hy
  rcases Layout.visits_ofNodeWithin ht t.size i hfail true []
    with he | ⟨l, spots, plan, tail, he, h, htail⟩
  · rw [Layout.ofNode, he] at hy
    cases hy
  · rw [Layout.ofNode, he] at hnames hw hy
    obtain ⟨w', first, new, -, hs, hlocated, hplaced⟩ := h.spanned_run ht htail hnames hw
    rw [hlocated] at hy
    obtain ⟨r', hr'⟩ := Option.isSome_iff_exists.mp
      (List.lookup_isSome_iff.mpr ⟨(y, r), hy, beq_self_eq_true _⟩)
    obtain ⟨hplace, hy'⟩ := hplaced _ _ hr'
    have hne : Extent.ofKind (t.kind y) ≠ .error := by simp [hk]
    have hout := hs.nested hy' hy hk hne .self
    have hin := hs.nested hy hy' hk hne .self
    exact ⟨r', hplace, Nat.le_antisymm hout.1 hin.1, Nat.le_antisymm hin.2 hout.2⟩

end Tree

/-- A sequence point covers its statement. Where names are written for identifiers, a sequence point
that is not empty ends where the place of its statement ends, and starts there or before; the empty
statement alone has a place of its own. -/
theorem writePlaced_points_cover (t : Tree) (p : Policy) (c : Cancellation) (i : NodeId)
    (done : Rendering) (u : Tree) (ht : t.WellFormed) (hnames : t.NamesIn (t.callsSent p i))
    (hd : t.writePlaced p c i = .ok (done, u)) :
    ∀ s range spans, .sequencePoint s range spans ∈ done.events → t.kind s ≠ .statement .empty →
      range.start.offset < range.stop.offset → ∃ r, u.placements.rangeOf s = some r ∧
        range.start.offset ≤ r.start.offset ∧ r.stop.offset = range.stop.offset := by
  intro x range spans hx hk hlt
  obtain ⟨s, w, hs, hw, rfl⟩ := Tree.run_of_writePlaced hd
  obtain ⟨hsink, hfail⟩ := Progress.run_issued hs
  have hcalls := Tree.callsSent_eq (i := i) (p := p) hfail
  have hlayout := Layout.nest?_ofNodeWithin (p := p) ht t.size (i := i) (Nat.le_add_right _ _)
    hfail 0 0 []
  have hnew : Progress.Followed t ⟨0, 0, []⟩ (.new (Recording.new (Composed.new p))) :=
    ⟨fun _ hr => (by cases hr), rfl, .nil, ⟨0, rfl, .nil⟩, by simp [Progress.new]⟩
  have hfollowed := hnew.run hlayout (hcalls ▸ hnames) hs
  obtain ⟨hpoint, hcovers⟩ := hfollowed.covers _ (List.mem_reverse.mp hx)
  have htokens : Extent.ofKind (t.kind x) = .tokens := by
    cases hkind : t.kind x with
    | statement k =>
        cases k with
        | empty => exact absurd hkind hk
        | _ => rfl
    | _ => simp [hkind, Kind.isStatement] at hpoint
  obtain ⟨r, hr, hstart, hstop⟩ := hcovers htokens hlt
  have hlocated : s.sink = Sink.putAll t (Recording.new (Composed.new p)) (t.callsSent p i) :=
    hcalls ▸ hsink
  rw [hlocated] at hw hr
  obtain ⟨r', hplace, hstart', hstop'⟩ := Tree.exists_place_of_located ht hnames hfail hw hr htokens
  exact ⟨r', hplace, hstart'.symm ▸ hstart, hstop'.trans hstop⟩

end TreeScribe
