import TreeScribe.Proofs.Render.Mapped
import TreeScribe.Proofs.Sink.Arranged
import TreeScribe.Proofs.Tree.Edits

namespace TreeScribe

namespace Recording

variable {W : Type}

@[simp] theorem inner_addEntry (w : Recording W) (e : Entry) : (w.addEntry e).inner = w.inner := by
  unfold addEntry
  split <;> rfl

@[simp] theorem inner_locate (w : Recording W) (i : NodeId) (r : TextRange) :
    (w.locate i r).inner = w.inner := rfl

@[simp] theorem inner_note (w : Recording W) (r : TextRange) : (w.note r).inner = w.inner := rfl

@[simp] theorem inner_locateOpen (w : Recording W) (r : TextRange) :
    (w.locateOpen r).inner = w.inner := by
  unfold locateOpen
  split <;> rfl

@[simp] theorem inner_locateIf (w : Recording W) (e : Extent) (r : TextRange) :
    (w.locateIf e r).inner = w.inner := by
  unfold locateIf
  split
  · exact inner_locateOpen w r
  · rfl

theorem inner_recordToken (w : Recording W) (r : TextRange) (c : Call) :
    (w.recordToken r c).inner = w.inner := by
  unfold recordToken
  split
  · split
    · rfl
    · rw [inner_locate, inner_addEntry]
  · exact inner_addEntry ..
  · split
    · exact inner_addEntry ..
    · rfl
  · exact inner_locateIf ..
  · exact inner_locateIf ..
  · split
    · exact inner_locateOpen ..
    · split
      · exact inner_addEntry ..
      · rfl
  · split
    · exact inner_locateOpen ..
    · exact inner_locateIf ..
  · exact inner_locateIf ..
  · rfl

theorem inner_recordUnplaced (w : Recording W) (c : Call) :
    (w.recordUnplaced c).inner = w.inner := by
  unfold recordUnplaced
  split
  · split <;> simp
  · rfl

variable [Sink W] {t : Tree}

/-- A recording sends every call on, and stands where the sink inside stands. -/
theorem respects_inner : Sink.Respects t (inner : Recording W → W) where
  put w c := by
    cases c with
    | start i => simp only [Sink.put, put, started, inner_addEntry]
    | finish i =>
        simp only [Sink.put, put, finished]
        split <;> rfl
    | space | indent | unindent | newLine => rfl
    | special s =>
        cases s with
        | directive => rfl
        | comment k s =>
            simp only [Sink.put, put]
            split
            · rw [inner_locateIf, inner_note]
            · rfl
    | identifier | keyword | token | literal | primitiveType =>
        simp only [Sink.put, put]
        split
        · rw [inner_recordToken, inner_note]
        · rw [inner_recordUnplaced]
  location _ := rfl
  lastRange _ := rfl

end Recording

namespace Tree

variable {t : Tree} {i : NodeId}

theorem render_recording {W : Type} [Sink W] (t : Tree) (p : Policy) (c : Cancellation)
    (i : NodeId) (w : W) :
    t.render p c i (.new w) = ((t.render p c i (.new (Recording.new w))).1.map Recording.inner,
      (t.render p c i (.new (Recording.new w))).2) :=
  Progress.map_run Recording.respects_inner c (Layout.ofNode t p i) (.new (Recording.new w))

/-- The tokens that were recorded can always be attached, so only writing itself fails. -/
theorem fst_writePlaced {p : Policy} {c : Cancellation} (h : t.WellFormed) :
    (t.writePlaced p c i).map (·.1) = (t.write p c i).mapError .render := by
  have hnotes := notes_render h p c i (Composed.new p)
  rw [write, writePlaced, t.render_recording p c i (Composed.new p)]
  generalize t.render p c i (.new (Recording.new (Composed.new p))) = run at hnotes ⊢
  obtain ⟨s, failed⟩ := run
  cases failed with
  | some e => rfl
  | none =>
      obtain ⟨u, hu⟩ := Recording.exists_apply h hnotes
      simp only [hu]
      rfl

theorem writePlaced_of_error {p : Policy} {c : Cancellation} {e : RenderError} (h : t.WellFormed)
    (he : t.write p c i = .error e) : t.writePlaced p c i = .error (.render e) := by
  have hsame := t.fst_writePlaced (i := i) (p := p) (c := c) h
  rw [he] at hsame
  cases hp : t.writePlaced p c i with
  | ok out =>
      rw [hp] at hsame
      cases hsame
  | error e' =>
      rw [hp] at hsame
      cases hsame
      rfl

theorem write_of_writePlaced {p : Policy} {c : Cancellation} {done : Rendering} {u : Tree}
    (h : t.WellFormed) (hd : t.writePlaced p c i = .ok (done, u)) : t.write p c i = .ok done := by
  cases hw : t.write p c i with
  | error e =>
      rw [writePlaced_of_error h hw] at hd
      cases hd
  | ok done' =>
      have hsame := t.fst_writePlaced (i := i) (p := p) (c := c) h
      rw [hw, hd] at hsame
      cases hsame
      rfl

end Tree

/-- Keeping places does not change the text. Writing with places gives the text and the events that
writing gives, or fails with the same error, and its tokens can always be attached; also what was
heard before a failure is the same. -/
theorem writePlaced_same_text (t : Tree) (p : Policy) (c : Cancellation) (i : NodeId)
    (h : t.WellFormed) :
    (t.writePlaced p c i).map (·.1) = (t.write p c i).mapError .render ∧
      (t.render p c i (.new (Recording.new (Composed.new p)))).1.events =
        (t.render p c i (.new (Composed.new p))).1.events := by
  refine ⟨t.fst_writePlaced h, ?_⟩
  rw [t.render_recording p c i (Composed.new p)]
  rfl

def returningBlock : Tree :=
  .planted [.statement .block, .special (.comment .line " done"), .statement .return_,
      .expression .thisRef]
    [(1, .comment, 2), (1, .statement, 3), (3, .expression, 4)]

/-- The words of the block become nodes, and its text and its pair of braces are the ones that
writing gives. -/
theorem writePlaced_same_text_block : returningBlock.WellFormed ∧
    ∃ r, returningBlock.write .allman .never 1 = .ok r ∧
    r.text = "\x7b\n\t// done\n\treturn this;\n\x7d\n" ∧
      (returningBlock.writePlaced .allman .never 1).map (·.1) = .ok r := by
  have hw : returningBlock.WellFormed := Tree.wellFormed_planted _ _
  have htext : returningBlock.text .allman 1 = .ok "\x7b\n\t// done\n\treturn this;\n\x7d\n" := by
    decide +kernel
  have hsame := (writePlaced_same_text returningBlock .allman .never 1 hw).1
  cases hr : returningBlock.write .allman .never 1 with
  | error e =>
      rw [Tree.text, hr] at htext
      cases htext
  | ok r =>
      rw [Tree.text, hr] at htext
      rw [hr] at hsame
      exact ⟨hw, r, rfl, Except.ok.inj htext, hsame⟩

end TreeScribe
