import TreeScribe.Proofs.Sink.Levels
import TreeScribe.Proofs.Sink.Spanned

namespace TreeScribe

namespace Composed

variable {t : Tree} {w w' : Composed} {l : Location} {first a : Option Location} {n n' k : Nat}
  {c : Call}
  {starts firsts : List (Option Location)} {x : NodeId} {o : List (NodeId × Nat)}

structure Moves (w w' : Composed) (a : Option Location) : Prop where
  floor {n : Nat} (hn : n ≤ w.level) : w.floor n ≤ w'.floor n
  noted {l : Location} (hl : a = some l) : w.floor w.level ≤ l.offset ∧ l.offset ≤ w'.mark
  last : Sink.lastRange w' = Sink.lastRange w ∨
    ∃ l r, a = some l ∧ Sink.lastRange w' = some r ∧ l.offset ≤ r.stop.offset

namespace Moves

theorem mark (h : Moves w w' a) : w.mark ≤ w'.mark := by
  have hfloor := h.floor (Nat.zero_le _)
  rwa [Composed.floor, Composed.floor, TextSink.floor_zero, TextSink.floor_zero] at hfloor

theorem silent (hc : c.writesWord t = false) : Moves w (Sink.put t w c) none where
  floor hn := floor_put hn
  noted hl := by cases hl
  last := .inl (lastRange_put hc)

theorem word {r : TextRange} (hc : c.writesWord t = true)
    (hr : Sink.lastRange (Sink.put t w c) = some r) : Moves w (Sink.put t w c) (some r.start) where
  floor hn := floor_put hn
  noted hl := by
    obtain ⟨r', hr', -, hstop⟩ := rising.word w hc
    cases hr.symm.trans hr'
    cases hl
    exact ⟨floor_le_word (Nat.le_refl _) hc hr, r.ordered.trans hstop⟩
  last := .inr ⟨_, r, rfl, hr, r.ordered⟩

theorem comment {kind : CommentKind} {content : String} (hl : Sink.location w = some l) :
    Moves w (Sink.put t w (.special (.comment kind content))) (some l) where
  floor hn := floor_put hn
  noted he := by
    cases he
    obtain ⟨l', hl', hfloor⟩ := exists_location w
    cases hl.symm.trans hl'
    exact ⟨Nat.le_of_eq hfloor.symm, (rising.comment w kind content hl).2⟩
  last := .inl (lastRange_put rfl)

end Moves

/-- A node that started at `l`, at the level `n`, is open; `first` is the first place noted in it.
The last word ends before the node, or behind that place. -/
structure Started (w : Composed) (l : Location) (first : Option Location) (n : Nat) : Prop where
  fresh (hf : first = none) : l.offset ≤ w.floor n
  noted {f : Location} (hf : first = some f) : l.offset ≤ f.offset ∧ f.offset ≤ w.mark
  last {r : TextRange} (hr : Sink.lastRange w = some r) :
    r.stop.offset ≤ l.offset ∨ ∃ f, first = some f ∧ f.offset ≤ r.stop.offset

namespace Started

theorem move (h : Started w l first n) (hn : n ≤ w.level) (hm : Moves w w' a) :
    Started w' l (first.or a) n where
  fresh hf := by
    obtain ⟨hf, -⟩ := Option.or_eq_none_iff.mp hf
    exact (h.fresh hf).trans (hm.floor hn)
  noted {f} hf := by
    cases first with
    | none =>
        obtain ⟨hstart, hstop⟩ := hm.noted hf
        exact ⟨((h.fresh rfl).trans (floor_mono hn)).trans hstart, hstop⟩
    | some f' =>
        cases hf
        exact ⟨(h.noted rfl).1, (h.noted rfl).2.trans hm.mark⟩
  last {r} hr := by
    rcases hm.last with he | ⟨l', r', ha, hr', hle⟩
    · rcases h.last (he ▸ hr) with hl | ⟨f, rfl, hf⟩
      · exact .inl hl
      · exact .inr ⟨f, rfl, hf⟩
    · cases hr.symm.trans hr'
      cases first with
      | none => exact .inr ⟨l', ha, hle⟩
      | some f =>
          -- what is noted now comes behind the first place, which the mark has passed
          have hf := (h.noted rfl).2.trans (mark_le_floor.trans (hm.noted ha).1)
          exact .inr ⟨f, rfl, hf.trans hle⟩

theorem raise (h : Started w l first n) (hn : n ≤ n') : Started w l first n' :=
  ⟨fun hf => (h.fresh hf).trans (floor_mono hn), h.noted, h.last⟩

theorem start (hb : Recording.Bounded mark w) (hl : Sink.location w = some l) :
    Started w l none w.level where
  fresh _ := by
    obtain ⟨l', hl', hfloor⟩ := exists_location w
    cases hl.symm.trans hl'
    exact Nat.le_of_eq hfloor
  noted hl := by cases hl
  last {r} hr := by
    obtain ⟨l', hl', hfloor⟩ := exists_location w
    cases hl.symm.trans hl'
    exact .inl ((hb r hr).trans (mark_le_floor.trans (Nat.le_of_eq hfloor.symm)))

end Started

def depth (o : List (NodeId × Nat)) : Nat := o.foldr (fun e n => e.2 + n) 0

/-- The open nodes, innermost first: where they started, the first places noted in them, and the
levels around each; `k` levels are around all of them. -/
inductive Tracked (w : Composed) (k : Nat) :
    List (Option Location) → List (Option Location) → List (NodeId × Nat) → Prop
  | nil : Tracked w k [] [] []
  | cons {l : Location} {first : Option Location} {x : NodeId} {n : Nat}
      {starts firsts : List (Option Location)}
      {o : List (NodeId × Nat)} (h : Started w l first (n + depth o + k))
      (hrest : Tracked w k starts firsts o) :
      Tracked w k (some l :: starts) (first :: firsts) ((x, n) :: o)

theorem Tracked.move {k' : Nat} (h : Tracked w k starts firsts o) (ho : depth o + k ≤ w.level)
    (hk : k ≤ k') (hm : Moves w w' a) : Tracked w' k' starts (firsts.map (·.or a)) o := by
  induction h with
  | nil => exact .nil
  | cons h hrest ih =>
      exact .cons ((h.move ho hm).raise (Nat.add_le_add_left hk _))
        (ih ((Nat.add_le_add_right (Nat.le_add_left _ _) _).trans ho))

theorem Tracked.silent {k' : Nat} (h : Tracked w k starts firsts o) (ho : depth o + k ≤ w.level)
    (hk : k ≤ k') (hc : c.writesWord t = false) : Tracked (Sink.put t w c) k' starts firsts o := by
  have hmove := h.move ho hk (.silent hc)
  rwa [show firsts.map (·.or none) = firsts by simp] at hmove

end Composed

namespace Recording

variable {W : Type} {t : Tree} {w w' w'' : Recording W} {r : TextRange} {e : Extent} {i : NodeId}
  {c : Call}
  {a : Option Location} {fs : List (Option Location)}

def heads (w : Recording W) : List (NodeId × Extent) := w.opened.map fun o => (o.node, o.extent)

theorem noteAny_eq_map (h : fs.Pairwise fun f g => f.isSome = true → g.isSome = true) :
    noteAny a fs = fs.map (·.or a) := by
  cases a with
  | none => simp [noteAny]
  | some l =>
      rw [noteAny]
      induction fs with
      | nil => rfl
      | cons f fs ih =>
          obtain ⟨hf, hrest⟩ := List.pairwise_cons.mp h
          cases f with
          | none => rw [noteFirsts, ih hrest, List.map_cons, Option.none_or]
          | some f =>
              have hsame : fs.map (·.or (some l)) = fs := by
                refine (List.map_congr_left fun g hg => ?_).trans (List.map_id fs)
                obtain ⟨g, rfl⟩ := Option.isSome_iff_exists.mp (hf g hg rfl)
                rfl
              rw [noteFirsts, List.map_cons, hsame, Option.some_or]

structure Extends (w w' : Recording W) : Prop where
  heads : w'.heads = w.heads
  firsts : w'.firsts = w.firsts
  located : w.located ⊆ w'.located

namespace Extends

theorem refl : Extends w w := ⟨rfl, rfl, fun _ h => h⟩

theorem addEntry {x : Entry} (h : Extends w w') : Extends w (w'.addEntry x) := by
  obtain ⟨inner, opened, plan, located⟩ := w'
  cases opened <;> exact ⟨h.heads, h.firsts, h.located⟩

theorem locate {x : NodeId} (h : Extends w w') : Extends w (w'.locate x r) :=
  ⟨h.heads, h.firsts, fun _ hy => List.mem_cons_of_mem _ (h.located hy)⟩

theorem locateOpen (h : Extends w w') : Extends w (w'.locateOpen r) := by
  unfold Recording.locateOpen
  split
  · exact h
  · exact h.locate

theorem locateIf (h : Extends w w') : Extends w (w'.locateIf e r) := by
  unfold Recording.locateIf
  split
  · exact h.locateOpen
  · exact h

theorem recordToken (h : Extends w w') : Extends w (w'.recordToken r c) := by
  unfold Recording.recordToken
  split
  · split
    · exact h
    · exact h.addEntry.locate
  · exact h.addEntry
  · split
    · exact h.addEntry
    · exact h
  · exact h.locateIf
  · exact h.locateIf
  · split
    · exact h.locateOpen
    · split
      · exact h.addEntry
      · exact h
  · split
    · exact h.locateOpen
    · exact h.locateIf
  · exact h.locateIf
  · exact h

end Extends

theorem heads_note : (w.note r).heads = w.heads := by
  have hos (os : List OpenNode) :
      (noteFirst r.start os).map (fun o => (o.node, o.extent)) =
      os.map fun o => (o.node, o.extent) := by
    induction os with
    | nil => rfl
    | cons o os ih =>
        unfold noteFirst
        split
        · rfl
        · rw [List.map_cons, List.map_cons, ih]
  exact hos w.opened

theorem heads_start [Sink W] :
    (Sink.put t w (.start i)).heads = (i, Extent.ofKind (t.kind i)) :: w.heads := by
  obtain ⟨inner, opened, plan, located⟩ := w
  cases opened <;> rfl

theorem heads_finish [Sink W] {x : NodeId × Extent} {hs : List (NodeId × Extent)}
    (h : w.heads = x :: hs) :
    (∃ es outer, w.outline = (x.1, x.2, es) :: outer) ∧ (Sink.put t w (.finish i)).heads = hs := by
  obtain ⟨inner, opened, plan, located⟩ := w
  cases opened with
  | nil => cases h
  | cons o os =>
      cases h
      exact ⟨⟨_, _, rfl⟩, rfl⟩

structure Noting (a : Option Location) (w w' : Recording Composed) : Prop where
  moves : Composed.Moves w.inner w'.inner a
  heads : w'.heads = w.heads
  firsts : w'.firsts = noteAny a w.firsts
  located : w.located ⊆ w'.located

variable {w : Recording Composed}

theorem Noting.silent (hc : c.writesWord t = false)
    (h : Sink.put t w c = { w with inner := Sink.put t w.inner c }) :
    Noting none w (Sink.put t w c) := by
  rw [h]
  exact ⟨.silent hc, rfl, rfl, fun _ hy => hy⟩

theorem Noting.word (hc : c.writesWord t = true) : ∃ a, Noting a w (Sink.put t w c) := by
  have hinner : (Sink.put t w c).inner = Sink.put t w.inner c := respects_inner.put _ _
  obtain ⟨r, hr, -⟩ := Composed.rising.word w.inner hc
  have hput : Sink.put t w c =
      (note { w with inner := Sink.put t w.inner c } r).recordToken r c := by
    cases c with
    | identifier | keyword | token | literal | primitiveType =>
        simp only [Sink.put, put] at hr ⊢
        simp only [hr]
    | _ => cases hc
  have hextends : Extends (note { w with inner := Sink.put t w.inner c } r) (Sink.put t w c) :=
    hput ▸ Extends.refl.recordToken
  exact ⟨some r.start, hinner ▸ .word hc hr, hextends.heads.trans heads_note,
    hextends.firsts.trans firsts_note, hextends.located⟩

theorem Noting.comment {kind : CommentKind} {content : String} :
    ∃ a, Noting a w (Sink.put t w (.special (.comment kind content))) := by
  have hinner : (Sink.put t w (.special (.comment kind content))).inner = Sink.put t w.inner _ :=
    respects_inner.put _ _
  have hput : Sink.put t w (.special (.comment kind content)) =
      put t w (.special (.comment kind content)) := rfl
  simp only [put] at hput
  split at hput
  · rename_i r hr
    have hextends : Extends (note { w with inner := _ } r) (Sink.put t w _) :=
      hput ▸ Extends.refl.locateIf
    exact ⟨some r.start, hinner ▸ .comment (start_of_commentRange hr),
      hextends.heads.trans heads_note, hextends.firsts.trans firsts_note, hextends.located⟩
  · exact ⟨none, .silent rfl hput⟩

theorem exists_noting (hs : ∀ i, c ≠ .start i) (hf : ∀ i, c ≠ .finish i)
    (hn : ∀ i, c = .identifier i → c.writesWord t = true) : ∃ a, Noting a w (Sink.put t w c) := by
  cases hc : c.writesWord t with
  | true => exact Noting.word hc
  | false =>
      cases c with
      | special k =>
          cases k with
          | directive => exact ⟨none, .silent hc rfl⟩
          | comment kind content => exact Noting.comment
      | space | indent | unindent | newLine => exact ⟨none, .silent hc rfl⟩
      | identifier i =>
          rw [hn i rfl] at hc
          cases hc
      | start i => exact absurd rfl (hs i)
      | finish i => exact absurd rfl (hf i)
      | keyword | token | literal | primitiveType => cases hc

end Recording

end TreeScribe
