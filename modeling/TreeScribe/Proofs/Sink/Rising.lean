import TreeScribe.Proofs.Sink.Standing

namespace TreeScribe

/-- `mark` is an offset that no call takes back. The range of the last word stays, or is behind the
mark; a word has one that is, and a comment starts behind it. -/
structure Sink.Rising {W : Type} [Sink W] (t : Tree) (mark : W → Nat) : Prop where
  grows (w : W) (c : Call) : mark w ≤ mark (Sink.put t w c)
  last (w : W) (c : Call) : Sink.lastRange (Sink.put t w c) = Sink.lastRange w ∨
    ∃ r, Sink.lastRange (Sink.put t w c) = some r ∧ mark w ≤ r.start.offset ∧
    r.stop.offset ≤ mark (Sink.put t w c)
  word (w : W) {c : Call} (hc : c.writesWord t = true) :
    ∃ r, Sink.lastRange (Sink.put t w c) = some r ∧
    mark w ≤ r.start.offset ∧ r.stop.offset ≤ mark (Sink.put t w c)
  comment (w : W) (kind : CommentKind)
    (content : String) {l : Location} (hl : Sink.location w = some l) :
    mark w ≤ l.offset ∧ l.offset ≤ mark (Sink.put t w (.special (.comment kind content)))

theorem Sink.Rising.grows_all {W : Type} [Sink W] {t : Tree} {mark : W → Nat}
    (h : Sink.Rising t mark) {w : W} {l : List Call} : mark w ≤ mark (Sink.putAll t w l) := by
  induction l generalizing w with
  | nil => exact Nat.le_refl _
  | cons c l ih => exact (h.grows w c).trans ih

namespace TextSink

variable {t : Tree} {w w' w'' : TextSink} {text : String} {c : Call}

structure Later (w w' : TextSink) : Prop where
  place : w.place.offset ≤ w'.place.offset
  last : w'.last = w.last ∨ ∃ r, w'.last = some r ∧ w.place.offset ≤ r.start.offset ∧
    r.stop.offset ≤ w'.place.offset

namespace Later

theorem refl : Later w w := ⟨Nat.le_refl _, .inl rfl⟩

theorem trans (h : Later w w') (h' : Later w' w'') : Later w w'' := by
  refine ⟨h.place.trans h'.place, ?_⟩
  rcases h'.last with hl | ⟨r, hr, hstart, hstop⟩
  · rw [hl]
    exact h.last.imp id fun ⟨r, hr, hstart, hstop⟩ => ⟨r, hr, hstart, hstop.trans h'.place⟩
  · exact .inr ⟨r, hr, h.place.trans hstart, hstop⟩

theorem settle : Later w w.settle := by
  unfold TextSink.settle TextSink.nextPlace
  split
  · exact ⟨Nat.le_add_right _ _, .inl rfl⟩
  · exact refl

theorem append : Later w (w.append text) := ⟨w.place.offset_le_advance _, .inl rfl⟩

theorem newLine : Later w w.newLine := ⟨w.place.offset_le_advance ['\n'], .inl rfl⟩

end Later

theorem offset_nextPlace : w.place.offset ≤ w.nextPlace.offset := by
  unfold nextPlace
  split
  · exact Nat.le_add_right _ _
  · exact Nat.le_refl _

theorem place_settle : w.settle.place = w.nextPlace := by
  unfold settle
  split
  · rfl
  · rename_i hp
    rw [nextPlace, if_neg hp]

theorem exists_last_word (w : TextSink) (text : String) : ∃ r, (w.word text).last = some r ∧
    w.place.offset ≤ r.start.offset ∧ r.stop.offset ≤ (w.word text).place.offset :=
  ⟨_, rfl, Later.settle.place, Nat.le_refl _⟩

theorem later_word : Later w (w.word text) := by
  obtain ⟨r, hr, hstart, hstop⟩ := exists_last_word w text
  exact ⟨hstart.trans (r.ordered.trans hstop), .inr ⟨r, hr, hstart, hstop⟩⟩

theorem later_comment (kind : CommentKind) (content : String) :
    Later w.settle (w.comment kind content) := by
  cases kind with
  | line | documentation => exact Later.append.trans .newLine
  | block | inactive => exact .append

theorem later_put : Later w (w.put t c) := by
  cases c with
  | identifier i =>
      simp only [put]
      split
      · exact later_word
      · exact .refl
  | keyword | token | primitiveType | literal => exact later_word
  | special k =>
      cases k with
      | comment kind content => exact Later.settle.trans (later_comment kind content)
      | directive kind argument =>
          have hfresh : Later w (if w.isFresh then w else w.newLine) := by
            split
            · exact .refl
            · exact .newLine
          exact ((hfresh.trans .settle).trans .append).trans .newLine
  | space => exact Later.settle.trans .append
  | newLine => exact .newLine
  | start | finish | indent | unindent => exact ⟨Nat.le_refl _, .inl rfl⟩

theorem stable_later : Sink.Stable t (Later w) := fun _ _ h => h.trans later_put

theorem exists_last_put (hc : c.writesWord t = true) : ∃ r, (w.put t c).last = some r ∧
    w.place.offset ≤ r.start.offset ∧ r.stop.offset ≤ (w.put t c).place.offset := by
  cases c with
  | identifier i =>
      obtain ⟨text, ht⟩ := Option.isSome_iff_exists.mp hc
      rw [put, ht]
      exact exists_last_word _ _
  | keyword | token | primitiveType | literal => exact exists_last_word _ _
  | _ => cases hc

end TextSink

namespace Composed

variable {t : Tree}

def mark (w : Composed) : Nat := w.inner.inner.place.offset

theorem rising : Sink.Rising t mark where
  grows w c := ((stable TextSink.stable_later) w c .refl).place
  last w c := ((stable TextSink.stable_later) w c .refl).last
  word w c hc := by
    obtain ⟨w', hlater, hput⟩ := exists_put TextSink.stable_later .refl hc
    obtain ⟨r, hr, hstart, hstop⟩ := TextSink.exists_last_put (w := w') hc
    refine ⟨r, (congrArg TextSink.last hput).trans hr, hlater.place.trans hstart, ?_⟩
    rw [mark, hput]
    exact hstop
  comment w kind content l hl := by
    cases hl
    refine ⟨TextSink.offset_nextPlace, ?_⟩
    have hcomment (v : TextSink) :
        v.nextPlace.offset ≤ (v.put t (.special (.comment kind content))).place.offset := by
      rw [← TextSink.place_settle]
      exact (TextSink.later_comment kind content).place
    change w.inner.inner.nextPlace.offset ≤
      (Sink.put t w.inner (.special (.comment kind content))).inner.place.offset
    simp only [Sink.put, Spaced.put]
    split
    · refine le_trans ?_ (TextSink.later_put (w := w.inner.inner.put t .space)).place
      rw [← TextSink.place_settle]
      exact TextSink.Later.append.place
    · exact hcomment _

end Composed

end TreeScribe
