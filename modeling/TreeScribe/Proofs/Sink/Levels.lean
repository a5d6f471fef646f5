import TreeScribe.Proofs.Sink.Rising

namespace TreeScribe

def Call.shift (level : Nat) : Call → Nat
  | .indent => level + 1
  | .unindent => level - 1
  | _ => level

def Call.shifts : Call → Bool
  | .indent | .unindent => true
  | _ => false

/-- What layers add of their own neither indents nor writes words. -/
theorem Call.of_isAdded {t : Tree} {c : Call} (h : c.isAdded = true) :
    c.shifts = false ∧ c.writesWord t = false := by
  cases c with
  | start | finish | special | space => exact ⟨rfl, rfl⟩
  | _ => cases h

theorem Call.ne_unindent_of_isAdded {c : Call} (h : c.isAdded = true) : c ≠ .unindent := by
  rintro rfl
  cases h

theorem Call.shift_of_not {c : Call} {n : Nat} (hc : c.shifts = false) : c.shift n = n := by
  cases c with
  | indent | unindent => cases hc
  | _ => rfl

namespace TextSink

variable {t : Tree} {w : TextSink} {n m : Nat} {text : String} {c : Call}

theorem level_settle : w.settle.level = w.level := by
  unfold settle
  split <;> rfl

theorem level_put (hc : c.shifts = false) : (w.put t c).level = w.level := by
  cases c with
  | identifier i =>
      simp only [put]
      split
      · exact level_settle
      · rfl
  | special k =>
      cases k with
      | comment kind content => cases kind <;> exact level_settle
      | directive kind argument =>
          simp only [put, directive, newLine, append, level_settle]
          split <;> rfl
  | keyword | token | primitiveType | literal | space => exact level_settle
  | start | finish | newLine => rfl
  | indent | unindent => cases hc

/-- The offset behind `n` levels, if the indentation of the line is still to be written, and else
behind the text. -/
def floor (n : Nat) (w : TextSink) : Nat :=
  w.place.offset + if w.isPending then n * w.unit.utf8ByteSize else 0

theorem floor_zero : w.floor 0 = w.place.offset := by simp [floor]

theorem floor_mono (h : n ≤ m) : w.floor n ≤ w.floor m := by
  unfold floor
  split
  · exact Nat.add_le_add_left (Nat.mul_le_mul_right _ h) _
  · exact Nat.le_refl _

theorem offset_nextPlace_eq : w.nextPlace.offset = w.floor w.level := by
  unfold nextPlace floor
  split <;> rfl

structure Above (n m : Nat) (w : TextSink) : Prop where
  level : n ≤ w.level
  floor : m ≤ w.floor n

namespace Above

theorem next (h : Above n m w) : m ≤ w.nextPlace.offset :=
  offset_nextPlace_eq ▸ h.floor.trans (floor_mono h.level)

theorem settle (h : Above n m w) : Above n m w.settle := by
  refine ⟨level_settle.symm ▸ h.level, h.next.trans ?_⟩
  rw [← place_settle]
  exact Nat.le_add_right _ _

theorem append (h : Above n m w) : Above n m (w.append text) :=
  ⟨h.level, h.floor.trans (Nat.add_le_add_right (w.place.offset_le_advance _) _)⟩

theorem newLine (h : Above n m w) : Above n m w.newLine := by
  refine ⟨h.level, h.floor.trans (Nat.add_le_add (w.place.offset_le_advance ['\n']) ?_)⟩
  split
  · exact Nat.le_refl _
  · exact Nat.zero_le _

theorem word (h : Above n m w) : Above n m (w.word text) := by
  have happend : Above n m (w.settle.append text) := h.settle.append
  exact ⟨happend.level, happend.floor⟩

theorem put (hc : c ≠ .unindent) (h : Above n m w) : Above n m (w.put t c) := by
  cases c with
  | identifier i =>
      simp only [TextSink.put]
      split
      · exact h.word
      · exact h
  | keyword | token | primitiveType | literal => exact h.word
  | special k =>
      cases k with
      | comment kind content =>
          cases kind with
          | line | documentation => exact h.settle.append.newLine
          | block | inactive => exact h.settle.append
      | directive kind argument =>
          have hfresh : Above n m (if w.isFresh then w else w.newLine) := by
            split
            · exact h
            · exact h.newLine
          exact hfresh.settle.append.newLine
  | space => exact h.settle.append
  | newLine => exact h.newLine
  | start | finish => exact h
  | indent => exact ⟨Nat.le_succ_of_le h.level, h.floor⟩
  | unindent => exact absurd rfl hc

theorem keeps : Sink.Keeps t (· ≠ .unindent) (Above n m) := fun _ _ hc h => h.put hc

end Above

theorem last_put (hc : c.writesWord t = false) : (w.put t c).last = w.last := by
  have hsettle (w : TextSink) : w.settle.last = w.last := by
    unfold settle
    split <;> rfl
  cases c with
  | identifier i =>
      have hnone : identifierText? t i = none := by simpa [Call.writesWord] using hc
      rw [put, hnone]
  | special k =>
      cases k with
      | comment kind content => cases kind <;> exact hsettle w
      | directive kind argument =>
          simp only [put, directive, newLine, append, hsettle]
          split <;> rfl
  | space => exact hsettle w
  | start | finish | indent | unindent | newLine => rfl
  | keyword | token | literal | primitiveType => cases hc

end TextSink

namespace Composed

variable {t : Tree} {w : Composed} {c : Call} {n : Nat}

def level (w : Composed) : Nat := w.inner.inner.level

def floor (n : Nat) (w : Composed) : Nat := w.inner.inner.floor n

theorem keeps {q : Call → Prop} {I : TextSink → Prop} (hq : ∀ c, c.isAdded = true → q c)
    (h : Sink.Keeps t q I) : Sink.Keeps t q fun w : Composed => I w.inner.inner :=
  Replaying.keeps hq (Spaced.keeps hq h)

theorem level_put : (Sink.put t w c).level = c.shift w.level := by
  cases hc : c.shifts with
  | true =>
      cases c with
      | indent | unindent => rfl
      | _ => cases hc
  | false =>
      have hkeeps : Sink.Keeps t (fun c => c.shifts = false) fun v : TextSink => v.level =
        w.level :=
        fun v c hc hv => (TextSink.level_put hc).trans hv
      rw [Call.shift_of_not hc]
      exact keeps (fun c ha => (Call.of_isAdded (t := t) ha).1) hkeeps w c hc rfl

theorem floor_mono {m : Nat} (h : n ≤ m) : w.floor n ≤ w.floor m := TextSink.floor_mono h

theorem exists_location (w : Composed) :
    ∃ l, Sink.location w = some l ∧ l.offset = w.floor w.level :=
  ⟨_, rfl, TextSink.offset_nextPlace_eq⟩

theorem mark_le_floor : w.mark ≤ w.floor n := Nat.le_add_right _ _

/-- No call lowers the floor at a level that the text has. -/
theorem floor_put (hn : n ≤ w.level) : w.floor n ≤ (Sink.put t w c).floor n := by
  by_cases hc : c = .unindent
  · subst hc
    exact Nat.le_refl _
  · exact (keeps (fun _ => Call.ne_unindent_of_isAdded) TextSink.Above.keeps w c hc
      ⟨hn, Nat.le_refl _⟩).floor

theorem lastRange_put (hc : c.writesWord t = false) :
    Sink.lastRange (Sink.put t w c) = Sink.lastRange w := by
  have hkeeps : Sink.Keeps t (fun c => c.writesWord t = false) fun v : TextSink => v.last =
    Sink.lastRange w :=
    fun v c hc hv => (TextSink.last_put hc).trans hv
  exact keeps (fun c ha => (Call.of_isAdded ha).2) hkeeps w c hc rfl

theorem floor_le_word {r : TextRange} (hn : n ≤ w.level) (hc : c.writesWord t = true)
    (hr : Sink.lastRange (Sink.put t w c) = some r) : w.floor n ≤ r.start.offset := by
  have habove : w.inner.inner.Above n (w.floor n) := ⟨hn, Nat.le_refl _⟩
  obtain ⟨v, hv, hput⟩ := exists_put_of_keeps (t := t) (fun _ => Call.ne_unindent_of_isAdded)
    TextSink.Above.keeps habove hc
  have hlast : (v.put t c).last = some r := (congrArg TextSink.last hput).symm.trans hr
  have hword (text : String) (hw : (v.word text).last = some r) : w.floor n ≤ r.start.offset := by
    cases hw
    exact hv.next.trans (Nat.le_of_eq (congrArg Location.offset TextSink.place_settle.symm))
  cases c with
  | identifier i =>
      obtain ⟨text, ht⟩ := Option.isSome_iff_exists.mp hc
      rw [TextSink.put, ht] at hlast
      exact hword text hlast
  | keyword | token | primitiveType | literal => exact hword _ hlast
  | _ => cases hc

end Composed

end TreeScribe
