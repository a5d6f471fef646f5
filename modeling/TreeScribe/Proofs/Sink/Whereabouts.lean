import TreeScribe.Proofs.Sink.Levels
import TreeScribe.Proofs.Text.Lines

namespace TreeScribe

namespace TextSink

def putEach (w : TextSink) (calls : List (Tree × Call)) : TextSink :=
  calls.foldl (fun w x => w.put x.1 x.2) w

def extended (w : TextSink) : String := w.output ++ if w.isPending then w.indentation else ""

def lastWord? (limit : Option Nat) (calls : List (Tree × Call)) : Option String :=
  (calls.filter fun x => x.2.writesWord x.1).getLast?.map fun x => x.2.word x.1 limit

/-- No level above zero is taken back while the indentation is still to be written. -/
def HoldsLevel : TextSink → List (Tree × Call) → Prop
  | _, [] => True
  | w, x :: calls => (x.2 = .unindent → w.isPending = false ∨ w.level = 0) ∧
      HoldsLevel (w.put x.1 x.2) calls

def Ranges (text : List Char) : Option TextRange → Option String → Prop
  | some r, some word => ∃ before after, text = before ++ word.toList ++ after ∧
      r.start = Location.first.advance before ∧
      r.stop = Location.first.advance (before ++ word.toList)
  | last, word => last = none ∧ word = none

variable {unit : String} {limit : Option Nat} {w w' w'' : TextSink} {t : Tree} {c : Call}
  {text : String}
  {calls more : List (Tree × Call)} {x : Tree × Call} {word : Option String} {r r' : TextRange}

theorem putEach_append : w.putEach (calls ++ more) = (w.putEach calls).putEach more :=
  List.foldl_append

theorem putEach_concat : w.putEach (calls ++ [x]) = (w.putEach calls).put x.1 x.2 := putEach_append

theorem lastWord?_concat : lastWord? limit (calls ++ [x]) =
    if x.2.writesWord x.1 then some (x.2.word x.1 limit) else lastWord? limit calls := by
  rw [lastWord?, List.filter_append]
  split
  · rename_i hx
    simp [hx]
  · rename_i hx
    simp [hx, lastWord?]

theorem Ranges.mono {a b : List Char} {last : Option TextRange} (h : Ranges a last word)
    (hab : a <+: b) : Ranges b last word := by
  cases last with
  | none => exact h
  | some r =>
      cases word with
      | none => exact h
      | some word =>
          obtain ⟨before, after, rfl, hstart, hstop⟩ := h
          obtain ⟨more, rfl⟩ := hab
          exact ⟨before, after ++ more, by simp, hstart, hstop⟩

theorem output_prefix : w.output.toList <+: (w.put t c).output.toList :=
  stable_starts w c (List.prefix_refl _)

structure Oriented (unit : String) (limit : Option Nat) (word : Option String)
    (w : TextSink) : Prop where
  standing : Standing unit limit [] w
  ranges : Ranges w.output.toList w.last word

namespace Oriented

theorem new : Oriented unit limit none (.new unit limit) :=
  ⟨⟨rfl, rfl, rfl, List.nil_prefix⟩, rfl, rfl⟩

theorem put (hu : '\n' ∉ unit.toList) (h : Oriented unit limit word w) (x : Tree × Call) :
    Oriented unit limit (if x.2.writesWord x.1 then some (x.2.word x.1 limit) else word)
      (w.put x.1 x.2) := by
  refine ⟨h.standing.put hu x.2, ?_⟩
  split
  · rename_i hx
    obtain ⟨r, before, hlast, hstart, hstop, hout, -⟩ := put_word hu h.standing hx
    rw [hlast]
    exact ⟨before, [], by rw [hout, List.append_nil], hstart, hout ▸ hstop⟩
  · rename_i hx
    rw [last_put (by simpa using hx)]
    exact h.ranges.mono output_prefix

theorem putEach (hu : '\n' ∉ unit.toList) (calls : List (Tree × Call)) :
    Oriented unit limit (lastWord? limit calls) ((TextSink.new unit limit).putEach calls) := by
  induction calls using List.reverseRecOn with
  | nil => exact new
  | append_singleton calls x ih =>
      rw [putEach_concat, lastWord?_concat]
      exact ih.put hu x

theorem nextPlace (hu : '\n' ∉ unit.toList) (h : Oriented unit limit word w) :
    w.nextPlace = Position.locate w.extended w.extended.utf8ByteSize := by
  rw [Position.locate_utf8ByteSize, extended, String.toList_append]
  cases hp : w.isPending with
  | true => rw [if_pos rfl, h.standing.nextPlace hu hp, h.standing.place, Position.advance_append]
  | false => simp [TextSink.nextPlace, hp, h.standing.place]

end Oriented

theorem nextPlace_of_pending (hp : w.isPending = true) : w.nextPlace =
    ⟨w.place.line, w.place.column + w.level * w.unit.length,
        w.place.offset + w.level * w.unit.utf8ByteSize⟩ :=
  if_pos hp

theorem nextPlace_of_not (hp : w.isPending = false) : w.nextPlace = w.place := by
  simp [nextPlace, hp]

theorem precedes_nextPlace : w.place.Precedes w.nextPlace := by
  cases hp : w.isPending with
  | true =>
      rw [nextPlace_of_pending hp]
      exact Location.precedes_iff.mpr ⟨.inr ⟨rfl, Nat.le_add_right _ _⟩, Nat.le_add_right _ _⟩
  | false =>
      rw [nextPlace_of_not hp]
      exact .refl _

theorem line_nextPlace : w.nextPlace.line = w.place.line := by
  unfold nextPlace
  split <;> rfl

theorem isPending_settle : w.settle.isPending = false := by
  unfold settle
  split
  · rfl
  · rename_i hp
    simpa using hp

theorem nextPlace_settle : w.settle.nextPlace = w.nextPlace :=
  (nextPlace_of_not isPending_settle).trans place_settle

theorem precedes_settle_append : w.nextPlace.Precedes (w.settle.append text).nextPlace := by
  have hp : (w.settle.append text).isPending = false := isPending_settle (w := w)
  rw [nextPlace_of_not hp, ← nextPlace_settle, nextPlace_of_not isPending_settle]
  exact Location.precedes_advance

theorem precedes_word : w.nextPlace.Precedes (w.word text).nextPlace := by
  have h : w.nextPlace.Precedes (w.settle.append text).nextPlace := precedes_settle_append
  exact h

theorem precedes_newLine : w.nextPlace.Precedes w.newLine.nextPlace := by
  have hline : w.newLine.place.line = w.place.line + 1 := rfl
  have hoffset : w.newLine.place.offset = w.place.offset + 1 := Location.offset_step _ _
  have hpending : w.newLine.isPending = true := rfl
  have hlevel : w.newLine.level * w.newLine.unit.utf8ByteSize = w.level * w.unit.utf8ByteSize := rfl
  rw [Location.precedes_iff, line_nextPlace, line_nextPlace, offset_nextPlace_eq,
    offset_nextPlace_eq, floor, floor, if_pos hpending, hlevel, hline, hoffset]
  refine ⟨.inl (Nat.lt_succ_self _), ?_⟩
  split <;> omega

/-- Only a level that is taken back takes the place back. -/
theorem precedes_put (hc : c = .unindent → w.isPending = false ∨ w.level = 0) :
    w.nextPlace.Precedes (w.put t c).nextPlace := by
  cases c with
  | identifier i =>
      simp only [put]
      split
      · exact precedes_word
      · exact .refl _
  | keyword | token | primitiveType | literal => exact precedes_word
  | special k =>
      cases k with
      | comment kind content =>
          cases kind with
          | line | documentation => exact precedes_settle_append.trans precedes_newLine
          | block | inactive => exact precedes_settle_append
      | directive kind argument =>
          have hfresh : w.nextPlace.Precedes (if w.isFresh then w else w.newLine).nextPlace := by
            split
            · exact .refl _
            · exact precedes_newLine
          exact (hfresh.trans precedes_settle_append).trans precedes_newLine
  | space => exact precedes_settle_append
  | newLine => exact precedes_newLine
  | start | finish => exact .refl _
  | indent =>
      cases hp : w.isPending with
      | true =>
          have hn : (w.put t .indent).nextPlace =
            ⟨w.place.line, w.place.column + (w.level + 1) * w.unit.length,
              w.place.offset + (w.level + 1) * w.unit.utf8ByteSize⟩ := if_pos hp
          rw [nextPlace_of_pending hp, hn, Location.precedes_iff, Nat.succ_mul, Nat.succ_mul]
          exact ⟨.inr ⟨rfl, by simp only; omega⟩, by simp only; omega⟩
      | false =>
          rw [nextPlace_of_not hp, nextPlace_of_not (w := w.put t .indent) hp]
          exact .refl _
  | unindent =>
      cases hc rfl with
      | inl hp =>
          rw [nextPlace_of_not hp, nextPlace_of_not (w := w.put t .unindent) hp]
          exact .refl _
      | inr hl =>
          have hlevel : w.level - 1 = w.level := by omega
          have hsame : w.put t .unindent = w := by rw [put, hlevel]
          rw [hsame]
          exact .refl _

theorem precedes_putEach (h : w.HoldsLevel more) :
    w.nextPlace.Precedes (w.putEach more).nextPlace := by
  induction more generalizing w with
  | nil => exact .refl _
  | cons x more ih => exact (precedes_put h.1).trans (ih h.2)

/-- A level that is taken back while it is still to be written takes the place back by one unit. -/
theorem nextPlace_unindent (hp : w.isPending = true) (hl : w.level ≠ 0) :
    w.nextPlace = ⟨(w.put t .unindent).nextPlace.line, (w.put t .unindent).nextPlace.column +
        w.unit.length,
      (w.put t .unindent).nextPlace.offset + w.unit.utf8ByteSize⟩ := by
  obtain ⟨n, hn⟩ := Nat.exists_eq_succ_of_ne_zero hl
  have hunindent : (w.put t .unindent).nextPlace =
    ⟨w.place.line, w.place.column + (w.level - 1) * w.unit.length,
      w.place.offset + (w.level - 1) * w.unit.utf8ByteSize⟩ := if_pos hp
  rw [nextPlace_of_pending hp, hunindent, hn, Nat.succ_sub_one, Nat.succ_mul, Nat.succ_mul,
    Nat.add_assoc, Nat.add_assoc]

namespace Oriented

theorem precedes_place (h : Oriented unit limit word w) (hr : w.last = some r) :
    r.stop.Precedes w.place := by
  have hranges := h.ranges
  rw [hr] at hranges
  cases word with
  | none => cases hranges.1
  | some word =>
      obtain ⟨before, after, htext, -, hstop⟩ := hranges
      rw [hstop, h.standing.place, htext, Position.advance_append (a := before ++ word.toList)]
      exact Location.precedes_advance

theorem last_putEach (hu : '\n' ∉ unit.toList) (h : Oriented unit limit word w)
    (more : List (Tree × Call)) :
    Standing unit limit w.output.toList (w.putEach more) ∧
      ((w.putEach more).last = w.last ∨ ∃ r, (w.putEach more).last = some r ∧
        w.place.Precedes r.start) := by
  induction more using List.reverseRecOn with
  | nil =>
      exact ⟨⟨h.standing.unit, h.standing.limit, h.standing.place, List.prefix_refl _⟩, .inl rfl⟩
  | append_singleton more x ih =>
      rw [putEach_concat]
      refine ⟨ih.1.put hu x.2, ?_⟩
      cases hx : x.2.writesWord x.1 with
      | false =>
          rw [last_put hx]
          exact ih.2
      | true =>
          obtain ⟨r, before, hlast, hstart, -, -, hbefore⟩ := put_word hu ih.1 hx
          obtain ⟨rest, rfl⟩ := hbefore
          refine .inr ⟨r, hlast, ?_⟩
          rw [hstart, h.standing.place, Position.advance_append]
          exact Location.precedes_advance

theorem precedes_later (hu : '\n' ∉ unit.toList) (h : Oriented unit limit word w)
    (more : List (Tree × Call)) (hr : w.last = some r) (hr' : (w.putEach more).last = some r') :
    r' = r ∨ r.stop.Precedes r'.start := by
  rcases (h.last_putEach hu more).2 with hlast | ⟨r'', hlast, hplace⟩
  · exact .inl (Option.some.inj (hr'.symm.trans (hlast.trans hr)))
  · cases Option.some.inj (hr'.symm.trans hlast)
    exact .inr ((h.precedes_place hr).trans hplace)

theorem wordAt {last : String} (h : Oriented unit limit (some last) w) :
    ∃ r, Sink.lastRange w = some r ∧
    r.stop.offset ≤ w.output.utf8ByteSize ∧ Position.WordAt w.output r last := by
  have hranges := h.ranges
  cases hr : w.last with
  | none =>
      rw [hr] at hranges
      cases hranges.2
  | some r =>
      rw [hr] at hranges
      obtain ⟨before, after, htext, hstart, hstop⟩ := hranges
      refine ⟨r, hr, ?_, Position.wordAt_of_append htext hstart hstop⟩
      rw [hstop, Position.offset_advance_first, Position.utf8ByteSize_eq, htext]
      exact Position.bytes_le_of_prefix (List.prefix_append _ _)

theorem lastRange_eq_none (h : Oriented unit limit none w) : Sink.lastRange w = none := by
  have hranges := h.ranges
  cases hr : w.last with
  | none => exact hr
  | some r =>
      rw [hr] at hranges
      cases hranges.1

end Oriented

/-- The text sink knows where it is. After any calls, whatever their texts, it tells the place
behind the text and its pending indentation, and the range that holds the last word. The range of a
later word is behind that of an earlier one, and the place does not go back either, but for a level
that is taken back before it was written. -/
theorem putEach_located (unit : String) (limit : Option Nat) (hu : '\n' ∉ unit.toList)
    (calls more : List (Tree × Call)) :
    let w := (TextSink.new unit limit).putEach calls
    Sink.location w = some (Position.locate w.extended w.extended.utf8ByteSize) ∧
    (match lastWord? limit calls with
      | some word => ∃ r, Sink.lastRange w = some r ∧ r.stop.offset ≤ w.output.utf8ByteSize ∧
          Position.WordAt w.output r word
      | none => Sink.lastRange w = none) ∧
    (∀ r ∈ Sink.lastRange w, r.stop.Precedes w.nextPlace ∧
      ∀ r' ∈ Sink.lastRange (w.putEach more), r' = r ∨ r.stop.Precedes r'.start) ∧
    (w.HoldsLevel more → w.nextPlace.Precedes (w.putEach more).nextPlace) ∧
    ∀ t, w.isPending = true → w.level ≠ 0 → w.nextPlace =
      ⟨(w.put t .unindent).nextPlace.line, (w.put t .unindent).nextPlace.column + unit.length,
        (w.put t .unindent).nextPlace.offset + unit.utf8ByteSize⟩ := by
  intro w
  have h : Oriented unit limit (lastWord? limit calls) w := .putEach hu calls
  refine ⟨congrArg some (h.nextPlace hu), ?_,
    fun r hr => ⟨?_, fun r' hr' => h.precedes_later hu more hr hr'⟩, precedes_putEach,
    fun t hp hl => h.standing.unit ▸ nextPlace_unindent hp hl⟩
  · split
    · rename_i word hw
      exact Oriented.wordAt (hw ▸ h)
    · rename_i hw
      exact Oriented.lastRange_eq_none (hw ▸ h)
  · exact (h.precedes_place hr).trans precedes_nextPlace

def commentCalls : List (Tree × Call) :=
  [.indent, .newLine, .special (.comment .block "a\nb"), .token (.token ";") ";", .newLine].map
    (.empty, ·)

theorem putEach_located_comment : '\n' ∉ "\t".toList ∧
    let w := (TextSink.new "\t" none).putEach commentCalls
    let more := [(Tree.empty, .unindent), (Tree.empty, .keyword (.token "x") "x")]
    w.output = "\n\t/*a\nb*/;\n" ∧ Sink.location w = some ⟨4, 2, 12⟩ ∧
      Position.locate w.extended w.extended.utf8ByteSize = ⟨4, 2, 12⟩ ∧
      (∃ r, Sink.lastRange w = some r ∧ Position.WordAt w.output r ";") ∧
      ∀ r ∈ Sink.lastRange w, ∀ r' ∈ Sink.lastRange (w.putEach more), r' = r ∨
      r.stop.Precedes r'.start := by
  have hu : '\n' ∉ "\t".toList := by decide
  refine ⟨hu, ?_⟩
  intro w more
  obtain ⟨hlocation, hlast, hranges, -, -⟩ := putEach_located "\t" none hu commentCalls more
  have hplace : Sink.location w = some ⟨4, 2, 12⟩ := by decide +kernel
  have hword : lastWord? none commentCalls = some ";" := by decide +kernel
  rw [hword] at hlast
  obtain ⟨r, hr, -, hw⟩ := hlast
  exact ⟨by decide +kernel, hplace, Option.some.inj (hlocation.symm.trans hplace), ⟨r, hr, hw⟩,
    fun r hr => (hranges r hr).2⟩

/-- An indentation that is never written is not told any more. -/
theorem location_goes_back : '\n' ∉ "\t".toList ∧
    let w := (TextSink.new "\t" none).putEach [(.empty, .indent)]
    Sink.location w = some ⟨1, 2, 1⟩ ∧ Sink.location (w.put .empty .unindent) = some ⟨1, 1, 0⟩ ∧
      ¬ (⟨1, 2, 1⟩ : Location).Precedes ⟨1, 1, 0⟩ := by
  refine ⟨by decide, by decide +kernel, by decide +kernel, fun h => ?_⟩
  exact absurd h.offset (by decide)

end TextSink

end TreeScribe
