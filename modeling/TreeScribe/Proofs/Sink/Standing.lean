import TreeScribe.Proofs.Sink.Layers
import TreeScribe.Proofs.Sink.Recorded
import TreeScribe.Proofs.Text.Position

namespace TreeScribe

def Call.writesWord (t : Tree) : Call → Bool
  | .identifier i => (TextSink.identifierText? t i).isSome
  | .keyword .. | .token .. | .literal _ | .primitiveType _ => true
  | _ => false

namespace TextSink

variable {unit : String} {limit : Option Nat} {pre : List Char} {w : TextSink} {t : Tree} {c : Call}

structure Standing (unit : String) (limit : Option Nat) (pre : List Char)
    (w : TextSink) : Prop where
  unit : w.unit = unit
  limit : w.limit = limit
  place : w.place = Location.first.advance w.output.toList
  starts : pre <+: w.output.toList

theorem toList_levels {n : Nat} {s : String} :
    ((List.replicate n unit).foldl (· ++ ·) s).toList = s.toList ++
    (List.replicate n unit.toList).flatten := by
  induction n generalizing s with
  | zero => simp
  | succ n ih =>
      rw [List.replicate_succ, List.foldl_cons, ih, String.toList_append, List.replicate_succ,
        List.flatten_cons, List.append_assoc]

namespace Standing

variable (hu : '\n' ∉ unit.toList)

include hu

theorem nextPlace (h : Standing unit limit pre w) (hp : w.isPending = true) :
    w.nextPlace = w.place.advance w.indentation.toList := by
  have hi : w.indentation.toList = (List.replicate w.level unit.toList).flatten := by
    rw [indentation, toList_levels, h.unit]
    rfl
  have hn : '\n' ∉ (List.replicate w.level unit.toList).flatten := by
    intro hm
    obtain ⟨l, hl, hm⟩ := List.mem_flatten.mp hm
    exact hu (List.eq_of_mem_replicate hl ▸ hm)
  rw [hi, Location.advance_of_notMem hn, Position.bytes_levels, TextSink.nextPlace, if_pos hp,
    h.unit, Position.utf8ByteSize_eq]
  simp [String.length_toList]

theorem settle (h : Standing unit limit pre w) : Standing unit limit pre w.settle := by
  unfold TextSink.settle
  split
  · rename_i hp
    refine ⟨h.unit, h.limit, ?_, ?_⟩
    · simp only [String.toList_append, h.nextPlace hu hp, h.place, Position.advance_append]
    · simp only [String.toList_append]
      exact h.starts.trans (List.prefix_append _ _)
  · exact h

omit hu in
theorem append (h : Standing unit limit pre w) (text : String) :
    Standing unit limit pre (w.append text) := by
  refine ⟨h.unit, h.limit, ?_, ?_⟩
  · simp only [TextSink.append, String.toList_append, h.place, Position.advance_append]
  · simp only [TextSink.append, String.toList_append]
    exact h.starts.trans (List.prefix_append _ _)

omit hu in
theorem newLine (h : Standing unit limit pre w) : Standing unit limit pre w.newLine := by
  refine ⟨h.unit, h.limit, ?_, ?_⟩
  · simp only [TextSink.newLine, String.toList_push, h.place, Position.advance_append]
    rfl
  · simp only [TextSink.newLine, String.toList_push]
    exact h.starts.trans (List.prefix_append _ _)

theorem word (h : Standing unit limit pre w) (text : String) :
    Standing unit limit pre (w.word text) := by
  have hs := (h.settle hu).append text
  exact ⟨hs.unit, hs.limit, hs.place, hs.starts⟩

theorem comment (h : Standing unit limit pre w) (kind : CommentKind) (content : String) :
    Standing unit limit pre (w.comment kind content) := by
  cases kind with
  | line | documentation => exact ((h.settle hu).append _).newLine
  | block | inactive => exact (h.settle hu).append _

theorem directive (h : Standing unit limit pre w) (kind : DirectiveKind) (argument : String) :
    Standing unit limit pre (w.directive kind argument) := by
  unfold TextSink.directive
  refine ((Standing.settle hu ?_).append _).newLine
  split
  · exact h
  · exact h.newLine

theorem put (h : Standing unit limit pre w) (c : Call) : Standing unit limit pre (w.put t c) := by
  cases c with
  | identifier i =>
      simp only [TextSink.put]
      split
      · exact h.word hu _
      · exact h
  | keyword _ text | token _ text | primitiveType text => exact h.word hu text
  | literal v => exact h.word hu _
  | special k =>
      cases k with
      | comment kind content => exact h.comment hu kind content
      | directive kind argument => exact h.directive hu kind argument
  | space => exact (h.settle hu).append _
  | newLine => exact h.newLine
  | start | finish | indent | unindent => exact ⟨h.unit, h.limit, h.place, h.starts⟩

end Standing

theorem put_word (hu : '\n' ∉ unit.toList) (h : Standing unit limit pre w)
    (hc : c.writesWord t = true) :
    ∃ rg before, (w.put t c).last = some rg ∧ rg.start = Location.first.advance before ∧
      rg.stop = Location.first.advance (w.put t c).output.toList ∧
      (w.put t c).output.toList = before ++ (c.word t limit).toList ∧ pre <+: before := by
  have hword (text : String) :
      ∃ rg before, (w.word text).last = some rg ∧ rg.start = Location.first.advance before ∧
        rg.stop = Location.first.advance (w.word text).output.toList ∧
        (w.word text).output.toList = before ++ text.toList ∧ pre <+: before := by
    have hs := h.settle hu
    refine ⟨_, w.settle.output.toList, rfl, hs.place, ?_, ?_, hs.starts⟩
    · exact (h.word hu text).place
    · simp [TextSink.word, TextSink.append]
  cases c with
  | identifier i =>
      obtain ⟨text, ht⟩ := Option.isSome_iff_exists.mp hc
      have hp : w.put t (.identifier i) = w.word text := by rw [put, ht]
      have hw : (Call.identifier i).word t limit = text := by rw [Call.word, ht, Option.getD_some]
      rw [hp, hw]
      exact hword text
  | keyword _ text | token _ text | primitiveType text => exact hword text
  | literal v =>
      have hp : w.put t (.literal v) = w.word (v.write w.limit).toText := rfl
      rw [hp, h.limit]
      exact hword _
  | _ => cases hc

end TextSink

namespace Composed

variable {t : Tree} {c : Call} {w : Composed} {I : TextSink → Prop}

theorem stable (h : Sink.Stable t I) : Sink.Stable t fun w : Composed => I w.inner.inner :=
  Replaying.stable (Spaced.stable h)

theorem exists_put_of_keeps {q : Call → Prop} (hq : ∀ c, c.isAdded = true → q c)
    (h : Sink.Keeps t q I) (hw : I w.inner.inner) (hc : c.writesWord t = true) :
    ∃ w' : TextSink, I w' ∧ (Sink.put t w c).inner.inner = Sink.put t w' c := by
  have hspaced {w : Spaced TextSink} (hw : I w.inner) :
      ∃ w' : TextSink, I w' ∧ (Sink.put t w c).inner = Sink.put t w' c := by
    refine ⟨_, ?_, rfl⟩
    split
    · exact h _ _ (hq _ rfl) hw
    · exact hw
  have hpassed {p : NodeId → Bool} : I (w.passTo t p).inner.inner :=
    Replaying.passTo_keeps hq (Spaced.keeps hq h) hw
  cases c with
  | identifier i => exact hspaced (hpassed (p := fun j => t.role j = Replaying.identifierRole t i))
  | keyword r text | token r text => exact hspaced (hpassed (p := fun j => t.role j = r))
  | literal | primitiveType => exact hspaced hw
  | _ => cases hc

theorem exists_put (h : Sink.Stable t I) (hw : I w.inner.inner) (hc : c.writesWord t = true) :
    ∃ w' : TextSink, I w' ∧ (Sink.put t w c).inner.inner = Sink.put t w' c :=
  exists_put_of_keeps (q := fun _ => True) (fun _ _ => trivial) h.keeps hw hc

end Composed

def textAfter (t : Tree) (p : Policy) (calls : List Call) : List Char :=
  (Sink.putAll t (Composed.new p) calls).text.toList

variable {t : Tree} {p : Policy} {l l' : List Call} {s : Spot} {I : TextSink → Prop}

theorem Sink.Stable.putAll {W : Type} [Sink W] {I : W → Prop} (h : Sink.Stable t I)
    {w : W} (hw : I w) : I (Sink.putAll t w l) := by
  induction l generalizing w with
  | nil => exact hw
  | cons c l ih => exact ih (h w c hw)

theorem TextSink.stable_starts {pre : List Char} :
    Sink.Stable t fun w : TextSink => pre <+: w.output.toList := by
  intro w c hw
  obtain ⟨s, -, ho⟩ := (TextSink.Writes.put (t := t) (w := w) c).output
  change pre <+: (w.put t c).output.toList
  rw [ho, String.toList_append]
  exact hw.trans (List.prefix_append _ _)

/-- The text only grows. -/
theorem textAfter_prefix : textAfter t p l <+: textAfter t p (l ++ l') := by
  rw [textAfter, textAfter, Sink.putAll_append]
  exact (Composed.stable TextSink.stable_starts).putAll (List.prefix_refl _)

/-- The range asked for behind a word holds it. -/
theorem Recording.exists_rangeAt (hp : '\n' ∉ p.indentation.toList)
    (hc : s.call.writesWord t = true) :
    ∃ rg before, rangeAt t (Composed.new p) s = some rg ∧ rg.start = Location.first.advance before ∧
      rg.stop = Location.first.advance (textAfter t p s.through) ∧
      textAfter t p s.through = before ++ (s.call.word t (p.stringLimit.map (·.toNat))).toList ∧
      textAfter t p s.before <+: before := by
  have hstable (pre : List Char) : Sink.Stable t
      (TextSink.Standing p.indentation (p.stringLimit.map (·.toNat)) pre) := fun _ c h => h.put hp c
  have hnew : TextSink.Standing p.indentation (p.stringLimit.map (·.toNat))
    [] (Composed.new p).inner.inner :=
    ⟨rfl, rfl, rfl, List.nil_prefix⟩
  have hs := (Composed.stable (hstable [])).putAll (l := s.before) hnew
  obtain ⟨w, hw, hput⟩ := Composed.exists_put (hstable (textAfter t p s.before))
    (w := Sink.putAll t (Composed.new p) s.before)
      ⟨hs.unit, hs.limit, hs.place, List.prefix_refl _⟩ hc
  have htext : textAfter t p s.through = (w.put t s.call).output.toList := by
    rw [textAfter, Spot.through, Sink.putAll_append, Composed.text]
    exact congrArg (fun w : TextSink => w.output.toList) hput
  have hrange : rangeAt t (Composed.new p) s = (w.put t s.call).last := by
    rw [rangeAt_eq]
    exact congrArg TextSink.last hput
  rw [hrange, htext]
  exact TextSink.put_word hp hw hc

end TreeScribe
