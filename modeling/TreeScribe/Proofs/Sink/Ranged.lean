import TreeScribe.Proofs.Sink.Rising

namespace TreeScribe

/-- The ranges that a sink gives to the tokens with a text, in the order in which they are sent. -/
def Sink.tokenRanges {W : Type} [Sink W] (t : Tree) (text : String) :
    W → List Call → List (Option TextRange)
  | _, [] => []
  | w, c :: calls =>
    (if c.isTokenOf text then [lastRange (put t w c)] else []) ++
    tokenRanges t text (put t w c) calls

namespace Sink

variable {W : Type} [Sink W] {t : Tree} {text : String} {w : W} {l l' : List Call}
  {r : Option TextRange}

theorem tokenRanges_append :
    tokenRanges t text w (l ++ l') = tokenRanges t text w l ++
      tokenRanges t text (putAll t w l) l' := by
  induction l generalizing w with
  | nil => rfl
  | cons c l ih =>
      rw [List.cons_append, tokenRanges, ih, ← List.append_assoc, tokenRanges, putAll_cons]

theorem tokenRanges_concat {role : Role} : tokenRanges t text w (l ++ [.token role text]) =
    tokenRanges t text w l ++ [lastRange (put t (putAll t w l) (.token role text))] := by
  simp [tokenRanges_append, tokenRanges, Call.isTokenOf]

theorem tokenRanges_append_of_forall (h : ∀ c ∈ l', c.isTokenOf text = false) :
    tokenRanges t text w (l ++ l') = tokenRanges t text w l := by
  have hnone (w : W) : tokenRanges t text w l' = [] := by
    induction l' generalizing w with
    | nil => rfl
    | cons c l' ih =>
        obtain ⟨hc, hl⟩ := List.forall_mem_cons.mp h
        rw [tokenRanges, ih hl, hc]
        rfl
  rw [tokenRanges_append, hnone, List.append_nil]

theorem exists_of_mem_tokenRanges (h : r ∈ tokenRanges t text w l) : ∃ before role rest,
    l = before ++ .token role text :: rest ∧
    r = lastRange (putAll t w (before ++ [.token role text])) := by
  induction l generalizing w with
  | nil => cases h
  | cons c l ih =>
      rw [tokenRanges, List.mem_append] at h
      rcases h with h | h
      · split at h
        · rename_i hc
          obtain ⟨role, rfl⟩ : ∃ role, c = .token role text := by
            cases c with
            | token role text' => exact ⟨role, by rw [of_decide_eq_true hc]⟩
            | _ => cases hc
          exact ⟨[], role, l, rfl, List.mem_singleton.mp h⟩
        · cases h
      · obtain ⟨before, role, rest, rfl, rfl⟩ := ih h
        exact ⟨c :: before, role, rest, rfl, rfl⟩

end Sink

namespace TextSink

variable {pre : List Char} {w : TextSink} {t : Tree}

structure Measured (pre : List Char) (w : TextSink) : Prop where
  offset : w.place.offset = Position.bytes w.output.toList
  starts : pre <+: w.output.toList

namespace Measured

theorem settle (h : Measured pre w) : Measured pre w.settle := by
  unfold TextSink.settle
  split
  · rename_i hp
    have hi : w.indentation.toList = (List.replicate w.level w.unit.toList).flatten := by
      rw [indentation, toList_levels]
      rfl
    refine ⟨?_, ?_⟩
    · simp only [String.toList_append, Position.bytes_append, hi, Position.bytes_levels,
        TextSink.nextPlace, if_pos hp, h.offset, Position.utf8ByteSize_eq]
    · simp only [String.toList_append]
      exact h.starts.trans (List.prefix_append _ _)
  · exact h

theorem append (h : Measured pre w) (text : String) : Measured pre (w.append text) := by
  refine ⟨?_, ?_⟩
  · simp only [TextSink.append, String.toList_append, Position.bytes_append,
      Position.offset_advance, h.offset]
  · simp only [TextSink.append, String.toList_append]
    exact h.starts.trans (List.prefix_append _ _)

theorem newLine (h : Measured pre w) : Measured pre w.newLine := by
  refine ⟨?_, ?_⟩
  · simp only [TextSink.newLine, String.toList_push, Position.bytes_append,
      Location.offset_step, h.offset]
    rfl
  · simp only [TextSink.newLine, String.toList_push]
    exact h.starts.trans (List.prefix_append _ _)

theorem word (h : Measured pre w) (text : String) : Measured pre (w.word text) := by
  have hs := h.settle.append text
  exact ⟨hs.offset, hs.starts⟩

theorem comment (h : Measured pre w) (kind : CommentKind) (content : String) :
    Measured pre (w.comment kind content) := by
  cases kind with
  | line | documentation => exact (h.settle.append _).newLine
  | block | inactive => exact h.settle.append _

theorem directive (h : Measured pre w) (kind : DirectiveKind) (argument : String) :
    Measured pre (w.directive kind argument) := by
  unfold TextSink.directive
  refine ((Measured.settle ?_).append _).newLine
  split
  · exact h
  · exact h.newLine

theorem put (h : Measured pre w) (c : Call) : Measured pre (w.put t c) := by
  cases c with
  | identifier i =>
      simp only [TextSink.put]
      split
      · exact h.word _
      · exact h
  | keyword _ text | token _ text | primitiveType text => exact h.word text
  | literal v => exact h.word _
  | special k =>
      cases k with
      | comment kind content => exact h.comment kind content
      | directive kind argument => exact h.directive kind argument
  | space => exact h.settle.append _
  | newLine => exact h.newLine
  | start | finish | indent | unindent => exact ⟨h.offset, h.starts⟩

theorem stable : Sink.Stable t (Measured pre) := fun _ c h => h.put c

end Measured

theorem exists_range_word (h : Measured pre w) (text : String) :
    ∃ rg before, (w.word text).last = some rg ∧
    rg.start.offset = Position.bytes before ∧
    rg.stop.offset = Position.bytes (before ++ text.toList) ∧
    (w.word text).output.toList = before ++ text.toList ∧ pre <+: before := by
  refine ⟨_, w.settle.output.toList, rfl, h.settle.offset,
    ?_, by simp [TextSink.word, TextSink.append], h.settle.starts⟩
  rw [Position.offset_advance, Position.bytes_append, h.settle.offset]

end TextSink

/-- The text has every token where its range says, whatever has come behind it. -/
theorem Composed.exists_range_of_token {t : Tree} {p : Policy} {text : String} {calls : List Call}
    {r : Option TextRange} (h : r ∈ Sink.tokenRanges t text (Composed.new p) calls) :
    ∃ rg, r = some rg ∧ Position.rangeText? (Sink.putAll t (Composed.new p) calls).text rg =
      some text := by
  obtain ⟨before, role, rest, rfl, rfl⟩ := Sink.exists_of_mem_tokenRanges h
  have hnew : TextSink.Measured [] (Composed.new p).inner.inner := ⟨rfl, List.nil_prefix⟩
  have hbefore := (stable (t := t) TextSink.Measured.stable).putAll (l := before) hnew
  obtain ⟨w, hw, hput⟩ := exists_put TextSink.Measured.stable hbefore
    (show (Call.token role text).writesWord t = true from rfl)
  obtain ⟨rg, pre, hlast, hstart, hstop, hout, -⟩ := TextSink.exists_range_word hw text
  have htext : textAfter t p (before ++ [.token role text]) = pre ++ text.toList := by
    rw [← hout, textAfter, Sink.putAll_append, Composed.text]
    exact congrArg (fun w : TextSink => w.output.toList) hput
  have hgrows : textAfter t p (before ++ [.token role text]) <+:
    textAfter t p (before ++ [.token role text] ++ rest) :=
    textAfter_prefix
  obtain ⟨more, hmore⟩ := hgrows
  refine ⟨rg, ?_, Position.rangeText?_of_append (b := more) ?_ hstart hstop⟩
  · rw [Sink.putAll_append]
    exact (congrArg TextSink.last hput).trans hlast
  · rw [← htext, hmore, textAfter, List.append_assoc]
    rfl

end TreeScribe
