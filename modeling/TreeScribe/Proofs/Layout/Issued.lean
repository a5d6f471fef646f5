import TreeScribe.Proofs.Render.Progress

namespace TreeScribe

def Call.endsLine (b : Bool) : Call → Bool
  | .newLine => true
  | .start _ | .finish _ | .space | .indent | .unindent => b
  | _ => false

def Command.issued (b : Bool) : Command → List Call
  | .write c => [c]
  | .openBrace _ => [.token (.token "\x7b") "\x7b"]
  | .closeBrace => [.token (.token "\x7d") "\x7d"]
  | .gap => if b then [] else [.space]
  | .freshLine => if b then [] else [.newLine]
  | .reference _ | .separator | .tick | .fail .. => []

namespace Layout

/-- What a layout says to the sink; `b` says whether it starts at the start of a line. -/
def issued : Bool → Layout → List Call
  | _, [] => []
  | b, c :: l => c.issued b ++ issued ((c.issued b).foldl Call.endsLine b) l

variable {b : Bool} {l m : Layout} {i : NodeId}

@[simp] theorem issued_nil : issued b [] = [] := rfl

theorem issued_append : issued b (l ++ m) = issued b l ++
    issued ((issued b l).foldl Call.endsLine b) m := by
  induction l generalizing b with
  | nil => rfl
  | cons c l ih => simp only [List.cons_append, issued, ih, List.append_assoc, List.foldl_append]

theorem issued_write {c : Call} : issued b [.write c] = [c] := rfl

theorem issued_node : issued b (node i l) = .start i :: issued b l ++ [.finish i] := by
  have hb : Call.endsLine b (.start i) = b := rfl
  rw [node, List.cons_append, issued, issued_append]
  simp only [Command.issued, List.foldl_cons, List.foldl_nil, hb, issued_write, List.cons_append,
    List.nil_append]

theorem filter_issued (c : Command) :
    (c.issued b).filter (fun c => !c.isBlank) = c.call?.toList := by
  cases c with
  | write c => cases hc : c.isBlank <;> simp [Command.issued, Command.call?, hc]
  | gap | freshLine => cases b <;> rfl
  | _ => rfl

/-- The calls of a layout, its blanks apart, are those of its code. -/
theorem code_issued (hf : failure? l = none) :
    (issued b l).filter (fun c => !c.isBlank) = codeCalls l := by
  induction l generalizing b with
  | nil => rfl
  | cons c l ih =>
      rw [failure?, List.findSome?_cons] at hf
      cases hc : c.failure? with
      | some f => simp [hc] at hf
      | none =>
          rw [hc] at hf
          rw [issued, List.filter_append, filter_issued, codeCalls, hc, ih hf]
          rfl

end Layout

namespace Progress

variable {W : Type} [Sink W] {t : Tree} {cancellation : Cancellation} {p p' : Progress W}

@[simp] theorem isLineStart_reportName (p : Progress W) (i : NodeId) :
    (p.reportName t i).isLineStart = p.isLineStart := by
  obtain ⟨es, h, -⟩ := reportName_eq (t := t) p i
  rw [h]

theorem isLineStart_write (p : Progress W) (c : Call) :
    (p.write t c).isLineStart = c.endsLine p.isLineStart := by
  cases c with
  | finish i =>
      rw [write]
      cases hs : p.starts with
      | nil => rw [finish, hs]; rfl
      | cons start outer => rw [finish_eq hs]; rfl
  | identifier i => exact isLineStart_reportName _ i
  | _ => rfl

theorem step_issued {c : Command} (hs : p.step t cancellation c = (p', none)) :
    p'.sink = Sink.putAll t p.sink (c.issued p.isLineStart) ∧
      p'.isLineStart = (c.issued p.isLineStart).foldl Call.endsLine p.isLineStart ∧
      c.failure? = none := by
  have hwrite (c : Call) : (p.write t c).sink = Sink.putAll t p.sink [c] ∧
      (p.write t c).isLineStart = [c].foldl Call.endsLine p.isLineStart :=
    ⟨sink_write p c, isLineStart_write p c⟩
  cases c with
  | write c =>
      cases hs
      exact ⟨(hwrite c).1, (hwrite c).2, rfl⟩
  | openBrace kind =>
      cases hs
      exact ⟨(hwrite _).1, (hwrite _).2, rfl⟩
  | closeBrace =>
      have hw := hwrite (.token (.token "\x7d") "\x7d")
      simp only [step, closeBrace] at hs
      generalize p.write t (.token (.token "\x7d") "\x7d") = q at hs hw
      cases hs
      refine ⟨?_, ?_, rfl⟩
      · rw [Command.issued, ← hw.1]
        split
        · rfl
        · split <;> rfl
      · rw [Command.issued, ← hw.2]
        split
        · rfl
        · split <;> rfl
  | gap | freshLine =>
      simp only [step, Command.issued] at hs ⊢
      cases hb : p.isLineStart with
      | true =>
          rw [hb] at hs
          cases hs
          exact ⟨rfl, hb, rfl⟩
      | false =>
          rw [hb] at hs hwrite
          simp only [Bool.false_eq_true, if_false] at hs ⊢
          cases hs
          exact ⟨(hwrite _).1, (hwrite _).2, rfl⟩
  | reference i | separator =>
      simp only [step] at hs
      cases hs
      refine ⟨?_, ?_, rfl⟩ <;> split <;> rfl
  | tick =>
      simp only [step, Prod.mk.injEq] at hs
      obtain ⟨rfl, -⟩ := hs
      exact ⟨rfl, rfl, rfl⟩
  | fail i d => cases hs

/-- A run that does not fail has put the calls of its layout. -/
theorem run_issued {l : Layout} (hr : run t cancellation l p = (p', none)) :
    p'.sink = Sink.putAll t p.sink (l.issued p.isLineStart) ∧ l.failure? = none := by
  induction l generalizing p with
  | nil =>
      cases hr
      exact ⟨rfl, rfl⟩
  | cons c l ih =>
      rw [run] at hr
      rcases hs : p.step t cancellation c with ⟨q, e⟩
      rw [hs] at hr
      cases e with
      | some e => cases hr
      | none =>
          obtain ⟨hsink, hline, hfail⟩ := step_issued hs
          obtain ⟨ih, hl⟩ := ih hr
          refine ⟨?_, ?_⟩
          · rw [ih, hsink, hline, Layout.issued]
            exact List.foldl_append.symm
          · rw [Layout.failure?, List.findSome?_cons, hfail]
            exact hl

theorem step_never {c : Command} (hs : p.step t cancellation c = (p', none)) :
    p.step t .never c = (p', none) := by
  cases c with
  | tick =>
      simp only [step, Prod.mk.injEq] at hs ⊢
      exact ⟨hs.1, by simp [Cancellation.isSet]⟩
  | _ => exact hs

theorem run_never {l : Layout} (hr : run t cancellation l p = (p', none)) :
    run t .never l p = (p', none) := by
  induction l generalizing p with
  | nil => exact hr
  | cons c l ih =>
      rw [run] at hr ⊢
      rcases hs : p.step t cancellation c with ⟨q, e⟩
      rw [hs] at hr
      cases e with
      | some e => cases hr
      | none =>
          rw [step_never hs]
          exact ih hr

theorem exists_run {l : Layout} (hf : l.failure? = none) : ∃ p', run t .never l p = (p', none) := by
  induction l generalizing p with
  | nil => exact ⟨p, rfl⟩
  | cons c l ih =>
      rw [Layout.failure?, List.findSome?_cons] at hf
      cases hc : c.failure? with
      | some f => simp [hc] at hf
      | none =>
          rw [hc] at hf
          have hs : (p.step t .never c).2 = none := by
            cases c with
            | fail => cases hc
            | tick => simp [step, Cancellation.isSet]
            | _ => rfl
          rw [run]
          rcases hp : p.step t .never c with ⟨q, e⟩
          rw [hp] at hs
          cases hs
          exact ih hf

end Progress

end TreeScribe
