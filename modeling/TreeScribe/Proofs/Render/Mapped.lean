import TreeScribe.Render.Text

namespace TreeScribe

structure Sink.Respects {W V : Type} [Sink W] [Sink V] (t : Tree) (f : W → V) : Prop where
  put (w : W) (c : Call) : f (Sink.put t w c) = Sink.put t (f w) c
  location (w : W) : Sink.location (f w) = Sink.location w
  lastRange (w : W) : Sink.lastRange (f w) = Sink.lastRange w

namespace Progress

variable {W V : Type} [Sink W] [Sink V] {t : Tree} {f : W → V}

def map {W V : Type} (f : W → V) (p : Progress W) : Progress V := { p with sink := f p.sink }

theorem map_put (h : Sink.Respects t f) (p : Progress W) (c : Call) :
    (p.put t c).map f = (p.map f).put t c := by
  simp only [put, map, h.put]

theorem map_reportName (h : Sink.Respects t f) (p : Progress W) (i : NodeId) :
    (p.reportName t i).map f = (p.map f).reportName t i := by
  have hr : Sink.lastRange (p.map f).sink = Sink.lastRange p.sink := h.lastRange p.sink
  unfold reportName
  rw [hr]
  cases Sink.lastRange p.sink with
  | none => rfl
  | some r =>
      simp only
      split <;> split <;> rfl

theorem map_finish (h : Sink.Respects t f) (p : Progress W) (i : NodeId) :
    (p.finish t i).map f = (p.map f).finish t i := by
  obtain ⟨w, isLineStart, starts, braces, heard, poll⟩ := p
  cases starts with
  | nil => exact map_put h _ _
  | cons start outer =>
      simp only [finish, map, h.lastRange]
      split <;> exact map_put h _ _

theorem map_write (h : Sink.Respects t f) (p : Progress W) (c : Call) :
    (p.write t c).map f = (p.map f).write t c := by
  cases c with
  | start i =>
      simp only [write]
      rw [map_put h]
      simp only [map, h.location]
  | finish i => exact map_finish h p i
  | identifier i =>
      simp only [write]
      rw [map_reportName h, map_put h]
      rfl
  | keyword | token | literal | primitiveType | special | newLine => exact map_put h _ _
  | space | indent | unindent => exact map_put h _ _

theorem map_step (h : Sink.Respects t f) (cancellation : Cancellation) (p : Progress W)
    (c : Command) : (p.map f).step t cancellation c =
    ((p.step t cancellation c).1.map f, (p.step t cancellation c).2) := by
  have hl (p : Progress W) : Sink.location (p.map f).sink = Sink.location p.sink :=
    h.location p.sink
  have hr (p : Progress W) : Sink.lastRange (p.map f).sink = Sink.lastRange p.sink :=
    h.lastRange p.sink
  cases c with
  | write c => simp only [step, map_write h]
  | openBrace kind =>
      simp only [step, openBrace, ← map_write h, hr]
      rfl
  | closeBrace =>
      simp only [step, closeBrace, ← map_write h]
      generalize p.write t (.token (.token "\x7d") "\x7d") = p
      obtain ⟨w, isLineStart, starts, braces, heard, poll⟩ := p
      cases braces with
      | nil => rfl
      | cons b outer =>
          obtain ⟨left, kind⟩ := b
          simp only [map, h.lastRange]
          split <;> rfl
  | gap =>
      simp only [step, ← map_write h]
      rw [apply_ite (map f)]
      rfl
  | freshLine =>
      simp only [step, ← map_write h]
      rw [apply_ite (map f)]
      rfl
  | reference i =>
      simp only [step, hr]
      cases Sink.lastRange p.sink <;> rfl
  | separator =>
      simp only [step, hl]
      cases Sink.location p.sink <;> rfl
  | tick => rfl
  | fail i d => simp only [step, defective, hl]

theorem map_run (h : Sink.Respects t f) (cancellation : Cancellation) (l : Layout)
    (p : Progress W) : run t cancellation l (p.map f) =
      ((run t cancellation l p).1.map f, (run t cancellation l p).2) := by
  induction l generalizing p with
  | nil => rfl
  | cons c l ih =>
      rw [run, run, map_step h]
      obtain ⟨p', failed⟩ := p.step t cancellation c
      cases failed with
      | some e => rfl
      | none => exact ih p'

end Progress

end TreeScribe
