import TreeScribe.Proofs.Layout.Alike
import TreeScribe.Proofs.Render.Progress
import TreeScribe.Proofs.Sink.Layers
import TreeScribe.Proofs.Tree.Edits

namespace TreeScribe

namespace Progress

variable {W V : Type} [Sink W] [Sink V] {t : Tree} {f : W → V}

/-- The error is the given failure, wherever in the text it was met. -/
def FailsWith (t : Tree) : Option (NodeId × Defect) → Option RenderError → Prop
  | none, e => e = none
  | some (i, d), e => ∃ l, e = some (.invalidTree (t.kind i).name i d l)

theorem step_code (h : Sink.Skims t f) (p : Progress W) (c : Command) :
    f (p.step t .never c).1.sink = Sink.putAll t (f p.sink) c.call?.toList ∧
      FailsWith t c.failure? (p.step t .never c).2 := by
  have hcode {p : Progress W} {c : Call} (hc : c.isBlank = false) :
      f (p.write t c).sink = Sink.put t (f p.sink) c := by
    rw [sink_write, h, hc]
    rfl
  have hblank {p : Progress W} {c : Call} (hc : c.isBlank = true) :
      f (p.write t c).sink = f p.sink := by
    rw [sink_write, h, if_pos hc]
  cases c with
  | write c =>
      refine ⟨?_, rfl⟩
      cases hc : c.isBlank with
      | false =>
          simp only [step, hcode hc, Command.call?, hc]
          rfl
      | true =>
          simp only [step, hblank hc, Command.call?, hc]
          rfl
  | openBrace kind => exact ⟨hcode rfl, rfl⟩
  | closeBrace =>
      have hw := hcode (p := p) (c := .token (.token "\x7d") "\x7d") rfl
      refine ⟨?_, rfl⟩
      simp only [step, closeBrace]
      split
      · exact hw
      · split <;> exact hw
  | gap =>
      refine ⟨?_, rfl⟩
      simp only [step]
      split
      · rfl
      · exact hblank rfl
  | freshLine =>
      refine ⟨?_, rfl⟩
      simp only [step]
      split
      · rfl
      · exact hblank rfl
  | reference i =>
      refine ⟨?_, rfl⟩
      simp only [step]
      split <;> rfl
  | separator =>
      refine ⟨?_, rfl⟩
      simp only [step]
      split <;> rfl
  | tick => exact ⟨rfl, by simp [step, FailsWith, Command.failure?, Cancellation.isSet]⟩
  | fail i d => exact ⟨rfl, _, rfl⟩

theorem run_code (h : Sink.Skims t f) (l : Layout) (p : Progress W) :
    f (run t .never l p).1.sink = Sink.putAll t (f p.sink) l.codeCalls ∧
      FailsWith t l.failure? (run t .never l p).2 := by
  induction l generalizing p with
  | nil => exact ⟨rfl, rfl⟩
  | cons c l ih =>
      obtain ⟨hsink, hfail⟩ := step_code h p c
      rcases hs : p.step t .never c with ⟨p', failed⟩
      rw [hs] at hsink hfail
      rw [run, hs, Layout.codeCalls, Layout.failure?, List.findSome?_cons]
      cases hc : c.failure? with
      | none =>
          rw [hc] at hfail
          cases hfail
          obtain ⟨hr, he⟩ := ih p'
          refine ⟨?_, he⟩
          rw [hr, hsink, Sink.putAll, Sink.putAll, ← List.foldl_append]
          rfl
      | some failure =>
          rw [hc] at hfail
          obtain ⟨l, rfl⟩ := hfail
          exact ⟨by simpa using hsink, l, rfl⟩

end Progress

abbrev LoggedText := Replaying (Spaced (Logged TextSink))

namespace LoggedText

variable {t : Tree} {p : Policy}

def limit (p : Policy) : Option Nat := p.stringLimit.map (·.toNat)

def new (p : Policy) : LoggedText :=
  Replaying.new (Spaced.new ⟨TextSink.new p.indentation (limit p), []⟩)

def log (w : LoggedText) : Logged TextSink := w.inner.inner

def unlogged : LoggedText → Composed := Replaying.map (Spaced.map Logged.inner)

theorem respects_unlogged : Sink.Respects t unlogged :=
  Replaying.respects (Spaced.respects Logged.respects_inner)

def code : LoggedText → Replaying CallLog := Replaying.map fun w => w.inner.code

theorem skims_code : Sink.Skims t code := Replaying.skims (Spaced.skims Logged.skims_code)

theorem stable_faithful :
    Sink.Stable t fun w : LoggedText => w.log.Faithful t p.indentation (limit p) :=
  Replaying.stable (Spaced.stable fun _ c h => h.put c)

end LoggedText

namespace Tree

variable {t : Tree} {p q : Policy} {i : NodeId}

def writeLogged (t : Tree) (p : Policy) (i : NodeId) : Progress LoggedText × Option RenderError :=
  t.render p .never i (.new (.new p))

/-- The calls that reach the text, in their order. -/
def callsWritten (t : Tree) (p : Policy) (i : NodeId) : List Call :=
  (t.writeLogged p i).1.sink.log.calls

theorem render_unlogged : t.render p .never i (.new (Composed.new p)) =
    ((t.writeLogged p i).1.map LoggedText.unlogged, (t.writeLogged p i).2) :=
  Progress.map_run LoggedText.respects_unlogged .never (Layout.ofNode t p i)
    (.new (LoggedText.new p))

theorem write_eq_error {e : RenderError} (h : (t.writeLogged p i).2 = some e) :
    t.write p .never i = .error e := by
  rw [write, render_unlogged, h]

theorem write_eq_ok (h : (t.writeLogged p i).2 = none) : t.write p .never i =
    .ok ⟨(t.writeLogged p i).1.sink.log.inner.output, (t.writeLogged p i).1.events⟩ := by
  rw [write, render_unlogged, h]
  rfl

theorem spread_writeLogged :
    Spread p.indentation (Call.words t (LoggedText.limit p) (t.callsWritten p i))
    (t.writeLogged p i).1.sink.log.inner.output := by
  have hkeeps : Progress.Keeps t (fun _ => True)
      (fun w : LoggedText => w.log.Faithful t p.indentation (LoggedText.limit p)) :=
    fun w c _ hw => LoggedText.stable_faithful w c hw
  have hopens : Layout.Opens (fun _ => True) (Layout.ofNode t p i) :=
    Layout.opens_of_forall fun _ => trivial
  have hnew : (LoggedText.new p).log.Faithful t p.indentation (LoggedText.limit p) :=
    Logged.faithful_new _ _
  exact (Progress.run_keeps .never hkeeps hopens (p := .new (.new p)) hnew).spread

/-- The words of the text come from the code of the layout. -/
theorem tokens_callsWritten : (t.callsWritten p i).filter Call.isToken =
    (Sink.putAll t (Replaying.new CallLog.empty) (Layout.ofNode t p i).codeCalls).inner.calls.filter
    Call.isToken := by
  have hcode :=
    (Progress.run_code (t := t) LoggedText.skims_code (Layout.ofNode t p i)
    (.new (LoggedText.new p))).1
  rw [callsWritten, ← Logged.tokens_code]
  exact congrArg (fun w : Replaying CallLog => w.inner.calls.filter Call.isToken) hcode

theorem fails_writeLogged :
    Progress.FailsWith t (Layout.ofNode t p i).failure? (t.writeLogged p i).2 :=
  (Progress.run_code LoggedText.skims_code (Layout.ofNode t p i) (.new (LoggedText.new p))).2

end Tree

/-- Formatting never changes the code: with two policies that cut strings alike, a tree cannot be
written by either, with the same defect of the same node; or the same words in the same order make
up both texts, and what stands between them are spaces, new lines and indentation. -/
theorem write_same_words (t : Tree) (p q : Policy) (i : NodeId)
    (h : p.stringLimit = q.stringLimit) :
    (∃ kind node defect l l', t.write p .never i = .error (.invalidTree kind node defect l) ∧
      t.write q .never i = .error (.invalidTree kind node defect l')) ∨
    ∃ r r', t.write p .never i = .ok r ∧ t.write q .never i = .ok r' ∧
      (t.callsWritten q i).filter Call.isToken = (t.callsWritten p i).filter Call.isToken ∧
      Spread p.indentation (Call.words t (LoggedText.limit p) (t.callsWritten p i)) r.text ∧
      Spread q.indentation (Call.words t (LoggedText.limit p) (t.callsWritten p i)) r'.text := by
  have htokens : (t.callsWritten q i).filter Call.isToken =
      (t.callsWritten p i).filter Call.isToken := by
    rw [Tree.tokens_callsWritten, Tree.tokens_callsWritten, (Layout.agree_ofNode t q p i).2]
  have hlimit : LoggedText.limit q = LoggedText.limit p := by
    rw [LoggedText.limit, LoggedText.limit, h]
  have hwords : Call.words t (LoggedText.limit q) (t.callsWritten q i) =
      Call.words t (LoggedText.limit p) (t.callsWritten p i) := by
    rw [Call.words, Call.words, htokens, hlimit]
  have hp := Tree.fails_writeLogged (t := t) (p := p) (i := i)
  have hq := Tree.fails_writeLogged (t := t) (p := q) (i := i)
  rw [(Layout.agree_ofNode t p q i).1] at hq
  cases hf : (Layout.ofNode t p i).failure? with
  | some failure =>
      rw [hf] at hp hq
      obtain ⟨l, hl⟩ := hp
      obtain ⟨l', hl'⟩ := hq
      exact .inl ⟨_, _, _, l, l', Tree.write_eq_error hl, Tree.write_eq_error hl'⟩
  | none =>
      rw [hf] at hp hq
      refine .inr ⟨_, _, Tree.write_eq_ok hp, Tree.write_eq_ok hq, htokens,
        Tree.spread_writeLogged, ?_⟩
      rw [← hwords]
      exact Tree.spread_writeLogged

/-- `while (this) break;` with a comment before the statement, in a block. -/
def breakingLoop : Tree :=
  .planted [.statement .whileLoop, .expression .thisRef, .statement .block,
      .special (.comment .line " done"),
      .statement .break_]
    [(1, .condition, 2), (1, .embeddedStatement, 3), (3, .comment, 4), (3, .statement, 5)]

/-- The opening brace takes a line of its own, or none, and levels are tabs or two spaces. -/
theorem write_same_words_loop : Policy.allman.stringLimit = Policy.compact.stringLimit ∧
    ∃ r r', breakingLoop.write .allman .never 1 = .ok r ∧
    r.text = "while (this)\n\x7b\n\t// done\n\tbreak;\n\x7d\n" ∧
      breakingLoop.write .compact .never 1 = .ok r' ∧
      r'.text = "while(this) \x7b\n  // done\n  break;\n\x7d\n" ∧
      Spread "\t" ["while", "(", "this", ")", "\x7b", "// done", "break", ";", "\x7d"] r.text ∧
      Spread "  " ["while", "(", "this", ")", "\x7b", "// done", "break", ";", "\x7d"] r'.text := by
  have hallman : breakingLoop.text .allman 1 =
      .ok "while (this)\n\x7b\n\t// done\n\tbreak;\n\x7d\n" := by decide +kernel
  have hcompact : breakingLoop.text .compact 1 =
      .ok "while(this) \x7b\n  // done\n  break;\n\x7d\n" := by
    decide +kernel
  have hwords : Call.words breakingLoop (LoggedText.limit .allman)
    (breakingLoop.callsWritten .allman 1) =
      ["while", "(", "this", ")", "\x7b", "// done", "break", ";", "\x7d"] := by decide +kernel
  refine ⟨rfl, ?_⟩
  rcases write_same_words breakingLoop .allman .compact 1 rfl with
    ⟨_, _, _, _, _, he, -⟩ | ⟨r, r', hr, hr', -, hs, hs'⟩
  · rw [Tree.text, he] at hallman
    cases hallman
  · rw [Tree.text, hr] at hallman
    rw [Tree.text, hr'] at hcompact
    rw [hwords] at hs hs'
    exact ⟨r, r', hr, Except.ok.inj hallman, hr', Except.ok.inj hcompact, hs, hs'⟩

end TreeScribe
