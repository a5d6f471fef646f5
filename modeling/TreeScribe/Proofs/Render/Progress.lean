import TreeScribe.Proofs.Layout.Opens
import TreeScribe.Render.Progress

namespace TreeScribe

def Event.isOfName : Event → Bool
  | .symbolReference .. | .highlight .. => true
  | _ => false

namespace Progress

variable {W : Type} [Sink W] {t : Tree} {cancellation : Cancellation} {P : NodeId → Prop}
  {I : W → Prop}

theorem reportName_eq (p : Progress W) (i : NodeId) :
    ∃ es, p.reportName t i = { p with heard := es ++ p.heard } ∧ ∀ e ∈ es, e.isOfName = true := by
  unfold reportName
  split
  · exact ⟨[], rfl, by simp⟩
  · simp only
    split <;> split
    · exact ⟨[_, _], rfl, by simp [Event.isOfName]⟩
    · exact ⟨[_], rfl, by simp [Event.isOfName]⟩
    · exact ⟨[_], rfl, by simp [Event.isOfName]⟩
    · exact ⟨[], rfl, by simp⟩

@[simp] theorem sink_reportName (p : Progress W) (i : NodeId) :
    (p.reportName t i).sink = p.sink := by
  obtain ⟨es, h, -⟩ := reportName_eq (t := t) p i
  rw [h]

theorem finish_eq {p : Progress W} {start : Option Location} {outer : List (Option Location)}
    {i : NodeId} (h : p.starts = start :: outer) : p.finish t i =
      { p with
        sink := Sink.put t p.sink (.finish i)
        starts := outer
        heard := (sequencePoint? t i start (Sink.lastRange p.sink)).toList ++ p.heard } := by
  rw [finish, h]
  simp only
  cases sequencePoint? t i start (Sink.lastRange p.sink) <;> rfl

theorem sequencePoint?_eq_some {i : NodeId} {start : Option Location} {last : Option TextRange}
    {e : Event} (h : sequencePoint? t i start last = some e) :
    ∃ l r, ∃ hle : l.offset ≤ r.stop.offset,
      start = some l ∧ last = some r ∧ e = .sequencePoint i ⟨l, r.stop, hle⟩ (t.marks.spansOf i) ∧
        (t.kind i).isStatement = true := by
  unfold sequencePoint? at h
  simp only at h
  split at h
  · split at h
    · rename_i hle
      split at h
      · cases h
      · rename_i hs
        cases h
        rw [Bool.or_eq_true, not_or, Bool.not_eq_true', Bool.not_eq_false] at hs
        exact ⟨_, _, hle, rfl, rfl, rfl, hs.2⟩
    · cases h
  · cases h

@[simp] theorem sink_write (p : Progress W) (c : Call) :
    (p.write t c).sink = Sink.put t p.sink c := by
  cases c with
  | finish i =>
      rw [write]
      cases hs : p.starts with
      | nil => rw [finish, hs]; rfl
      | cons start outer => rw [finish_eq hs]
  | identifier i => exact sink_reportName _ i
  | _ => rfl

/-- What every call keeps that does not start a node out of place. -/
def Keeps (t : Tree) (P : NodeId → Prop) (I : W → Prop) : Prop :=
  ∀ w c, (∀ i, c = .start i → P i) → I w → I (Sink.put t w c)

theorem write_keeps (hI : Keeps t P I) {p : Progress W} {c : Call} (hc : ∀ i, c = .start i → P i)
    (hp : I p.sink) : I (p.write t c).sink := by
  rw [sink_write]
  exact hI _ _ hc hp

theorem step_keeps (hI : Keeps t P I) {p : Progress W} {c : Command}
    (hc : ∀ i, c = .write (.start i) → P i) (hp : I p.sink) :
    I (p.step t cancellation c).1.sink := by
  cases c with
  | write c => exact write_keeps hI (fun i hi => hc i (by rw [hi])) hp
  | openBrace kind => exact write_keeps hI (by simp) hp
  | closeBrace =>
      have hw := write_keeps hI (p := p) (c := .token (.token "\x7d") "\x7d") (by simp) hp
      simp only [step, closeBrace]
      split
      · exact hw
      · split <;> exact hw
  | gap =>
      simp only [step]
      split
      · exact hp
      · exact write_keeps hI (by simp) hp
  | freshLine =>
      simp only [step]
      split
      · exact hp
      · exact write_keeps hI (by simp) hp
  | reference i =>
      simp only [step]
      split <;> exact hp
  | separator =>
      simp only [step]
      split <;> exact hp
  | tick => exact hp
  | fail i d => exact hp

theorem run_keeps (cancellation : Cancellation)
    (hI : Keeps t P I) {l : Layout} (hl : Layout.Opens P l) {p : Progress W} (hp : I p.sink) :
    I (run t cancellation l p).1.sink := by
  induction l generalizing p with
  | nil => exact hp
  | cons c l ih =>
      by_cases hf : ∃ i d, c = .fail i d
      · obtain ⟨i, d, rfl⟩ := hf
        exact hp
      · push Not at hf
        obtain ⟨hc, hl⟩ := hl.of_cons hf
        have hs : I (p.step t cancellation c).1.sink := step_keeps hI hc hp
        rw [run]
        split
        · rename_i h
          rwa [h] at hs
        · rename_i h
          rw [h] at hs
          exact ih hl hs

end Progress

end TreeScribe
