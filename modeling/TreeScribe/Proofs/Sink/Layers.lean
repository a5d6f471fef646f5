import TreeScribe.Proofs.Layout.Code
import TreeScribe.Proofs.Render.Mapped
import TreeScribe.Proofs.Sink.Words
import TreeScribe.Sink.Log

namespace TreeScribe

def Sink.Stable {W : Type} [Sink W] (t : Tree) (I : W → Prop) : Prop :=
  ∀ w c, I w → I (Sink.put t w c)

def Sink.Keeps {W : Type} [Sink W] (t : Tree) (q : Call → Prop) (I : W → Prop) : Prop :=
  ∀ w c, q c → I w → I (Sink.put t w c)

def Call.isAdded : Call → Bool
  | .start _ | .finish _ | .special _ | .space => true
  | _ => false

/-- A view in which blanks are not seen. -/
def Sink.Skims {W V : Type} [Sink W] [Sink V] (t : Tree) (f : W → V) : Prop :=
  ∀ w c, f (Sink.put t w c) = if c.isBlank then f w else Sink.put t (f w) c

variable {W V : Type} [Sink W] [Sink V] {t : Tree} {f : W → V} {I : W → Prop}
  {q : Call → Prop}

theorem Sink.Stable.keeps (h : Sink.Stable t I) : Sink.Keeps t q I := fun w c _ => h w c

namespace Spaced

theorem keeps (hq : ∀ c, c.isAdded = true → q c) (h : Sink.Keeps t q I) :
    Sink.Keeps t q fun w : Spaced W => I w.inner := by
  intro w c hc hw
  refine h _ c hc ?_
  split
  · exact h _ _ (hq _ rfl) hw
  · exact hw

theorem stable (h : Sink.Stable t I) : Sink.Stable t fun w : Spaced W => I w.inner := fun w c =>
  keeps (q := fun _ => True) (fun _ _ => trivial) h.keeps w c trivial

def map {W V : Type} (f : W → V) (w : Spaced W) : Spaced V := ⟨f w.inner, w.ending⟩

theorem respects (h : Sink.Respects t f) : Sink.Respects t (map f) where
  put w c := by
    simp only [Sink.put, put, map, h.put]
    rw [apply_ite f, h.put]
    rfl
  location w := h.location w.inner
  lastRange w := h.lastRange w.inner

theorem skims (h : Sink.Skims t f) : Sink.Skims t fun w : Spaced W => f w.inner := by
  intro w c
  change f (Sink.put t _ c) = _
  rw [h]
  split
  · rename_i hb
    have hn : w.ending.needsSpace c = false := by
      cases c with
      | space | indent | unindent | newLine => rfl
      | _ => cases hb
    rw [hn]
    rfl
  · split
    · rw [h]
      rfl
    · rfl

end Spaced

namespace Replaying

variable {nodes : List NodeId} {w : W}

section

variable (hq : ∀ c, c.isAdded = true → q c) (h : Sink.Keeps t q I)

include hq h

theorem replay_keeps (hw : I w) (i : NodeId) : I (replay t w i) := by
  unfold replay
  split
  · exact h _ _ (hq _ rfl) (h _ _ (hq _ rfl) (h _ _ (hq _ rfl) hw))
  · exact hw

theorem replayAll_keeps (hw : I w) : I (replayAll t w nodes) := by
  unfold replayAll
  induction nodes generalizing w with
  | nil => exact hw
  | cons i rest ih => exact ih (replay_keeps hq h hw i)

theorem passTo_keeps {p : NodeId → Bool} {w : Replaying W} (hw : I w.inner) :
    I (w.passTo t p).inner := by
  unfold passTo
  split
  · exact hw
  · split
    · exact hw
    · exact replayAll_keeps hq h hw

theorem keeps : Sink.Keeps t q fun w : Replaying W => I w.inner := by
  intro w c hc hw
  change I (w.put t c).inner
  unfold put
  cases c with
  | start i => exact h _ _ hc (passTo_keeps hq h hw)
  | finish i =>
      simp only [forward]
      split
      · exact h _ _ hc hw
      · exact replayAll_keeps hq h (h _ _ hc hw)
  | identifier | keyword | token => exact h _ _ hc (passTo_keeps hq h hw)
  | literal | primitiveType | special | space | indent | unindent | newLine => exact h _ _ hc hw

end

theorem stable (h : Sink.Stable t I) : Sink.Stable t fun w : Replaying W => I w.inner := fun w c =>
  keeps (q := fun _ => True) (fun _ _ => trivial) h.keeps w c trivial

def map {W V : Type} (f : W → V) (w : Replaying W) : Replaying V := ⟨f w.inner, w.remaining⟩

def Carries (t : Tree) (f : W → V) : Prop :=
  ∀ w c, c.isBlank = false → f (Sink.put t w c) = Sink.put t (f w) c

theorem map_replay (h : Carries t f) (i : NodeId) : f (replay t w i) = replay t (f w) i := by
  unfold replay
  split
  · simp only [Sink.putAll, List.foldl_cons, List.foldl_nil]
    rw [h _ _ rfl, h _ _ rfl, h _ _ rfl]
  · rfl

theorem map_replayAll (h : Carries t f) : f (replayAll t w nodes) = replayAll t (f w) nodes := by
  unfold replayAll
  induction nodes generalizing w with
  | nil => rfl
  | cons i rest ih => rw [List.foldl_cons, List.foldl_cons, ih, map_replay h]

theorem map_passTo (h : Carries t f) (p : NodeId → Bool) (w : Replaying W) :
    (w.passTo t p).map f = (w.map f).passTo t p := by
  obtain ⟨inner, remaining⟩ := w
  cases remaining with
  | nil => rfl
  | cons nodes outer =>
      simp only [passTo, map]
      split
      · rfl
      · simp only [map_replayAll h]

theorem map_forward (h : Carries t f) {c : Call} (hc : c.isBlank = false) (w : Replaying W) :
    (w.forward t c).map f = (w.map f).forward t c := by
  simp only [forward, map, h _ c hc]

theorem map_put (h : Carries t f) {c : Call} (hc : c.isBlank = false) (w : Replaying W) :
    (w.put t c).map f = (w.map f).put t c := by
  cases c with
  | start i =>
      simp only [put]
      rw [← map_passTo h]
      simp only [map, h _ _ hc]
  | finish i =>
      obtain ⟨inner, remaining⟩ := w
      cases remaining with
      | nil => exact map_forward h hc _
      | cons nodes outer => simp only [put, forward, map, map_replayAll h, h _ _ hc]
  | identifier | keyword | token =>
      simp only [put, passToRole]
      rw [map_forward h hc, map_passTo h]
  | literal | primitiveType | special => exact map_forward h hc _
  | space | indent | unindent | newLine => cases hc

theorem put_of_isBlank {W : Type} [Sink W] {c : Call} (hc : c.isBlank = true) (w : Replaying W) :
    Sink.put t w c = w.forward t c := by
  cases c with
  | space | indent | unindent | newLine => rfl
  | _ => cases hc

theorem respects (h : Sink.Respects t f) : Sink.Respects t (map f) where
  put w c := by
    cases hc : c.isBlank with
    | false => exact map_put (fun w c _ => h.put w c) hc w
    | true =>
        rw [put_of_isBlank hc, put_of_isBlank hc]
        simp only [forward, map, h.put]
  location w := h.location w.inner
  lastRange w := h.lastRange w.inner

theorem skims (h : Sink.Skims t f) : Sink.Skims t (map f) := by
  intro w c
  cases hc : c.isBlank with
  | false => exact map_put (fun w c hc => by rw [h, hc]; rfl) hc w
  | true =>
      rw [put_of_isBlank hc, if_pos rfl]
      simp only [forward, map, h w.inner c, hc, if_true]

end Replaying

namespace Logged

theorem respects_inner {W : Type} [Sink W] : Sink.Respects t (Logged.inner : Logged W → W) where
  put _ _ := rfl
  location _ := rfl
  lastRange _ := rfl

def code {W : Type} (w : Logged W) : CallLog := ⟨w.heard.filter fun c => !c.isBlank⟩

theorem skims_code {W : Type} [Sink W] : Sink.Skims t (code : Logged W → CallLog) := by
  intro w c
  cases hc : c.isBlank <;> simp [code, Sink.put, hc]

theorem tokens_code {W : Type} (w : Logged W) :
    w.code.calls.filter Call.isToken = w.calls.filter Call.isToken := by
  have hb (c : Call) : (c.isToken && !c.isBlank) = c.isToken := by cases c <;> rfl
  simp only [CallLog.calls, code, calls, ← List.filter_reverse, List.filter_filter, hb]

end Logged

end TreeScribe
