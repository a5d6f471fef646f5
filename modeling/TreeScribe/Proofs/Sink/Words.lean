import TreeScribe.Sink.Replaying
import TreeScribe.Sink.Spaced
import TreeScribe.Sink.Text

namespace TreeScribe

inductive Blank (unit : String) : String → Prop
  | empty : Blank unit ""
  | space {b : String} (h : Blank unit b) : Blank unit (b ++ " ")
  | newLine {b : String} (h : Blank unit b) : Blank unit (b ++ "\n")
  | indent {b : String} (h : Blank unit b) : Blank unit (b ++ unit)

inductive Spread (unit : String) : List String → String → Prop
  | blank {b : String} (hb : Blank unit b) : Spread unit [] b
  | word {words : List String} {s word b : String} (h : Spread unit words s) (hb : Blank unit b) :
      Spread unit (words ++ [word]) (s ++ word ++ b)

variable {unit b b' s s' : String} {ws ws' : List String} {t : Tree} {c : Call}

namespace Blank

theorem append (h : Blank unit b) (h' : Blank unit b') : Blank unit (b ++ b') := by
  induction h' with
  | empty => simpa using h
  | space _ ih =>
      rw [← String.append_assoc]
      exact ih.space
  | newLine _ ih =>
      rw [← String.append_assoc]
      exact ih.newLine
  | indent _ ih =>
      rw [← String.append_assoc]
      exact ih.indent

theorem levels (h : Blank unit b) (n : Nat) :
    Blank unit ((List.replicate n unit).foldl (· ++ ·) b) := by
  induction n generalizing b with
  | zero => exact h
  | succ n ih => exact ih h.indent

end Blank

namespace Spread

theorem single (word : String) : Spread unit [word] word := by
  have h : Spread unit ([] ++ [word]) ("" ++ word ++ "") := .word (.blank .empty) .empty
  simpa using h

theorem append (h : Spread unit ws s) (h' : Spread unit ws' s') :
    Spread unit (ws ++ ws') (s ++ s') := by
  induction h' with
  | blank hb =>
      rw [List.append_nil]
      cases h with
      | blank h => exact .blank (h.append hb)
      | word h hb' =>
          rw [String.append_assoc]
          exact .word h (hb'.append hb)
  | word _ hb ih =>
      rw [← List.append_assoc, ← String.append_assoc, ← String.append_assoc]
      exact .word ih hb

end Spread

namespace Call

def isToken : Call → Bool
  | .identifier _ | .keyword .. | .token .. | .literal _ | .primitiveType _ | .special _ => true
  | _ => false

def word (t : Tree) (limit : Option Nat) : Call → String
  | .identifier i => (TextSink.identifierText? t i).getD ""
  | .keyword _ text | .token _ text | .primitiveType text => text
  | .literal v => (v.write limit).toText
  | .special (.comment .line content) => "//" ++ content
  | .special (.comment .documentation content) => "///" ++ content
  | .special (.comment .block content) => "/*" ++ content ++ "*/"
  | .special (.comment .inactive content) => content
  | .special (.directive kind argument) =>
    "#" ++ kind.keyword ++ (if argument.isEmpty then "" else " " ++ argument)
  | _ => ""

def words (t : Tree) (limit : Option Nat) (calls : List Call) : List String :=
  (calls.filter isToken).map (word t limit)

end Call

namespace TextSink

structure Writes (w : TextSink) (words : List String) (w' : TextSink) : Prop where
  unit : w'.unit = w.unit
  limit : w'.limit = w.limit
  output : ∃ s, Spread w.unit words s ∧ w'.output = w.output ++ s

namespace Writes

variable {w w' w'' : TextSink}

theorem of_blank (hu : w'.unit = w.unit) (hl : w'.limit = w.limit) (hb : Blank w.unit b)
    (ho : w'.output = w.output ++ b) : w.Writes [] w' := ⟨hu, hl, b, .blank hb, ho⟩

theorem refl : w.Writes [] w := of_blank rfl rfl .empty (by simp)

theorem trans (h : w.Writes ws w') (h' : w'.Writes ws' w'') : w.Writes (ws ++ ws') w'' := by
  obtain ⟨s, hs, ho⟩ := h.output
  obtain ⟨s', hs', ho'⟩ := h'.output
  rw [h.unit] at hs'
  refine ⟨h'.unit.trans h.unit, h'.limit.trans h.limit, s ++ s', hs.append hs', ?_⟩
  rw [ho', ho, String.append_assoc]

theorem settle : w.Writes [] w.settle := by
  unfold TextSink.settle
  split
  · exact of_blank rfl rfl (Blank.empty.levels w.level) rfl
  · exact .refl

theorem newLine : w.Writes [] w.newLine :=
  of_blank rfl rfl Blank.empty.newLine (by simp [TextSink.newLine, String.push_eq_append])

theorem space : w.Writes [] (w.append " ") := of_blank rfl rfl Blank.empty.space (by simp [append])

theorem append (text : String) : w.Writes [text] (w.append text) :=
  ⟨rfl, rfl, text, .single text, rfl⟩

theorem settled (text : String) : w.Writes [text] (w.settle.append text) :=
  settle.trans (append text)

theorem word (text : String) : w.Writes [text] (w.word text) := by
  obtain ⟨hu, hl, ho⟩ := settled (w := w) text
  exact ⟨hu, hl, ho⟩

theorem comment (kind : CommentKind) (content : String) :
    w.Writes [Call.word t w.limit (.special (.comment kind content))] (w.comment kind content) := by
  cases kind with
  | line | documentation => exact (settled _).trans newLine
  | block | inactive => exact settled _

theorem directive (kind : DirectiveKind) (argument : String) :
    w.Writes [Call.word t w.limit (.special (.directive kind argument))]
      (w.directive kind argument) := by
  unfold TextSink.directive
  split
  · exact (settled _).trans newLine
  · exact newLine.trans ((settled _).trans newLine)

/-- A call writes its word, if it has one, and blanks. -/
theorem put (c : Call) : w.Writes (Call.words t w.limit [c]) (w.put t c) := by
  cases c with
  | identifier i =>
      have hw : Call.words t w.limit [.identifier i] = [(identifierText? t i).getD ""] := rfl
      rw [hw, TextSink.put]
      cases identifierText? t i with
      | some text => exact word text
      | none => exact ⟨rfl, rfl, "", .single "", by simp⟩
  | keyword _ text | token _ text | primitiveType text => exact word text
  | literal v => exact word _
  | special k =>
      cases k with
      | comment kind content => exact comment kind content
      | directive kind argument => exact directive kind argument
  | space => exact settle.trans space
  | newLine => exact newLine
  | start | finish | indent | unindent => exact of_blank rfl rfl .empty (by simp [TextSink.put])

end Writes

end TextSink

structure Logged (W : Type) where
  inner : W
  /-- last one first -/
  heard : List Call

instance {W : Type} [Sink W] : Sink (Logged W) where
  put t w c := ⟨Sink.put t w.inner c, c :: w.heard⟩
  location w := Sink.location w.inner
  lastRange w := Sink.lastRange w.inner

namespace Logged

def calls {W : Type} (w : Logged W) : List Call := w.heard.reverse

structure Faithful (t : Tree) (unit : String) (limit : Option Nat)
    (w : Logged TextSink) : Prop where
  writes : (TextSink.new unit limit).Writes (Call.words t limit w.calls) w.inner

theorem faithful_new (unit : String) (limit : Option Nat) :
    Faithful t unit limit ⟨.new unit limit, []⟩ := ⟨.refl⟩

theorem Faithful.put {unit : String} {limit : Option Nat} {w : Logged TextSink}
    (h : w.Faithful t unit limit) (c : Call) : (Sink.put t w c).Faithful t unit limit := by
  have hc : Call.words t limit (Sink.put t w c).calls = Call.words t limit w.calls ++
      Call.words t limit [c] := by
    simp [Call.words, calls, Sink.put]
  refine ⟨?_⟩
  rw [hc]
  have hp := TextSink.Writes.put (t := t) (w := w.inner) c
  rw [h.writes.limit] at hp
  exact h.writes.trans hp

theorem Faithful.spread {unit : String} {limit : Option Nat} {w : Logged TextSink}
    (h : w.Faithful t unit limit) : Spread unit (Call.words t limit w.calls) w.inner.output := by
  obtain ⟨s, hs, ho⟩ := h.writes.output
  rw [ho]
  simpa [TextSink.new] using hs

end Logged

end TreeScribe
