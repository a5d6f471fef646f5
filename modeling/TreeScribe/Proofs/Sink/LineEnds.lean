import TreeScribe.Proofs.Sink.Standing
import TreeScribe.Proofs.Sink.Words

namespace TreeScribe

/-- What directives and line comments say. Other comments may break lines and share them. -/
def SpecialKind.line? : SpecialKind → Option String
  | .comment .line content | .comment .documentation content => some content
  | .directive _ argument => some argument
  | _ => none

def SpecialKind.isDirective : SpecialKind → Bool
  | .directive .. => true
  | .comment .. => false

def OpensLine (text : List Char) : Prop :=
  ∃ lines lead, text = lines ++ lead ∧ (∀ x ∈ lines.getLast?, x = '\n') ∧
    ∀ x ∈ lead, x = ' ' ∨ x = '\t'

variable {unit : String} {limit : Option Nat} {t : Tree} {k : SpecialKind} {s : String}
  {text blanks : List Char}

theorem OpensLine.of_getLast? (h : ∀ x ∈ text.getLast?, x = '\n') : OpensLine text :=
  ⟨text, [], (List.append_nil _).symm, h, by simp⟩

theorem OpensLine.append (h : OpensLine text) (hb : ∀ x ∈ blanks, x = ' ' ∨ x = '\t') :
    OpensLine (text ++ blanks) := by
  obtain ⟨lines, lead, rfl, hlines, hlead⟩ := h
  exact ⟨lines, lead ++ blanks, List.append_assoc .., hlines,
    List.forall_mem_append.mpr ⟨hlead, hb⟩⟩

theorem SpecialKind.notMem_word (hk : k.line? = some s) (hs : '\n' ∉ s.toList) :
    '\n' ∉ (Call.word t limit (.special k)).toList := by
  cases k with
  | comment kind content =>
      cases kind with
      | line | documentation =>
          cases hk
          simp [Call.word, hs]
      | block | inactive => cases hk
  | directive kind argument =>
      cases hk
      have hkeyword : '\n' ∉ kind.keyword.toList := by cases kind <;> decide
      simp only [Call.word]
      split <;> simp [hkeyword, hs]

namespace TextSink

variable {w : TextSink} {c : Call}

structure Lining (unit : String) (w : TextSink) : Prop where
  unit : w.unit = unit
  opens : w.isFresh = true → OpensLine w.output.toList

namespace Lining

theorem new : Lining unit (.new unit limit) := ⟨rfl, fun _ => .of_getLast? (by simp [TextSink.new])⟩

section

variable (hu : ∀ x ∈ unit.toList, x = ' ' ∨ x = '\t')

include hu

theorem settle (h : Lining unit w) : Lining unit w.settle := by
  unfold TextSink.settle
  split
  · refine ⟨h.unit, fun hf => ?_⟩
    rw [String.toList_append, indentation, toList_levels, h.unit]
    refine (h.opens hf).append fun x hx => ?_
    rw [String.toList_empty, List.nil_append] at hx
    obtain ⟨l, hl, hx⟩ := List.mem_flatten.mp hx
    exact hu x (List.eq_of_mem_replicate hl ▸ hx)
  · exact h

end

theorem append (h : Lining unit w) (text : String) : Lining unit (w.append text) := by
  refine ⟨h.unit, fun hf => ?_⟩
  simp only [TextSink.append] at hf ⊢
  split at hf
  · rename_i he
    rw [String.isEmpty_iff.mp he, String.append_empty]
    exact h.opens hf
  · rw [String.toList_append]
    refine .of_getLast? fun x hx => ?_
    rw [List.getLast?_append, beq_iff_eq.mp hf] at hx
    exact (Option.some.inj hx).symm

theorem newLine (h : Lining unit w) : Lining unit w.newLine :=
  ⟨h.unit, fun _ => .of_getLast? (by simp [TextSink.newLine])⟩

variable (hu : ∀ x ∈ unit.toList, x = ' ' ∨ x = '\t')

include hu

theorem word (h : Lining unit w) (text : String) : Lining unit (w.word text) :=
  ⟨((h.settle hu).append text).unit, ((h.settle hu).append text).opens⟩

theorem comment (h : Lining unit w) (kind : CommentKind) (content : String) :
    Lining unit (w.comment kind content) := by
  cases kind with
  | line | documentation => exact ((h.settle hu).append _).newLine
  | block | inactive => exact (h.settle hu).append _

theorem directive (h : Lining unit w) (kind : DirectiveKind) (argument : String) :
    Lining unit (w.directive kind argument) := by
  unfold TextSink.directive
  split
  · exact ((h.settle hu).append _).newLine
  · exact ((h.newLine.settle hu).append _).newLine

theorem put (h : Lining unit w) (c : Call) : Lining unit (w.put t c) := by
  cases c with
  | start | finish => exact h
  | identifier i =>
      simp only [TextSink.put]
      split
      · exact h.word hu _
      · exact h
  | keyword | token | primitiveType | literal => exact h.word hu _
  | special k =>
      cases k with
      | comment kind content => exact h.comment hu kind content
      | directive kind argument => exact h.directive hu kind argument
  | space => exact (h.settle hu).append _
  | indent | unindent => exact ⟨h.unit, h.opens⟩
  | newLine => exact h.newLine

/-- A directive starts its line, behind blanks, and like a line comment it ends it. -/
theorem put_special (limit : Option Nat) (h : Lining unit w) (hk : k.line? = some s) :
    ∃ before, w.output.toList <+: before ∧
    (w.put t (.special k)).output.toList = before ++
    (Call.word t limit (.special k)).toList ++ ['\n'] ∧
      (k.isDirective = true → OpensLine before) := by
  have hgrows (w : TextSink) : w.output.toList <+: w.settle.output.toList := by
    unfold TextSink.settle
    split
    · exact ⟨w.indentation.toList, String.toList_append.symm⟩
    · exact List.prefix_refl _
  cases k with
  | comment kind content =>
      refine ⟨w.settle.output.toList, hgrows w, ?_, by simp [SpecialKind.isDirective]⟩
      cases kind with
      | line | documentation =>
          simp [TextSink.put, TextSink.comment, TextSink.newLine, TextSink.append, Call.word]
      | block | inactive => cases hk
  | directive kind argument =>
      -- the line on which the directive is written
      have hline : ∃ v : TextSink, v = (if w.isFresh then w else w.newLine) ∧ v.isFresh = true ∧
        Lining unit v ∧
          w.output.toList <+: v.output.toList := by
        cases hf : w.isFresh with
        | true => exact ⟨w, rfl, hf, h, List.prefix_refl _⟩
        | false => exact ⟨w.newLine, rfl, rfl, h.newLine, ⟨['\n'], by simp [TextSink.newLine]⟩⟩
      obtain ⟨v, hv, hfresh, hlining, hprefix⟩ := hline
      have hput : w.put t (.special (.directive kind argument)) =
          (v.settle.append (Call.word t limit (.special (.directive kind argument)))).newLine := by
        rw [hv]
        rfl
      refine ⟨v.settle.output.toList, hprefix.trans (hgrows v), ?_,
        fun _ => (hlining.settle hu).opens ?_⟩
      · rw [hput]
        simp [TextSink.newLine, TextSink.append]
      · unfold TextSink.settle
        split <;> exact hfresh

end Lining

end TextSink

end TreeScribe
