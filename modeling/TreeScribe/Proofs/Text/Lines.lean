import Mathlib.Order.Bounds.Basic
import TreeScribe.Proofs.Text.Position

namespace TreeScribe

namespace Location

structure Precedes (l m : Location) : Prop where
  order : (l.compare m).isLE = true
  offset : l.offset ≤ m.offset

variable {l m k : Location} {a : List Char} {c : Char}

theorem precedes_iff :
    l.Precedes m ↔ (l.line < m.line ∨ l.line = m.line ∧ l.column ≤ m.column) ∧
      l.offset ≤ m.offset := by
  have hcompare : (l.compare m).isLE = true ↔
      l.line < m.line ∨ l.line = m.line ∧
      (l.column < m.column ∨ l.column = m.column ∧ l.offset ≤ m.offset) := by
    simp only [Location.compare, Ordering.isLE_then_iff_or, Nat.compare_eq_lt, Nat.compare_eq_eq,
      Nat.isLE_compare]
  constructor
  · rintro ⟨h, ho⟩
    rw [hcompare] at h
    exact ⟨by omega, ho⟩
  · rintro ⟨h, ho⟩
    exact ⟨hcompare.mpr (by omega), ho⟩

theorem Precedes.refl (l : Location) : l.Precedes l :=
  precedes_iff.mpr ⟨.inr ⟨rfl, Nat.le_refl _⟩, Nat.le_refl _⟩

theorem Precedes.trans (h : l.Precedes m) (h' : m.Precedes k) : l.Precedes k := by
  rw [precedes_iff] at h h' ⊢
  omega

theorem precedes_step : l.Precedes (l.step c) := by
  rw [precedes_iff, offset_step]
  refine ⟨?_, Nat.le_add_right _ _⟩
  unfold step
  split
  · exact .inl (Nat.lt_succ_self _)
  · exact .inr ⟨rfl, Nat.le_succ _⟩

theorem precedes_advance : l.Precedes (l.advance a) := by
  induction a generalizing l with
  | nil => exact .refl l
  | cons c a ih => exact precedes_step.trans ih

theorem line_first : first.line = 1 := rfl

theorem line_advance : (l.advance a).line = l.line + a.count '\n' := by
  induction a generalizing l with
  | nil => rfl
  | cons c a ih =>
      have hc : l.advance (c :: a) = (l.step c).advance a := rfl
      rw [hc, ih, List.count_cons]
      by_cases hn : c = '\n'
      · simp only [step, hn, if_true, beq_self_eq_true]
        omega
      · simp [step, hn]

end Location

namespace Position

def IsBoundary (text : String) (offset : Nat) : Prop :=
  ∃ before, before <+: text.toList ∧ bytes before = offset

def lines (text : String) : List (List Char) := text.toList.splitOn '\n'

def joined (ls : List (List Char)) : List Char := ['\n'].intercalate ls

/-- What stands before a place, its line and column counted from zero; everything, if there is no
such line. -/
def upTo : List (List Char) → Nat → Nat → List Char
  | [], _, _ => []
  | s :: _, 0, k => s.take k
  | [s], _ + 1, _ => s
  | s :: ls, i + 1, k => s ++ '\n' :: upTo ls i k

variable {l : Location} {a b s : List Char} {ls : List (List Char)} {text : String}
  {i k o line column : Nat}

theorem joined_cons_cons {s' : List Char} :
    joined (s :: s' :: ls) = s ++ '\n' :: joined (s' :: ls) := by
  simp [joined, List.intercalate_cons_cons]

theorem joined_lines : joined (lines text) = text.toList := List.intercalate_splitOn '\n'

theorem lines_ne_nil : lines text ≠ [] := List.splitOn_ne_nil _ _

theorem notMem_lines : ∀ s ∈ lines text, '\n' ∉ s := by
  unfold lines
  induction text.toList with
  | nil => simp
  | cons c a ih =>
      rw [List.splitOn_cons_eq_if_modifyHead]
      split
      · simpa using ih
      · rename_i hc
        obtain ⟨s, ls, he⟩ := List.exists_cons_of_ne_nil (List.splitOn_ne_nil '\n' a)
        rw [he] at ih ⊢
        obtain ⟨hs, hls⟩ := List.forall_mem_cons.mp ih
        refine List.forall_mem_cons.mpr ⟨fun h => ?_, hls⟩
        rcases List.mem_cons.mp h with rfl | h
        · exact hc (beq_self_eq_true _)
        · exact hs h

theorem upTo_prefix : upTo ls i k <+: joined ls := by
  fun_induction upTo ls i k with
  | case1 => exact List.nil_prefix
  | case2 s ls k =>
      refine (List.take_prefix k s).trans ?_
      cases ls with
      | nil => simp [joined]
      | cons s' ls => simp [joined_cons_cons]
  | case3 s => simp [joined]
  | case4 s ls i k hne ih =>
      obtain ⟨s', ls, rfl⟩ := List.exists_cons_of_ne_nil hne
      rw [joined_cons_cons]
      exact List.prefix_append_right_inj _ |>.mpr (List.cons_prefix_cons.mpr ⟨rfl, ih⟩)

theorem upTo_of_getElem? (hn : ls[i]? = none) : upTo ls i k = joined ls := by
  fun_induction upTo ls i k with
  | case1 => rfl
  | case2 => cases hn
  | case3 s => simp [joined]
  | case4 s ls i k hne ih =>
      obtain ⟨s', ls, rfl⟩ := List.exists_cons_of_ne_nil hne
      rw [ih hn, joined_cons_cons]

theorem advance_upTo (hls : ∀ s ∈ ls, '\n' ∉ s) (hs : ls[i]? = some s) (hl : l.column = 1) :
    (l.advance (upTo ls i k)).line = l.line + i ∧
    (l.advance (upTo ls i k)).column = min k s.length + 1 := by
  fun_induction upTo ls i k generalizing l with
  | case1 => cases hs
  | case2 s' ls k =>
      cases hs
      have htake : '\n' ∉ s.take k := fun h => hls s List.mem_cons_self (List.mem_of_mem_take h)
      rw [Location.advance_of_notMem htake, hl, List.length_take]
      exact ⟨rfl, Nat.add_comm _ _⟩
  | case3 => cases hs
  | case4 s' ls i k _ ih =>
      obtain ⟨hs', hls⟩ := List.forall_mem_cons.mp hls
      obtain ⟨hline, hcolumn⟩ := ih hls hs (l := (l.advance s').step '\n') rfl
      have hadvance : l.advance (s' ++ '\n' :: upTo ls i k) =
        ((l.advance s').step '\n').advance (upTo ls i k) :=
        advance_append
      have hstep : ((l.advance s').step '\n').line = l.line + 1 := by
        rw [Location.advance_of_notMem hs']
        rfl
      rw [hadvance, hline, hstep]
      exact ⟨by omega, hcolumn⟩

theorem exists_upTo (hne : ls ≠ []) (ha : a <+: joined ls) :
    ∃ i k s, ls[i]? = some s ∧ k ≤ s.length ∧ a = upTo ls i k := by
  induction ls generalizing a with
  | nil => exact absurd rfl hne
  | cons s ls ih =>
      have hfirst (h : a <+: s) :
          ∃ i k s', (s :: ls)[i]? = some s' ∧ k ≤ s'.length ∧ a = upTo (s :: ls) i k :=
        ⟨0, a.length, s, rfl, h.length_le, List.prefix_iff_eq_take.mp h⟩
      cases ls with
      | nil => exact hfirst (by simpa [joined] using ha)
      | cons s' ls =>
          rw [joined_cons_cons] at ha
          -- it ends in the first line, or holds that line and its line feed
          obtain ⟨b, hb⟩ := ha
          rcases List.append_eq_append_iff.mp hb with ⟨b', rfl, -⟩ | ⟨a', rfl, hrest⟩
          · exact hfirst (List.prefix_append _ _)
          · cases a' with
            | nil => exact hfirst (by simp)
            | cons c a' =>
                obtain ⟨rfl, htail⟩ := List.cons.inj hrest
                obtain ⟨i, k, s'', hs, hk, rfl⟩ := ih (List.cons_ne_nil _ _) ⟨b, htail.symm⟩
                exact ⟨i + 1, k, s'', hs, hk, rfl⟩

theorem columnOffset_append (hs : '\n' ∉ s) (hb : ∀ c ∈ b.head?, c = '\n') :
    columnOffset (k + column) k o (s ++ b) = o + bytes (s.take column) := by
  induction s generalizing k o column with
  | nil =>
      cases b with
      | nil => simp [columnOffset, bytes]
      | cons c b =>
          rw [List.nil_append, columnOffset, if_pos (.inr (hb c rfl))]
          simp [bytes]
  | cons c s ih =>
      rw [List.mem_cons, not_or] at hs
      rw [List.cons_append, columnOffset]
      cases column with
      | zero => exact if_pos (.inl rfl)
      | succ column =>
          have hne : ¬ (k = k + (column + 1) ∨ c = '\n') := by
            rintro (h | h)
            · omega
            · exact hs.1 h.symm
          have hk : k + (column + 1) = k + 1 + column := by omega
          rw [if_neg hne, hk, ih hs.2, List.take_succ_cons, bytes_cons, Nat.add_assoc]

theorem lineOffset_self : lineOffset line column line o a = columnOffset column 1 o a := by
  cases a <;> exact if_pos rfl

theorem lineOffset_append (hs : '\n' ∉ s) (hk : k ≠ line) :
    lineOffset line column k o (s ++ b) = lineOffset line column k (o + bytes s) b := by
  induction s generalizing o with
  | nil => rfl
  | cons c s ih =>
      rw [List.mem_cons, not_or] at hs
      rw [List.cons_append, lineOffset, if_neg hk, if_neg (Ne.symm hs.1), ih hs.2, bytes_cons,
        Nat.add_assoc]

theorem lineOffset_joined (hls : ∀ s ∈ ls, '\n' ∉ s) (hne : ls ≠ []) :
    lineOffset (k + i) (column + 1) k o (joined ls) = o + bytes (upTo ls i column) := by
  induction ls generalizing k i o with
  | nil => exact absurd rfl hne
  | cons s ls ih =>
      obtain ⟨hs, hls⟩ := List.forall_mem_cons.mp hls
      cases i with
      | zero =>
          rw [Nat.add_zero, lineOffset_self, Nat.add_comm column]
          cases ls with
          | nil =>
              have he : joined [s] = s ++ [] := by simp [joined]
              rw [he, columnOffset_append hs (by simp)]
              rfl
          | cons s' ls =>
              rw [joined_cons_cons, columnOffset_append hs (by simp)]
              rfl
      | succ i =>
          have hk : k ≠ k + (i + 1) := by omega
          cases ls with
          | nil =>
              have he : joined [s] = s ++ [] := by simp [joined]
              rw [he, lineOffset_append hs hk]
              exact if_neg hk
          | cons s' ls =>
              have hk' : k + (i + 1) = k + 1 + i := by omega
              have hlf : ('\n').utf8Size = 1 := by decide
              rw [joined_cons_cons, lineOffset_append hs hk, lineOffset, if_neg hk, if_pos rfl, hk',
                ih hls (List.cons_ne_nil _ _), upTo, bytes_append, bytes_cons, hlf]
              · omega
              · exact List.cons_ne_nil _ _

theorem offsetAt_eq : offsetAt text line column =
    bytes (upTo (lines text) (max line 1 - 1) (max column 1 - 1)) := by
  have h : lineOffset (1 + (max line 1 - 1)) (max column 1 - 1 + 1) 1 0 (joined (lines text)) =
      0 + bytes (upTo (lines text) (max line 1 - 1) (max column 1 - 1)) :=
  lineOffset_joined notMem_lines lines_ne_nil
  have hline : 1 + (max line 1 - 1) = max line 1 := by omega
  have hcolumn : max column 1 - 1 + 1 = max column 1 := by omega
  rwa [hline, hcolumn, joined_lines, Nat.zero_add] at h

theorem locate_bytes (ha : a <+: text.toList) :
    locate text (bytes a) = Location.first.advance a := by
  obtain ⟨b, hb⟩ := ha
  have h := locateFrom_append (l := .first) (a := a) (b := b)
  rwa [hb, offset_advance_first] at h

/-- A place is behind all characters that end at the offset or before it. -/
theorem exists_locateFrom (ho : l.offset ≤ o) :
    ∃ before, before <+: a ∧ locateFrom o l a = l.advance before ∧
    l.offset + bytes before ≤ o ∧ ∀ b, b <+: a → l.offset + bytes b ≤ o → b <+: before := by
  induction a generalizing l with
  | nil => exact ⟨[], List.nil_prefix, rfl, ho, fun b hb _ => hb⟩
  | cons c a ih =>
      by_cases hc : l.offset + c.utf8Size > o
      · refine ⟨[], List.nil_prefix, if_pos hc, ho, fun b hb hle => ?_⟩
        cases b with
        | nil => exact List.nil_prefix
        | cons c' b =>
            obtain ⟨rfl, -⟩ := List.cons_prefix_cons.mp hb
            rw [bytes_cons] at hle
            omega
      · have hstep : (l.step c).offset ≤ o := by
          rw [Location.offset_step]
          omega
        obtain ⟨before, hbefore, hlocate, hle, hmax⟩ := ih hstep
        simp only [Location.offset_step, Nat.add_assoc, ← bytes_cons] at hle hmax
        refine ⟨c :: before, List.cons_prefix_cons.mpr ⟨rfl, hbefore⟩, (if_neg hc).trans hlocate,
          hle, fun b hb hb' => ?_⟩
        cases b with
        | nil => exact List.nil_prefix
        | cons c' b =>
            obtain ⟨rfl, htail⟩ := List.cons_prefix_cons.mp hb
            exact List.cons_prefix_cons.mpr ⟨rfl, hmax b htail hb'⟩

theorem exists_locate (text : String) (o : Nat) : ∃ before, before <+: text.toList ∧
    locate text o = Location.first.advance before ∧ bytes before ≤ o ∧
      ∀ b, b <+: text.toList → bytes b ≤ o → b <+: before := by
  have h := exists_locateFrom (l := .first) (a := text.toList) (Nat.zero_le o)
  have hzero : Location.first.offset = 0 := rfl
  simp only [hzero, Nat.zero_add] at h
  exact h

/-- An offset is drawn to the last boundary before it. -/
theorem isGreatest_locate (text : String) (o : Nat) :
    IsGreatest {b | IsBoundary text b ∧ b ≤ min o text.utf8ByteSize} (locate text o).offset := by
  obtain ⟨before, hbefore, hlocate, hle, hmax⟩ := exists_locate text o
  have hsize : bytes before ≤ text.utf8ByteSize := utf8ByteSize_eq text ▸ bytes_le_of_prefix hbefore
  rw [hlocate, offset_advance_first]
  refine ⟨⟨⟨before, hbefore, rfl⟩, Nat.le_min.mpr ⟨hle, hsize⟩⟩, ?_⟩
  rintro _ ⟨⟨b, hb, rfl⟩, hbo⟩
  exact bytes_le_of_prefix (hmax b hb (hbo.trans (Nat.min_le_left _ _)))

theorem precedes_locate {o' : Nat} (h : o ≤ o') : (locate text o).Precedes (locate text o') := by
  obtain ⟨before, hbefore, hlocate, hle, -⟩ := exists_locate text o
  obtain ⟨before', -, hlocate', -, hmax⟩ := exists_locate text o'
  obtain ⟨more, rfl⟩ := hmax before hbefore (hle.trans h)
  rw [hlocate, hlocate', advance_append]
  exact Location.precedes_advance

theorem locate_utf8ByteSize :
    locate text text.utf8ByteSize = Location.first.advance text.toList := by
  rw [utf8ByteSize_eq, locate_bytes (List.prefix_refl _)]

theorem offsetAt_locate (text : String) (o : Nat) :
    offsetAt text (locate text o).line (locate text o).column = (locate text o).offset := by
  obtain ⟨before, hbefore, hlocate, -, -⟩ := exists_locate text o
  rw [← joined_lines] at hbefore
  obtain ⟨i, k, s, hs, hk, rfl⟩ := exists_upTo lines_ne_nil hbefore
  obtain ⟨hline, hcolumn⟩ := advance_upTo (k := k) notMem_lines hs (l := .first) rfl
  rw [hlocate, hline, hcolumn, offsetAt_eq, offset_advance_first, Nat.min_eq_left hk]
  have hi : max (1 + i) 1 - 1 = i := by omega
  have hk' : max (k + 1) 1 - 1 = k := by omega
  rw [Location.line_first, hi, hk']

theorem locate_offsetAt (text : String) (line column : Nat) :
    locate text (offsetAt text line column) =
    Location.first.advance (upTo (lines text) (max line 1 - 1) (max column 1 - 1)) := by
  rw [offsetAt_eq, locate_bytes]
  rw [← joined_lines]
  exact upTo_prefix

/-- Offsets and places convert back and forth. The place of an offset is that of the last boundary
before it, and its line and column lead back to it; the place of a line and column, read as one
where they are zero, has them, but for a column that is drawn to the end of its line and a line that
is drawn to the end of the text. Places are in the order of the offsets, and the last one is in the
last line. -/
theorem offsets_convert (text : String) :
    (∀ o, IsGreatest {b | IsBoundary text b ∧ b ≤ min o text.utf8ByteSize} (locate text o).offset ∧
      offsetAt text (locate text o).line (locate text o).column = (locate text o).offset) ∧
    (∀ line column, (locate text (offsetAt text line column)).offset = offsetAt text line column ∧
      match (lines text)[max line 1 - 1]? with
      | some s => (locate text (offsetAt text line column)).line = max line 1 ∧
          (locate text (offsetAt text line column)).column = min (max column 1) (s.length + 1)
      | none => locate text (offsetAt text line column) = locate text text.utf8ByteSize) ∧
    (∀ o o', o ≤ o' → (locate text o).Precedes (locate text o')) ∧
    (locate text text.utf8ByteSize).line = lineCount text := by
  refine ⟨fun o => ⟨isGreatest_locate text o, offsetAt_locate text o⟩, fun line column => ⟨?_, ?_⟩,
    fun o o' => precedes_locate, ?_⟩
  · rw [locate_offsetAt, offset_advance_first, offsetAt_eq]
  · rw [locate_offsetAt]
    split
    · rename_i s hs
      obtain ⟨hline, hcolumn⟩ :=
        advance_upTo (k := max column 1 - 1) notMem_lines hs (l := .first) rfl
      rw [hline, hcolumn, Location.line_first]
      exact ⟨by omega, by omega⟩
    · rename_i hn
      rw [upTo_of_getElem? hn, joined_lines, locate_utf8ByteSize]
  · rw [locate_utf8ByteSize, Location.line_advance]
    rfl

/-- An offset in a character, a column behind the end of a line, and a line behind the end of the
text. -/
theorem offsets_convert_accented : locate "é\nb" 1 = ⟨1, 1, 0⟩ ∧ locate "é\nb" 3 = ⟨2, 1, 3⟩ ∧
    (locate "é\nb" 1).Precedes (locate "é\nb" 3) ∧ locate "é\nb" (offsetAt "é\nb" 1 9) = ⟨1, 2, 2⟩ ∧
    locate "é\nb" (offsetAt "é\nb" 3 1) = ⟨2, 2, 4⟩ ∧
    (locate "é\nb" "é\nb".utf8ByteSize).line = lineCount "é\nb" := by
  obtain ⟨-, -, horder, hlast⟩ := offsets_convert "é\nb"
  exact ⟨by decide +kernel, by decide +kernel, horder 1 3 (by decide), by decide +kernel,
    by decide +kernel, hlast⟩

end Position

end TreeScribe
