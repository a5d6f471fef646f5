import Mathlib.Data.List.Infix
import TreeScribe.Text.Position

namespace TreeScribe

namespace Position

/-- In a text, a range holds a word, and its ends are the places of their offsets. -/
structure WordAt (text : String) (r : TextRange) (word : String) : Prop where
  slice : rangeText? text r = some word
  start : locate text r.start.offset = r.start
  stop : locate text r.stop.offset = r.stop

def bytes (text : List Char) : Nat := text.foldr (fun c n => c.utf8Size + n) 0

variable {l : Location} {c : Char} {a b d : List Char} {text word : String} {r : TextRange}

theorem bytes_cons : bytes (c :: a) = c.utf8Size + bytes a := rfl

theorem bytes_append : bytes (a ++ b) = bytes a + bytes b := by
  induction a with
  | nil => exact (Nat.zero_add _).symm
  | cons c a ih => rw [List.cons_append, bytes_cons, ih, bytes_cons, Nat.add_assoc]

theorem utf8ByteSize_eq (s : String) : s.utf8ByteSize = bytes s.toList := by
  have hof (text : List Char) : (String.ofList text).utf8ByteSize = bytes text := by
    induction text with
    | nil => rfl
    | cons c text ih =>
        rw [String.ofList_cons, String.utf8ByteSize_append, String.utf8ByteSize_singleton, ih,
          bytes_cons]
  rw [← hof, String.ofList_toList]

theorem bytes_levels {n : Nat} : bytes (List.replicate n a).flatten = n * bytes a := by
  induction n with
  | zero => simp [bytes]
  | succ n ih =>
      rw [List.replicate_succ, List.flatten_cons, bytes_append, ih, Nat.succ_mul, Nat.add_comm]

theorem exists_bytes_cons (c : Char) (a : List Char) :
    ∃ n, bytes (c :: a) = n + 1 ∧ c.utf8Size ≤ n + 1 ∧ n + 1 - c.utf8Size = bytes a := by
  have hc := c.utf8Size_pos
  refine ⟨bytes a + (c.utf8Size - 1), ?_, ?_, ?_⟩
  · rw [bytes_cons]
    omega
  · omega
  · omega

theorem bytes_le_of_prefix (h : a <+: b) : bytes a ≤ bytes b := by
  obtain ⟨d, rfl⟩ := h
  rw [bytes_append]
  exact Nat.le_add_right _ _

theorem advance_append : l.advance (a ++ b) = (l.advance a).advance b := List.foldl_append

theorem offset_advance : (l.advance a).offset = l.offset + bytes a := by
  induction a generalizing l with
  | nil => rfl
  | cons c a ih =>
      have hc : l.advance (c :: a) = (l.step c).advance a := rfl
      rw [hc, ih, Location.offset_step, bytes_cons, Nat.add_assoc]

theorem dropBytes?_append : dropBytes? (bytes a) (a ++ b) = some b := by
  induction a with
  | nil => exact dropBytes?.eq_1 b
  | cons c a ih =>
      obtain ⟨n, hn, hle, hsub⟩ := exists_bytes_cons c a
      rw [hn, List.cons_append, dropBytes?, if_pos hle, hsub, ih]

theorem takeBytes?_append : takeBytes? (bytes a) (a ++ b) = some a := by
  induction a with
  | nil => exact takeBytes?.eq_1 _
  | cons c a ih =>
      obtain ⟨n, hn, hle, hsub⟩ := exists_bytes_cons c a
      rw [hn, List.cons_append, takeBytes?, if_pos hle, hsub, ih]
      rfl

theorem locateFrom_append : locateFrom (l.advance a).offset l (a ++ b) = l.advance a := by
  induction a generalizing l with
  | nil =>
      cases b with
      | nil => rfl
      | cons c b =>
          have := c.utf8Size_pos
          exact if_pos (show l.offset + c.utf8Size > l.offset by omega)
  | cons c a ih =>
      have hc : l.advance (c :: a) = (l.step c).advance a := rfl
      have hle := Location.offset_le_advance (l.step c) a
      rw [Location.offset_step] at hle
      rw [hc, List.cons_append, locateFrom, if_neg (Nat.not_lt.mpr hle), ih]

theorem rangeText?_of_append (ht : text.toList = a ++ word.toList ++ b)
    (hs : r.start.offset = bytes a) (he : r.stop.offset = bytes (a ++ word.toList)) :
    rangeText? text r = some word := by
  rw [rangeText?, spanText?, slice?, TextRange.span, ht]
  simp only [hs, he, bytes_append, Nat.add_sub_cancel_left]
  rw [if_pos (Nat.le_add_right _ _), List.append_assoc, dropBytes?_append, Option.bind_some,
    takeBytes?_append, Option.map_some, String.ofList_toList]

theorem offset_advance_first : (Location.first.advance a).offset = bytes a :=
  offset_advance.trans (Nat.zero_add _)

/-- A word of the text stands between the places behind what is before it and behind itself. -/
theorem wordAt_of_append (ht : text.toList = a ++ word.toList ++ b)
    (hs : r.start = Location.first.advance a)
    (he : r.stop = Location.first.advance (a ++ word.toList)) : WordAt text r word := by
  refine ⟨?_, ?_, ?_⟩
  · exact rangeText?_of_append ht (hs ▸ offset_advance_first) (he ▸ offset_advance_first)
  · rw [locate, hs, ht, List.append_assoc, locateFrom_append]
  · rw [locate, he, ht, locateFrom_append]

end Position

namespace Location

variable {l : Location} {text : List Char}

theorem advance_of_notMem (h : '\n' ∉ text) :
    l.advance text = ⟨l.line, l.column + text.length, l.offset + Position.bytes text⟩ := by
  induction text generalizing l with
  | nil => rfl
  | cons c text ih =>
      rw [List.mem_cons, not_or] at h
      have hc : l.advance (c :: text) = (l.step c).advance text := rfl
      rw [hc, ih h.2, step, if_neg (Ne.symm h.1), Position.bytes_cons, List.length_cons]
      simp only [mk.injEq, true_and]
      omega

end Location

end TreeScribe
