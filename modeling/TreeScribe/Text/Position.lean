import TreeScribe.Text.Location

namespace TreeScribe

namespace Location

def step (l : Location) (c : Char) : Location :=
  if c = '\n' then ⟨l.line + 1, 1, l.offset + c.utf8Size⟩
  else ⟨l.line, l.column + 1, l.offset + c.utf8Size⟩

def advance (l : Location) (text : List Char) : Location := text.foldl step l

theorem offset_step (l : Location) (c : Char) : (l.step c).offset = l.offset + c.utf8Size := by
  unfold step
  split <;> rfl

theorem offset_le_advance (l : Location) (text : List Char) :
    l.offset ≤ (l.advance text).offset := by
  induction text generalizing l with
  | nil => exact Nat.le_refl _
  | cons c text ih =>
    have h := ih (l.step c)
    rw [offset_step] at h
    exact Nat.le_trans (Nat.le_add_right _ _) h

end Location

namespace Position

def locateFrom (offset : Nat) : Location → List Char → Location
  | l, [] => l
  | l, c :: text => if l.offset + c.utf8Size > offset then l else locateFrom offset (l.step c) text

def locate (text : String) (offset : Nat) : Location := locateFrom offset .first text.toList

def columnOffset (column : Nat) : Nat → Nat → List Char → Nat
  | _, offset, [] => offset
  | current, offset, c :: text =>
    if current = column ∨ c = '\n' then offset
    else columnOffset column (current + 1) (offset + c.utf8Size) text

def lineOffset (line column : Nat) : Nat → Nat → List Char → Nat
  | current, offset, [] => if current = line then columnOffset column 1 offset [] else offset
  | current, offset, c :: text =>
    if current = line then columnOffset column 1 offset (c :: text)
    else lineOffset line column (if c = '\n' then current + 1 else current)
      (offset + c.utf8Size) text

/-- A line or column of zero is read as one. -/
def offsetAt (text : String) (line column : Nat) : Nat :=
  lineOffset (max line 1) (max column 1) 1 0 text.toList

/-- A line feed ends a line, so that a text ending in one has an empty last line. -/
def lineCount (text : String) : Nat := 1 + text.toList.count '\n'

def dropBytes? : Nat → List Char → Option (List Char)
  | 0, text => some text
  | _ + 1, [] => none
  | n + 1, c :: text => if c.utf8Size ≤ n + 1 then dropBytes? (n + 1 - c.utf8Size) text else none

def takeBytes? : Nat → List Char → Option (List Char)
  | 0, _ => some []
  | _ + 1, [] => none
  | n + 1, c :: text =>
    if c.utf8Size ≤ n + 1 then (takeBytes? (n + 1 - c.utf8Size) text).map (c :: ·) else none

def slice? (text : String) (start stop : Nat) : Option String :=
  if start ≤ stop then
    ((dropBytes? start text.toList).bind (takeBytes? (stop - start))).map String.ofList
  else none

def spanText? (text : String) (s : Span) : Option String := slice? text s.start s.stop

def rangeText? (text : String) (r : TextRange) : Option String := spanText? text r.span

end Position

end TreeScribe
