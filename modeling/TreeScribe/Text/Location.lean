namespace TreeScribe

structure Span where
  start : Nat
  stop : Nat
  ordered : start ≤ stop
  deriving DecidableEq

structure Location where
  line : Nat
  column : Nat
  offset : Nat
  deriving DecidableEq, Repr, Inhabited

structure TextRange where
  start : Location
  stop : Location
  ordered : start.offset ≤ stop.offset
  deriving DecidableEq

namespace Location

def first : Location := ⟨1, 1, 0⟩

def toText (l : Location) : String := s!"{l.line}:{l.column}"

/-- Locations are compared by line, then by column, then by offset. -/
def compare (a b : Location) : Ordering :=
  (Ord.compare a.line b.line).then
    ((Ord.compare a.column b.column).then (Ord.compare a.offset b.offset))

end Location

inductive RangeError where
  | span (start stop : Nat)
  | range (start stop : Location)
  deriving DecidableEq

namespace RangeError

def message : RangeError → String
  | .span start stop => s!"Span start ({start}) must be <= end ({stop})"
  | .range start stop =>
    "TextRange start (" ++ start.toText ++ ") must not follow end (" ++ stop.toText ++ ")"

end RangeError

namespace Span

def make (start stop : Nat) : Except RangeError Span :=
  if h : start ≤ stop then .ok ⟨start, stop, h⟩ else .error (.span start stop)

def length (s : Span) : Nat := s.stop - s.start

def isEmpty (s : Span) : Bool := s.start == s.stop

/-- Spans that only touch do not overlap. -/
def overlaps (s t : Span) : Bool := s.start < t.stop && t.start < s.stop

def contains (s t : Span) : Bool := s.start ≤ t.start && t.stop ≤ s.stop

def toText (s : Span) : String := s!"[{s.start}, {s.stop})"

end Span

namespace TextRange

def make (start stop : Location) : Except RangeError TextRange :=
  if h : start.offset ≤ stop.offset then .ok ⟨start, stop, h⟩ else .error (.range start stop)

def empty (at_ : Location) : TextRange := ⟨at_, at_, Nat.le_refl _⟩

def span (r : TextRange) : Span := ⟨r.start.offset, r.stop.offset, r.ordered⟩

def isEmpty (r : TextRange) : Bool := r.start.offset == r.stop.offset

def toText (r : TextRange) : String := r.start.toText ++ "-" ++ r.stop.toText

end TextRange

theorem Span.make_eq_ok_iff {start stop : Nat} {s : Span} :
    Span.make start stop = .ok s ↔ s.start = start ∧ s.stop = stop := by
  unfold Span.make
  split
  · constructor
    · rintro ⟨⟩; exact ⟨rfl, rfl⟩
    · rintro ⟨rfl, rfl⟩; rfl
  · rename_i h
    constructor
    · intro h'; cases h'
    · rintro ⟨rfl, rfl⟩; exact absurd s.ordered h

theorem TextRange.make_self (r : TextRange) : TextRange.make r.start r.stop = .ok r := by
  simp [TextRange.make, r.ordered]

end TreeScribe
