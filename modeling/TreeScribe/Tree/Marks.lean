import Std.Data.TreeMap
import TreeScribe.Text.Location

namespace TreeScribe

/-- Node identifiers count allocations; zero is the null node. -/
abbrev NodeId := Nat

def NodeId.null : NodeId := 0

def NodeId.toText (i : NodeId) : String := s!"NodeId({i})"

structure Placement where
  start : Option Location
  stop : Option Location
  deriving DecidableEq

abbrev Placements := Std.TreeMap NodeId Placement

namespace Placements

def startOf (p : Placements) (i : NodeId) : Option Location := p[i]?.bind (·.start)

def stopOf (p : Placements) (i : NodeId) : Option Location := p[i]?.bind (·.stop)

def rangeOf (p : Placements) (i : NodeId) : Option TextRange :=
  match p.startOf i, p.stopOf i with
  | some start, some stop => if h : start.offset ≤ stop.offset then some ⟨start, stop, h⟩ else none
  | _, _ => none

def setStart (p : Placements) (i : NodeId) (l : Location) : Placements :=
  p.insert i ⟨some l, p.stopOf i⟩

def setStop (p : Placements) (i : NodeId) (l : Location) : Placements :=
  p.insert i ⟨p.startOf i, some l⟩

def setRange (p : Placements) (i : NodeId) (r : TextRange) : Placements :=
  p.insert i ⟨some r.start, some r.stop⟩

end Placements

inductive Color where
  | keyword | type | method | field | localVariable | parameter | literal
  deriving DecidableEq, Repr

structure Marks where
  symbols : Std.TreeMap NodeId String
  debugSpans : Std.TreeMap NodeId (List Span)
  colors : Std.TreeMap NodeId Color

namespace Marks

def empty : Marks := ⟨∅, ∅, ∅⟩

def symbol? (m : Marks) (i : NodeId) : Option String := m.symbols[i]?

def spansOf (m : Marks) (i : NodeId) : List Span := m.debugSpans.getD i []

def color? (m : Marks) (i : NodeId) : Option Color := m.colors[i]?

def setSymbol (m : Marks) (i : NodeId) (s : String) : Marks :=
  { m with symbols := m.symbols.insert i s }

def addSpan (m : Marks) (i : NodeId) (s : Span) : Marks :=
  { m with debugSpans := m.debugSpans.insert i (m.spansOf i ++ [s]) }

def setColor (m : Marks) (i : NodeId) (c : Color) : Marks :=
  { m with colors := m.colors.insert i c }

end Marks

end TreeScribe
