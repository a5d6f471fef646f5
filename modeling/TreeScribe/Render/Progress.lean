import TreeScribe.Cancellation
import TreeScribe.Render.Event

namespace TreeScribe

inductive RenderError where
  | invalidTree (kind : String) (node : NodeId) (defect : Defect) (location : Option Location)
  | cancelled
  deriving DecidableEq

def RenderError.message : RenderError → String
  | invalidTree kind node defect _ =>
    "invalid tree at " ++ node.toText ++ " (" ++ kind ++ "): " ++ defect.message
  | cancelled => "rendering was cancelled"

structure Progress (W : Type) where
  sink : W
  isLineStart : Bool
  /-- where the open nodes started, innermost first -/
  starts : List (Option Location)
  /-- the open braces, innermost first -/
  braces : List (Option TextRange × BraceKind)
  /-- last event first -/
  heard : List Event
  poll : Poll

namespace Progress

variable {W : Type} [Sink W]

def pollInterval : Nat := 100

def new {W : Type} (sink : W) : Progress W := ⟨sink, true, [], [], [], .every pollInterval⟩

def events {W : Type} (p : Progress W) : List Event := p.heard.reverse

def report {W : Type} (p : Progress W) (e : Event) : Progress W := { p with heard := e :: p.heard }

def put (t : Tree) (p : Progress W) (c : Call) : Progress W :=
  { p with sink := Sink.put t p.sink c }

def isDefinition : Kind → Bool
  | .entity _ => true
  | .part .variable_ | .part (.parameter _) | .part .typeParameter | .part .catchClause => true
  | .statement .label | .statement .foreachLoop => true
  | _ => false

/-- Reports the symbol and the colour of an identifier just written; its owner's count where it has
none. -/
def reportName (t : Tree) (p : Progress W) (i : NodeId) : Progress W :=
  match Sink.lastRange p.sink with
  | none => p
  | some r =>
    let owner := (t.parent i).getD .null
    let p := match (t.marks.symbol? i).or (t.marks.symbol? owner) with
      | some s => p.report (.symbolReference r s (isDefinition (t.kind owner)))
      | none => p
    match (t.marks.color? i).or (t.marks.color? owner) with
    | some c => p.report (.highlight r c)
    | none => p

/-- The range of a statement with debug spans, from where it started to its last token. -/
def sequencePoint? (t : Tree) (i : NodeId) (start : Option Location) (last : Option TextRange) :
    Option Event :=
  let spans := t.marks.spansOf i
  match start, last with
  | some start, some last =>
    if h : start.offset ≤ last.stop.offset then
      if spans.isEmpty || !(t.kind i).isStatement then none
      else some (.sequencePoint i ⟨start, last.stop, h⟩ spans)
    else none
  | _, _ => none

def finish (t : Tree) (p : Progress W) (i : NodeId) : Progress W :=
  match p.starts with
  | [] => p.put t (.finish i)
  | start :: outer =>
    let p := { p with starts := outer }
    let p := match sequencePoint? t i start (Sink.lastRange p.sink) with
      | some e => p.report e
      | none => p
    p.put t (.finish i)

def write (t : Tree) (p : Progress W) (c : Call) : Progress W :=
  match c with
  | .start _ => { p with starts := Sink.location p.sink :: p.starts }.put t c
  | .finish i => p.finish t i
  | .identifier i => ({ p with isLineStart := false }.put t c).reportName t i
  | .keyword .. | .token .. | .literal _ | .primitiveType _ | .special _ =>
    { p with isLineStart := false }.put t c
  | .newLine => { p with isLineStart := true }.put t c
  | .space | .indent | .unindent => p.put t c

def openBrace (t : Tree) (p : Progress W) (kind : BraceKind) : Progress W :=
  let p := p.write t (.token (.token "\x7b") "\x7b")
  { p with braces := (Sink.lastRange p.sink, kind) :: p.braces }

def closeBrace (t : Tree) (p : Progress W) : Progress W :=
  let p := p.write t (.token (.token "\x7d") "\x7d")
  match p.braces with
  | [] => p
  | (left, kind) :: outer =>
    let p := { p with braces := outer }
    match left, Sink.lastRange p.sink with
    | some left, some right => p.report (.bracePair left right kind)
    | _, _ => p

/-- The error at a node, at the place it had in the last text, or else where the sink stands. -/
def defective (t : Tree) (p : Progress W) (i : NodeId) (d : Defect) : RenderError :=
  .invalidTree (t.kind i).name i d ((t.placements.startOf i).or (Sink.location p.sink))

def step (t : Tree) (cancellation : Cancellation) (p : Progress W) :
    Command → Progress W × Option RenderError
  | .write c => (p.write t c, none)
  | .reference i =>
    (match Sink.lastRange p.sink with
      | some r => p.report (.keywordReference r i)
      | none => p, none)
  | .openBrace kind => (p.openBrace t kind, none)
  | .closeBrace => (p.closeBrace t, none)
  | .gap => (if p.isLineStart then p else p.write t .space, none)
  | .freshLine => (if p.isLineStart then p else p.write t .newLine, none)
  | .separator =>
    (match Sink.location p.sink with
      | some l => p.report (.lineSeparator l.offset)
      | none => p, none)
  | .tick =>
    let (look, poll) := p.poll.tick
    ({ p with poll }, if look && cancellation.isSet p.heard.length then some .cancelled else none)
  | .fail i d => (p, some (p.defective t i d))

def run (t : Tree) (cancellation : Cancellation) :
    Layout → Progress W → Progress W × Option RenderError
  | [], p => (p, none)
  | c :: l, p =>
    match p.step t cancellation c with
    | (p, some e) => (p, some e)
    | (p, none) => run t cancellation l p

end Progress

end TreeScribe
