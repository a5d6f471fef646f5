import TreeScribe.Flow.Graph

namespace TreeScribe.Flow.Dot

def escapeChar : Char → List Char
  | '\\' => ['\\', '\\']
  | '\x22' => ['\\', '\x22']
  | '\n' => ['\\', 'n']
  | c => [c]

def escape (label : String) : String := String.ofList (label.toList.flatMap escapeChar)

def color? : EdgeKind → Option String
  | .normal => none
  | .whenTrue => some "green"
  | .whenFalse => some "red"
  | .jump => some "blue"

def pointName (p : PointId) : String := "n" ++ toString p

def describe (t : Tree) (caption : String) (i : NodeId) : String :=
  if i = .null then "" else "\n" ++ caption ++ ": " ++ (t.kind i).name ++ " " ++ toString i

def pointLine (t : Tree) (g : Graph) (note : PointId → Option String) (index : Nat)
    (p : PointId) : String :=
  let x := g.point p
  "    " ++ pointName p ++ " [label=\"" ++
    escape ("#" ++ toString index ++ " = " ++ x.kind.name ++ describe t "prev" x.previous ++
      describe t "next" x.next ++ ((note p).map ("\n" ++ ·)).getD "") ++
    "\"];"

def edgeAttributes (x : Edge) (note : Option String) : List String :=
  ((color? x.kind).map ("color=" ++ ·)).toList ++
    (if x.leaves.isEmpty then [] else ["style=dashed"]) ++
    (note.map fun n => "label=\"" ++ escape n ++ "\"").toList

def edgeLine (g : Graph) (note : EdgeId → Option String) (e : EdgeId) : String :=
  let x := g.edge e
  let attributes := edgeAttributes x (note e)
  "    " ++ pointName x.source ++ " -> " ++ pointName x.target ++
    (if attributes.isEmpty then "" else " [" ++ ", ".intercalate attributes ++ "]") ++ ";"

def write (t : Tree) (g : Graph) (order : List PointId) (pointNote : PointId → Option String)
    (edgeNote : EdgeId → Option String) : String :=
  "\n".intercalate
    (["digraph G \x7b", "    node [shape=box, fontname=\"Helvetica\"];"] ++
      order.mapIdx (pointLine t g pointNote) ++
      (order.flatMap fun p => (g.point p).outgoing).map (edgeLine g edgeNote) ++
      ["\x7d"])

def ofGraph (t : Tree) (g : Graph) : String := write t g g.order (fun _ => none) (fun _ => none)

end TreeScribe.Flow.Dot
