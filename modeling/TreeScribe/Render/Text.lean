import TreeScribe.Layout.Node
import TreeScribe.Render.Progress
import TreeScribe.Sink.Recording
import TreeScribe.Sink.Replaying
import TreeScribe.Sink.Spaced
import TreeScribe.Sink.Text
import TreeScribe.Text.Blank

namespace TreeScribe

structure Rendering where
  text : String
  events : List Event
  deriving DecidableEq

/-- A tree that could not be written with places: the text failed, or the tokens could not be
attached. -/
inductive PlacingError where
  | render (error : RenderError)
  | attach (error : AttachError)
  deriving DecidableEq

abbrev Composed := Replaying (Spaced TextSink)

namespace Composed

def new (p : Policy) : Composed :=
  Replaying.new (Spaced.new (TextSink.new p.indentation (p.stringLimit.map (·.toNat))))

def text (w : Composed) : String := w.inner.inner.output

end Composed

namespace Tree

def render {W : Type} [Sink W] (t : Tree) (p : Policy) (c : Cancellation) (i : NodeId)
    (s : Progress W) : Progress W × Option RenderError :=
  s.run t c (Layout.ofNode t p i)

def renderEach {W : Type} [Sink W] (t : Tree) (p : Policy) (c : Cancellation) :
    List NodeId → Progress W → List (Progress W × Option RenderError)
  | [], _ => []
  | i :: rest, s =>
    match t.render p c i s with
    | (s, some e) => [(s, some e)]
    | (s, none) => (s, none) :: t.renderEach p c rest s

def write (t : Tree) (p : Policy) (c : Cancellation) (i : NodeId) : Except RenderError Rendering :=
  match t.render p c i (.new (Composed.new p)) with
  | (_, some e) => .error e
  | (s, none) => .ok ⟨s.sink.text, s.events⟩

def text (t : Tree) (p : Policy) (i : NodeId) : Except RenderError String :=
  (t.write p .never i).map (·.text)

def writePlaced (t : Tree) (p : Policy) (c : Cancellation) (i : NodeId) :
    Except PlacingError (Rendering × Tree) :=
  match t.render p c i (.new (Recording.new (Composed.new p))) with
  | (_, some e) => .error (.render e)
  | (s, none) =>
    match s.sink.apply t with
    | .ok (w, t) => .ok (⟨w.text, s.events⟩, t)
    | .error e => .error (.attach e)

def summaryLength : Nat := 100

def cut (text : String) : String :=
  if text.length ≤ summaryLength then text
  else String.ofList (text.toList.take (summaryLength - 3)) ++ "..."

/-- A node on one line. What cannot be written stands under the name of its kind. -/
def summary (t : Tree) (i : NodeId) : String :=
  cut (Text.oneLine (match t.kind i with
    | .identifier name _ => name
    | .null | .token | .modifier _ | .special _ => (t.kind i).name
    | k => (t.text .compact i).toOption.getD k.name))

end Tree

end TreeScribe
