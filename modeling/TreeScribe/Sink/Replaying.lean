import TreeScribe.Sink.Call

namespace TreeScribe

/-- Sends calls on, and before each child, or token with the role of a child, the comments and
directives that stand before that child. What is left when a node finishes is written then. -/
structure Replaying (W : Type) where
  inner : W
  /-- children not yet passed, for every open node, innermost first -/
  remaining : List (List NodeId)

namespace Replaying

variable {W : Type} [Sink W]

def new {W : Type} (inner : W) : Replaying W := ⟨inner, []⟩

def isBalanced {W : Type} (w : Replaying W) : Bool := w.remaining.isEmpty

def replay (t : Tree) (inner : W) (i : NodeId) : W :=
  match t.kind i with
  | .special k => Sink.putAll t inner [.start i, .special k, .finish i]
  | _ => inner

def replayAll (t : Tree) (inner : W) (nodes : List NodeId) : W := nodes.foldl (replay t) inner

def passTo (t : Tree) (p : NodeId → Bool) (w : Replaying W) : Replaying W :=
  match w.remaining with
  | [] => w
  | nodes :: outer =>
    match nodes.dropWhile (!p ·) with
    | [] => w
    | _ :: rest => ⟨replayAll t w.inner (nodes.takeWhile (!p ·)), rest :: outer⟩

/-- An identifier that was never attached counts as one in the identifier role. -/
def identifierRole (t : Tree) (i : NodeId) : Role :=
  if t.role i = .root then .identifier else t.role i

def passToRole (t : Tree) (r : Role) (w : Replaying W) : Replaying W :=
  w.passTo t fun i => t.role i = r

def forward (t : Tree) (c : Call) (w : Replaying W) : Replaying W :=
  { w with inner := Sink.put t w.inner c }

def put (t : Tree) (w : Replaying W) (c : Call) : Replaying W :=
  match c with
  | .start i =>
    let w := w.passTo t (· == i)
    ⟨Sink.put t w.inner c, t.children i :: w.remaining⟩
  | .finish _ =>
    let w := w.forward t c
    match w.remaining with
    | [] => w
    | nodes :: outer => ⟨replayAll t w.inner nodes, outer⟩
  | .identifier i => (w.passToRole t (identifierRole t i)).forward t c
  | .keyword role _ | .token role _ => (w.passToRole t role).forward t c
  | _ => w.forward t c

end Replaying

instance {W : Type} [Sink W] : Sink (Replaying W) where
  put := Replaying.put
  location w := Sink.location w.inner
  lastRange w := Sink.lastRange w.inner

end TreeScribe
