import TreeScribe.Failure
import TreeScribe.Grouping.Prepare

namespace TreeScribe.Tree

def prepareText (t : Tree) (p : Policy) (root : NodeId) : Except Failure String × Tree :=
  let t := (t.prepare root p).2
  ((t.text p root).mapError .ofRender, t)

/-- A caller who gave up before gets the tree back as it was. -/
def preparePlaced (t : Tree) (p : Policy) (c : Cancellation) (root : NodeId) :
    Except Failure Rendering × Tree :=
  if c.isSet 0 then (.error .cancelled, t)
  else
    let t := (t.prepare root p).2
    match t.writePlaced p c root with
    | .ok (r, t) => (.ok r, t)
    | .error x => (.error (.ofPlacing x), t)

end TreeScribe.Tree
