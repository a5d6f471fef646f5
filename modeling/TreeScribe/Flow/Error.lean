import TreeScribe.Tree.Basic

namespace TreeScribe

inductive RangeFault where
  | unknown (first last : NodeId)
  | reversed (first last : NodeId)
  deriving DecidableEq

def RangeFault.message : RangeFault → String
  | unknown first last => first.toText ++ " or " ++ last.toText ++ " has no control flow node"
  | reversed first last => first.toText ++ " does not precede " ++ last.toText

inductive FlowError where
  | invalidRange (fault : RangeFault)
  | unknownStatement (node : NodeId) (kind : String)
  | cancelled
  deriving DecidableEq

namespace FlowError

def message : FlowError → String
  | invalidRange fault => "invalid analysis range: " ++ fault.message
  | unknownStatement node kind =>
    kind ++ " at " ++ node.toText ++ " is not part of the control flow graph"
  | cancelled => "analysis was cancelled"

def unknown (t : Tree) (i : NodeId) : FlowError := .unknownStatement i (t.kind i).name

end FlowError

end TreeScribe
