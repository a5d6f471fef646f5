import TreeScribe.Layout.Command

namespace TreeScribe

inductive Event where
  | bracePair (left right : TextRange) (kind : BraceKind)
  | lineSeparator (offset : Nat)
  | keywordReference (range : TextRange) (reference : NodeId)
  | symbolReference (range : TextRange) (symbol : String) (isDefinition : Bool)
  | highlight (range : TextRange) (color : Color)
  | sequencePoint (statement : NodeId) (range : TextRange) (debugSpans : List Span)
  deriving DecidableEq

def Event.keywordsOf (reference : NodeId) (events : List Event) : List TextRange :=
  events.filterMap fun
    | .keywordReference range r => if r = reference then some range else none
    | _ => none

/-- Whether and when a caller gives up: not at all, before the start, or while it hears the event
with this number. -/
inductive Cancellation where
  | never | before | atEvent (number : Nat)
  deriving DecidableEq, Repr

def Cancellation.isSet (c : Cancellation) (heard : Nat) : Bool :=
  match c with
  | never => false
  | before => true
  | atEvent number => 0 < number && number ≤ heard

end TreeScribe
