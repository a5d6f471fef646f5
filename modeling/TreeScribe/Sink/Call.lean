import TreeScribe.Tree.Basic

namespace TreeScribe

inductive Call where
  | start (node : NodeId)
  | finish (node : NodeId)
  | identifier (node : NodeId)
  | keyword (role : Role) (text : String)
  | token (role : Role) (text : String)
  | literal (value : Literal)
  | primitiveType (keyword : String)
  | special (kind : SpecialKind)
  | space | indent | unindent | newLine
  deriving DecidableEq

class Sink (W : Type) where
  put : Tree → W → Call → W
  location : W → Option Location
  lastRange : W → Option TextRange

namespace Sink

def putAll {W : Type} [Sink W] (t : Tree) (w : W) (calls : List Call) : W := calls.foldl (put t) w

variable {W : Type} [Sink W] {t : Tree} {w : W} {c : Call} {l l' : List Call}

theorem putAll_nil : putAll t w [] = w := rfl

theorem putAll_cons : putAll t w (c :: l) = putAll t (put t w c) l := rfl

theorem putAll_append : putAll t w (l ++ l') = putAll t (putAll t w l) l' := List.foldl_append

end Sink

end TreeScribe
