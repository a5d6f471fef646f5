import TreeScribe.Grouping.Ambiguity
import TreeScribe.Policy.Basic

namespace TreeScribe

structure Prepared where
  parentheses : Nat
  ambiguities : Nat
  deriving DecidableEq, Repr

def Prepared.isUnchanged (p : Prepared) : Bool := p.parentheses == 0 && p.ambiguities == 0

def Tree.prepare (t : Tree) (root : NodeId) (p : Policy) : Prepared × Tree :=
  let grouped := Parentheses.insert t root p.readableParens
  let resolved := Ambiguity.resolve grouped.tree root
  (⟨grouped.added, resolved.added⟩, resolved.tree)

end TreeScribe
