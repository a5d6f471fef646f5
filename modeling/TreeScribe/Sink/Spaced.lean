import TreeScribe.Sink.Call

namespace TreeScribe

/-- What the text ends with. Literals other than strings and characters end like words. -/
inductive Ending where
  | blank | other | word | plus | minus | ampersand | question | slash
  deriving DecidableEq, Repr

namespace Ending

def ofToken : String → Ending
  | "+" => plus
  | "-" => minus
  | "&" => ampersand
  | "?" => question
  | "/" => slash
  | _ => other

def mergesWith (e : Ending) (c : Char) : Bool :=
  match e with
  | plus => c = '+'
  | minus => c = '-'
  | ampersand => c = '&'
  | question => c = '?'
  | slash => c = '*' || c = '/'
  | blank | other | word => false

def ofLiteral (v : Literal) : Ending := if v.isStringOrChar then other else word

/-- Infinities are written as members of a type keyword, without a sign. -/
def startsWithMinus : Literal → Bool
  | .float v => Literal.isNegative (.float v) && !v.isInf
  | .double v => Literal.isNegative (.double v) && !v.isInf
  | v => v.isNegative

def needsSpace (e : Ending) : Call → Bool
  | .identifier _ | .keyword .. | .primitiveType _ => e = word
  | .token _ text => text.toList.head?.any e.mergesWith
  | .literal v => e = word || e = minus && startsWithMinus v
  | .special (.comment ..) => e = slash
  | _ => false

def after (e : Ending) : Call → Ending
  | .identifier _ | .keyword .. => word
  | .primitiveType keyword => if keyword = "new" then other else word
  | .token _ text => ofToken text
  | .literal v => ofLiteral v
  | .special _ | .space | .newLine => blank
  | .start _ | .finish _ | .indent | .unindent => e

end Ending

structure Spaced (W : Type) where
  inner : W
  ending : Ending

namespace Spaced

def new {W : Type} (inner : W) : Spaced W := ⟨inner, .blank⟩

def put {W : Type} [Sink W] (t : Tree) (w : Spaced W) (c : Call) : Spaced W :=
  ⟨Sink.put t (if w.ending.needsSpace c then Sink.put t w.inner .space else w.inner) c,
    w.ending.after c⟩

end Spaced

instance {W : Type} [Sink W] : Sink (Spaced W) where
  put := Spaced.put
  location w := Sink.location w.inner
  lastRange w := Sink.lastRange w.inner

end TreeScribe
