import TreeScribe.Binary.Format
import TreeScribe.Tree.Basic

namespace TreeScribe

/-- A decimal constant keeps its digits as written. -/
inductive Constant where
  | null
  | bool (value : Bool)
  | integer (value : Int)
  | float (value : Float)
  | char (value : Char)
  | string (value : String)
  | decimal (digits : String)
  deriving DecidableEq

namespace Constant

def ofLiteral : Literal → Constant
  | .null => null
  | .bool b => bool b
  | .char c => char c
  | .string s => string s
  | .integer v => integer v.value
  | .float v => float (Binary.widen v)
  | .double v => float v
  | .decimal digits => decimal digits

def toBool? : Constant → Option Bool
  | bool b => some b
  | _ => none

def toInteger? : Constant → Option Int
  | integer i => some i
  | char c => some c.toNat
  | _ => none

def toFloat? : Constant → Option Float
  | float f => some f
  | integer i => some (Float.ofInt i)
  | char c => some (Float.ofInt c.toNat)
  | _ => none

/-- Equality as case labels compare: integers and characters by number. -/
def agrees (a b : Constant) : Bool :=
  match a.toInteger?, b.toInteger? with
  | some i, some j => i == j
  | _, _ =>
    match a, b with
    | float f, b => b.toFloat?.any (f == ·)
    | a, float f => a.toFloat?.any (f == ·)
    | a, b => a = b

def least : Int := -(Nat.pow 2 127 : Nat)

def fitting? (i : Int) : Option Constant :=
  if least ≤ i ∧ i < -least then some (integer i) else none

def bitwise (op : BitVec 128 → BitVec 128 → BitVec 128) (i j : Int) : Constant :=
  integer (op (BitVec.ofInt 128 i) (BitVec.ofInt 128 j)).toInt

/-- The bits of an integer moved to the left; those that leave the width are lost. -/
def shiftLeft (i : Int) (n : Nat) : Constant := integer (BitVec.ofInt 128 i <<< n).toInt

def shift? (f : Int → Nat → Constant) (i j : Int) : Option Constant :=
  if 0 ≤ j ∧ j < 128 then some (f i j.toNat) else none

def foldUnary : UnaryOperator → Constant → Option Constant
  | .not, bool b => some (bool !b)
  | .minus, float f => some (float (-f))
  | .plus, float f => some (float f)
  | .minus, c => c.toInteger?.bind fun i => fitting? (-i)
  | .plus, c => c.toInteger?.map integer
  | .bitNot, c => c.toInteger?.map fun i => integer (-i - 1)
  | _, _ => none

def foldBools (op : BinaryOperator) (a b : Bool) : Option Constant :=
  match op with
  | .condAnd | .bitAnd => some (bool (a && b))
  | .condOr | .bitOr => some (bool (a || b))
  | .bitXor | .notEqual => some (bool (a != b))
  | .equal => some (bool (a == b))
  | _ => none

def foldIntegers (op : BinaryOperator) (i j : Int) : Option Constant :=
  match op with
  | .add => fitting? (i + j)
  | .subtract => fitting? (i - j)
  | .multiply => fitting? (i * j)
  | .divide => if j = 0 then none else fitting? (i.tdiv j)
  | .remainder => if j = 0 ∨ (i = least ∧ j = -1) then none else fitting? (i.tmod j)
  | .shiftLeft => shift? shiftLeft i j
  | .shiftRight => shift? (fun i n => integer (i >>> n)) i j
  | .bitAnd => some (bitwise (· &&& ·) i j)
  | .bitOr => some (bitwise (· ||| ·) i j)
  | .bitXor => some (bitwise (· ^^^ ·) i j)
  | .less => some (bool (i < j))
  | .lessEqual => some (bool (i ≤ j))
  | .greater => some (bool (i > j))
  | .greaterEqual => some (bool (i ≥ j))
  | _ => none

def foldFloats (op : BinaryOperator) (x y : Float) : Option Constant :=
  match op with
  | .add => some (float (x + y))
  | .subtract => some (float (x - y))
  | .multiply => some (float (x * y))
  | .divide => some (float (x / y))
  | .remainder => some (float (Binary.remainder x y))
  | .less => some (bool (x < y))
  | .lessEqual => some (bool (x ≤ y))
  | .greater => some (bool (x > y))
  | .greaterEqual => some (bool (x ≥ y))
  | _ => none

def foldNumbers (op : BinaryOperator) (a b : Constant) : Option Constant :=
  match a.toInteger?, b.toInteger? with
  | some i, some j => foldIntegers op i j
  | _, _ =>
    match a.toFloat?, b.toFloat? with
    | some x, some y => foldFloats op x y
    | _, _ => none

def foldBinary (op : BinaryOperator) (a b : Constant) : Option Constant :=
  match a, b with
  | bool a, bool b => foldBools op a b
  | _, _ =>
    match op with
    | .coalesce => some b
    | .equal => some (bool (a.agrees b))
    | .notEqual => some (bool !(a.agrees b))
    | _ =>
      match a, b with
      | string a, string b => if op = .add then some (string (a ++ b)) else none
      | a, b => foldNumbers op a b

end Constant

/-- The constants that are known of expressions. Truth values are asked for at the left operands of
`&&` and `||` and at the conditions of `?:`; constants at the conditions of statements, at what a
switch compares with its labels, and at the left operands of `??`. No expression stands in two of
these places. So one function answers both questions: a resolver with rules of its own for truth
values gives them as constants where they are asked for. -/
abbrev Resolver := Tree → NodeId → Option Constant

namespace Resolver

def none : Resolver := fun _ _ => Option.none

def condition? (r : Resolver) (t : Tree) (i : NodeId) : Option Bool := (r t i).bind (·.toBool?)

def foldWithin (t : Tree) : Nat → NodeId → Option Constant
  | 0, _ => Option.none
  | fuel + 1, i =>
    match t.kind i with
    | .expression (.literal v) => some (.ofLiteral v)
    | .expression .nullRef => some .null
    | .expression .parenthesized | .expression .checked | .expression .unchecked =>
      foldWithin t fuel (t.child i .expression)
    | .expression (.unary op) =>
        (foldWithin t fuel (t.child i .expression)).bind (Constant.foldUnary op)
    | .expression (.binary op) =>
      (foldWithin t fuel (t.child i .left)).bind fun left =>
        if op = .coalesce ∧ left ≠ .null then some left
        else (foldWithin t fuel (t.child i .right)).bind (Constant.foldBinary op left)
    | _ => Option.none

def literals : Resolver := fun t i => foldWithin t t.size i

end Resolver

end TreeScribe
