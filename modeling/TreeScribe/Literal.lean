import TreeScribe.Decimal.Notation
import TreeScribe.Text.Escape

namespace TreeScribe

inductive IntegralType where
  | sbyte | byte | short | ushort | int | uint | long | ulong
  deriving DecidableEq, Repr

namespace IntegralType

def isSigned : IntegralType → Bool
  | sbyte | short | int | long => true
  | byte | ushort | uint | ulong => false

def bits : IntegralType → Nat
  | sbyte | byte => 8
  | short | ushort => 16
  | int | uint => 32
  | long | ulong => 64

def least (t : IntegralType) : Int := if t.isSigned then -(Nat.pow 2 (t.bits - 1) : Nat) else 0

def greatest (t : IntegralType) : Int :=
  (Nat.pow 2 (if t.isSigned then t.bits - 1 else t.bits) : Nat) - 1

def ending : IntegralType → String
  | uint => "U"
  | long => "L"
  | ulong => "UL"
  | _ => ""

end IntegralType

structure IntegralValue where
  type : IntegralType
  value : Int
  fits : type.least ≤ value ∧ value ≤ type.greatest
  deriving DecidableEq

def IntegralValue.make? (type : IntegralType) (value : Int) : Option IntegralValue :=
  if h : type.least ≤ value ∧ value ≤ type.greatest then some ⟨type, value, h⟩ else none

inductive NonFinite where
  | positiveInfinity | negativeInfinity | nan
  deriving DecidableEq, Repr

namespace NonFinite

def memberName : NonFinite → String
  | positiveInfinity => "PositiveInfinity"
  | negativeInfinity => "NegativeInfinity"
  | nan => "NaN"

def ofBits? (f : Binary.Format) (bits : Nat) : Option NonFinite :=
  if f.isFinite bits then none
  else if f.fraction bits ≠ 0 then some nan
  else if f.isNegative bits then some negativeInfinity
  else some positiveInfinity

end NonFinite

/-- A decimal literal keeps its digits as written. -/
inductive Literal where
  | null
  | bool (value : Bool)
  | char (value : Char)
  | string (value : String)
  | integer (value : IntegralValue)
  | float (value : Float32)
  | double (value : Float)
  | decimal (digits : String)
  deriving DecidableEq

/-- A literal is written as text, or as a member of a type keyword. -/
inductive Written where
  | text (text : String)
  | member (keyword : String) (member : NonFinite)
  deriving DecidableEq, Repr

def Written.toText : Written → String
  | .text s => s
  | .member keyword m => keyword ++ "." ++ m.memberName

/-- Single precision numbers are positional up to seven digits before the point. -/
def floatNotation : Decimal.Notation := ⟨-5, 7, false, "f"⟩

/-- Double precision numbers are positional up to fifteen digits, and always show a point or an
exponent. -/
def doubleNotation : Decimal.Notation := ⟨-5, 15, true, ""⟩

namespace Literal

def writeFloat (v : Float32) : Written :=
  match NonFinite.ofBits? Binary.single v.toBits.toNat with
  | some m => .member "float" m
  | none => .text (floatNotation.text Binary.single v.toBits.toNat)

def writeDouble (v : Float) : Written :=
  match NonFinite.ofBits? Binary.double v.toBits.toNat with
  | some m => .member "double" m
  | none => .text (doubleNotation.text Binary.double v.toBits.toNat)

/-- String literals keep at most `limit` characters. -/
def write (limit : Option Nat) : Literal → Written
  | null => .text "null"
  | bool v => .text (if v then "true" else "false")
  | char c => .text ("'" ++ Text.escapeCharLiteral c ++ "'")
  | string s => .text ("\"" ++ Text.escapeString limit s ++ "\"")
  | integer v => .text (toString v.value ++ v.type.ending)
  | float v => writeFloat v
  | double v => writeDouble v
  | decimal digits => .text (digits ++ "m")

/-- Negative numbers, the negative zeros included, bind like a unary minus. -/
def isNegative : Literal → Bool
  | integer v => v.value < 0
  | float v => Binary.single.isNegative v.toBits.toNat && !v.isNaN
  | double v => Binary.double.isNegative v.toBits.toNat && !v.isNaN
  | decimal digits => digits.toList.head? == some '-'
  | _ => false

def isStringOrChar : Literal → Bool
  | string _ | char _ => true
  | _ => false

def toBool? : Literal → Option Bool
  | bool v => some v
  | _ => none

def toInteger? : Literal → Option Int
  | integer v => some v.value
  | char c => some c.toNat
  | _ => none

end Literal

end TreeScribe
