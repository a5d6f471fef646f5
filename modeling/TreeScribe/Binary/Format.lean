namespace TreeScribe.Binary

structure Magnitude where
  mantissa : Nat
  exponent : Int
  /-- the gap to the number below is half the gap to the number above -/
  narrowBelow : Bool
  deriving DecidableEq

structure Format where
  fractionBits : Nat
  exponentBits : Nat
  deriving DecidableEq

def single : Format := ⟨23, 8⟩

def double : Format := ⟨52, 11⟩

namespace Format

def bias (f : Format) : Nat := Nat.pow 2 (f.exponentBits - 1) - 1

def fraction (f : Format) (bits : Nat) : Nat := bits % Nat.pow 2 f.fractionBits

def exponentField (f : Format) (bits : Nat) : Nat :=
  bits / Nat.pow 2 f.fractionBits % Nat.pow 2 f.exponentBits

def isNegative (f : Format) (bits : Nat) : Bool :=
  bits / Nat.pow 2 (f.fractionBits + f.exponentBits) % 2 == 1

def isFinite (f : Format) (bits : Nat) : Bool :=
  f.exponentField bits + 1 != Nat.pow 2 f.exponentBits

/-- The exponent of the last place of the smallest numbers. -/
def leastExponent (f : Format) : Int := 1 - (f.bias : Int) - f.fractionBits

def magnitude (f : Format) (bits : Nat) : Magnitude :=
  let field := f.exponentField bits
  let fraction := f.fraction bits
  if field = 0 then ⟨fraction, f.leastExponent, false⟩
  else ⟨Nat.pow 2 f.fractionBits + fraction, f.leastExponent + field - 1,
    fraction == 0 && field > 1⟩

/-- `m * 2 ^ e` for an integer `e`, rounded down. -/
def scale (m : Nat) (e : Int) : Nat := m * Nat.pow 2 e.toNat / Nat.pow 2 (-e).toNat

def assemble (f : Format) (negative : Bool) (m : Nat) (e : Int) : Nat :=
  let sign := if negative then Nat.pow 2 (f.fractionBits + f.exponentBits) else 0
  let top : Int := m.log2 + e
  if m = 0 then sign
  else if top < 1 - (f.bias : Int) then sign + scale m (e - f.leastExponent)
  else
    sign + (top + f.bias).toNat * Nat.pow 2 f.fractionBits +
      (scale m ((f.fractionBits : Int) - m.log2) - Nat.pow 2 f.fractionBits)

def infinity (f : Format) (negative : Bool) : Nat :=
  (if negative then Nat.pow 2 (f.fractionBits + f.exponentBits) else 0) +
    (Nat.pow 2 f.exponentBits - 1) * Nat.pow 2 f.fractionBits

def nan (f : Format) : Nat := f.infinity false + Nat.pow 2 (f.fractionBits - 1)

def convert (f g : Format) (bits : Nat) : Nat :=
  if f.isFinite bits then
    let x := f.magnitude bits
    g.assemble (f.isNegative bits) x.mantissa x.exponent
  else if f.fraction bits = 0 then g.infinity (f.isNegative bits)
  else g.nan

/-- The remainder of a division that truncates, with the sign of the dividend: exact, as the result
is a multiple of the smaller last place. -/
def remainder (f : Format) (a b : Nat) : Nat :=
  let x := f.magnitude a
  let y := f.magnitude b
  if !f.isFinite a || (!f.isFinite b && f.fraction b ≠ 0) then f.nan
  else if !f.isFinite b then a
  else if y.mantissa = 0 then f.nan
  else
    let e := min x.exponent y.exponent
    let r := (x.mantissa * Nat.pow 2 (x.exponent - e).toNat) %
      (y.mantissa * Nat.pow 2 (y.exponent - e).toNat)
    f.assemble (f.isNegative a) r e

end Format

def widen (v : Float32) : Float :=
  Float.ofBits (UInt64.ofNat (single.convert double v.toBits.toNat))

def remainder (a b : Float) : Float :=
  Float.ofBits (UInt64.ofNat (double.remainder a.toBits.toNat b.toBits.toNat))

end TreeScribe.Binary
