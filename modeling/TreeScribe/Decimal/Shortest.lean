import TreeScribe.Binary.Format

namespace TreeScribe

open Binary (Magnitude)

structure Decimal where
  digits : Nat
  exponent : Int
  deriving DecidableEq, Repr

namespace Decimal

def compareScaled (a : Nat) (i : Int) (n : Nat) (j : Int) : Ordering :=
  compare (a * Nat.pow 10 i.toNat * Nat.pow 2 (-j).toNat)
    (n * Nat.pow 2 j.toNat * Nat.pow 10 (-i).toNat)

/-- Whether `d` lies among the reals that round to `x`. -/
def readsBack (x : Magnitude) (d : Decimal) : Bool :=
  let low := if x.narrowBelow then 4 * x.mantissa - 1 else 4 * x.mantissa - 2
  let closed := x.mantissa % 2 == 0
  let below := compareScaled d.digits d.exponent low (x.exponent - 2)
  let above := compareScaled d.digits d.exponent (4 * x.mantissa + 2) (x.exponent - 2)
  (below == .gt || (closed && below == .eq)) && (above == .lt || (closed && above == .eq))

def floorOn (x : Magnitude) (grid : Int) : Nat :=
  (x.mantissa * Nat.pow 2 x.exponent.toNat * Nat.pow 10 (-grid).toNat) /
    (Nat.pow 2 (-x.exponent).toNat * Nat.pow 10 grid.toNat)

def nearerAbove (x : Magnitude) (lower : Nat) (grid : Int) : Bool :=
  compareScaled (2 * lower + 1) grid (2 * x.mantissa) x.exponent != .gt

/-- The point of the grid nearest to `x` among those that read back; a tie goes up. -/
def pick? (x : Magnitude) (grid : Int) : Option Decimal :=
  let lower := floorOn x grid
  let down := readsBack x ⟨lower, grid⟩
  let up := readsBack x ⟨lower + 1, grid⟩
  if up && (!down || nearerAbove x lower grid) then some ⟨lower + 1, grid⟩
  else if down then some ⟨lower, grid⟩
  else none

def lead (x : Magnitude) : Int := (toString (floorOn x (-400))).length - 401

def strip : Nat → Decimal → Decimal
  | 0, d => d
  | fuel + 1, d =>
      if d.digits ≠ 0 ∧ d.digits % 10 = 0 then strip fuel ⟨d.digits / 10, d.exponent + 1⟩ else d

def shortestFrom (x : Magnitude) : Nat → Int → Decimal
  | 0, grid => ⟨floorOn x grid, grid⟩
  | fuel + 1, grid =>
    match pick? x grid with
    | some d => d
    | none => shortestFrom x fuel (grid - 1)

/-- Seventeen digits are enough for every format in use. -/
def shortest (x : Magnitude) : Decimal := (shortestFrom x 17 (lead x)).strip 17

end Decimal

end TreeScribe
