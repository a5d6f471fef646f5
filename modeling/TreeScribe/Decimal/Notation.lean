import TreeScribe.Decimal.Shortest

namespace TreeScribe.Decimal

structure Notation where
  /-- the least exponent that is written positionally -/
  positionalFrom : Int
  /-- the least greater exponent that is not -/
  positionalBelow : Int
  /-- whether a whole number gets a fraction of zero -/
  wholeFraction : Bool
  /-- what follows the number -/
  ending : String
  deriving DecidableEq

def zeros (n : Nat) : List Char := List.replicate n '0'

def positional (digits : List Char) (lead : Int) : List Char :=
  if lead < 0 then '0' :: '.' :: zeros (-lead - 1).toNat ++ digits
  else
    let whole := lead.toNat + 1
    let rest := digits.drop whole
    digits.take whole ++ zeros (whole - digits.length) ++ (if rest.isEmpty then [] else '.' :: rest)

def exponentText (lead : Int) : List Char :=
  let digits := Nat.toDigits 10 lead.natAbs
  (if lead < 0 then '-' else '+') :: zeros (2 - digits.length) ++ digits

def scientific (digits : List Char) (lead : Int) : List Char :=
  let rest := digits.tail
  digits.take 1 ++ (if rest.isEmpty then [] else '.' :: rest) ++ 'E' :: exponentText lead

namespace Notation

def write (s : Notation) (d : Decimal) : List Char :=
  let digits := Nat.toDigits 10 d.digits
  let lead : Int := d.exponent + digits.length - 1
  if s.positionalFrom ≤ lead ∧ lead < s.positionalBelow then
    let text := positional digits lead
    if s.wholeFraction && !text.contains '.' then text ++ ['.', '0'] else text
  else scientific digits lead

def text (s : Notation) (f : Binary.Format) (bits : Nat) : String :=
  let x := f.magnitude bits
  let d := if x.mantissa = 0 then ⟨0, 0⟩ else shortest x
  String.ofList ((if f.isNegative bits then ['-'] else []) ++ s.write d) ++ s.ending

end Notation

end TreeScribe.Decimal
