import Mathlib.Data.Int.Bitwise

namespace TreeScribe.Binary

variable {w k : Nat} {x y : BitVec w} {a b : Int}

theorem testBit_toInt : x.toInt.testBit k = if k < w then x.getLsbD k else x.msb := by
  have hbehind (hk : ¬ k < w) : x.getLsbD k = false := BitVec.getLsbD_of_ge x k (Nat.not_lt.mp hk)
  rw [BitVec.toInt_eq_msb_cond]
  cases hm : x.msb with
  | false =>
      have hbit : ((x.toNat : Int)).testBit k = x.getLsbD k := rfl
      rw [if_neg Bool.false_ne_true, hbit]
      split
      · rfl
      · exact hbehind ‹_›
  | true =>
      -- a negative number has the bits of the vector that is one less than its opposite, each
      -- inverted
      have hneg : (x.toNat : Int) - (Nat.pow 2 w : Nat) = Int.negSucc (~~~x).toNat := by
        have hlt : x.toNat < Nat.pow 2 w := x.isLt
        have hnot : (~~~x).toNat = Nat.pow 2 w - 1 - x.toNat := BitVec.toNat_not
        omega
      have hbit : (Int.negSucc (~~~x).toNat).testBit k = !(~~~x).getLsbD k := rfl
      rw [if_pos rfl]
      refine (congrArg (Int.testBit · k) hneg).trans ?_
      rw [hbit, BitVec.getLsbD_not]
      split <;> simp [*]

theorem eq_of_testBit_eq (h : ∀ k, a.testBit k = b.testBit k) : a = b := by
  -- far behind both numbers the bits tell their signs
  have hsigns (m n : Nat) : (Int.ofNat m).testBit (m + n) ≠ (Int.negSucc n).testBit (m + n) := by
    have hm : m.testBit (m + n) = false :=
      Nat.testBit_lt_two_pow (Nat.lt_of_le_of_lt (Nat.le_add_right m n) Nat.lt_two_pow_self)
    have hn : n.testBit (m + n) = false :=
      Nat.testBit_lt_two_pow (Nat.lt_of_le_of_lt (Nat.le_add_left n m) Nat.lt_two_pow_self)
    simp [Int.testBit, hm, hn]
  cases a with
  | ofNat m =>
      cases b with
      | ofNat n => exact congrArg Int.ofNat (Nat.eq_of_testBit_eq h)
      | negSucc n => exact absurd (h _) (hsigns m n)
  | negSucc m =>
      cases b with
      | ofNat n => exact absurd (h _).symm (hsigns n m)
      | negSucc n => exact congrArg Int.negSucc (Nat.eq_of_testBit_eq fun k => Bool.not_inj (h k))

theorem toInt_and : (x &&& y).toInt = x.toInt.land y.toInt := by
  refine eq_of_testBit_eq fun k => ?_
  rw [Int.testBit_land, testBit_toInt, testBit_toInt, testBit_toInt, BitVec.getLsbD_and,
    BitVec.msb_and]
  split <;> rfl

theorem toInt_or : (x ||| y).toInt = x.toInt.lor y.toInt := by
  refine eq_of_testBit_eq fun k => ?_
  rw [Int.testBit_lor, testBit_toInt, testBit_toInt, testBit_toInt, BitVec.getLsbD_or,
    BitVec.msb_or]
  split <;> rfl

theorem toInt_xor : (x ^^^ y).toInt = x.toInt.xor y.toInt := by
  refine eq_of_testBit_eq fun k => ?_
  rw [Int.testBit_lxor, testBit_toInt, testBit_toInt, testBit_toInt, BitVec.getLsbD_xor,
    BitVec.msb_xor]
  split <;> rfl

end TreeScribe.Binary
