import TreeScribe.Flow.Constant
import TreeScribe.Proofs.Binary.TwosComplement

namespace TreeScribe

namespace Constant

def Fits (a : Int) : Prop := least ≤ a ∧ a < -least

def wrap (a : Int) : Int := (BitVec.ofInt 128 a).toInt

def raised (a : Int) (n : Nat) : Int := a * (Nat.pow 2 n : Nat)

def cut (a : Int) (n : Nat) : Int := wrap (raised a n)

end Constant

def UnaryOperator.onInteger? : UnaryOperator → Int → Option Int
  | .minus, a => some (-a)
  | .plus, a => some a
  | .bitNot, a => some a.lnot
  | _, _ => none

/-- An operator on integers that has an integer as result. Quotients are truncated; shifts to the
right divide and round down; what shifts to the left make of a number is `shift`. -/
def BinaryOperator.onIntegers? (shift : Int → Nat → Int) (op : BinaryOperator) (a b : Int) :
    Option Int :=
  match op with
  | .add => some (a + b)
  | .subtract => some (a - b)
  | .multiply => some (a * b)
  | .divide => if b = 0 then none else some (a.tdiv b)
  | .remainder => if b = 0 then none else some (a.tmod b)
  | .shiftLeft => if 0 ≤ b then some (shift a b.toNat) else none
  | .shiftRight => if 0 ≤ b then some (a.fdiv (Nat.pow 2 b.toNat : Nat)) else none
  | .bitAnd => some (a.land b)
  | .bitOr => some (a.lor b)
  | .bitXor => some (a.xor b)
  | _ => none

theorem BinaryOperator.onIntegers?_congr {shift shift' : Int → Nat → Int} {op : BinaryOperator}
    {a b : Int} (h : op ≠ .shiftLeft) : op.onIntegers? shift a b = op.onIntegers? shift' a b := by
  cases op <;> first | rfl | exact absurd rfl h

namespace Constant

variable {a b i j v : Int} {n : Nat} {c : Constant}

theorem fitting?_eq_some_iff : fitting? a = some c ↔ Fits a ∧ c = integer a := by
  rw [fitting?, Option.ite_none_right_eq_some, Option.some.injEq, eq_comm (a := c)]
  rfl

theorem least_eq : least = -170141183460469231731687303715884105728 := by decide

theorem fits_toInt (x : BitVec 128) : Fits x.toInt := by
  have hle := BitVec.le_toInt x
  have hlt := BitVec.toInt_lt (x := x)
  rw [Fits, least_eq]
  omega

theorem fits_wrap (a : Int) : Fits (wrap a) := fits_toInt _

theorem wrap_of_fits (h : Fits a) : wrap a = a := by
  rw [Fits, least_eq] at h
  rw [wrap, BitVec.toInt_ofInt_eq_self] <;> omega

theorem onIntegers?_cut {op : BinaryOperator} (h : op.onIntegers? raised a b = some v)
    (hv : Fits v) : op.onIntegers? cut a b = some v := by
  by_cases ho : op = .shiftLeft
  · subst ho
    obtain ⟨hb, rfl⟩ : 0 ≤ b ∧ raised a b.toNat = v := by simpa [BinaryOperator.onIntegers?] using h
    exact (if_pos hb).trans (congrArg some (wrap_of_fits hv))
  · exact (BinaryOperator.onIntegers?_congr ho).trans h

theorem wrap_eq_self_iff : wrap a = a ↔ Fits a := ⟨fun h => h ▸ fits_wrap a, wrap_of_fits⟩

/-- Bits that stay within the width are moved as those of the number, the others are gone. -/
theorem shiftLeft_eq : shiftLeft a n = integer (cut a n) := by
  have hbits : BitVec.ofInt 128 a <<< n = BitVec.ofInt 128 (raised a n) := by
    rw [raised, BitVec.ofInt_mul, BitVec.ofInt_natCast, BitVec.shiftLeft_eq_mul_twoPow]
    congr 1
    refine BitVec.eq_of_toNat_eq ?_
    rw [BitVec.toNat_twoPow, BitVec.toNat_ofNat]
    rfl
  rw [shiftLeft, hbits]
  rfl

theorem shiftRight_eq : a >>> n = a.fdiv (Nat.pow 2 n : Nat) := by
  rw [Int.shiftRight_eq_div_pow, Int.fdiv_eq_ediv_of_nonneg _ (Int.natCast_nonneg _)]
  rfl

theorem fits_fdiv (h : Fits a) : Fits (a.fdiv (Nat.pow 2 n : Nat)) := by
  have hpos : (1 : Int) ≤ (Nat.pow 2 n : Nat) := Int.ofNat_le.mpr Nat.one_le_two_pow
  have hleast : least < 0 := by decide
  have hmul : least * (Nat.pow 2 n : Nat) ≤ least :=
    Int.le_trans (Int.mul_le_mul_of_nonpos_left (Int.le_of_lt hleast) hpos)
      (Int.le_of_eq (Int.mul_one _))
  rw [Int.fdiv_eq_ediv_of_nonneg _ (Int.natCast_nonneg _)]
  constructor
  · rw [Int.le_ediv_iff_mul_le (by omega)]
    exact Int.le_trans hmul h.1
  · rw [Int.ediv_lt_iff_lt_mul (by omega), Int.neg_mul]
    exact Int.lt_of_lt_of_le h.2 (Int.neg_le_neg hmul)

theorem lnot_eq : a.lnot = -a - 1 := by
  cases a with
  | ofNat m =>
      rw [Int.lnot, Int.negSucc_eq, Int.ofNat_eq_natCast]
      omega
  | negSucc m =>
      rw [Int.lnot, Int.negSucc_eq]
      omega

/-- An operation that acts on the bits of vectors as `f` acts on those of numbers. -/
theorem bitwise_eq_iff {op : BitVec 128 → BitVec 128 → BitVec 128} {f : Int → Int → Int}
    (h : ∀ x y, (op x y).toInt = f x.toInt y.toInt) (ha : Fits a) (hb : Fits b) :
    bitwise op a b = integer v ↔ f a b = v ∧ Fits v := by
  have hf : (op (BitVec.ofInt 128 a) (BitVec.ofInt 128 b)).toInt = f a b :=
    (h _ _).trans (congrArg₂ f (wrap_of_fits ha) (wrap_of_fits hb))
  rw [bitwise, hf, integer.injEq]
  exact ⟨fun he => ⟨he, he ▸ hf ▸ fits_toInt _⟩, And.left⟩

/-- What is answered at all: shifts are short, and nobody asks for the least integer modulo minus
one. -/
def Answered : BinaryOperator → Int → Int → Prop
  | .shiftLeft, _, b | .shiftRight, _, b => b < 128
  | .remainder, a, b => ¬ (a = least ∧ b = -1)
  | _, _, _ => True

theorem foldIntegers_eq_integer_iff {op : BinaryOperator} (ha : Fits a) (hb : Fits b) :
    foldIntegers op a b = some (integer v) ↔
      op.onIntegers? cut a b = some v ∧ Fits v ∧ Answered op a b := by
  cases op with
  | add | subtract | multiply | divide | remainder =>
      simp only [foldIntegers, BinaryOperator.onIntegers?, Answered, fitting?_eq_some_iff,
        Option.ite_none_left_eq_some, Option.some.injEq, integer.injEq]
      grind
  | shiftLeft =>
      have hw : Fits (cut a b.toNat) := fits_wrap _
      simp only [foldIntegers, BinaryOperator.onIntegers?, Answered, shift?, shiftLeft_eq,
        Option.ite_none_right_eq_some, Option.some.injEq, integer.injEq]
      grind
  | shiftRight =>
      have hw : Fits (a.fdiv (Nat.pow 2 b.toNat : Nat)) := fits_fdiv ha
      simp only [foldIntegers, BinaryOperator.onIntegers?, Answered, shift?, shiftRight_eq,
        Option.ite_none_right_eq_some, Option.some.injEq, integer.injEq]
      generalize a.fdiv (Nat.pow 2 b.toNat : Nat) = w at hw
      grind
  | bitAnd =>
      simp only [foldIntegers, BinaryOperator.onIntegers?, Answered, Option.some.injEq, and_true]
      exact bitwise_eq_iff (fun _ _ => Binary.toInt_and) ha hb
  | bitOr =>
      simp only [foldIntegers, BinaryOperator.onIntegers?, Answered, Option.some.injEq, and_true]
      exact bitwise_eq_iff (fun _ _ => Binary.toInt_or) ha hb
  | bitXor =>
      simp only [foldIntegers, BinaryOperator.onIntegers?, Answered, Option.some.injEq, and_true]
      exact bitwise_eq_iff (fun _ _ => Binary.toInt_xor) ha hb
  | _ => simp [foldIntegers, BinaryOperator.onIntegers?]

/-- A shift to the left by less than the width always has an answer. It is right if the result
fits. -/
theorem foldIntegers_shiftLeft_iff (hn : n < 128) :
    foldIntegers .shiftLeft a n = some (integer (raised a n)) ↔ Fits (raised a n) := by
  have hr : (0 : Int) ≤ n ∧ (n : Int) < 128 := by omega
  rw [foldIntegers, shift?, if_pos hr, Int.toNat_natCast, shiftLeft_eq, Option.some.injEq,
    integer.injEq]
  exact wrap_eq_self_iff

example : foldIntegers .shiftLeft 1 127 = some (integer least) := rfl

theorem foldUnary_toInteger? {op : UnaryOperator} {a c : Constant} (h : foldUnary op a = some c)
    (hc : c.toInteger? = some v) :
    ∃ n, a.toInteger? = some n ∧ op.onInteger? n = some v ∧ (Fits n → Fits v) := by
  unfold foldUnary at h
  split at h
  next => cases h; cases hc
  next => cases h; cases hc
  next => cases h; cases hc
  next =>
    obtain ⟨n, hn, h⟩ := Option.bind_eq_some_iff.mp h
    obtain ⟨hv, rfl⟩ := fitting?_eq_some_iff.mp h
    cases hc
    exact ⟨n, hn, rfl, fun _ => hv⟩
  next =>
    obtain ⟨n, hn, rfl⟩ := Option.map_eq_some_iff.mp h
    cases hc
    exact ⟨v, hn, rfl, id⟩
  next =>
    obtain ⟨n, hn, rfl⟩ := Option.map_eq_some_iff.mp h
    cases hc
    refine ⟨n, hn, congrArg some lnot_eq, fun hf => ?_⟩
    rw [Fits, least_eq] at hf ⊢
    omega
  next => cases h

theorem foldUnary_ne_null {op : UnaryOperator} {a : Constant} : foldUnary op a ≠ some null := by
  unfold foldUnary
  split <;> simp [Option.bind_eq_some_iff, fitting?_eq_some_iff]

theorem foldUnary_eq_integer {op : UnaryOperator} {a : Constant} (ha : a.toInteger? = some i)
    (h : op.onInteger? i = some v) (hv : Fits v) : foldUnary op a = some (integer v) := by
  cases op with
  | minus =>
      cases h
      cases a <;> cases ha <;> exact fitting?_eq_some_iff.mpr ⟨hv, rfl⟩
  | plus =>
      cases h
      cases a <;> cases ha <;> rfl
  | bitNot =>
      cases h
      rw [lnot_eq]
      cases a <;> cases ha <;> rfl
  | _ => cases h

theorem foldIntegers_cases {op : BinaryOperator} (h : foldIntegers op i j = some c) :
    (∃ v, c = integer v) ∨ ∃ b, c = bool b := by
  have hf {w : Int} (h : fitting? w = some c) : ∃ v, c = integer v :=
    ⟨w, (fitting?_eq_some_iff.mp h).2⟩
  cases op with
  | add | subtract | multiply => exact .inl (hf h)
  | divide | remainder => exact .inl (hf (Option.ite_none_left_eq_some.mp h).2)
  | shiftLeft | shiftRight =>
      exact .inl ⟨_, (Option.some.inj (Option.ite_none_right_eq_some.mp h).2).symm⟩
  | bitAnd | bitOr | bitXor => exact .inl ⟨_, (Option.some.inj h).symm⟩
  | less | lessEqual | greater | greaterEqual => exact .inr ⟨_, (Option.some.inj h).symm⟩
  | _ => cases h

/-- What comes of two constants is the second one, comes of two integers, or is neither an integer
nor null. -/
theorem foldBinary_cases {op : BinaryOperator} {a b : Constant} (h : foldBinary op a b = some c) :
    op = .coalesce ∧ b = c ∨
      (∃ m n, a.toInteger? = some m ∧ b.toInteger? = some n ∧ foldIntegers op m n = some c) ∨
      c.toInteger? = none ∧ c ≠ null := by
  have hother {op : BinaryOperator} {x y : Bool} (h : foldBools op x y = some c) :
      c.toInteger? = none ∧ c ≠ null := by
    cases op <;> cases h <;> exact ⟨rfl, Constant.noConfusion⟩
  have hfloat {op : BinaryOperator} {x y : Float} (h : foldFloats op x y = some c) :
      c.toInteger? = none ∧ c ≠ null := by
    cases op <;> cases h <;> exact ⟨rfl, Constant.noConfusion⟩
  unfold foldBinary at h
  split at h
  next => exact .inr (.inr (hother h))
  next =>
    split at h
    next => exact .inl ⟨rfl, Option.some.inj h⟩
    next =>
      cases h
      exact .inr (.inr ⟨rfl, Constant.noConfusion⟩)
    next =>
      cases h
      exact .inr (.inr ⟨rfl, Constant.noConfusion⟩)
    next =>
      split at h
      next =>
        obtain ⟨-, rfl⟩ : _ ∧ string _ = c := by simpa using h
        exact .inr (.inr ⟨rfl, Constant.noConfusion⟩)
      next =>
        unfold foldNumbers at h
        split at h
        next m n hm hn => exact .inr (.inl ⟨m, n, hm, hn, h⟩)
        next =>
          split at h
          next => exact .inr (.inr (hfloat h))
          next => cases h

theorem foldBinary_toInteger? {op : BinaryOperator} {a b : Constant}
    (h : foldBinary op a b = some c) (hc : c.toInteger? = some v) : op = .coalesce ∧ b = c ∨
      ∃ m n, a.toInteger? = some m ∧ b.toInteger? = some n ∧
      foldIntegers op m n = some (integer v) := by
  rcases foldBinary_cases h with h | ⟨m, n, hm, hn, h⟩ | ⟨hn, -⟩
  · exact .inl h
  · rcases foldIntegers_cases h with ⟨w, rfl⟩ | ⟨b, rfl⟩
    · cases hc
      exact .inr ⟨m, n, hm, hn, h⟩
    · cases hc
  · rw [hn] at hc
    cases hc

theorem eq_coalesce_of_foldBinary {op : BinaryOperator} {a b : Constant}
    (h : foldBinary op a b = some null) : op = .coalesce := by
  rcases foldBinary_cases h with ⟨rfl, -⟩ | ⟨m, n, -, -, h⟩ | ⟨-, hn⟩
  · rfl
  · rcases foldIntegers_cases h with ⟨w, hw⟩ | ⟨b, hb⟩
    · cases hw
    · cases hb
  · exact absurd rfl hn

theorem foldBinary_eq_integer {op : BinaryOperator} {a b : Constant} (ha : a.toInteger? = some i)
    (hb : b.toInteger? = some j) (h : foldIntegers op i j = some (integer v)) :
    foldBinary op a b = some (integer v) := by
  cases a <;> cases ha <;> cases b <;> cases hb <;> cases op <;> first | exact h | cases h

theorem fits_of_literal {w : Literal} (h : w.toInteger? = some v) : Fits v := by
  have htype (type : IntegralType) : least ≤ type.least ∧ type.greatest < -least := by
    cases type <;> decide
  cases w with
  | integer w =>
      cases h
      exact ⟨Int.le_trans (htype w.type).1 w.fits.1, Int.lt_of_le_of_lt w.fits.2 (htype w.type).2⟩
  | char w =>
      cases h
      have hlt : w.toNat < 4294967296 := w.val.toNat_lt
      rw [Fits, least_eq]
      omega
  | _ => cases h

theorem toInteger?_ofLiteral (w : Literal) : (ofLiteral w).toInteger? = w.toInteger? := by
  cases w <;> rfl

end Constant

end TreeScribe
