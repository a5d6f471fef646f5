import Mathlib.Data.Rat.Lemmas
import TreeScribe.Proofs.Flow.Constant.Folded

namespace TreeScribe

namespace Constant

def digitsValue (digits : List Char) : Nat :=
  digits.foldl (fun n c => 10 * n + (c.toNat - '0'.toNat)) 0

def unsigned? (text : List Char) : Option Rat :=
  let whole := text.takeWhile Char.isDigit
  match text.dropWhile Char.isDigit with
  | [] => if whole = [] then none else some (mkRat (digitsValue whole) 1)
  | '.' :: fraction =>
    if whole ≠ [] ∧ fraction ≠ [] ∧ fraction.all Char.isDigit then
      some (mkRat (digitsValue (whole ++ fraction)) (Nat.pow 10 fraction.length))
    else none
  | _ => none

def decimal? (digits : String) : Option Rat :=
  match digits.toList with
  | '-' :: text => (unsigned? text).map (-·)
  | '+' :: text => unsigned? text
  | text => unsigned? text

/-- The number that a constant stands for, floating point numbers apart. -/
def number? : Constant → Option Rat
  | integer a => some a
  | char c => some (c.toNat : Int)
  | decimal digits => decimal? digits
  | _ => none

def digits? : Constant → Option String
  | decimal digits => some digits
  | _ => none

end Constant

def BinaryOperator.Holds (op : BinaryOperator) (x y : Rat) : Prop :=
  match op with
  | .equal => x = y
  | .notEqual => x ≠ y
  | .less => x < y
  | .lessEqual => x ≤ y
  | .greater => x > y
  | .greaterEqual => x ≥ y
  | _ => False

namespace Constant

variable {a b c : Constant} {x y : Rat} {r : Bool} {op : BinaryOperator}

theorem number?_cases (h : a.number? = some x) :
    (∃ m : Int, a.toInteger? = some m ∧ x = m ∧ a.digits? = none) ∨ ∃ d, a = decimal d ∧
    a.digits? = some d := by
  cases a with
  | integer m => exact .inl ⟨m, rfl, (Option.some.inj h).symm, rfl⟩
  | char c => exact .inl ⟨c.toNat, rfl, (Option.some.inj h).symm, rfl⟩
  | decimal d => exact .inr ⟨d, rfl, rfl⟩
  | _ => cases h

theorem agrees_iff (ha : a.number? = some x) (hb : b.number? = some y) :
    a.agrees b = true ↔ x = y ∧ a.digits? = b.digits? := by
  rcases number?_cases ha with ⟨m, hm, rfl, hda⟩ | ⟨d, rfl, hda⟩
  · rcases number?_cases hb with ⟨n, hn, rfl, hdb⟩ | ⟨e, rfl, hdb⟩
    · simp [agrees, hm, hn, hda, hdb]
    · have hne : a.agrees (decimal e) = false := by cases a <;> cases hm <;> rfl
      simp [hne, hda, hdb]
  · rcases number?_cases hb with ⟨n, hn, rfl, hdb⟩ | ⟨e, rfl, hdb⟩
    · have hne : (decimal d).agrees b = false := by cases b <;> cases hn <;> rfl
      simp [hne, hda, hdb]
    · have he : (decimal d).agrees (decimal e) = decide (decimal d = decimal e) := rfl
      rw [he, decide_eq_true_eq, hda, hdb, decimal.injEq, Option.some.injEq]
      refine ⟨?_, And.right⟩
      rintro rfl
      exact ⟨Option.some.inj (ha.symm.trans hb), rfl⟩

/-- Agreeing numbers fall into classes: one for each integer, and one for each way to write a
decimal. -/
theorem agrees_equivalence :
    Equivalence fun a b : { c : Constant // c.number?.isSome } => a.1.agrees b.1 = true := by
  have hiff (a b : { c : Constant // c.number?.isSome }) : a.1.agrees b.1 = true ↔
      a.1.number? = b.1.number? ∧ a.1.digits? = b.1.digits? := by
    obtain ⟨x, hx⟩ := Option.isSome_iff_exists.mp a.2
    obtain ⟨y, hy⟩ := Option.isSome_iff_exists.mp b.2
    rw [agrees_iff hx hy, hx, hy, Option.some.injEq]
  refine ⟨fun a => (hiff a a).mpr ⟨rfl, rfl⟩, fun h => ?_, fun h h' => ?_⟩
  · obtain ⟨hn, hd⟩ := (hiff _ _).mp h
    exact (hiff _ _).mpr ⟨hn.symm, hd.symm⟩
  · obtain ⟨hn, hd⟩ := (hiff _ _).mp h
    obtain ⟨hn', hd'⟩ := (hiff _ _).mp h'
    exact (hiff _ _).mpr ⟨hn.trans hn', hd.trans hd'⟩

theorem foldIntegers_compares {m n : Int} (h : foldIntegers op m n = some (bool r)) :
    r = true ↔ op.Holds m n := by
  cases op with
  | less | greater =>
      cases h
      exact decide_eq_true_iff.trans Rat.intCast_lt_intCast.symm
  | lessEqual | greaterEqual =>
      cases h
      exact decide_eq_true_iff.trans Rat.intCast_le_intCast.symm
  | _ => simp [foldIntegers, fitting?, shift?, shiftLeft, bitwise] at h

/-- Only integers are put in order. -/
theorem foldNumbers_compares (ha : a.number? = some x) (hb : b.number? = some y)
    (h : foldNumbers op a b = some (bool r)) : r = true ↔ op.Holds x y := by
  rcases number?_cases ha with ⟨m, hm, rfl, -⟩ | ⟨d, rfl, -⟩
  · rcases number?_cases hb with ⟨n, hn, rfl, -⟩ | ⟨e, rfl, -⟩
    · rw [foldNumbers, hm, hn] at h
      exact foldIntegers_compares h
    · simp [foldNumbers, toInteger?, toFloat?] at h
  · simp [foldNumbers, toInteger?, toFloat?] at h

theorem foldBinary_number (ha : a.number? = some x) : foldBinary op a b =
    match op with
    | .coalesce => some b
    | .equal => some (bool (a.agrees b))
    | .notEqual => some (bool !(a.agrees b))
    | _ => foldNumbers op a b := by
  cases a with
  | integer | char | decimal => cases b <;> rfl
  | _ => cases ha

/-- A comparison that folds says what holds, but takes one number that is written in two ways for
two numbers. -/
theorem foldBinary_compares (ha : a.number? = some x) (hb : b.number? = some y)
    (h : foldBinary op a b = some (bool r)) : (r = true ↔ op.Holds x y) ∨
      x = y ∧ a.digits? ≠ b.digits? ∧ (op = .equal ∧ r = false ∨ op = .notEqual ∧ r = true) := by
  have hagrees := agrees_iff ha hb
  rw [foldBinary_number ha] at h
  cases op with
  | coalesce =>
      cases h
      cases hb
  | equal =>
      cases h
      rw [hagrees]
      by_cases hd : a.digits? = b.digits?
      · exact .inl ⟨And.left, fun hx => ⟨hx, hd⟩⟩
      · by_cases hx : x = y
        · exact .inr ⟨hx, hd, .inl ⟨rfl, Bool.eq_false_iff.mpr fun h => hd (hagrees.mp h).2⟩⟩
        · exact .inl ⟨And.left, fun h => absurd h hx⟩
  | notEqual =>
      cases h
      rw [Bool.not_eq_true', Bool.eq_false_iff, ne_eq, hagrees]
      by_cases hd : a.digits? = b.digits?
      · exact .inl ⟨fun h hx => h ⟨hx, hd⟩, fun h hx => h hx.1⟩
      · by_cases hx : x = y
        · exact .inr ⟨hx, hd, .inr ⟨rfl, fun h => hd h.2⟩⟩
        · exact .inl ⟨fun _ => hx, fun h hxy => h hxy.1⟩
  | _ => exact .inl (foldNumbers_compares ha hb h)

end Constant

variable {t : Tree} {i : NodeId} {a b : Constant} {x y : Rat} {r : Bool} {op : BinaryOperator}

theorem Resolver.literals_compares (hw : t.WellFormed) (hk : t.kind i = .expression (.binary op))
    (hl : literals t (t.child i .left) = some a) (hr : literals t (t.child i .right) = some b)
    (ha : a.number? = some x) (hb : b.number? = some y) (h : literals t i = some (.bool r)) :
    (r = true ↔ op.Holds x y) ∨
      x = y ∧ a.digits? ≠ b.digits? ∧ (op = .equal ∧ r = false ∨ op = .notEqual ∧ r = true) := by
  rw [literals_eq_some_iff hw] at hl hr h
  rcases h.of_binary hk with ⟨-, hf, -⟩ | ⟨a', b', ha', hb', hf⟩
  · cases hl.unique hw hf
    cases ha
  · cases hl.unique hw ha'
    cases hr.unique hw hb'
    exact Constant.foldBinary_compares ha hb hf

namespace Constant

theorem digitsValue_concat (digits : List Char) (c : Char) :
    digitsValue (digits ++ [c]) = 10 * digitsValue digits + (c.toNat - '0'.toNat) := by
  rw [digitsValue, List.foldl_append]
  rfl

variable {whole fraction : List Char}

theorem decimal?_point (hw : ∀ c ∈ whole, c.isDigit = true) (hf : ∀ c ∈ fraction, c.isDigit = true)
    (hne : whole ≠ [] ∧ fraction ≠ []) : decimal? (String.ofList (whole ++ '.' :: fraction)) =
      some (mkRat (digitsValue (whole ++ fraction)) (Nat.pow 10 fraction.length)) := by
  have hpoint : Char.isDigit '.' = false := rfl
  have htake : (whole ++ '.' :: fraction).takeWhile Char.isDigit = whole := by
    rw [List.takeWhile_append_of_pos hw, List.takeWhile_cons_of_neg (by simp [hpoint]),
      List.append_nil]
  have hdrop : (whole ++ '.' :: fraction).dropWhile Char.isDigit = '.' :: fraction := by
    rw [List.dropWhile_append_of_pos hw, List.dropWhile_cons_of_neg (by simp [hpoint])]
  have hu : unsigned? (whole ++ '.' :: fraction) =
      some (mkRat (digitsValue (whole ++ fraction)) (Nat.pow 10 fraction.length)) := by
    rw [unsigned?, hdrop, htake]
    exact if_pos ⟨hne.1, hne.2, List.all_eq_true.mpr hf⟩
  -- the first character is a digit and no sign
  rw [decimal?, String.toList_ofList, ← hu]
  obtain ⟨c, rest, rfl⟩ := List.exists_cons_of_ne_nil hne.1
  have hc := hw c List.mem_cons_self
  split
  next he =>
    cases he
    cases hc
  next he =>
    cases he
    cases hc
  next => rfl

/-- One more zero behind the point makes no other number, but another constant. -/
theorem decimal_zero (hw : ∀ c ∈ whole, c.isDigit = true) (hf : ∀ c ∈ fraction, c.isDigit = true)
    (hne : whole ≠ [] ∧ fraction ≠ []) :
    let short := decimal (String.ofList (whole ++ '.' :: fraction))
    let long := decimal (String.ofList (whole ++ '.' :: (fraction ++ ['0'])))
    short.number? = long.number? ∧ short.number?.isSome ∧ short.agrees long = false := by
  intro short long
  have hf' : ∀ c ∈ fraction ++ ['0'], c.isDigit = true := by
    intro c hc
    rcases List.mem_append.mp hc with hc | hc
    · exact hf c hc
    · cases List.mem_singleton.mp hc
      rfl
  have hs : short.number? = some _ := decimal?_point hw hf hne
  have hl : long.number? = some _ := decimal?_point hw hf' ⟨hne.1, by simp⟩
  have hvalue : mkRat (digitsValue (whole ++ (fraction ++ ['0'])))
    (Nat.pow 10 (fraction ++ ['0']).length) =
      mkRat (digitsValue (whole ++ fraction)) (Nat.pow 10 fraction.length) := by
    have hn : digitsValue (whole ++ (fraction ++ ['0'])) =
        digitsValue (whole ++ fraction) * 10 := by
      rw [← List.append_assoc, digitsValue_concat]
      exact Nat.mul_comm _ _
    have hd : Nat.pow 10 (fraction ++ ['0']).length = Nat.pow 10 fraction.length * 10 := by
      rw [List.length_append]
      rfl
    rw [hn, hd, Int.natCast_mul]
    exact Rat.mkRat_mul_right (by decide)
  refine ⟨by rw [hs, hl, hvalue], by rw [hs]; rfl, Bool.eq_false_iff.mpr fun h => ?_⟩
  have hd : String.ofList (whole ++ '.' :: fraction) =
    String.ofList (whole ++ '.' :: (fraction ++ ['0'])) :=
    Option.some.inj ((agrees_iff hs hl).mp h).2
  have hlen := congrArg (·.toList.length) hd
  simp at hlen

end Constant

end TreeScribe
