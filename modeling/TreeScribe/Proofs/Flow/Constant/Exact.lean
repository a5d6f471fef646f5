import TreeScribe.Proofs.Flow.Constant.Folded
import TreeScribe.Proofs.Flow.Constant.Integers

namespace TreeScribe

inductive Valued (shift : Int → Nat → Int) (t : Tree) : NodeId → Int → Prop
  | literal {i : NodeId} {v : Literal} {a : Int} (hk : t.kind i = .expression (.literal v))
      (hv : v.toInteger? = some a) : Valued shift t i a
  | group {i : NodeId} {k : ExpressionKind} {a : Int} (hk : t.kind i = .expression k)
      (hg : k.isGroup = true)
      (h : Valued shift t (t.child i .expression) a) : Valued shift t i a
  | unary {i : NodeId} {op : UnaryOperator} {a b : Int} (hk : t.kind i = .expression (.unary op))
      (h : Valued shift t (t.child i .expression) a) (hb : op.onInteger? a = some b) :
      Valued shift t i b
  | binary {i : NodeId} {op : BinaryOperator} {a b c : Int}
      (hk : t.kind i = .expression (.binary op))
      (ha : Valued shift t (t.child i .left) a) (hb : Valued shift t (t.child i .right) b)
      (hc : op.onIntegers? shift a b = some c) : Valued shift t i c
  | present {i : NodeId} {a : Int} (hk : t.kind i = .expression (.binary .coalesce))
      (h : Valued shift t (t.child i .left) a) : Valued shift t i a
  | absent {i : NodeId} {a : Int} (hk : t.kind i = .expression (.binary .coalesce))
      (hn : Folds t (t.child i .left) .null) (h : Valued shift t (t.child i .right) a) :
      Valued shift t i a

variable {t : Tree} {root i : NodeId} {c : Constant} {a b : Int} {shift : Int → Nat → Int}

open Constant

namespace Valued

theorem kind_ne_null (h : Valued shift t i a) : t.kind i ≠ .null := by
  cases h with
  | literal hk | group hk | unary hk | binary hk | present hk | absent hk =>
      rw [hk]
      exact Kind.noConfusion

theorem ne_null (hw : t.WellFormed) (h : Valued shift t i a) (hc : Folds t i c) : c ≠ .null := by
  have hsame {x : NodeId} {c d : Constant} (hc : Folds t x c) (hd : Folds t x d) :
      c = d := hc.unique hw hd
  induction h generalizing c with
  | literal => cases hc <;> grind [ExpressionKind.isGroup, toInteger?_ofLiteral, toInteger?]
  | group | present => cases hc <;> grind [ExpressionKind.isGroup]
  | unary => cases hc <;> grind [ExpressionKind.isGroup, foldUnary_ne_null]
  | binary =>
      cases hc <;> grind [ExpressionKind.isGroup, eq_coalesce_of_foldBinary,
        BinaryOperator.onIntegers?]
  | absent => cases hc <;> grind [ExpressionKind.isGroup, foldBinary]

theorem unique (hw : t.WellFormed) (h : Valued shift t i a) (h' : Valued shift t i b) : a = b := by
  have hnull {x : NodeId} {b : Int} (hb : Valued shift t x b) : ¬ Folds t x .null :=
    fun hn => hb.ne_null hw hn rfl
  induction h generalizing b with
  | literal | group | unary => cases h' <;> grind [ExpressionKind.isGroup]
  | binary | present | absent =>
      cases h' <;> grind [BinaryOperator.onIntegers?, ExpressionKind.isGroup]

end Valued

theorem Folds.valued (hw : t.WellFormed) (h : Folds t i c) (hc : c.toInteger? = some a)
    (hi : t.Below root i) (hs : ∀ x m n, t.Below root x →
      t.kind x = .expression (.binary .shiftLeft) →
      Valued shift t (t.child x .left) m → 0 ≤ n → Valued shift t (t.child x .right) n →
      shift m n.toNat = cut m n.toNat) :
    Valued shift t i a ∧ Fits a := by
  induction h generalizing a with
  | literal hk =>
      rw [toInteger?_ofLiteral] at hc
      exact ⟨.literal hk hc, fits_of_literal hc⟩
  | nullRef => cases hc
  | group hk hg h ih =>
      obtain ⟨hv, hf⟩ := ih hc (hw.below_child hi h.kind_ne_null)
      exact ⟨.group hk hg hv, hf⟩
  | unary hk h hd ih =>
      obtain ⟨n, hn, hop, hfits⟩ := foldUnary_toInteger? hd hc
      obtain ⟨hv, hf⟩ := ih hn (hw.below_child hi h.kind_ne_null)
      exact ⟨.unary hk hv hop, hfits hf⟩
  | present hk h hn ih =>
      obtain ⟨hv, hf⟩ := ih hc (hw.below_child hi h.kind_ne_null)
      exact ⟨.present hk hv, hf⟩
  | binary hk hl hr hn hd ihl ihr =>
      rename_i i op x y d
      rcases foldBinary_toInteger? hd hc with ⟨rfl, rfl⟩ | ⟨m, n, hm, hn, hfold⟩
      · obtain ⟨hv, hf⟩ := ihr hc (hw.below_child hi hr.kind_ne_null)
        cases hn rfl
        exact ⟨.absent hk hl hv, hf⟩
      · obtain ⟨hvm, hfm⟩ := ihl hm (hw.below_child hi hl.kind_ne_null)
        obtain ⟨hvn, hfn⟩ := ihr hn (hw.below_child hi hr.kind_ne_null)
        obtain ⟨hop, hf, -⟩ := (foldIntegers_eq_integer_iff hfm hfn).mp hfold
        refine ⟨.binary hk hvm hvn ?_, hf⟩
        by_cases ho : op = .shiftLeft
        · subst ho
          obtain ⟨hpos, rfl⟩ : 0 ≤ n ∧ cut m n.toNat = a := by
            simpa [BinaryOperator.onIntegers?] using hop
          exact (if_pos hpos).trans (congrArg some (hs _ m n hi hk hvm hpos hvn))
        · exact (BinaryOperator.onIntegers?_congr ho).trans hop

/-- An integer that is found is the value of the expression up to the bits that shifts lose, and
fits. -/
theorem Resolver.literals_valued (hw : t.WellFormed) (h : literals t i = some c)
    (hc : c.toInteger? = some a) : Valued cut t i a ∧ Fits a :=
  ((literals_eq_some_iff hw).mp h).valued hw hc .self fun _ _ _ _ _ _ _ _ => rfl

def ShiftsFit (t : Tree) (root : NodeId) : Prop :=
  ∀ x b, t.Below root x → t.kind x = .expression (.binary .shiftLeft) → Valued raised t x b → Fits b

/-- Where no shift loses bits, an integer that is found is the value of the expression. -/
theorem Resolver.literals_exact (hw : t.WellFormed) (hs : ShiftsFit t i) (h : literals t i = some c)
    (hc : c.toInteger? = some a) : Valued raised t i a ∧ Fits a := by
  refine ((literals_eq_some_iff hw).mp h).valued hw hc .self fun x m n hx hk hm hn hv => ?_
  have hvalue : Valued raised t x (raised m n.toNat) := .binary hk hm hv (if_pos hn)
  exact (wrap_of_fits (hs x _ hx hk hvalue)).symm

/-- Where no shift loses bits, no value that does not fit is found. -/
theorem Resolver.toInteger?_of_not_fits (hw : t.WellFormed) (hs : ShiftsFit t i)
    (ha : Valued raised t i a) (hf : ¬ Fits a) (h : literals t i = some c) :
    c.toInteger? = Option.none := by
  cases hc : c.toInteger? with
  | none => rfl
  | some b =>
      obtain ⟨hb, hfb⟩ := literals_exact hw hs h hc
      cases ha.unique hw hb
      exact absurd hfb hf

structure WithinWidth (t : Tree) (root : NodeId) : Prop where
  fits {x : NodeId} {b : Int} (hx : t.Below root x) (hb : Valued raised t x b) : Fits b
  answered {x : NodeId} {op : BinaryOperator} {m n : Int} (hx : t.Below root x)
    (hk : t.kind x = .expression (.binary op)) (hm : Valued raised t (t.child x .left) m)
    (hn : Valued raised t (t.child x .right) n) : Answered op m n

theorem Valued.folds (hw : t.WellFormed) (h : Valued raised t i a) (hi : t.Below root i)
    (hr : WithinWidth t root) :
    ∃ c, Folds t i c ∧ c.toInteger? = some a := by
  induction h with
  | literal hk hv => exact ⟨_, .literal hk, (toInteger?_ofLiteral _).trans hv⟩
  | group hk hg h ih =>
      obtain ⟨c, hc, ha⟩ := ih (hw.below_child hi h.kind_ne_null)
      exact ⟨c, .group hk hg hc, ha⟩
  | unary hk h hb ih =>
      obtain ⟨c, hc, ha⟩ := ih (hw.below_child hi h.kind_ne_null)
      exact ⟨_, .unary hk hc (foldUnary_eq_integer ha hb (hr.fits hi (.unary hk h hb))), rfl⟩
  | binary hk hl hr' hv ihl ihr =>
      have hleft := hw.below_child hi hl.kind_ne_null
      have hright := hw.below_child hi hr'.kind_ne_null
      obtain ⟨x, hx, hm⟩ := ihl hleft
      obtain ⟨y, hy, hn⟩ := ihr hright
      have hfits := hr.fits hi (.binary hk hl hr' hv)
      have hfold := (foldIntegers_eq_integer_iff (hr.fits hleft hl) (hr.fits hright hr')).mpr
        ⟨onIntegers?_cut hv hfits, hfits, hr.answered hi hk hl hr'⟩
      refine ⟨_, .binary hk hx hy ?_ (foldBinary_eq_integer hm hn hfold), rfl⟩
      rintro rfl
      cases hv
  | present hk h ih =>
      obtain ⟨c, hc, ha⟩ := ih (hw.below_child hi h.kind_ne_null)
      refine ⟨c, .present hk hc ?_, ha⟩
      rintro rfl
      cases ha
  | absent hk hn h ih =>
      obtain ⟨c, hc, ha⟩ := ih (hw.below_child hi h.kind_ne_null)
      exact ⟨c, .binary hk hn hc (fun _ => rfl) rfl, ha⟩

/-- Where everything below a node is within the width, the resolver finds the value and only
that. -/
theorem Resolver.literals_eq_value_iff (hw : t.WellFormed) (hr : WithinWidth t i) :
    (literals t i).bind (·.toInteger?) = some a ↔ Valued raised t i a := by
  rw [Option.bind_eq_some_iff]
  constructor
  · rintro ⟨c, h, hc⟩
    exact (literals_exact hw (fun _ _ hx _ hb => hr.fits hx hb) h hc).1
  · intro h
    obtain ⟨c, hc, ha⟩ := h.folds hw .self hr
    exact ⟨c, (literals_eq_some_iff hw).mpr hc, ha⟩

end TreeScribe
