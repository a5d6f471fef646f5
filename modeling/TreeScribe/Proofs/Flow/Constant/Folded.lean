import TreeScribe.Flow.Constant
import TreeScribe.Proofs.Tree.Below

namespace TreeScribe

def ExpressionKind.isGroup : ExpressionKind → Bool
  | .parenthesized | .checked | .unchecked => true
  | _ => false

/-- The ways in which an expression comes to a constant, without fuel. -/
inductive Folds (t : Tree) : NodeId → Constant → Prop
  | literal {i : NodeId} {v : Literal} (hk : t.kind i = .expression (.literal v)) :
      Folds t i (.ofLiteral v)
  | nullRef {i : NodeId} (hk : t.kind i = .expression .nullRef) : Folds t i .null
  | group {i : NodeId} {k : ExpressionKind} {c : Constant} (hk : t.kind i = .expression k)
      (hg : k.isGroup = true)
      (h : Folds t (t.child i .expression) c) : Folds t i c
  | unary {i : NodeId} {op : UnaryOperator} {a c : Constant}
      (hk : t.kind i = .expression (.unary op))
      (h : Folds t (t.child i .expression) a) (hc : Constant.foldUnary op a = some c) : Folds t i c
  | present {i : NodeId} {a : Constant} (hk : t.kind i = .expression (.binary .coalesce))
      (h : Folds t (t.child i .left) a) (ha : a ≠ .null) : Folds t i a
  | binary {i : NodeId} {op : BinaryOperator} {a b c : Constant}
      (hk : t.kind i = .expression (.binary op))
      (ha : Folds t (t.child i .left) a) (hb : Folds t (t.child i .right) b)
      (hn : op = .coalesce → a = .null)
      (hc : Constant.foldBinary op a b = some c) : Folds t i c

variable {t : Tree} {i : NodeId} {c d : Constant} {fuel : Nat}

namespace Folds

theorem kind_ne_null (h : Folds t i c) : t.kind i ≠ .null := by
  cases h with
  | literal hk | nullRef hk | group hk | unary hk | present hk | binary hk =>
      rw [hk]
      exact Kind.noConfusion

theorem of_foldWithin (h : Resolver.foldWithin t fuel i = some c) : Folds t i c := by
  induction fuel generalizing i c with
  | zero => cases h
  | succ fuel ih =>
      rw [Resolver.foldWithin] at h
      split at h
      next v hk =>
        cases h
        exact .literal hk
      next hk =>
        cases h
        exact .nullRef hk
      next hk => exact .group hk rfl (ih h)
      next hk => exact .group hk rfl (ih h)
      next hk => exact .group hk rfl (ih h)
      next op hk =>
        obtain ⟨a, ha, hc⟩ := Option.bind_eq_some_iff.mp h
        exact .unary hk (ih ha) hc
      next op hk =>
        obtain ⟨a, ha, h⟩ := Option.bind_eq_some_iff.mp h
        split at h
        next hp =>
          cases h
          obtain ⟨rfl, hn⟩ := hp
          exact .present hk (ih ha) hn
        next hp =>
          obtain ⟨b, hb, hc⟩ := Option.bind_eq_some_iff.mp h
          exact .binary hk (ih ha) (ih hb) (fun ho => by_contra fun hn => hp ⟨ho, hn⟩) hc
      next => cases h

theorem of_binary {op : BinaryOperator} (h : Folds t i c)
    (hk : t.kind i = .expression (.binary op)) :
    (op = .coalesce ∧ Folds t (t.child i .left) c ∧ c ≠ .null) ∨
      ∃ a b, Folds t (t.child i .left) a ∧ Folds t (t.child i .right) b ∧
      Constant.foldBinary op a b = some c := by
  cases h with
  | literal hk' | nullRef hk' | unary hk' => cases hk.symm.trans hk'
  | group hk' hg =>
      cases hk.symm.trans hk'
      cases hg
  | present hk' h hn =>
      cases hk.symm.trans hk'
      exact .inl ⟨rfl, h, hn⟩
  | binary hk' ha hb hn hc =>
      cases hk.symm.trans hk'
      exact .inr ⟨_, _, ha, hb, hc⟩

/-- Fuel and depth make up for all nodes on the way down. -/
theorem foldWithin (hw : t.WellFormed) (h : Folds t i c) (hf : t.size ≤ fuel + t.depth i) :
    Resolver.foldWithin t fuel i = some c := by
  induction fuel generalizing i c with
  | zero =>
      obtain ⟨n, hn⟩ := hw.exists_fuel h.kind_ne_null hf
      cases hn
  | succ fuel ih =>
      have hchild {r : Role} {c : Constant} (hc : Folds t (t.child i r) c) :
          Resolver.foldWithin t fuel (t.child i r) = some c :=
        ih hc (hw.fuel_child hf (hw.parent_child hc.kind_ne_null))
      rw [Resolver.foldWithin]
      cases h with
      | literal hk => rw [hk]
      | nullRef hk => rw [hk]
      | group hk hg h =>
          rw [← hchild h, hk]
          rename_i k
          cases k with
          | parenthesized | checked | unchecked => rfl
          | _ => cases hg
      | unary hk h hc =>
          simp only [hk, hchild h]
          exact hc
      | present hk h ha =>
          simp only [hk, hchild h, Option.bind_some]
          exact if_pos ⟨trivial, ha⟩
      | binary hk ha hb hn hc =>
          simp only [hk, hchild ha, hchild hb, Option.bind_some]
          exact (if_neg fun hp => hp.2 (hn hp.1)).trans hc

end Folds

namespace Resolver

theorem literals_eq_some_iff (h : t.WellFormed) : literals t i = some c ↔ Folds t i c :=
  ⟨.of_foldWithin, fun hc => hc.foldWithin h (Nat.le_add_right _ _)⟩

end Resolver

theorem Folds.unique (h : t.WellFormed) (hc : Folds t i c) (hd : Folds t i d) : c = d :=
  Option.some.inj (((Resolver.literals_eq_some_iff h).mpr hc).symm.trans
      ((Resolver.literals_eq_some_iff h).mpr hd))

end TreeScribe
