import TreeScribe.Proofs.Grouping.Stable

namespace TreeScribe

def ExpressionKind.continued? : ExpressionKind → Option Role
  | .member | .invocation | .indexer => some .target
  | .unary op => if op.isPostfix then some .expression else none
  | _ => none

namespace Precedence

variable {k : Kind} {op : UnaryOperator}

theorem eq_primary {a : Precedence} (h : primary.level ≤ a.level) : a = primary := by
  cases a with
  | primary => rfl
  | _ => exact absurd h (by decide)

theorem ofUnary_postfix (h : op.isPostfix = true) : ofUnary op = primary := by
  cases op with
  | postIncrement | postDecrement | conditionalAccess => rfl
  | _ => cases h

theorem primary_or_conditionalEnd (h : conditionalEnd.level ≤ (ofKind k).level) :
    ofKind k = primary ∨ k = .expression (.unary .conditionalEnd) := by
  cases k with
  | expression k =>
      cases k with
      | unary op =>
          cases op <;> first | exact .inl rfl | exact .inr rfl | exact absurd h (by decide)
      | binary op => cases op <;> exact absurd h (by decide)
      | literal v =>
          rw [ofKind, ofExpression] at h ⊢
          split at h
          · exact absurd h (by decide)
          · exact .inl (if_neg ‹_›)
      | assignment | lambda =>
          exact absurd (show conditionalEnd.level ≤ assignment.level from h) (by decide)
      | direction => exact absurd (show conditionalEnd.level ≤ conditional.level from h) (by decide)
      | _ => first | exact .inl rfl | exact absurd h (by decide)
  | _ => exact .inl rfl

end Precedence

variable {t u : Tree} {readable : Bool} {root i : NodeId} {k : ExpressionKind} {r : Role}

/-- Where all nodes are settled, an expression continues primary expressions only. Behind a cast no
operator asks for parentheses, and readers may see a conditional access bare. -/
theorem AllSettled.continued (hs : AllSettled readable root u) (h : u.WellFormed)
    (hb : u.Below root i) (hk : u.kind i = .expression k) (hr : k.continued? = some r) :
    u.precedence (u.child i r) = .primary ∨ r = .expression ∧
      (u.kind (u.child i r) = .expression .cast ∨
      readable = true ∧ u.kind (u.child i r) = .expression (.unary .conditionalEnd)) := by
  by_cases hc : u.child i r = .null
  · rw [hc, Tree.precedence, h.null_kind]
    exact .inl rfl
  have hbound {l : Precedence} (hr : r ∈ Parentheses.operandRoles)
      (hl : Parentheses.level? readable (u.kind i) r (u.kind (u.child i r)) = some l) :
      l.level ≤ (u.precedence (u.child i r)).level :=
        (Parentheses.not_needsParens (hs i hb).pending hc hr hl).1
  cases k with
  | member | invocation | indexer =>
      cases hr
      exact .inl (Precedence.eq_primary (hbound (by decide) (by rw [hk]; rfl)))
  | unary op =>
      simp only [ExpressionKind.continued?, Option.ite_none_right_eq_some, Option.some.injEq] at hr
      obtain ⟨hop, rfl⟩ := hr
      by_cases hcast : u.kind (u.child i .expression) = .expression .cast
      · exact .inr ⟨rfl, .inl hcast⟩
      have hl : Parentheses.level? readable (u.kind i) .expression
          (u.kind (u.child i .expression)) =
          some (if readable then .conditionalEnd else .primary) := by
        rw [hk, Parentheses.level?, Precedence.ofUnary_postfix hop, Parentheses.prefixedLevel?]
        exact hcast
      have hle := hbound (by decide) hl
      cases readable with
      | false => exact .inl (Precedence.eq_primary hle)
      | true =>
          rcases Precedence.primary_or_conditionalEnd hle with hp | he
          · exact .inl hp
          · exact .inr ⟨rfl, .inr ⟨rfl, he⟩⟩
  | _ => cases hr

/-- The first pass leaves a member name, an argument list, a bracket and a postfix operator behind a
primary expression, or a postfix operator behind a cast or, for readers, behind a whole conditional
access. -/
theorem insert_continued (h : t.WellFormed)
    (hb : (Parentheses.insert t root readable).tree.Below root i)
    (hk : (Parentheses.insert t root readable).tree.kind i = .expression k)
    (hr : k.continued? = some r) :
    let u := (Parentheses.insert t root readable).tree
    u.precedence (u.child i r) = .primary ∨ r = .expression ∧
      (u.kind (u.child i r) = .expression .cast ∨
      readable = true ∧ u.kind (u.child i r) = .expression (.unary .conditionalEnd)) :=
  (insert_allSettled root readable h).continued (insert_grown root readable h).1.wellFormed hb hk hr

end TreeScribe
