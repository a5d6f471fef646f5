import TreeScribe.Layout.Node
import TreeScribe.Proofs.Expression.Readable
import TreeScribe.Proofs.Grouping.Targets

namespace TreeScribe

namespace ExpressionKind

/-- The role of the operand that an expression ends with; a lambda or a query that ends in another
one is not asked for, since what follows it follows the outer one. -/
def last? : ExpressionKind → Option Role
  | .binary _ | .assignment _ => some .right
  | .conditional => some .falseExpression
  | .unary op => if op.isPostfix then none else some .expression
  | .cast | .named | .direction _ => some .expression
  | _ => none

/-- The role of the operand that something follows: an operator, a question mark, a bracket or a
member name. -/
def followed? : ExpressionKind → Option Role
  | .binary _ | .assignment _ => some .left
  | .isType | .asType => some .expression
  | .conditional => some .condition
  | k => k.continued?

def isListed : ExpressionKind → Bool
  | .named | .direction _ => true
  | _ => false

end ExpressionKind

namespace Tree

/-- `q` stands at the right edge of `c`; `way` are the expressions that end with it, outermost
first. -/
inductive Trails (t : Tree) : NodeId → NodeId → List NodeId → Prop
  | here (c : NodeId) : Trails t c c []
  | behind {c q : NodeId} {way : List NodeId} {k : ExpressionKind} {r : Role}
      (hk : t.kind c = .expression k)
      (hr : k.last? = some r) (h : Trails t (t.child c r) q way) : Trails t c q (c :: way)

def isListed (t : Tree) (i : NodeId) : Bool :=
  match t.kind i with
  | .expression k => k.isListed
  | _ => false

end Tree

variable {t u : Tree} {readable : Bool} {root c m q : NodeId} {way : List NodeId}
  {k : ExpressionKind} {r : Role}

/-- Nothing but the end of the node is written behind the operand that it ends with. -/
theorem Layout.Context.expression_last {d : Layout.Context} (hr : k.last? = some r) :
    ∃ l, d.expression c k = l ++ d.visitIn c r ++ [.write (.finish c)] := by
  have hnode {l m : Layout} :
      Layout.node c (l ++ m) = (.write (.start c) :: l) ++ m ++ [.write (.finish c)] := rfl
  cases k with
  | binary | assignment | conditional | cast | direction =>
      cases hr
      exact ⟨_, hnode⟩
  | named =>
      cases hr
      exact ⟨_, (congrArg (Layout.node c) (List.append_assoc _ _ _).symm).trans hnode⟩
  | unary op =>
      simp only [ExpressionKind.last?, Option.ite_none_left_eq_some, Option.some.injEq] at hr
      obtain ⟨hop, rfl⟩ := hr
      rw [expression, unary, Bool.eq_false_iff.mpr hop]
      exact ⟨_, (congrArg (Layout.node c) (List.append_nil _)).trans hnode⟩
  | _ => cases hr

theorem Tree.Trails.ofNodeWithin (h : t.Trails c q way) (p : Policy) (fuel : Nat) :
    ∃ l, Layout.ofNodeWithin t p (fuel + way.length) c =
      l ++ Layout.ofNodeWithin t p fuel q ++ way.reverse.map fun d => .write (.finish d) := by
  induction h with
  | here c => exact ⟨[], by simp⟩
  | @behind c q way k r hk hr _ ih =>
      obtain ⟨l, hl⟩ := ih
      obtain ⟨l', hl'⟩ := Layout.Context.expression_last (c := c)
        (d := ⟨t, p, Layout.ofNodeWithin t p (fuel + way.length)⟩) hr
      refine ⟨l' ++ l, ?_⟩
      rw [List.length_cons, ← Nat.add_assoc, Layout.ofNodeWithin, hk, Layout.Context.kind, hl']
      simp [Layout.Context.visitIn, Layout.Context.child, hl]

namespace Parentheses

theorem query_of_level {k : Kind} (hk : isLambdaOrQuery k = true)
    (hp : Precedence.conditional.level ≤ (Precedence.ofKind k).level) : k = .expression .query := by
  cases k with
  | expression k =>
      cases k with
      | query => rfl
      | lambda =>
          exact absurd (show Precedence.conditional.level ≤ Precedence.assignment.level from hp)
            (by decide)
      | _ => cases hk
  | _ => cases hk

theorem conditional_le_leftLevel {op : BinaryOperator} {o : Kind} :
    Precedence.conditional.level ≤ (leftLevel readable op o).level := by
  by_cases ho : op = .coalesce
  · subst ho
    exact Nat.le_trans (by decide) level_le_leftLevel_coalesce
  · exact Nat.le_trans (by cases op <;> decide) (level_le_leftLevel ho)

theorem conditional_le_rightLevel {op : BinaryOperator} {o : Kind} :
    Precedence.conditional.level ≤ (rightLevel readable op o).level := by
  by_cases ho : op = .coalesce
  · subst ho
    exact Nat.le_trans (by decide) level_le_rightLevel_coalesce
  · exact Nat.le_trans (by cases op <;> decide) (level_le_rightLevel ho)

/-- The places where no lambda or query stays, however tightly it binds. -/
def isOpen (readable : Bool) (k : ExpressionKind) (r : Role) : Bool :=
  match k with
  | .binary _ => r = .left || readable
  | .isType | .asType => true
  | .unary _ => readable
  | _ => false

theorem isSwallowing_eq (hp : t.parent c = some m) (hk : t.kind m = .expression k) :
    isSwallowing t readable c = (isLambdaOrQuery (t.kind c) && isOpen readable k (t.role c)) := by
  rw [isSwallowing, hp, Option.map_some, hk]
  cases k <;> rfl

end Parentheses

open Parentheses

/-- An expression that binds more tightly than a lambda, and for readers is no query. -/
structure Firm (readable : Bool) (u : Tree) (i : NodeId) : Prop where
  tight : Precedence.conditional.level ≤ (u.precedence i).level
  not_query : readable = true → u.kind i ≠ .expression .query

theorem Firm.of_level {l : Precedence} (hl : Precedence.conditional.level ≤ l.level)
    (hle : (if readable then Precedence.conditionalEnd else l).level ≤ (u.precedence c).level) :
    Firm readable u c := by
  refine ⟨Nat.le_trans ?_ hle, fun hread hq => ?_⟩
  · split
    · decide
    · exact hl
  · rw [Tree.precedence, hq, if_pos hread] at hle
    exact absurd hle (by decide)

namespace AllSettled

variable (hs : AllSettled readable root u) (h : u.WellFormed) (hb : u.Below root m)
  (hk : u.kind m = .expression k)

include hs h hb hk

theorem level_le {l : Precedence} (hr : r ∈ operandRoles)
    (hl : level? readable (.expression k) r (u.kind (u.child m r)) = some l) :
    l.level ≤ (u.precedence (u.child m r)).level := by
  by_cases hc : u.child m r = .null
  · rw [hc, Tree.precedence, h.null_kind]
    cases l <;> decide
  · exact (not_needsParens (hs m hb).pending hc hr (hk ▸ hl)).1

theorem not_query (ho : isOpen readable k r = true) :
    u.kind (u.child m r) ≠ .expression .query := by
  intro hq
  have hne : u.kind (u.child m r) ≠ .null := by simp [hq]
  have hp := h.parent_child hne
  have ht := (hs _ (hb.child hp)).tame fun hroot => h.not_below_of_parent hp (hroot ▸ hb)
  rw [isSwallowing_eq hp hk, hq, (Tree.role_child (h.ne_null_of_kind hne)).2, ho] at ht
  cases ht

theorem followed (hr : k.followed? = some r) :
    Precedence.conditional.level ≤ (u.precedence (u.child m r)).level ∧
      (u.kind (u.child m r) = .expression .query → k = .conditional ∧ readable = false ∨
        ∃ op, k = .assignment op) := by
  have hle {l : Precedence} := hs.level_le h hb hk (r := r) (l := l)
  have hnot (ho : isOpen readable k r = true) := hs.not_query h hb hk ho
  cases k with
  | binary op =>
      cases hr
      exact ⟨Nat.le_trans conditional_le_leftLevel (hle (by decide) rfl),
        fun hq => absurd hq (hnot rfl)⟩
  | isType | asType =>
      cases hr
      exact ⟨Nat.le_trans (by cases readable <;> decide) (hle (by decide) rfl),
        fun hq => absurd hq (hnot rfl)⟩
  | conditional =>
      cases hr
      have hlevel := hle (by decide) rfl
      refine ⟨Nat.le_trans (by cases readable <;> decide) hlevel, fun hq => ?_⟩
      rw [Tree.precedence, hq] at hlevel
      cases readable with
      | false => exact .inl ⟨rfl, rfl⟩
      | true => exact absurd hlevel (by decide)
  | assignment op =>
      cases hr
      exact ⟨hle (by decide) rfl, fun _ => .inr ⟨op, rfl⟩⟩
  | _ =>
      rcases hs.continued h hb hk hr with hp | ⟨rfl, hc | ⟨-, hc⟩⟩
      · refine ⟨hp ▸ (by decide), fun hq => ?_⟩
        rw [Tree.precedence, hq] at hp
        cases hp
      · simp [Tree.precedence, hc, Precedence.ofKind, Precedence.ofExpression, Precedence.level]
      · simp [Tree.precedence, hc, Precedence.ofKind, Precedence.ofExpression, Precedence.ofUnary,
          Precedence.level]

theorem firm_of_prefixed {l : Precedence} (hr : r ∈ operandRoles)
    (hl : Precedence.conditional.level ≤ l.level)
    (he : level? readable (.expression k) r (u.kind (u.child m r)) =
      prefixedLevel? readable l (u.kind (u.child m r))) :
    Firm readable u (u.child m r) := by
  by_cases hc : u.kind (u.child m r) = .expression .cast
  · refine ⟨?_, fun _ => by simp [hc]⟩
    rw [Tree.precedence, hc]
    decide
  · refine Firm.of_level hl (hs.level_le h hb hk hr (he.trans ?_))
    rw [prefixedLevel?]
    exact hc

theorem last (hr : k.last? = some r) (hn : k.isListed = false)
    (hp : Precedence.conditional.level ≤ (u.precedence m).level) :
    Firm readable u (u.child m r) := by
  have hle {l : Precedence} := hs.level_le h hb hk (r := r) (l := l)
  cases k with
  | binary op =>
      cases hr
      exact ⟨Nat.le_trans conditional_le_rightLevel (hle (by decide) rfl), fun hread =>
        hs.not_query h hb hk (hread ▸ rfl)⟩
  | assignment op =>
      -- its value may well be a lambda, but an assignment is no firm expression itself
      rw [Tree.precedence, hk] at hp
      exact absurd (show Precedence.conditional.level ≤ Precedence.assignment.level from hp)
        (by decide)
  | conditional =>
      cases hr
      exact Firm.of_level (l := .conditional) (Nat.le_refl _) (hle (by decide) rfl)
  | unary op =>
      simp only [ExpressionKind.last?, Option.ite_none_left_eq_some, Option.some.injEq] at hr
      obtain ⟨-, rfl⟩ := hr
      exact hs.firm_of_prefixed h hb hk (l := .ofUnary op) (by decide) (by cases op <;> decide) rfl
  | cast =>
      cases hr
      exact hs.firm_of_prefixed h hb hk (l := .unary) (by decide) (by decide) rfl
  | named | direction => cases hn
  | _ => cases hr

end AllSettled

/-- What stands at the right edge of a firm expression binds more tightly than a lambda; for
readers, no query stands there. -/
theorem Tree.Trails.firm (ht : u.Trails c q way) (hs : AllSettled readable root u)
    (h : u.WellFormed) (hb : u.Below root c) (hn : ∀ d ∈ way, u.isListed d = false)
    (hc : Precedence.conditional.level ≤ (u.precedence c).level) :
    Precedence.conditional.level ≤ (u.precedence q).level ∧ (way ≠ [] → Firm readable u q) := by
  induction ht with
  | here c => exact ⟨hc, fun hne => absurd rfl hne⟩
  | @behind c q way k r hk hr ht ih =>
      obtain ⟨hnc, hn⟩ := List.forall_mem_cons.mp hn
      have hlast := hs.last h hb hk hr (by rwa [Tree.isListed, hk] at hnc) hc
      by_cases hnull : u.kind (u.child c r) = .null
      · cases ht with
        | here => exact ⟨hlast.tight, fun _ => hlast⟩
        | behind hk' => cases hk'.symm.trans hnull
      · obtain ⟨hq, hfirm⟩ := ih (h.below_child hb hnull) hn hlast.tight
        cases way with
        | nil =>
            cases ht
            exact ⟨hq, fun _ => hlast⟩
        | cons => exact ⟨hq, fun _ => hfirm (List.cons_ne_nil _ _)⟩

/-- Where all nodes are settled, nothing follows a lambda, elements of lists apart. What follows a
query is a question mark, an assignment operator, or stands behind the edge of a larger operand, and
for readers only an assignment operator. -/
theorem AllSettled.followed_at_edge (hs : AllSettled readable root u) (h : u.WellFormed)
    (hb : u.Below root m) (hk : u.kind m = .expression k) (hr : k.followed? = some r)
    (ht : u.Trails (u.child m r) q way) (hn : ∀ d ∈ way, u.isListed d = false)
    (hq : isLambdaOrQuery (u.kind q) = true) :
    u.kind q = .expression .query ∧
      (readable = false ∧ (way ≠ [] ∨ k = .conditional) ∨ way = [] ∧ ∃ op, k = .assignment op) := by
  obtain ⟨hlevel, hdirect⟩ := hs.followed h hb hk hr
  have hchild : u.kind (u.child m r) ≠ .null := by
    intro hnull
    cases ht with
    | here =>
        rw [hnull] at hq
        cases hq
    | behind hk' => cases hk'.symm.trans hnull
  obtain ⟨htight, hfirm⟩ := ht.firm hs h (h.below_child hb hchild) hn hlevel
  have hquery := query_of_level hq htight
  refine ⟨hquery, ?_⟩
  by_cases hway : way = []
  · subst hway
    cases ht
    rcases hdirect hquery with ⟨hc, hread⟩ | hop
    · exact .inl ⟨hread, .inr hc⟩
    · exact .inr ⟨rfl, hop⟩
  · refine .inl ⟨Bool.eq_false_iff.mpr fun hread => ?_, .inl hway⟩
    exact (hfirm hway).not_query hread hquery

/-- After the first pass nothing follows a lambda, elements of lists apart, and what follows a query
is a question mark, an assignment operator, or stands behind the edge of a larger operand; for
readers only an assignment operator does. -/
theorem insert_followed (h : t.WellFormed) (hu : (Parentheses.insert t root readable).tree = u)
    (hb : u.Below root m) (hk : u.kind m = .expression k) (hr : k.followed? = some r)
    (ht : u.Trails (u.child m r) q way) (hn : ∀ d ∈ way, u.isListed d = false)
    (hq : isLambdaOrQuery (u.kind q) = true) :
    u.kind q = .expression .query ∧
      (readable = false ∧ (way ≠ [] ∨ k = .conditional) ∨ way = [] ∧ ∃ op, k = .assignment op) := by
  subst hu
  exact (insert_allSettled root readable h).followed_at_edge
    (insert_grown root readable h).1.wellFormed hb hk hr ht hn hq

end TreeScribe
