import TreeScribe.Proofs.Expression.Unambiguous
import TreeScribe.Proofs.Expression.Written
import TreeScribe.Proofs.Grouping.Stable

namespace TreeScribe

open Grammar

variable {t : Tree} {readable : Bool} {root i : NodeId} {r : Role} {k l : Precedence}
  {s m n : List Lexeme}
  {e : Term} {op : BinaryOperator} {c : Kind}

namespace Grammar

theorem Reads.loosen (h : Reads k s e m) (hl : l.level ≤ k.level) : Reads l s e m := by
  induction hd : k.level - l.level generalizing l with
  | zero =>
      cases Precedence.level_inj (Nat.le_antisymm hl (Nat.sub_eq_zero_iff_le.mp hd))
      exact h
  | succ d ih =>
      have hp : l ≠ .primary := by
        rintro rfl
        have hle : k.level ≤ Precedence.primary.level := by cases k <;> decide
        omega
      have ht := Precedence.level_tighter hp
      exact .start (.tighter hp (ih (by omega) (by omega)))

theorem Reads.loosest (h : Reads k s e m) : Reads .assignment s e m :=
  h.loosen (by cases k <;> decide)

theorem beginsOperand_of_opensAtom (h : opensAtom s = true) : beginsOperand s = true := by
  cases s with
  | nil => cases h
  | cons x s =>
      cases x with
      | mark text =>
          rw [opensAtom, Bool.and_eq_true, decide_eq_true_eq] at h
          rw [h.1]
          rfl
      | word => cases h
      | _ => rfl

theorem startsCast_eq_false (hs : ∀ type, s.head? ≠ some (.type type)) : startsCast s = false := by
  cases s with
  | nil => rfl
  | cons x s =>
      cases x with
      | type type => exact absurd rfl (hs type)
      | _ => rfl

end Grammar

namespace Parentheses

theorem level_lt_boost (hr : (readable && Precedence.ofBinary op < .equality) = true) :
    (Precedence.ofBinary op).level <
    (if op.isBitwise then Precedence.unary else .equality).level := by
  have hlt : (Precedence.ofBinary op).level < Precedence.equality.level :=
    of_decide_eq_true (Bool.and_eq_true_iff.mp hr).2
  split
  · exact Nat.lt_trans hlt (by decide)
  · exact hlt

theorem level_le_leftLevel (ho : op ≠ .coalesce) :
    (Precedence.ofBinary op).level ≤ (leftLevel readable op c).level := by
  rw [leftLevel, if_neg ho]
  split
  · rename_i hr
    split
    · exact Nat.le_refl _
    · exact Nat.le_of_lt (level_lt_boost hr)
  · exact Nat.le_refl _

theorem level_le_rightLevel (ho : op ≠ .coalesce) :
    (Precedence.ofBinary op).tighter.level ≤ (rightLevel readable op c).level := by
  rw [rightLevel, if_neg ho]
  split
  · rename_i hr
    rw [Precedence.level_tighter (Precedence.ofBinary_ne_primary op)]
    exact level_lt_boost hr
  · exact Nat.le_refl _

theorem level_le_leftLevel_coalesce :
    Precedence.condOr.level ≤ (leftLevel readable .coalesce c).level := by
  cases readable <;> exact of_decide_eq_true rfl

theorem level_le_rightLevel_coalesce :
    Precedence.coalescing.level ≤ (rightLevel readable .coalesce c).level := by
  rw [rightLevel, if_pos rfl]
  cases readable with
  | false => exact Nat.le_refl _
  | true =>
      rw [if_pos rfl]
      split <;> decide

theorem level_le_boost (hk : k.level ≤ Precedence.conditionalEnd.level) :
    k.level ≤ (if readable then Precedence.conditionalEnd else k).level := by
  split
  · exact hk
  · exact Nat.le_refl _

theorem level?_test (how : TypeTest) : level? readable (.expression how.kind) .expression c =
    some (if readable then .conditionalEnd else .relational) := by cases how <;> rfl

end Parentheses

open Parentheses

namespace Tree

namespace Denotes

theorem precedence_eq (hd : t.Denotes i e) : t.precedence i = e.precedence := by
  obtain ⟨k, hk, he⟩ := hd.exists_kind
  rw [precedence, hk]
  exact he

theorem head_ne {i : NodeId} {e : Term} (hd : t.Denotes i e) (s : List Lexeme) (type : TypeLexeme) :
    (e.lexemes ++ s).head? ≠ some (.type type) := by
  induction hd using Denotes.rec (motive_2 := fun _ _ _ => True) generalizing s with
  | nil | cons => trivial
  | name | literal | group | cast => simp [Term.lexemes]
  | unary =>
      simp only [Term.lexemes, UnaryOperator.lexeme]
      split <;> simp
  | _ =>
      simp only [Term.lexemes, List.append_assoc]
      apply_assumption

theorem prefixed (hd : t.Denotes i e) (he : e.precedence = .unary) :
    (∃ op a, e = .unary op a ∧ t.kind i = .expression (.unary op)) ∨
    ∃ type a, e = .cast type a := by
  cases hd with
  | unary hk => exact .inl ⟨_, _, rfl, hk⟩
  | cast => exact .inr ⟨_, _, rfl⟩
  | binary =>
      rename_i op _ _ _ _ _
      cases op <;> cases he
  | _ => cases he

end Denotes

theorem readsAsExpression_eq (i : NodeId) : readsAsExpression t i = (t.kind i).isTypeName := by
  rw [readsAsExpression]
  cases t.kind i with
  | type k => cases k <;> rfl
  | _ => rfl

namespace Denotes

variable (h : t.WellFormed) (hp : pending t readable i = [])

include h hp

theorem operand_bound (hd : t.Denotes (t.child i r) e) (hr : r ∈ operandRoles)
    (hl : level? readable (t.kind i) r (t.kind (t.child i r)) = some l) :
    l.level ≤ e.precedence.level ∧ isMisread t readable i (t.child i r) = false := by
  rw [← hd.precedence_eq]
  exact not_needsParens hp (h.ne_null_of_kind hd.kind_ne_null) hr hl

theorem level_unary_le (hd : t.Denotes (t.child i .expression) e)
    (hl : ∀ c, level? readable (t.kind i) .expression c = prefixedLevel? readable .unary c) :
    Precedence.unary.level ≤ e.precedence.level := by
  have hc := hl (t.kind (t.child i .expression))
  by_cases hk : t.kind (t.child i .expression) = .expression .cast
  · have he := hd.precedence_eq
    rw [precedence, hk] at he
    rw [← he]
    exact Nat.le_refl _
  · rw [prefixedLevel?] at hc
    · exact Nat.le_trans (level_le_boost (by decide)) (hd.operand_bound h hp (by decide) hc).1
    · exact hk

theorem readsOn_eq_false (hd : t.Denotes (t.child i .expression) e)
    (hk : t.kind i = .expression .cast) (hn : (t.kind (t.child i .type)).isTypeName = true) :
    readsOn t (t.child i .expression) = false := by
  by_cases hc : t.kind (t.child i .expression) = .expression .cast
  · rw [readsOn, hc]
  · have hl : level? readable (t.kind i) .expression (t.kind (t.child i .expression)) =
        some (if readable then .conditionalEnd else .unary) := by
      rw [hk, level?, prefixedLevel?]
      exact hc
    have hm := (hd.operand_bound h hp (by decide) hl).2
    rwa [isMisread, hk, readsAsExpression_eq, hn, Bool.true_and] at hm

theorem startsCast (hd : t.Denotes (t.child i .expression) e) (hk : t.kind i = .expression .cast)
    (hr : Reads e.precedence (e.lexemes ++ s) e s)
    (hl : Precedence.unary.level ≤ e.precedence.level) :
    startsCast (.type (t.typeLexeme (t.child i .type)) :: .mark ")" :: (e.lexemes ++ s)) =
      true := by
  have hb (hn : (t.kind (t.child i .type)).isTypeName = true) :
      beginsOperand (e.lexemes ++ s) = true := by
    -- Of the terms that do not begin as an atom, only casts and `!` are left here.
    by_cases he : e.precedence = .unary
    · rcases hd.prefixed he with ⟨op, a, rfl, ho⟩ | ⟨type, a, rfl⟩
      · have hro := hd.readsOn_eq_false h hp hk hn
        rw [readsOn, ho] at hro
        have hop : op = .not := by simpa using hro
        rw [hop]
        rfl
      · rfl
    · exact beginsOperand_of_opensAtom (hr.opensAtom (Precedence.level_lt hl (Ne.symm he)))
  cases hn : (t.kind (t.child i .type)).isTypeName with
  | false => simp [Grammar.startsCast, typeLexeme, hn]
  | true => simp [Grammar.startsCast, hb hn]

end Denotes

theorem Denotes.below_root (h : t.WellFormed) (hd : t.Denotes (t.child i r) e)
    (hb : t.Below root i) : t.Below root (t.child i r) := h.below_child hb hd.kind_ne_null

mutual

/-- An expression of a settled tree is read as the term that it denotes, whatever stands behind
it. -/
theorem Denotes.reads {i : NodeId} {e : Term} (h : t.WellFormed) (hs : AllSettled readable root t) :
    t.Denotes i e → t.Below root i → ∀ s, Reads e.precedence (e.lexemes ++ s) e s
  | .name _ _ _, _, _ => .start .name
  | .literal _ _, _, _ => .start .literal
  | .group hk hd, hb, s => by
      have hr := hd.reads h hs (hd.below_root h hb) (.mark ")" :: s)
      have hc := startsCast_eq_false (hd.head_ne (.mark ")" :: s))
      rw [Term.lexemes, List.append_assoc]
      exact .start (.group hc hr.loosest)
  | .member hk hd _ _, hb, s => by
      have hl :=
        (hd.operand_bound h (hs _ hb).pending (l := .primary) (by decide) (by rw [hk]; rfl)).1
      rw [Term.lexemes, List.append_assoc]
      exact .extend ((hd.reads h hs (hd.below_root h hb) _).loosen hl) .member
  | .call hk hd ha, hb, s => by
      have hl :=
        (hd.operand_bound h (hs _ hb).pending (l := .primary) (by decide) (by rw [hk]; rfl)).1
      have hr := ha.reads h hs (fun c hc => hb.child (h.parent_childrenIn hc)) ")" true s
      rw [Term.lexemes, List.append_assoc, List.append_assoc]
      exact .extend ((hd.reads h hs (hd.below_root h hb) _).loosen hl) (.call hr)
  | .index hk hd ha, hb, s => by
      have hl :=
        (hd.operand_bound h (hs _ hb).pending (l := .primary) (by decide) (by rw [hk]; rfl)).1
      have hr := ha.reads h hs (fun c hc => hb.child (h.parent_childrenIn hc)) "]" true s
      rw [Term.lexemes, List.append_assoc, List.append_assoc]
      exact .extend ((hd.reads h hs (hd.below_root h hb) _).loosen hl) (.index hr)
  | .unary hk ho hd, hb, s => by
      have hl := hd.level_unary_le h (hs _ hb).pending fun c => by
        rw [hk]
        exact congrArg (prefixedLevel? readable · c) (UnaryOperator.ofExpression_isPrefix ho)
      exact .start (.unary ho ((hd.reads h hs (hd.below_root h hb) s).loosen hl))
  | .cast hk _ hd, hb, s => by
      have hl := hd.level_unary_le h (hs _ hb).pending fun c => by
        rw [hk]
        rfl
      have hr := hd.reads h hs (hd.below_root h hb) s
      exact .start (.cast (hd.startsCast h (hs _ hb).pending hk hr hl) (hr.loosen hl))
  | @Denotes.binary _ _ op _ _ hk ha hb, hi, s => by
      have hra := ha.reads h hs (ha.below_root h hi)
      have hrb := hb.reads h hs (hb.below_root h hi) s
      have hla := (ha.operand_bound h (hs _ hi).pending (by decide) (by rw [hk]; rfl)).1
      have hlb := (hb.operand_bound h (hs _ hi).pending (by decide) (by rw [hk]; rfl)).1
      rw [Term.lexemes, List.append_assoc]
      -- `??` groups to the right and starts a term of its level; the others extend one.
      by_cases ho : op = .coalesce
      · rw [ho] at hla hlb ⊢
        exact .start (.coalesce ((hra _).loosen (Nat.le_trans level_le_leftLevel_coalesce hla))
          (hrb.loosen (Nat.le_trans level_le_rightLevel_coalesce hlb)))
      · exact .extend ((hra _).loosen (Nat.le_trans (level_le_leftLevel ho) hla))
          (.binary ho (hrb.loosen (Nat.le_trans (level_le_rightLevel ho) hlb)))
  | .test hk hd _, hb, s => by
      have hl :=
        (hd.operand_bound h (hs _ hb).pending (by decide) (by rw [hk]; exact level?_test _)).1
      rw [Term.lexemes, List.append_assoc]
      exact .extend ((hd.reads h hs (hd.below_root h hb) _).loosen
        (Nat.le_trans (level_le_boost (k := .relational) (by decide)) hl)) .test
  | .conditional hk hd ha hb, hi, s => by
      have hl := (hd.operand_bound h (hs _ hi).pending (by decide) (by rw [hk]; rfl)).1
      have hr := hd.reads h hs (hd.below_root h hi)
      rw [Term.lexemes, List.append_assoc, List.append_assoc]
      exact .start (.conditional ((hr _).loosen (Nat.le_trans (level_le_boost (by decide)) hl))
        (ha.reads h hs (ha.below_root h hi) _).loosest
        (hb.reads h hs (hb.below_root h hi) _).loosest)
  | .assign hk hp ha hb, hi, s => by
      have hl := Term.precedence_of_isPlace hp
      rw [Term.lexemes, List.append_assoc]
      exact .start (.assign ((ha.reads h hs (ha.below_root h hi) _).loosen (by rw [hl]; decide))
        (hb.reads h hs (hb.below_root h hi) _).loosest)

theorem DenotesAll.reads {nodes : List NodeId} {es : List Term} (h : t.WellFormed)
    (hs : AllSettled readable root t) :
    t.DenotesAll nodes es → (∀ c ∈ nodes, t.Below root c) → ∀ close first s,
      Arguments close first (Term.listed first es ++ .mark close :: s) es s
  | .nil, _, _, _, _ => .close
  | .cons hd hds, hb, close, first, s => by
      have hrs := hds.reads h hs (fun c hc => hb c (List.mem_cons_of_mem _ hc)) close false s
      rw [Term.listed, List.append_assoc, List.append_assoc]
      exact .more (hd.reads h hs (hb _ List.mem_cons_self) _).loosest hrs

end

end Tree

end TreeScribe
