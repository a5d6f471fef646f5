import TreeScribe.Proofs.Expression.Readable

namespace TreeScribe

open Grammar

variable {t u : Tree} {g g₁ : Grouped} {root i c q v : NodeId} {r : Role} {e : Term}

namespace Tree

def Regroups (t : Tree) (i : NodeId) (e : Term) : Prop :=
  ∃ e', t.Denotes i e' ∧ e'.ungrouped = e.ungrouped ∧ (e.isPlace = true → e'.isPlace = true)

theorem IsType.isExpression_kind (ht : t.IsType i) : (t.kind i).isExpression = false := by
  cases ht with
  | simple hk | member hk | primitive hk | composed hk =>
      rw [hk]
      rfl

namespace Wrapped

section

variable (h : t.WellFormed) (hv : t.parent v = some q) (hw : Wrapped t v u)

include hw

theorem kind_eq {k : Kind} (hk : t.kind i = k) (hn : k ≠ .null) : i < t.size ∧ u.kind i = k := by
  have hi := lt_of_kind (hk ▸ hn)
  exact ⟨hi, (hw.kind_old hi).trans hk⟩

theorem child_new : u.child t.size .expression = v := by
  have hr : u.role v = .expression := by rw [hw.role, if_pos rfl]
  rw [child, childrenIn, hw.children, if_pos rfl, List.filter_cons_of_pos (by simp [hr])]
  rfl

theorem regroups_standIn (hr : u.Regroups c e) : u.Regroups (t.standIn v c) e := by
  by_cases hc : c = v
  · subst c
    obtain ⟨e', hd, he, -⟩ := hr
    rw [standIn_self]
    refine ⟨.group e', .group hw.kind_new ?_, ?_, fun _ => rfl⟩
    · rwa [hw.child_new]
    · rw [Term.ungrouped, he]
  · rwa [standIn_of_ne hc]

include h hv

theorem regroups_child (hi : i < t.size) (hr : u.Regroups (t.child i r) e) :
    u.Regroups (u.child i r) e := by
  rw [hw.child_old h hv hi]
  exact hw.regroups_standIn hr

end

variable (h : t.WellFormed) (hv : t.parent v = some q) (hk : (t.kind v).isExpression = true)
  (hw : Wrapped t v u)

include h hv hk hw

theorem child_apart (hi : i < t.size) (hc : (t.kind (t.child i r)).isExpression = false) :
    u.child i r = t.child i r := by
  rw [hw.child_old h hv hi, standIn_of_ne]
  rintro hcv
  rw [hcv, hk] at hc
  cases hc

theorem kind_child_apart (hi : i < t.size) (hc : (t.kind (t.child i r)).isExpression = false) :
    u.kind (u.child i r) = t.kind (t.child i r) := by
  rw [hw.child_apart h hv hk hi hc, hw.kind_old h.child_lt]

omit hv in
theorem childrenIn_apart (hi : i < t.size)
    (hc : ∀ c ∈ t.childrenIn i r, (t.kind c).isExpression = false) :
    u.childrenIn i r = t.childrenIn i r := by
  rw [hw.childrenIn_old h hi]
  refine map_standIn_of_notMem fun hm => ?_
  rw [hc v hm] at hk
  cases hk

theorem isType (ht : t.IsType i) : u.IsType i := by
  induction ht with
  | simple hki hn ha ih =>
      obtain ⟨hi, hku⟩ := hw.kind_eq hki nofun
      refine .simple hku ((hw.kind_child_apart h hv hk hi (by rw [hn]; rfl)).trans hn) ?_
      rwa [hw.childrenIn_apart h hk hi fun a hm => (ha a hm).isExpression_kind]
  | member hki ht hn ha iht ih =>
      obtain ⟨hi, hku⟩ := hw.kind_eq hki nofun
      refine .member hku ?_
        ((hw.kind_child_apart h hv hk hi (by rw [hn]; rfl)).trans hn) ?_
      · rwa [hw.child_apart h hv hk hi (ht.isExpression_kind)]
      · rwa [hw.childrenIn_apart h hk hi fun a hm => (ha a hm).isExpression_kind]
  | primitive hki =>
      exact .primitive (hw.kind_eq hki nofun).2
  | composed hki ht hs iht =>
      obtain ⟨hi, hku⟩ := hw.kind_eq hki nofun
      refine .composed hku ?_ fun s hm => ?_
      · rwa [hw.child_apart h hv hk hi (ht.isExpression_kind)]
      · rw [hw.childrenIn_apart h hk hi] at hm
        · obtain ⟨dimensions, hd⟩ := hs s hm
          exact ⟨dimensions, (hw.kind_eq hd nofun).2⟩
        · intro s hm
          obtain ⟨dimensions, hd⟩ := hs s hm
          rw [hd]
          rfl

theorem type_child (hi : i < t.size) (ht : t.IsType (t.child i .type)) :
    u.IsType (u.child i .type) ∧
      u.typeLexeme (u.child i .type) = t.typeLexeme (t.child i .type) := by
  have hc := hw.child_apart h hv hk hi ht.isExpression_kind
  rw [hc, typeLexeme, typeLexeme, hw.kind_old h.child_lt]
  exact ⟨hw.isType h hv hk ht, rfl⟩

end Wrapped

mutual

theorem Denotes.wrapped {i : NodeId} {e : Term} (h : t.WellFormed) (hv : t.parent v = some q)
    (hk : (t.kind v).isExpression = true) (hw : Wrapped t v u) : t.Denotes i e → u.Regroups i e
  | .name hki hn ha => by
      obtain ⟨hi, hku⟩ := hw.kind_eq hki nofun
      refine ⟨_, .name hku
        ((hw.kind_child_apart h hv hk hi (by rw [hn]; rfl)).trans hn) ?_, rfl, id⟩
      rw [hw.childrenIn_old h hi, ha]
      rfl
  | .literal hki hn => ⟨_, .literal (hw.kind_eq hki nofun).2 hn, rfl, id⟩
  | .group hki hd => by
      obtain ⟨hi, hku⟩ := hw.kind_eq hki nofun
      obtain ⟨a, ha, he, -⟩ := hw.regroups_child h hv hi (hd.wrapped h hv hk hw)
      exact ⟨_, .group hku ha, he, id⟩
  | .member hki hd hn ha => by
      obtain ⟨hi, hku⟩ := hw.kind_eq hki nofun
      obtain ⟨a, hda, he, -⟩ := hw.regroups_child h hv hi (hd.wrapped h hv hk hw)
      refine ⟨_, .member hku hda
        ((hw.kind_child_apart h hv hk hi (by rw [hn]; rfl)).trans hn) ?_, ?_, fun _ => rfl⟩
      · rw [hw.childrenIn_old h hi, ha]
        rfl
      · simp only [Term.ungrouped, he]
  | .call hki hd ha => by
      obtain ⟨hi, hku⟩ := hw.kind_eq hki nofun
      obtain ⟨a, hda, he, -⟩ := hw.regroups_child h hv hi (hd.wrapped h hv hk hw)
      obtain ⟨es, hes, hl⟩ := ha.wrapped h hv hk hw
      rw [← hw.childrenIn_old h hi] at hes
      refine ⟨_, .call hku hda hes, ?_, nofun⟩
      simp only [Term.ungrouped, he, hl]
  | .index hki hd ha => by
      obtain ⟨hi, hku⟩ := hw.kind_eq hki nofun
      obtain ⟨a, hda, he, -⟩ := hw.regroups_child h hv hi (hd.wrapped h hv hk hw)
      obtain ⟨es, hes, hl⟩ := ha.wrapped h hv hk hw
      rw [← hw.childrenIn_old h hi] at hes
      refine ⟨_, .index hku hda hes, ?_, fun _ => rfl⟩
      simp only [Term.ungrouped, he, hl]
  | .unary hki ho hd => by
      obtain ⟨hi, hku⟩ := hw.kind_eq hki nofun
      obtain ⟨a, hda, he, -⟩ := hw.regroups_child h hv hi (hd.wrapped h hv hk hw)
      refine ⟨_, .unary hku ho hda, ?_, nofun⟩
      simp only [Term.ungrouped, he]
  | .cast hki ht hd => by
      obtain ⟨hi, hku⟩ := hw.kind_eq hki nofun
      obtain ⟨a, hda, he, -⟩ := hw.regroups_child h hv hi (hd.wrapped h hv hk hw)
      obtain ⟨htu, hl⟩ := hw.type_child h hv hk hi ht
      refine ⟨_, .cast hku htu hda, ?_, nofun⟩
      simp only [Term.ungrouped, he, hl]
  | .binary hki ha hb => by
      obtain ⟨hi, hku⟩ := hw.kind_eq hki nofun
      obtain ⟨a, hda, hea, -⟩ := hw.regroups_child h hv hi (ha.wrapped h hv hk hw)
      obtain ⟨b, hdb, heb, -⟩ := hw.regroups_child h hv hi (hb.wrapped h hv hk hw)
      refine ⟨_, .binary hku hda hdb, ?_, nofun⟩
      simp only [Term.ungrouped, hea, heb]
  | .test hki hd ht => by
      obtain ⟨hi, hku⟩ := hw.kind_eq hki nofun
      obtain ⟨a, hda, he, -⟩ := hw.regroups_child h hv hi (hd.wrapped h hv hk hw)
      obtain ⟨htu, hl⟩ := hw.type_child h hv hk hi ht
      refine ⟨_, .test hku hda htu, ?_, nofun⟩
      simp only [Term.ungrouped, he, hl]
  | .conditional hki hc ha hb => by
      obtain ⟨hi, hku⟩ := hw.kind_eq hki nofun
      obtain ⟨c, hdc, hec, -⟩ := hw.regroups_child h hv hi (hc.wrapped h hv hk hw)
      obtain ⟨a, hda, hea, -⟩ := hw.regroups_child h hv hi (ha.wrapped h hv hk hw)
      obtain ⟨b, hdb, heb, -⟩ := hw.regroups_child h hv hi (hb.wrapped h hv hk hw)
      refine ⟨_, .conditional hku hdc hda hdb, ?_, nofun⟩
      simp only [Term.ungrouped, hec, hea, heb]
  | .assign hki hp ha hb => by
      obtain ⟨hi, hku⟩ := hw.kind_eq hki nofun
      obtain ⟨a, hda, hea, hpa⟩ := hw.regroups_child h hv hi (ha.wrapped h hv hk hw)
      obtain ⟨b, hdb, heb, -⟩ := hw.regroups_child h hv hi (hb.wrapped h hv hk hw)
      refine ⟨_, .assign hku (hpa hp) hda hdb, ?_, nofun⟩
      simp only [Term.ungrouped, hea, heb]

theorem DenotesAll.wrapped {nodes : List NodeId} {es : List Term} (h : t.WellFormed)
    (hv : t.parent v = some q) (hk : (t.kind v).isExpression = true) (hw : Wrapped t v u) :
    t.DenotesAll nodes es →
      ∃ es', u.DenotesAll (nodes.map (t.standIn v)) es' ∧
      Term.ungroupedAll es' = Term.ungroupedAll es
  | .nil => ⟨[], .nil, rfl⟩
  | .cons hd hs => by
      obtain ⟨a, hda, he, -⟩ := hw.regroups_standIn (hd.wrapped h hv hk hw)
      obtain ⟨as, has, hes⟩ := hs.wrapped h hv hk hw
      refine ⟨a :: as, .cons hda has, ?_⟩
      rw [Term.ungroupedAll, Term.ungroupedAll, he, hes]

end

end Tree

/-- However many nodes below get parentheses, an expression denotes its term but for parentheses. -/
theorem Wraps.regroups (h : Wraps (Inner root) g g₁) (hg : g.tree.WellFormed)
    (hd : g.tree.Denotes root e) :
    ∃ e', g₁.tree.Denotes root e' ∧ e'.ungrouped = e.ungrouped := by
  induction h with
  | refl => exact ⟨e, hd, rfl⟩
  | wrap hw hv ih =>
      obtain ⟨q, hp, -, hk⟩ := hv
      obtain ⟨e₁, hd₁, he₁⟩ := ih
      have hwf := ((Grown.refl root hg).wraps hw).1.wellFormed
      obtain ⟨e₂, hd₂, he₂, -⟩ := hd₁.wrapped hwf hp hk (hwf.wrapped hp)
      exact ⟨e₂, hd₂, he₂.trans he₁⟩

namespace Tree.Denotes

variable {readable : Bool} {e' : Term}

/-- An expression of a settled tree is written as a text with one reading, the term that it
denotes. -/
theorem reads_back (h : t.WellFormed) (hs : AllSettled readable root t) (hd : t.Denotes root e)
    (p : Policy) :
    ∃ s, t.render p .never root (.new CallLog.empty) = (s, none) ∧
      ∀ a, Reads .assignment (t.lexemes 0 s.sink.calls) a [] ↔ a = e := by
  obtain ⟨s, hr, hl⟩ := hd.render h p
  have hread := (hd.reads h hs .self []).loosest
  rw [List.append_nil] at hread
  refine ⟨s, hr, fun a => ?_⟩
  rw [hl]
  constructor
  · intro ha
    exact ha.unique hread
  · rintro rfl
    exact hread

theorem eq (h : t.WellFormed) (hs : AllSettled readable root t) (hd : t.Denotes root e)
    (hd' : t.Denotes root e') : e = e' := by
  obtain ⟨s, hr, ha⟩ := hd.reads_back h hs .compact
  obtain ⟨s', hr', ha'⟩ := hd'.reads_back h hs .compact
  cases hr.symm.trans hr'
  exact ((ha e').mp ((ha' e').mpr rfl)).symm

end Tree.Denotes

/-- With the parentheses it needs, an expression denotes one term, its own but for parentheses. It
can be written under every policy, and that term is the one reading of what is written. -/
theorem insert_reads_back (h : t.WellFormed) (hd : t.Denotes root e) (readable : Bool)
    (p : Policy) : let u := (Parentheses.insert t root readable).tree
    ∃ e', e'.ungrouped = e.ungrouped ∧ (∀ a, u.Denotes root a ↔ a = e') ∧
      ∃ s, u.render p .never root (.new CallLog.empty) = (s, none) ∧
        ∀ a, Reads .assignment (u.lexemes 0 s.sink.calls) a [] ↔ a = e' := by
  intro u
  have hu : u.WellFormed := (insert_grown root readable h).1.wellFormed
  have hs : AllSettled readable root u := insert_allSettled root readable h
  have hw : Wraps (Inner root) ⟨t, 0⟩ (Parentheses.insert t root readable) :=
    (Parentheses.walk_wraps readable _ h .self).mono fun _ _ => Bare.inner
  obtain ⟨e', hd', he⟩ := hw.regroups h hd
  refine ⟨e', he, fun a => ⟨fun ha => ha.eq hu hs hd', ?_⟩, hd'.reads_back hu hs p⟩
  rintro rfl
  exact hd'

/-- The expression `(T)-x`. -/
def castOfMinus : Tree :=
  .planted [.expression .cast, .type .simple, .identifier "T" false, .expression (.unary .minus),
      .expression .identifier, .identifier "x" false]
    [(1, .type, 2), (2, .identifier, 3), (1, .expression, 4), (4, .expression, 5),
      (5, .identifier, 6)]

/-- A minus behind a type that could be an expression is put into parentheses, so that it is no
subtraction. -/
theorem insert_reads_back_cast :
    castOfMinus.WellFormed ∧ castOfMinus.Denotes 1
      (.cast ⟨2, true⟩ (.unary .minus (.name "x" false))) ∧
      ∃ s,
        (Parentheses.insert castOfMinus 1 false).tree.render .compact .never 1
        (.new CallLog.empty) = (s, none) ∧
        ∀ a,
        Reads .assignment ((Parentheses.insert castOfMinus 1 false).tree.lexemes 0 s.sink.calls)
        a [] ↔
          a = .cast ⟨2, true⟩ (.group (.unary .minus (.name "x" false))) := by
  have hw : castOfMinus.WellFormed := Tree.wellFormed_planted _ _
  have hd : castOfMinus.Denotes 1 (.cast ⟨2, true⟩ (.unary .minus (.name "x" false))) :=
    .cast rfl (.simple rfl rfl nofun) (.unary rfl rfl (.name rfl rfl rfl))
  obtain ⟨e', -, he, hs⟩ := insert_reads_back hw hd false .compact
  have ht : (Parentheses.insert castOfMinus 1 false).tree.IsType 2 := .simple rfl rfl nofun
  have hx : (Parentheses.insert castOfMinus 1 false).tree.Denotes 5 (.name "x" false) :=
    .name rfl rfl rfl
  have hm : (Parentheses.insert castOfMinus 1 false).tree.Denotes 4
    (.unary .minus (.name "x" false)) :=
    .unary rfl rfl hx
  have hg : (Parentheses.insert castOfMinus 1 false).tree.Denotes 7
    (.group (.unary .minus (.name "x" false))) :=
    .group rfl hm
  have hu : (Parentheses.insert castOfMinus 1 false).tree.Denotes 1
      (.cast ⟨2, true⟩ (.group (.unary .minus (.name "x" false)))) := .cast rfl ht hg
  rw [(he _).mp hu]
  exact ⟨hw, hd, hs⟩

end TreeScribe
