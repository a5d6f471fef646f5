import TreeScribe.Proofs.Flow.Draws
import TreeScribe.Proofs.Flow.Execution

namespace TreeScribe.Flow

open TreeScribe.Tree Execution

namespace Setting

/-- The answers of the resolver are the values of the expressions. -/
def Correct (s : Setting) (t : Tree) (E : Valuation) : Prop :=
  ∀ i v, s.resolver t i = some v → ∀ x, E i x ↔ x = some v

/-- For each switch whose value is known, so are its labels and the values of the jumps to its
cases. -/
structure Decides (s : Setting) (t : Tree) (root : NodeId) : Prop where
  label {i x l : NodeId} (hi : t.Inside root i) (hk : t.kind i = .statement .switch)
    (hv : s.constant t (t.child i .expression) ≠ none) (hx : x ∈ t.childrenIn i .switchSection)
    (hl : l ∈ t.childrenIn x .caseLabel) (hn : t.child l .expression ≠ .null) :
    s.constant t (t.child l .expression) ≠ none
  caseJump {i j : NodeId} (hi : t.Inside root i) (hk : t.kind i = .statement .switch)
    (hv : s.constant t (t.child i .expression) ≠ none) (hj : t.SwitchOf i j)
    (hkj : t.kind j = .statement .gotoCase) : s.constant t (t.child j .expression) ≠ none

variable {s : Setting} {t : Tree} {i : NodeId} {v : Constant}

theorem resolver_of_constant (h : s.constant t i = some v) : s.resolver t i = some v := by
  unfold constant at h
  split at h
  · cases h
  · split at h
    · exact h
    · exact h
    · exact h
    · cases h

end Setting

namespace Plan

def turns (c : Plan) (i : NodeId) : StatementKind → Option Bool
  | .foreachLoop => none
  | .forLoop => c.loopCondition i
  | _ => c.condition (c.child i .condition)

def entersSection (c : Plan) (i s : NodeId) : Bool :=
  (c.constant (c.child i .expression)).isNone || c.chosen i = some s

variable {c : Plan} {E : Valuation} {i j s : NodeId} {k : StatementKind} {v : Constant} {b : Bool}
  (hE : c.setting.Correct c.tree E)

include hE

theorem value_of_constant (h : c.constant i = some v) {x : Option Constant} (hx : E i x) :
    x = some v :=
  (hE i v (Setting.resolver_of_constant h) x).mp hx

theorem condition_ne (h : E i (some (.bool b))) : c.condition i ≠ some !b := by
  intro hc
  obtain ⟨v, hv, hb⟩ := Option.bind_eq_some_iff.mp hc
  cases value_of_constant hE hv h
  cases b <;> cases hb

theorem turns_ne (h : Turns c.tree E i b k) : c.turns i k ≠ some !b := by
  cases k with
  | foreachLoop => exact nofun
  | forLoop =>
      unfold Turns at h
      unfold turns loopCondition
      by_cases h0 : c.tree.child i .condition = .null
      · rw [if_pos h0] at h
        rw [if_pos (show c.child i .condition = .null from h0), h]
        exact nofun
      · rw [if_neg h0] at h
        rw [if_neg (show ¬ c.child i .condition = .null from h0)]
        exact condition_ne hE h
  | _ => exact condition_ne hE h

omit hE

theorem hasDefault_iff : (c.caseValues s).any isDefault = true ↔ HasDefault c.tree s := by
  simp [caseValues, isDefault, HasDefault, child]

theorem lastSection_of_only {p : NodeId → Bool} {P : NodeId → Prop} (h : Only c.tree i P s)
    (hP : ∀ x ∈ c.tree.childrenIn i .switchSection, (c.caseValues x).any p = true ↔ P x) :
    c.lastSection (c.tree.childrenIn i .switchSection) p = some s := by
  unfold lastSection
  have hs : s ∈ (c.tree.childrenIn i .switchSection).filter fun s => (c.caseValues s).any p :=
    List.mem_filter.mpr ⟨h.mem, (hP s h.mem).mpr h.holds⟩
  cases hl :
    ((c.tree.childrenIn i .switchSection).filter fun s => (c.caseValues s).any p).getLast? with
  | none =>
      rw [List.getLast?_eq_none_iff.mp hl] at hs
      cases hs
  | some x =>
      obtain ⟨hx, hp⟩ := List.mem_filter.mp (List.mem_of_getLast? hl)
      rw [h.eq hx ((hP x hx).mp hp)]

theorem lastSection_eq_none {p : NodeId → Bool}
    (h : ∀ x ∈ c.tree.childrenIn i .switchSection, (c.caseValues x).any p ≠ true) :
    c.lastSection (c.tree.childrenIn i .switchSection) p = none := by
  rw [lastSection, List.getLast?_eq_none_iff, List.filter_eq_nil_iff]
  exact h

include hE

theorem matches_iff (hd : ∀ l ∈ c.tree.childrenIn s .caseLabel, c.tree.child l .expression ≠ .null →
      c.constant (c.tree.child l .expression) ≠ none) :
    (c.caseValues s).any (c.isCaseOf v) = true ↔ Matches c.tree E v s := by
  simp only [caseValues, isCaseOf, isDefault, Matches, child, List.any_map, List.any_eq_true,
    Function.comp, Bool.and_eq_true, Bool.not_eq_true', decide_eq_false_iff_not, Option.any_eq_true]
  constructor
  · rintro ⟨l, hl, hn, w, hw, ha⟩
    exact ⟨l, hl, hn, w, (hE _ _ (Setting.resolver_of_constant hw) _).mpr rfl, ha⟩
  · rintro ⟨l, hl, hn, w, hw, ha⟩
    obtain ⟨u, hu⟩ := Option.ne_none_iff_exists'.mp (hd l hl hn)
    cases value_of_constant hE hu hw
    exact ⟨l, hl, hn, w, hu, ha⟩

variable (hD : c.setting.Decides c.tree c.root) (hi : c.tree.Inside c.root i)
  (hk : c.tree.kind i = .statement .switch)

include hD hi hk

theorem matches_iff_of_decides (hv : c.constant (c.child i .expression) ≠ none) :
    ∀ x ∈ c.tree.childrenIn i .switchSection, (c.caseValues x).any (c.isCaseOf v) = true ↔
      Matches c.tree E v x :=
  fun _ hx => matches_iff hE fun _ hl hn => hD.label hi hk hv hx hl hn

theorem chosen_of_selects {x : Option Constant} {o : Option NodeId}
    (hx : E (c.child i .expression) x) (h : Selects c.tree E i x o)
    (hv : c.constant (c.child i .expression) = some v) : c.chosen i = o := by
  have hm (x : NodeId) (hx : x ∈ c.tree.childrenIn i .switchSection) :
      (c.caseValues x).any (c.isCaseOf v) = true ↔ Matches c.tree E v x :=
    matches_iff_of_decides hE hD hi hk (by rw [hv]; exact nofun) x hx
  have hdefault (x : NodeId) (_ : x ∈ c.tree.childrenIn i .switchSection) :
      (c.caseValues x).any isDefault = true ↔ HasDefault c.tree x := hasDefault_iff
  cases value_of_constant hE hv hx
  rw [chosen, hv, Option.bind_some, chosenSection]
  cases h with
  | case_ h => rw [lastSection_of_only h hm, Option.some_or]
  | default_ hu h =>
      rw [lastSection_eq_none fun x hx hp => hu v rfl x hx ((hm x hx).mp hp), Option.none_or,
        lastSection_of_only h hdefault]
  | none_ hu h =>
      rw [lastSection_eq_none fun x hx hp => hu v rfl x hx ((hm x hx).mp hp), Option.none_or,
        lastSection_eq_none fun x hx hp => h x hx (hasDefault_iff.mp hp)]

/-- A switch may enter the section that an execution enters. -/
theorem entersSection_of_selects {x : Option Constant} (hx : E (c.child i .expression) x)
    (h : Selects c.tree E i x (some s)) : c.entersSection i s = true := by
  cases hv : c.constant (c.child i .expression) with
  | none => simp [entersSection, hv]
  | some v => simp [entersSection, chosen_of_selects hE hD hi hk hx h hv]

theorem isPassed_of_selects {x : Option Constant} (hx : E (c.child i .expression) x)
    (h : Selects c.tree E i x none) : c.isPassed i = true := by
  have hchosen : c.chosen i = none := by
    cases hv : c.constant (c.child i .expression) with
    | none => rw [chosen, hv, Option.bind_none]
    | some v => exact chosen_of_selects hE hD hi hk hx h hv
  cases h with
  | none_ hu h =>
      rw [isPassed, hchosen, lastSection_eq_none fun x hx hp => h x hx (hasDefault_iff.mp hp)]
      rfl

theorem jumpSection_of_jumpsTo (hj : c.tree.SwitchOf i j) (h : JumpsTo c.tree E i j s)
    (hv : c.constant (c.child i .expression) ≠ none) :
    c.jumpSection (c.tree.childrenIn i .switchSection) j = some s := by
  cases h with
  | case_ hkj hw h =>
      obtain ⟨v, hc⟩ := Option.ne_none_iff_exists'.mp (hD.caseJump hi hk hv hj hkj)
      cases value_of_constant hE hc hw
      rw [jumpSection, if_pos hkj]
      exact (congrArg (Option.bind · _) hc).trans
        (lastSection_of_only h (matches_iff_of_decides hE hD hi hk hv))
  | default_ hkj h =>
      rw [jumpSection, if_neg (by rw [hkj]; exact nofun)]
      exact lastSection_of_only h fun _ _ => hasDefault_iff

end Plan

end TreeScribe.Flow
