import TreeScribe.Proofs.Flow.Searched
import TreeScribe.Proofs.Flow.Succeeds
import TreeScribe.Proofs.Flow.Tracked
import TreeScribe.Proofs.Tree.Edits

namespace TreeScribe.Flow

open TreeScribe.Tree Execution

variable {t : Tree} {root : NodeId} {s : Setting} {E : Valuation}

/-- The graph of a statement tree can be built and searched. A statement that some execution starts
is then reported reachable, and one that some execution completes has a reachable end. -/
theorem reachable_of_execution (hprog : t.Program root) (hcancel : s.cancelled = false)
    (hE : s.Correct t E) (hD : s.Decides t root) :
    ∃ g r, Graph.ofStatement t root s = .ok g ∧ Reachable.ofGraph t g none false = .ok r ∧
      (∀ i, Starts t E root i → r.isReachable i = true) ∧ ∀ i, Completes t E root i →
      r.isEndReachable i = true := by
  obtain ⟨g, hg⟩ := ofStatement_eq_ok hprog hcancel
  obtain ⟨L, p, q, hentry, hlt, hroot, hL, htarget⟩ := ofStatement_drawn hprog hg
  obtain ⟨r, R, hr, hp, hR, hnoted⟩ := Reachable.ofGraph_eq_ok (t := t) hentry hlt htarget
  have hbegin : Tracked (.bare t root s) g L R ⟨.start root, []⟩ := .start hroot (.inl hp) .bottom
  have hruns {x : Config} (hx : Runs t E root x) : Tracked (.bare t root s) g L R x :=
    hbegin.runs hprog hE hD hL hR hx
  have hends {i : NodeId} {q : PointId} (hq : R q) (hl : Ends (.bare t root s) g i q) :
      r.isEndReachable i = true ∧
        (t.kind i = .statement .label → r.isReachable i = true) := by
    have hnote := (hnoted q hq).2
    rw [show (g.point q).previous = i from hl.leaves.1] at hnote
    exact hnote (hprog.ne_null hl.inside)
  refine ⟨g, r, hg, hr, fun i ⟨stack, hx⟩ => ?_, fun i ⟨stack, hx⟩ => ?_⟩
  · cases hruns hx with
    | @start Γ _ p q _ h hp hf =>
        rcases hp with hp | ⟨hk, hq⟩
        · have hnote := (hnoted p hp).1
          rw [h.stands.next] at hnote
          exact hnote (hprog.ne_null h.stands.inside)
        · exact (hends hq h.stands.toEnds).2 hk
  · cases hruns hx with
    | done hl hq hf => exact (hends hq hl).1

/-- A switch whose only case jumps to a label behind it. -/
def jumpTree : Tree :=
  planted
    [.statement .block, .statement .switch, .expression (.literal (.string "a")),
      .part .switchSection,
      .part .caseLabel, .expression (.literal (.string "a")), .statement .goto,
      .identifier "done" false,
      .statement .label, .identifier "done" false]
    [(1, .statement, 2), (1, .statement, 9), (2, .expression, 3), (2, .switchSection, 4),
      (4, .caseLabel, 5),
      (5, .expression, 6), (4, .statement, 7), (7, .identifier, 8), (9, .identifier, 10)]

def jumpValues : Valuation := fun i x => ∀ v, Resolver.literals jumpTree i = some v → x = some v

theorem program_jumpTree : jumpTree.Program 1 := by
  have hw : jumpTree.WellFormed := wellFormed_planted _ _
  have hlt {i : NodeId} {k : StatementKind} (hk : jumpTree.kind i = .statement k) : i < 11 :=
    lt_size_of_isStatement (t := jumpTree) (by rw [hk]; rfl)
  have hstatement : ∀ j < 11, holdsStatement (jumpTree.role j) = true →
      (jumpTree.kind j).isStatement = true := by
    decide
  have hbody : ∀ j < 11, ∀ k ∈ [StatementKind.branch, .whileLoop, .doLoop, .forLoop, .foreachLoop],
      jumpTree.kind j ≠ .statement k := by decide
  have hlabel : ∀ i < 11, ∀ j < 11, jumpTree.kind i = .statement .label →
    jumpTree.kind j = .statement .label →
      i = j := by decide
  refine ⟨hw,
    by decide, fun _ _ hj hr => ?_, fun _ hk => ?_, @fun i k _ hk hl => ?_, fun _ _ hki hkj _ => ?_⟩
  · exact hstatement _ (hw.depth_of_part hj).2 hr
  · exact absurd hk (hbody _ (hlt hk) _ (by decide))
  · refine absurd hk (hbody _ (hlt hk) _ ?_)
    cases k <;> first | decide | cases hl
  · exact hlabel _ (hlt hki) _ (hlt hkj) hki hkj

theorem decides_jumpTree : Setting.Decides ⟨.literals, false, false⟩ jumpTree 1 := by
  have hw : jumpTree.WellFormed := wellFormed_planted _ _
  have hknown : ∀ l < 11, jumpTree.role l = .caseLabel →
      Setting.constant ⟨.literals, false, false⟩ jumpTree (jumpTree.child l .expression) ≠
      none := by decide
  have hgoto : ∀ j < 11, jumpTree.kind j ≠ .statement .gotoCase := by decide
  constructor
  · intro i x l _ _ _ _ hl _
    exact hknown l (Tree.lt_of_parent (hw.parent_of_mem_childrenIn hl)) (mem_childrenIn_iff.mp hl).2
  · intro i j _ _ _ _ hkj
    exact absurd hkj (hgoto j (lt_size_of_isStatement (t := jumpTree) (by rw [hkj]; rfl)))

/-- The label behind the switch is started by an execution, and so it is reported. -/
theorem reachable_of_execution_jump :
    ∃ g r, Graph.ofStatement jumpTree 1 ⟨.literals, false, false⟩ = .ok g ∧
    Reachable.ofGraph jumpTree g none false = .ok r ∧ r.isReachable 9 = true ∧
    r.isEndReachable 9 = true := by
  have hcorrect : Setting.Correct ⟨.literals, false, false⟩ jumpTree jumpValues := by
    intro i v hv x
    refine ⟨fun hx => hx v hv, ?_⟩
    rintro rfl v' hv'
    exact hv.symm.trans hv'
  obtain ⟨g, r, hg, hr, hstarts, hcompletes⟩ :=
    reachable_of_execution program_jumpTree rfl hcorrect decides_jumpTree
  have hvalue {i : NodeId} (hi : Resolver.literals jumpTree i = some (.string "a")) :
      jumpValues i (some (.string "a")) := by
    intro v hv
    exact hi.symm.trans hv
  have honly : Only jumpTree 2 (Matches jumpTree jumpValues (.string "a")) 4 := by
    refine ⟨by decide, ⟨5,
      by decide, by decide, .string "a", hvalue rfl, by decide⟩, fun hs _ => ?_⟩
    exact List.mem_singleton.mp hs
  have hswitch : Runs jumpTree jumpValues 1 ⟨.start 2, [⟨1, .block, [9]⟩]⟩ :=
    .step (.step .begin (.block rfl)) .next
  have hgoto : Runs jumpTree jumpValues 1 ⟨.start 7, [⟨2, .section_ 4, []⟩, ⟨1, .block, [9]⟩]⟩ :=
    .step (.step hswitch (.enterSwitch rfl (hvalue rfl) (.case_ honly))) .next
  have hended : Runs jumpTree jumpValues 1 ⟨.ended (.goto "done"), [⟨1, .block, [9]⟩]⟩ := by
    refine .step (.step hgoto (.leave rfl rfl)) (.unwind rfl nofun ?_)
    intro n _ phase nodes hs l hl hlabel
    cases hs with
    | section_ hs =>
        cases List.mem_singleton.mp hs
        cases List.mem_singleton.mp hl
        exact absurd hlabel.kind (by decide)
  have hlabel : Runs jumpTree jumpValues 1 ⟨.start 9, [⟨1, .block, []⟩]⟩ :=
    .step hended (.goto .block (show _ = [2] ++ 9 :: [] from rfl) ⟨rfl, rfl⟩)
  exact ⟨g, r, hg, hr, hstarts 9 ⟨_, hlabel⟩, hcompletes 9 ⟨_, .step hlabel (.pass rfl (.inr rfl))⟩⟩

end TreeScribe.Flow
