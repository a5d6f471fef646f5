import TreeScribe.Proofs.Layout.Orderly
import TreeScribe.Proofs.Render.Materialized

namespace TreeScribe

namespace Pairing

variable {s : Pairing} {l : List Call}

theorem read_of_isBlank {c : Call} (hc : c.isBlank = true) : s.read c = s := by
  cases c with
  | newLine | space | indent | unindent => rfl
  | _ => cases hc

theorem readAll_filter : s.readAll (l.filter fun c => !c.isBlank) = s.readAll l := by
  induction l generalizing s with
  | nil => rfl
  | cons c l ih =>
      cases hc : c.isBlank with
      | true => rw [List.filter_cons_of_neg (by simp [hc]), readAll_cons, read_of_isBlank hc, ih]
      | false => rw [List.filter_cons_of_pos (by simp [hc]), readAll_cons, readAll_cons, ih]

end Pairing

namespace Tree

variable {t : Tree} {i x : NodeId}

theorem not_hangs (hi : t.kind i ≠ .statement .branch)
    (h : ∀ j < t.size, t.parent j = some i → (t.kind i).encloses (t.role j) = true) :
    ¬ t.Hangs i x := by
  rintro ⟨hout, hk, -⟩
  cases hout with
  | self => exact hi hk
  | child hj hr =>
      rw [h _ (lt_of_parent hj) hj] at hr
      cases hr

end Tree

/-- Each `else` in a text is read with the `if` of the same branch, if no branch with an `else` has,
in what it writes before that and outside of braces, a branch without one. -/
theorem write_pairs_elses (t : Tree) (p : Policy) (c : Cancellation) (root : NodeId)
    (done : Rendering) (ht : t.WellFormed) (hp : t.Paired root) (hd : t.write p c root = .ok done) :
    (Pairing.start.readAll (t.callsSent p root)).Right := by
  have hfail := (Tree.issued_of_write hd).1
  obtain ⟨left, found, -, hright, hread⟩ :=
    Layout.pairs_ofNodeWithin ht hp t.size .self hfail [] [] [] [] (fun _ hx => by cases hx)
  rw [Tree.callsSent_eq hfail, ← Pairing.readAll_filter, Layout.said_eq_filter]
  exact hread ▸ hright

/-- `if (this) { if (base) ; } else ;` -/
def bracedBranch : Tree :=
  .planted
    [.statement .branch, .expression .thisRef, .statement .block, .statement .branch,
      .expression .baseRef,
      .statement .empty, .statement .empty]
    [(1, .condition, 2), (1, .trueStatement, 3), (3, .statement, 4), (4, .condition, 5),
      (4, .trueStatement, 6),
      (1, .falseStatement, 7)]

theorem write_pairs_elses_braced : bracedBranch.WellFormed ∧ bracedBranch.Paired 1 ∧
    ∃ done, bracedBranch.write .allman .never 1 = .ok done ∧
      done.text = "if (this)\n\x7b\n\tif (base)\n\t\t;\n\x7d\nelse\n\t;\n" ∧
      (Pairing.start.readAll (bracedBranch.callsSent .allman 1)).found = [(1, some 1)] ∧
      (Pairing.start.readAll (bracedBranch.callsSent .allman 1)).Right := by
  have hw : bracedBranch.WellFormed := Tree.wellFormed_planted _ _
  have hp : bracedBranch.Paired 1 := by
    intro i x hi hk hn
    have hone : ∀ j < bracedBranch.size, bracedBranch.kind j = .statement .branch →
        bracedBranch.child j .falseStatement ≠ .null → j = 1 := by decide +kernel
    obtain rfl := hone i (hi.lt (by decide +kernel)) hk hn
    exact ⟨Tree.not_hangs (by decide +kernel) (by decide +kernel),
      Tree.not_hangs (by decide +kernel) (by decide +kernel)⟩
  have htext : (bracedBranch.write .allman .never 1).map Rendering.text =
      .ok "if (this)\n\x7b\n\tif (base)\n\t\t;\n\x7d\nelse\n\t;\n" := by decide +kernel
  cases hd : bracedBranch.write .allman .never 1 with
  | error e =>
      rw [hd] at htext
      cases htext
  | ok done =>
      rw [hd] at htext
      exact ⟨hw, hp, done, rfl, Except.ok.inj htext, by decide +kernel,
        write_pairs_elses bracedBranch .allman .never 1 done hw hp hd⟩

namespace Tree

def Embodied (t : Tree) : Prop :=
  ∀ i < t.size, (t.kind i = .statement .branch → t.child i .trueStatement ≠ .null) ∧
    ∀ k ∈ [StatementKind.whileLoop, .doLoop, .forLoop, .foreachLoop, .lock, .usingResource, .fixed],
      t.kind i = .statement k → t.child i .embeddedStatement ≠ .null

instance {t : Tree} : Decidable t.Embodied :=
  inferInstanceAs (Decidable
      (∀ i < t.size, (t.kind i = .statement .branch → t.child i .trueStatement ≠ .null) ∧
    ∀ k ∈ [StatementKind.whileLoop, .doLoop, .forLoop, .foreachLoop, .lock, .usingResource, .fixed],
      t.kind i = .statement k → t.child i .embeddedStatement ≠ .null))

end Tree

/-- `if (this) if (base) ; else ;`, with the `else` of the first `if`. -/
def danglingBranch : Tree :=
  .planted
    [.statement .branch, .expression .thisRef, .statement .branch, .expression .baseRef,
      .statement .empty,
      .statement .empty]
    [(1, .condition, 2), (1, .trueStatement, 3), (3, .condition, 4), (3, .trueStatement, 5),
      (1, .falseStatement, 6)]

/-- The `else` of the outer branch is read with the `if` of the inner one. -/
theorem write_mispairs_else : danglingBranch.WellFormed ∧ danglingBranch.Embodied ∧
    (danglingBranch.write .allman .never 1).map Rendering.text =
    .ok "if (this)\n\tif (base)\n\t\t;\nelse\n\t;\n" ∧
    (Pairing.start.readAll (danglingBranch.callsSent .allman 1)).found = [(1, some 3)] ∧
    ¬ (Pairing.start.readAll (danglingBranch.callsSent .allman 1)).Right := by
  have hfound : (Pairing.start.readAll (danglingBranch.callsSent .allman 1)).found =
      [(1, some 3)] := by decide +kernel
  refine ⟨Tree.wellFormed_planted _ _,
    by decide +kernel, by decide +kernel, hfound, fun hright => ?_⟩
  rw [Pairing.Right, hfound] at hright
  exact absurd (hright _ List.mem_cons_self) (by decide)

end TreeScribe
