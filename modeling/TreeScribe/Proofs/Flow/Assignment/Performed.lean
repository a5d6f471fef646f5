import TreeScribe.Proofs.Flow.Assignment.Followed

namespace TreeScribe.Flow.Assignment

open TreeScribe.Tree

structure State.Alike (s s' : State) : Prop where
  points : s'.points = s.points
  edges : s'.edges = s.edges
  first : s'.first = s.first
  last : s'.last = s.last
  queue : s'.queue = s.queue

namespace State.Alike

variable {s : State} {poll : Poll} {uses : List NodeId}

theorem ticked : s.Alike { s with poll } := ⟨rfl, rfl, rfl, rfl, rfl⟩

theorem noted : s.Alike { s with uses } := ⟨rfl, rfl, rfl, rfl, rfl⟩

end State.Alike

/-- States in which some functions are still to be begun: each can be begun, and the others are then
ahead. -/
structure Script (a : Assignment) (v : String) where
  ahead : List (NodeId × Status) → State → Prop
  alike {l : List (NodeId × Status)} {s s' : State} (h : s.Alike s') (hs : ahead l s) : ahead l s'
  begin {b : NodeId} {σ : Status} {l : List (NodeId × Status)} {s : State} {depth : Nat}
    (hd : a.tree.size ≤ depth + a.tree.depth b) (hs : ahead ((b, σ) :: l) s) :
    ∃ q s', a.beginOf b = some q ∧ ((Scope.within a v false depth).setPoint q σ).run s =
      (.ok (), s') ∧ ahead l s'

variable {a : Assignment} {v : String} {depth : Nat} {x : Point} {σ : Status}

def Script.account (S : Script a v) : Account a v false where
  ahead := S.ahead
  mayFail := False
  notable _ := True
  startable _ := True
  cancel hc := by cases hc
  tick hs := S.alike .ticked hs
  note _ hs := S.alike .noted hs
  unknown _ hn hs := by
    obtain ⟨q, -, hq, -⟩ := S.begin (Nat.le_add_right _ _) hs
    cases hn.symm.trans hq
  begin _ hq hd hs := by
    obtain ⟨q, s', hq', hrun, hs'⟩ := S.begin hd hs
    cases hq.symm.trans hq'
    rw [hrun]
    exact hs'

def Carries (a : Assignment) (v : String) (depth : Nat) (x : Point) (m : Run Unit)
    (w : Walk (Edge → Status)) : Prop :=
  ∀ (S : Script a v) l s, S.ahead (w.begun ++ l) s →
    ∃ s', m.run s = (.ok (), (Scope.within a v false depth).setEdges x w.value s') ∧ S.ahead l s'

theorem carries (hw : a.tree.WellFormed) (hd : a.tree.size ≤ depth + a.tree.depth x.next + 1)
    (hx : x.kind = .stop → a.tree.role x.previous ≠ .finallyBlock) :
    Carries a v depth x ((Scope.within a v false depth).carry x σ) ((View.full a v).carry x σ) := by
  intro S l s hs
  have hregion : Region a.tree (fun _ => True) fun _ => True :=
    ⟨fun _ _ _ => trivial, fun _ _ _ => trivial⟩
  have hfollows := follows_carry hw hregion (fun _ _ _ _ => trivial)
    hd S.account (fun _ _ _ => trivial) (fun _ _ => trivial) hs
  have hfinished (s : State) : (Scope.within a v false depth).finished x σ s = s := by
    unfold Scope.finished
    split
    · rename_i hk
      unfold Scope.finish
      rw [Scope.tree_within]
      split
      · rw [if_neg]
        rintro ⟨hf, -⟩
        rw [Scope.isFinally, Scope.tree_within, decide_eq_true_eq] at hf
        exact hx hk hf
      · rfl
    · rfl
    · rfl
    · rfl
  generalize ((Scope.within a v false depth).carry x σ).run s = o at hfollows
  obtain ⟨e | r, s'⟩ := o
  · exact hfollows.elim
  · obtain ⟨s₁, hs₁, rfl⟩ := hfollows
    rw [hfinished]
    exact ⟨s₁, rfl, hs₁⟩

end TreeScribe.Flow.Assignment
