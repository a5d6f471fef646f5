import TreeScribe.Proofs.Flow.Draws
import TreeScribe.Proofs.Flow.Grows

namespace TreeScribe.Flow

structure Rising (n : Nat) (l : List EdgeId) : Prop where
  pairwise : l.Pairwise (· < ·)
  lt {e : EdgeId} (he : e ∈ l) : e < n

namespace Rising

variable {n : Nat} {l : List EdgeId}

theorem nil : Rising n [] := ⟨.nil, nofun⟩

theorem mono (h : Rising n l) {m : Nat} (hnm : n ≤ m) : Rising m l :=
  ⟨h.pairwise, fun he => Nat.lt_of_lt_of_le (h.lt he) hnm⟩

theorem append (h : Rising n l) {p : Prop} [Decidable p] :
    Rising (n + 1) (l ++ if p then [n] else []) := by
  split
  · refine ⟨List.pairwise_append.mpr ⟨h.pairwise, List.pairwise_singleton .., fun a ha b hb => ?_⟩,
      fun {e} he => ?_⟩
    · cases List.mem_singleton.mp hb
      exact h.lt ha
    · rcases List.mem_append.mp he with he | he
      · exact Nat.lt_succ_of_lt (h.lt he)
      · cases List.mem_singleton.mp he
        exact Nat.lt_succ_self _
  · rw [List.append_nil]
    exact h.mono (Nat.le_succ _)

theorem nodup (h : Rising n l) : l.Nodup := h.pairwise.imp Nat.ne_of_lt

end Rising

namespace Graph

variable {g : Graph} {source target : PointId} {kind : EdgeKind} {previous next : NodeId}
  {pointKind : PointKind}

structure Ranked (g : Graph) : Prop where
  outgoing (p : PointId) : Rising g.edges.size (g.point p).outgoing
  incoming (p : PointId) : Rising g.edges.size (g.point p).incoming

namespace Ranked

theorem empty : Graph.empty.Ranked := by
  constructor
  · intro p
    rw [point_of_size_le (Nat.zero_le p)]
    exact .nil
  · intro p
    rw [point_of_size_le (Nat.zero_le p)]
    exact .nil

theorem addPoint (h : g.Ranked) : (g.addPoint previous next pointKind).2.Ranked := by
  constructor
  · intro p
    rw [outgoing_addPoint]
    exact h.outgoing p
  · intro p
    rw [incoming_addPoint]
    exact h.incoming p

theorem connect (h : g.Ranked) : (g.connect source target kind).2.Ranked := by
  have hout (p : PointId) (hp : g.points.size ≤ p) :
      (g.connect source target kind).2.points.size ≤ p := by
    rwa [size_connect]
  constructor
  · intro p
    rw [edges_size_connect]
    rcases Nat.lt_or_ge p g.points.size with hp | hp
    · rw [point_connect hp]
      exact (h.outgoing p).append
    · rw [point_of_size_le (hout p hp)]
      exact .nil
  · intro p
    rw [edges_size_connect]
    rcases Nat.lt_or_ge p g.points.size with hp | hp
    · rw [point_connect hp]
      exact (h.incoming p).append
    · rw [point_of_size_le (hout p hp)]
      exact .nil

theorem leaving (h : g.Ranked) {e : EdgeId} {tries : List NodeId} : (g.leaving e tries).Ranked := by
  constructor
  · intro p
    rw [edges_size_leaving]
    exact h.outgoing p
  · intro p
    rw [edges_size_leaving]
    exact h.incoming p

end Ranked

structure Stays (P : Graph → Prop) : Prop where
  addPoint {g : Graph} {previous next : NodeId} {kind : PointKind} (h : P g) :
    P (g.addPoint previous next kind).2
  connect {g : Graph} {source target : PointId} {kind : EdgeKind} (h : P g) :
    P (g.connect source target kind).2
  leaving {g : Graph} {e : EdgeId} {tries : List NodeId} (h : P g) : P (g.leaving e tries)

theorem stays_ranked : Stays Ranked := ⟨.addPoint, .connect, fun h => h.leaving⟩

end Graph

open Flow.Graph

section

open Draft

variable {P : Graph → Prop} (hP : Stays P) {c : Plan} {d : Draft} {i : NodeId}
  {source target : Option PointId}
  {kind : EdgeKind}

namespace Graph.Stays

include hP

theorem joinIf (h : P d.graph) : P (d.joinIf source target kind).graph := by
  unfold Draft.joinIf
  split
  · exact hP.connect h
  · exact h

theorem joinWhen {isTaken : Bool} (h : P d.graph) :
    P (d.joinWhen isTaken source target kind).graph := by
  unfold Draft.joinWhen
  split
  · exact hP.joinIf h
  · exact h

theorem start (h : P d.graph) : P (d.start i).graph := by
  unfold Draft.start
  split
  · exact h
  · exact hP.addPoint h

theorem stop (h : P d.graph) : P (d.stop c i).graph := hP.addPoint h

theorem reachedEnd {p : PointId} (h : P d.graph) :
    P (((d.stop c i).list p).joinIf source target kind).graph :=
  hP.joinIf (d := (d.stop c i).list p) (hP.stop h)

theorem loop (h : P d.graph) : P (d.loop c i source).graph :=
  hP.joinIf (d := ((d.stop c i).test i).list (d.size + 1)) (hP.addPoint (hP.stop h))

theorem joinGuarded {t : Tree} {last : Option PointId} {stop : PointId} (h : P d.graph) :
    P (d.joinGuarded t i last stop).graph := by
  unfold Draft.joinGuarded
  split
  · split
    · exact hP.leaving (hP.connect h)
    · exact hP.connect h
  · exact h

theorem joinJumps {targetOf : NodeId → PointId} {jumps : List PointId} (h : P d.graph) :
    P (joinJumps targetOf jumps d).graph := by
  induction jumps generalizing d with
  | nil => exact h
  | cons p rest ih => exact ih (hP.connect h)

end Graph.Stays

include hP in
/-- A drawing consists of steps that add points and edges. -/
theorem Draws.stays {task : Task} {a : Option PointId} {d' : Draft} (h : Draws c task d a d')
    (hd : P d.graph) : P d'.graph := by
  induction h with
  | hole | absent | nil | noSection | unguarded => exact hd
  | plain | label => exact hP.reachedEnd hd
  | final | goto | caseJump => exact hP.stop hd
  | break_ | continue_ => exact hP.stop (hP.joinIf hd)
  | block _ _ ih | wrapped _ _ _ ih | usingValue _ _ _ ih => exact hP.reachedEnd (ih hd)
  | usingResource _ _ _ _ ih ih' => exact hP.reachedEnd (ih' (ih hd))
  | branch _ _ _ ih ih' =>
      split
      · exact hP.joinIf (hP.reachedEnd (ih' (ih hd)))
      · exact hP.joinWhen (hP.reachedEnd (ih' (ih hd)))
  | switch _ _ ih => exact hP.joinJumps (hP.joinWhen (ih (hP.stop hd)))
  | whileLoop _ _ ih => exact hP.joinWhen (hP.joinIf (ih (hP.loop hd)))
  | foreachLoop _ _ ih => exact hP.connect (hP.joinIf (ih (hP.loop hd)))
  | @doLoop _ _ _ _ _ before _ _ _ _ hbefore _ ih =>
      have hpoints : P before.graph := hbefore ▸ hP.addPoint (hP.stop hd)
      exact hP.joinWhen (hP.joinWhen (hP.joinIf (ih (hP.joinIf (hP.start hpoints)))))
  | @forLoop _ _ _ _ _ _ _ _ _ ahead _ _ _ _ _ _ _ hahead _ _ ih ihr ihb =>
      have hturn : P ahead.graph := hahead ▸ hP.joinIf (ihr (hP.loop (ih hd)))
      exact hP.joinWhen (hP.joinWhen (hP.joinIf (ihb (hP.start hturn))))
  | tryFinally _ _ _ _ ih ih' => exact ih' (ih (hP.stop hd))
  | tryCatch _ _ _ ih => exact ih (hP.stop hd)
  | enter _ ih => exact ih (hP.joinWhen (hP.start hd))
  | @embed _ _ _ d _ _ _ _ ih => exact ih (hP.joinIf (hP.start (d := d.tick) hd))
  | @first _ _ _ _ d _ _ _ _ _ _ ih ih' => exact ih' (ih (hP.joinIf (hP.start (d := d.tick) hd)))
  | behind _ _ ih ih' | section_ _ _ ih ih' => exact ih' (ih hd)
  | guard _ _ ih ih' => exact ih' (hP.joinGuarded (ih hd))

end

end TreeScribe.Flow
