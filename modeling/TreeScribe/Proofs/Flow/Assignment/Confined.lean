import TreeScribe.Proofs.Flow.Assignment.Owned
import TreeScribe.Proofs.Flow.Assignment.Upheld

namespace TreeScribe.Flow.Assignment

open TreeScribe.Tree

/-- The places that an analysis concerns: those in the range, and where the functions begin that are
created at places that it concerns. -/
inductive Concerned (a : Assignment) (first last : Nat) : Nat → Prop
  | inside {p : Nat} (hf : first ≤ p) (hl : p ≤ last) : Concerned a first last p
  | begun {p q : Nat} {b : NodeId} (h : Concerned a first last p) (hb : a.Created p b)
      (hq : a.beginOf b = some q) :
    Concerned a first last q

structure Confined (a : Assignment) (first last : Nat) (s : State) : Prop where
  first_eq : s.first = first
  last_eq : s.last = last
  queued {q : Nat} (hq : q ∈ s.queue) : first ≤ q ∧ q ≤ last
  reached {p : Nat} (hp : s.statuses.point p ≠ .unreachable) : a.Concerned first last p
  used {j : NodeId} (hj : j ∈ s.uses) : ∃ p, a.Concerned first last p ∧ a.Evaluated p j

variable {a : Assignment} {v : String} {cancelled : Bool} {initial : Status} {s s' : State}
  {root i i' : NodeId}
  {first last p q : Nat} {σ : Status}

theorem of_restrict {startInclusive endInclusive : Bool}
    (h : a.restrict s i i' startInclusive endInclusive = .ok s') :
    s'.first ≤ s'.last ∧ s'.last < a.graph.order.length ∧
      (if startInclusive then a.beginOf i else a.endOf i) = some s'.first ∧
        (if endInclusive then a.endOf i' else a.beginOf i') = some s'.last := by
  unfold restrict at h
  split at h
  · rename_i m n hm hn
    split at h
    · cases h
    · cases h
      refine ⟨Nat.le_of_not_lt ‹_›, ?_, hm, hn⟩
      split at hn
      · exact (of_lastPlace? hn).1
      · exact (of_lastPlace? hn).1
  · cases h

theorem Concerned.lt (h : a.Concerned first last p) (hlast : last < a.graph.order.length) :
    p < a.graph.order.length := by
  cases h with
  | inside _ hl => exact Nat.lt_of_le_of_lt hl hlast
  | begun _ _ hq => exact (of_lastPlace? hq).1

/-- Where no functions are created in the range, only the range is concerned. -/
theorem Concerned.mem_range (h : a.Concerned first last p)
    (hn : ∀ q b, first ≤ q → q ≤ last → ¬ a.Created q b) : first ≤ p ∧ p ≤ last := by
  induction h with
  | inside hf hl => exact ⟨hf, hl⟩
  | begun _ hb _ ih => exact absurd hb (hn _ _ ih.1 ih.2)

namespace Confined

theorem clear (hfirst : s.first = first) (hlast : s.last = last) :
    Confined a first last (a.clear s) :=
  ⟨hfirst, hlast, fun hq => absurd hq List.not_mem_nil, fun hp => absurd point_clear hp,
      fun hj => absurd hj List.not_mem_nil⟩

theorem setEdge {c : Scope} {e : EdgeId} (h : Confined a first last s) :
    Confined a first last (c.setEdge σ s e) := by
  obtain ⟨edges, queue, hs, hqueue⟩ := Scope.setEdge_eq (c := c) (σ := σ) (s := s) (e := e)
  rw [hs]
  refine ⟨h.first_eq, h.last_eq, fun hq => ?_, h.reached, h.used⟩
  rcases hqueue _ hq with hq | ⟨hf, hl⟩
  · exact h.queued hq
  · exact ⟨h.first_eq ▸ hf, h.last_eq ▸ hl⟩

theorem withPoint (h : Confined a first last s) (hq : a.Concerned first last q) :
    Confined a first last (s.withPoint q σ) := by
  refine ⟨h.first_eq, h.last_eq, h.queued, fun {p} hp => ?_, h.used⟩
  by_cases hpq : p = q
  · exact hpq ▸ hq
  · exact h.reached (State.point_withPoint_of_ne hpq ▸ hp)

end Confined

/-- Every step of an analysis keeps to the range. -/
theorem upholds_confined (hcode : a.tree.Code root) (hl : a.graph.Laid a.tree root a.graph.order)
    (hlast : last < a.graph.order.length) :
    Upholds a v cancelled (fun q _ => a.Concerned first last q) a.Evaluated a.Created True
      (Confined a first last) where
  region hR := region_evaluated hl (hR.lt hlast) hcode
  operand hR hev hc hr := evaluated_of_operand hl (hR.lt hlast) hcode hev hc hr
  cancel _ := trivial
  tick h := ⟨h.first_eq, h.last_eq, h.queued, h.reached, h.used⟩
  edge _ _ h := h.setEdge
  note hR _ hj h := by
    refine ⟨h.first_eq, h.last_eq, h.queued, h.reached, fun hk => ?_⟩
    rcases List.mem_cons.mp hk with rfl | hk
    · exact ⟨_, hR, hj⟩
    · exact h.used hk
  unknown _ _ _ _ := trivial
  set hR h := .inl ⟨h.withPoint hR, fun _ _ _ hb _ hq => hR.begun hb hq⟩

/-- An analysis of a range concerns the places of the range and those where functions begin that are
created at a place that it concerns. All other places stay unreachable, and what is reported belongs
to a statement that is entered or tested at one of these places. -/
theorem analyze_confined (t : Tree) (setting : Setting) (v : String) (initial : Status)
    (hcode : t.Code root) (ha : ofStatement t root setting = .ok a)
    {startInclusive endInclusive : Bool}
    (hr : a.restrict s i i' startInclusive endInclusive = .ok s')
    {s'' : State} (hrun : a.analyze s' v initial cancelled = some (.ok (), s'')) :
    (∀ p, s''.statuses.point p ≠ .unreachable → a.Concerned s'.first s'.last p) ∧
      ∀ j ∈ unassignedUses s'', ∃ p, a.Concerned s'.first s'.last p ∧ a.Evaluated p j := by
  obtain ⟨rfl, hl⟩ := laid_of_statement hcode ha
  obtain ⟨hle, hlast, -, -⟩ := of_restrict hr
  have hconfined : Confined a s'.first s'.last s'' := by
    refine (upholds_confined hcode hl hlast).analyze hcode.wellFormed
      (fun s q rest h hq => ⟨?_, fun _ => ?_⟩)
      (fun _ => .inside (Nat.le_refl _) hle) (.clear rfl rfl) hrun
    · exact ⟨h.first_eq, h.last_eq, fun hm => h.queued (hq ▸ List.mem_cons_of_mem _ hm),
        h.reached, h.used⟩
    · obtain ⟨hf, hl⟩ := h.queued (hq ▸ List.mem_cons_self)
      exact .inside hf hl
  exact ⟨fun _ => hconfined.reached, fun j hj => hconfined.used (List.mem_reverse.mp hj)⟩

end TreeScribe.Flow.Assignment
