import TreeScribe.Proofs.Flow.Paths

namespace TreeScribe

/-- The condition of a loop that runs other code first. -/
def Tree.Deferred (t : Tree) (i c : NodeId) : Prop :=
  (t.kind i = .statement .doLoop ∨ t.kind i = .statement .forLoop) ∧ t.role c = .condition

namespace Flow

namespace Detector

inductive Calls (d : Detector) (t : Tree) : NodeId → Prop
  | call {i : NodeId} (hk : t.kind i = .expression .invocation) (hd : d t i = true) : Calls d t i
  | inside {i c : NodeId} (hk : (t.kind i).isStatement = false) (hc : c ∈ evaluated t i)
      (h : Calls d t c) : Calls d t i

variable {d : Detector} {t : Tree} {i c : NodeId} {fuel : Nat}

theorem Calls.of_callsWithin (h : d.callsWithin t fuel i = true) : d.Calls t i := by
  induction fuel generalizing i with
  | zero => cases h
  | succ fuel ih =>
      rw [callsWithin, Bool.and_eq_true, Bool.or_eq_true, Bool.and_eq_true, List.any_eq_true,
        decide_eq_true_eq, Bool.not_eq_true'] at h
      obtain ⟨hk, ⟨hi, hd⟩ | ⟨c, hc, h⟩⟩ := h
      · exact .call hi hd
      · exact .inside hk hc (ih h)

theorem parent_of_evaluated (hw : t.WellFormed) (hc : c ∈ evaluated t i) :
    c = .null ∨ t.parent c = some i := by
  have hchild {r : Role} (hc : c ∈ [t.child i r]) : c = .null ∨ t.parent c = some i := by
    cases List.mem_singleton.mp hc
    by_cases hn : t.child i r = .null
    · exact .inl hn
    · exact .inr (hw.mem_children.mp (Tree.role_child hn).1)
  unfold evaluated at hc
  split at hc
  case h_1 | h_2 => simp at hc
  case h_3 | h_4 | h_5 | h_6 => exact hchild hc
  case h_7 => exact .inr (hw.mem_children.mp hc)

theorem Calls.ne_null (hw : t.WellFormed) (h : d.Calls t i) : i ≠ .null := by
  rintro rfl
  cases h with
  | call hk => cases hk.symm.trans hw.null_kind
  | inside hk hc h =>
      rw [evaluated, hw.null_kind] at hc
      exact hw.parent_ne_null (hw.mem_children.mp hc) rfl

theorem Calls.lt_size (hw : t.WellFormed) (h : d.Calls t i) : i < t.size := by
  cases h with
  | call hk => exact Tree.lt_of_kind (by rw [hk]; exact Kind.noConfusion)
  | inside hk hc h => exact hw.lt_parent ((parent_of_evaluated hw hc).resolve_left (h.ne_null hw))

theorem Calls.callsWithin (hw : t.WellFormed) (h : d.Calls t i) (hf : t.size ≤ fuel + t.depth i) :
    d.callsWithin t fuel i = true := by
  induction fuel generalizing i with
  | zero =>
      have hd := hw.depth_lt (h.lt_size hw)
      omega
  | succ fuel ih =>
      rw [Detector.callsWithin, Bool.and_eq_true, Bool.or_eq_true, Bool.and_eq_true,
        List.any_eq_true, decide_eq_true_eq, Bool.not_eq_true']
      cases h with
      | call hk hd => exact ⟨by rw [hk]; rfl, .inl ⟨hk, hd⟩⟩
      | inside hk hc h =>
          have hp := (parent_of_evaluated hw hc).resolve_left (h.ne_null hw)
          exact ⟨hk, .inr ⟨_, hc, ih h (hw.fuel_child hf hp)⟩⟩

theorem calls_iff (hw : t.WellFormed) : d.calls t i = true ↔ d.Calls t i :=
  ⟨.of_callsWithin, fun h => h.callsWithin hw (Nat.le_add_right _ _)⟩

end Detector

namespace Point

def Evaluates (t : Tree) (x : Point) (c : NodeId) : Prop :=
  c ∈ t.children x.next ∧ (t.kind c).isStatement = false ∧
    (t.Deferred x.next c → x.kind = .condition)

def Recurs (d : Detector) (t : Tree) (x : Point) : Prop :=
  x.next ≠ .null ∧ ∃ c, x.Evaluates t c ∧ d.Calls t c

/-- The point enters a loop that makes a recursive call in its condition, behind other code. -/
def Defers (d : Detector) (t : Tree) (x : Point) : Prop :=
  x.next ≠ .null ∧ x.kind ≠ .condition ∧
    ∃ c ∈ t.children x.next, (t.kind c).isStatement = false ∧ t.Deferred x.next c ∧ d.Calls t c

variable {d : Detector} {t : Tree} {x : Point}

theorem halts_iff (hw : t.WellFormed) :
    x.Halts (Detector.halts (some d) t) ↔ x.Recurs d t ∨ x.Defers d t := by
  have hrecursive : Detector.halts (some d) t x.next = true ↔
      ∃ c ∈ t.children x.next, (t.kind c).isStatement = false ∧ d.Calls t c := by
    simp [Detector.halts, Detector.isRecursive, Detector.calls_iff hw]
  rw [Halts, hrecursive]
  constructor
  · rintro ⟨hn, c, hc, hk, hcalls⟩
    by_cases hd : t.Deferred x.next c → x.kind = .condition
    · exact .inl ⟨hn, c, ⟨hc, hk, hd⟩, hcalls⟩
    · rw [Classical.not_imp] at hd
      exact .inr ⟨hn, hd.2, c, hc, hk, hd.1, hcalls⟩
  · rintro (⟨hn, c, ⟨hc, hk, -⟩, hcalls⟩ | ⟨hn, -, c, hc, hk, -, hcalls⟩)
    · exact ⟨hn, c, hc, hk, hcalls⟩
    · exact ⟨hn, c, hc, hk, hcalls⟩

end Point

namespace Graph

def Passes (g : Graph) (d : Detector) (t : Tree) (p q : PointId) : Prop :=
  ¬ (g.point p).Recurs d t ∧ g.Joined p q

def Spares (g : Graph) (d : Detector) (t : Tree) (q : PointId) : Prop :=
  ∃ p, g.entry = some p ∧ Relation.ReflTransGen (g.Passes d t) p q

variable {g : Graph} {d : Detector} {t : Tree} {p q : PointId}

theorem goesOn_iff (hw : t.WellFormed) :
    g.GoesOn (Detector.halts (some d) t) p q ↔ g.Passes d t p q ∧ ¬ (g.point p).Defers d t := by
  rw [GoesOn, Passes, Point.halts_iff hw]
  tauto

theorem Found.spares (hw : t.WellFormed) (h : g.Found (Detector.halts (some d) t) q) :
    g.Spares d t q := by
  obtain ⟨p, hp, hpath⟩ := h
  exact ⟨p, hp, Relation.ReflTransGen.mono (fun _ _ hq => ((goesOn_iff hw).mp hq).1) _ _ hpath⟩

/-- A path without recursive calls is searched to its end, or to the first loop with a deferred call
on it. -/
theorem Spares.found (hw : t.WellFormed) (h : g.Spares d t q) :
    g.Found (Detector.halts (some d) t) q ∨
    ∃ p, g.Found (Detector.halts (some d) t) p ∧ (g.point p).Defers d t ∧
    Relation.TransGen (g.Passes d t) p q := by
  obtain ⟨e, he, hpath⟩ := h
  induction hpath with
  | refl => exact .inl ⟨e, he, .refl⟩
  | tail hpath hpass ih =>
      rename_i q q'
      rcases ih with hfound | ⟨p, hp, hdefers, hrest⟩
      · by_cases hdefers : (g.point q).Defers d t
        · exact .inr ⟨q, hfound, hdefers, .single hpass⟩
        · exact .inl (hfound.goesOn ((goesOn_iff hw).mpr ⟨hpass, hdefers⟩))
      · exact .inr ⟨p, hp, hdefers, hrest.tail hpass⟩

end Graph

variable {t : Tree} {root : NodeId} {s : Setting} {g : Graph}

/-- With a detector, all that is reported is on a path without a recursive call; and what such a
path leads to is reported, unless the path has entered a loop before that makes a recursive call in
a deferred condition. -/
theorem ofGraph_spares (hw : t.WellFormed) (h : Graph.ofStatement t root s = .ok g) (d : Detector) :
    ∃ r, Reachable.ofGraph t g (some d) false = .ok r ∧
      (∀ cancelled r', Reachable.ofGraph t g (some d) cancelled = .ok r' → r' = r) ∧
      (∀ i, r.isReachable i = true → ∃ q, g.Spares d t q ∧ (g.point q).Reaches t i) ∧
      ∀ i q, i ≠ .null → g.Spares d t q → (g.point q).Reaches t i → r.isReachable i = true ∨
        ∃ p, g.Spares d t p ∧ (g.point p).Defers d t ∧ Relation.TransGen (g.Passes d t) p q := by
  obtain ⟨hentry, hg⟩ := ofStatement_bounded hw h
  obtain ⟨r, hr, hexact⟩ := Reachable.ofSearch_eq_ok t (Detector.halts (some d) t) hentry hg
  refine ⟨r, hr, fun cancelled r' hr' => ?_, fun i hi => ?_, fun i q hi hq hreach => ?_⟩
  · exact Except.ok.inj ((Reachable.ofSearch_uncancelled hr').symm.trans hr)
  · obtain ⟨-, q, hq, hreach⟩ := (hexact.statement i).mp hi
    exact ⟨q, hq.spares hw, hreach⟩
  · rcases hq.found hw with hfound | ⟨p, hp, hdefers, hrest⟩
    · exact .inl ((hexact.statement i).mpr ⟨hi, q, hfound, hreach⟩)
    · exact .inr ⟨p, hp.spares hw, hdefers, hrest⟩

end Flow

end TreeScribe
