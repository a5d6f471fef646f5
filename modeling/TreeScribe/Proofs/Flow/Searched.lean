import Mathlib.Logic.Relation
import TreeScribe.Flow.Reachability
import TreeScribe.Proofs.Flow.Grows

namespace TreeScribe.Flow

def Point.Halts (halts : NodeId → Bool) (x : Point) : Prop := x.next ≠ .null ∧ halts x.next = true

/-- At a point the statement behind it is reached, and a label before it. -/
def Point.Reaches (t : Tree) (x : Point) (i : NodeId) : Prop :=
  x.next = i ∨ x.previous = i ∧ t.kind i = .statement .label

def Graph.GoesOn (g : Graph) (halts : NodeId → Bool) (p q : PointId) : Prop :=
  ¬ (g.point p).Halts halts ∧ g.Joined p q

/-- Some path leads from the entry to the point on which a search goes on behind all points but the
last. -/
def Graph.Found (g : Graph) (halts : NodeId → Bool) (q : PointId) : Prop :=
  ∃ p, g.entry = some p ∧ Relation.ReflTransGen (g.GoesOn halts) p q

structure Reachable.Exact (t : Tree) (g : Graph) (halts : NodeId → Bool)
    (r : Reachable) : Prop where
  statement (i : NodeId) : r.isReachable i = true ↔
    i ≠ .null ∧ ∃ p, g.Found halts p ∧ (g.point p).Reaches t i
  stop (i : NodeId) : r.isEndReachable i = true ↔
    i ≠ .null ∧ ∃ p, g.Found halts p ∧ (g.point p).previous = i

namespace Search

variable {t : Tree} {g : Graph} {halts : NodeId → Bool} {s s' : Search} {p q : PointId}
  {seen : List PointId}
  {fuel : Nat} {i : NodeId} {x : Point}

structure Pushed (s s' : Search) : Prop where
  points : ∃ new, s'.found = new ++ s.found ∧ s'.stack = new ++ s.stack
  nodup (h : s.found.Nodup) : s'.found.Nodup
  statements : s'.statements = s.statements
  ends : s'.ends = s.ends

theorem Pushed.refl : Pushed s s := ⟨⟨[], rfl, rfl⟩, id, rfl, rfl⟩

theorem Pushed.trans {s'' : Search} (h : Pushed s s') (h' : Pushed s' s'') : Pushed s s'' := by
  obtain ⟨new, hf, hs⟩ := h.points
  obtain ⟨new', hf', hs'⟩ := h'.points
  refine ⟨⟨new' ++ new, ?_, ?_⟩, h'.nodup ∘ h.nodup, h'.statements.trans h.statements,
    h'.ends.trans h.ends⟩
  · rw [hf', hf, List.append_assoc]
  · rw [hs', hs, List.append_assoc]

theorem Pushed.found_subset (h : Pushed s s') : s.found ⊆ s'.found := by
  obtain ⟨new, hf, -⟩ := h.points
  rw [hf]
  exact List.subset_append_right _ _

theorem pushed_push : Pushed s (s.push p) ∧ p ∈ (s.push p).found ∧ ∀ q ∈ (s.push p).found, q = p ∨
    q ∈ s.found := by
  unfold push
  split
  · rename_i hp
    exact ⟨.refl, List.contains_iff_mem.mp hp, fun q hq => .inr hq⟩
  · rename_i hp
    have hp : p ∉ s.found := fun h => hp (List.contains_iff_mem.mpr h)
    exact ⟨⟨⟨[p], rfl, rfl⟩, fun h => List.nodup_cons.mpr ⟨hp, h⟩, rfl, rfl⟩, List.mem_cons_self,
      fun q hq => List.mem_cons.mp hq⟩

/-- The targets of the edges are found, and only they are new. -/
theorem pushed_edges (edges : List EdgeId) (s : Search) :
    let s' := edges.foldl (fun s e => s.push (g.edge e).target) s
    Pushed s s' ∧ (∀ e ∈ edges, (g.edge e).target ∈ s'.found) ∧
      ∀ q ∈ s'.found, q ∈ s.found ∨ ∃ e ∈ edges, (g.edge e).target = q := by
  induction edges generalizing s with
  | nil => exact ⟨.refl, by simp, fun q hq => .inl hq⟩
  | cons e rest ih =>
      obtain ⟨hpush, hmem, hnew⟩ : Pushed s (s.push (g.edge e).target) ∧ _ ∧ _ := pushed_push
      obtain ⟨hrest, hmem', hnew'⟩ := ih (s.push (g.edge e).target)
      refine ⟨hpush.trans hrest, List.forall_mem_cons.mpr ⟨hrest.found_subset hmem, hmem'⟩,
        fun q hq => ?_⟩
      rcases hnew' q hq with hq | ⟨e', he', rfl⟩
      · rcases hnew q hq with rfl | hq
        · exact .inr ⟨e, List.mem_cons_self, rfl⟩
        · exact .inl hq
      · exact .inr ⟨e', List.mem_cons_of_mem _ he', rfl⟩

def note (t : Tree) (x : Point) (s : Search) : Search := (s.noteEnd t x.previous).noteStart x.next

theorem found_note : (note t x s).found = s.found ∧ (note t x s).stack = s.stack := by
  unfold note noteStart noteEnd
  constructor <;> split_ifs <;> rfl

theorem mem_statements_note :
    i ∈ (note t x s).statements ↔ i ∈ s.statements ∨ i ≠ .null ∧ x.Reaches t i := by
  unfold note noteStart noteEnd Point.Reaches
  split_ifs <;> grind

theorem mem_ends_note : i ∈ (note t x s).ends ↔ i ∈ s.ends ∨ i ≠ .null ∧ x.previous = i := by
  unfold note noteStart noteEnd
  split_ifs <;> grind

variable (halts) in
theorem pushed_visit : Pushed (note t (g.point p) s) (visit t g halts p s) ∧
    (∀ q, g.GoesOn halts p q → q ∈ (visit t g halts p s).found) ∧
      ∀ q ∈ (visit t g halts p s).found, q ∈ s.found ∨ g.GoesOn halts p q := by
  have hvisit : visit t g halts p s = if (g.point p).next ≠ .null ∧ halts (g.point p).next = true
      then note t (g.point p) s else (note t (g.point p) s).expand g (g.point p) := rfl
  rw [hvisit]
  split
  · rename_i hh
    exact ⟨.refl, fun q hq => absurd hh hq.1, fun q hq => .inl (found_note.1 ▸ hq)⟩
  · rename_i hh
    obtain ⟨hpush, hmem, hnew⟩ := pushed_edges (g := g) (g.point p).outgoing (note t (g.point p) s)
    refine ⟨hpush, ?_, fun q hq => ?_⟩
    · rintro q ⟨-, e, he, rfl⟩
      exact hmem e he
    · exact (hnew q hq).imp (fun hq => found_note.1 ▸ hq) fun hj => ⟨hh, hj⟩

/-- What holds on each turn of a search: the points that were found are those on the stack and those
seen, and what is noted are the statements at those that were seen. -/
structure Invariant (t : Tree) (g : Graph) (halts : NodeId → Bool) (seen : List PointId)
    (s : Search) : Prop where
  perm : s.found.Perm (s.stack ++ seen)
  nodup : s.found.Nodup
  lt {p : PointId} (hp : p ∈ s.found) : p < g.points.size
  found {p : PointId} (hp : p ∈ s.found) : g.Found halts p
  closed {p q : PointId} (hp : p ∈ seen) (hq : g.GoesOn halts p q) : q ∈ s.found
  statements {i : NodeId} : i ∈ s.statements ↔ i ≠ .null ∧ ∃ p ∈ seen, (g.point p).Reaches t i
  ends {i : NodeId} : i ∈ s.ends ↔ i ≠ .null ∧ ∃ p ∈ seen, (g.point p).previous = i

namespace Invariant

theorem length_le (h : Invariant t g halts seen s) :
    s.stack.length + seen.length ≤ g.points.size := by
  rw [← List.length_append, ← h.perm.length_eq]
  exact length_le_of_nodup h.nodup fun _ => h.lt

/-- A point of the stack is looked at. -/
theorem visit {stack : List PointId} (poll : Poll) (h : Invariant t g halts seen s)
    (hs : s.stack = p :: stack) (hg : ∀ p q, g.Joined p q → q < g.points.size) :
    Invariant t g halts (p :: seen) (visit t g halts p { s with stack, poll }) ∧
      s.found ⊆ (Search.visit t g halts p { s with stack, poll }).found := by
  obtain ⟨hpush, hmem, hnew⟩ :=
    pushed_visit halts (t := t) (g := g) (p := p) (s := { s with stack, poll })
  obtain ⟨hf, hst⟩ := found_note (t := t) (x := g.point p) (s := { s with stack, poll })
  have hp : g.Found halts p := h.found (h.perm.mem_iff.mpr (by simp [hs]))
  obtain ⟨new, hf', hs'⟩ := hpush.points
  have hsub : s.found ⊆ (Search.visit t g halts p { s with stack, poll }).found := by
    rw [hf', hf]
    exact List.subset_append_right _ _
  refine ⟨⟨?_, hpush.nodup (by rw [hf]; exact h.nodup), fun {q} hq => ?_, fun {q} hq => ?_,
    fun {q r} hq hr => ?_, fun {i} => ?_, fun {i} => ?_⟩, hsub⟩
  · rw [hf', hs', hf, hst, List.append_assoc]
    refine (h.perm.append_left new).trans (.append_left new ?_)
    rw [hs]
    exact List.perm_middle.symm
  · rcases hnew q hq with hq | hq
    · exact h.lt hq
    · exact hg p q hq.2
  · rcases hnew q hq with hq | hq
    · exact h.found hq
    · obtain ⟨e, he, hpath⟩ := hp
      exact ⟨e, he, hpath.tail hq⟩
  · rcases List.mem_cons.mp hq with rfl | hq
    · exact hmem r hr
    · exact hsub (h.closed hq hr)
  · rw [hpush.statements, mem_statements_note, h.statements, ← and_or_left,
      List.exists_mem_cons_iff, or_comm]
  · rw [hpush.ends, mem_ends_note, h.ends, ← and_or_left, List.exists_mem_cons_iff, or_comm]

theorem run (h : Invariant t g halts seen s) (hg : ∀ p q, g.Joined p q → q < g.points.size)
    (hf : g.points.size ≤ fuel + seen.length) :
    ∃ s' seen', Search.run t g halts false fuel s = .ok s' ∧
      Invariant t g halts seen' s' ∧ s'.stack = [] ∧ s.found ⊆ s'.found := by
  induction fuel generalizing s seen with
  | zero =>
      have hle := h.length_le
      exact ⟨s, seen, rfl, h, List.length_eq_zero_iff.mp (by omega), List.Subset.refl _⟩
  | succ fuel ih =>
      unfold Search.run
      cases hs : s.stack with
      | nil => exact ⟨s, seen, rfl, h, hs, List.Subset.refl _⟩
      | cons p stack =>
          obtain ⟨hvisit, hsub⟩ := h.visit s.poll.tick.2 hs hg
          obtain ⟨s', seen', hrun, h', hempty, hsub'⟩ := ih hvisit (by rw [List.length_cons]; omega)
          refine ⟨s', seen', ?_, h', hempty, List.Subset.trans hsub hsub'⟩
          simpa using hrun

end Invariant

theorem run_uncancelled {cancelled : Bool} (h : run t g halts cancelled fuel s = .ok s') :
    run t g halts false fuel s = .ok s' := by
  induction fuel generalizing s with
  | zero => exact h
  | succ fuel ih =>
      unfold run at h ⊢
      cases hs : s.stack with
      | nil =>
          rw [hs] at h
          exact h
      | cons p stack =>
          rw [hs] at h
          dsimp only at h
          split at h
          · cases h
          · simpa using ih h

end Search

section

variable {t : Tree} {g : Graph} {halts : NodeId → Bool} {r r' : Reachable} {p : PointId}

theorem Graph.Found.goesOn {q : PointId} (h : g.Found halts p) (hq : g.GoesOn halts p q) :
    g.Found halts q := by
  obtain ⟨e, he, hpath⟩ := h
  exact ⟨e, he, hpath.tail hq⟩

theorem Reachable.Exact.eq (h : r.Exact t g halts) {g' : Graph} {halts' : NodeId → Bool}
    (h' : r'.Exact t g' halts') (hfound : ∀ p, g'.Found halts' p ↔ g.Found halts p)
    (hpoint : ∀ p, (g'.point p).previous = (g.point p).previous ∧
      (g'.point p).next = (g.point p).next) (i : NodeId) :
    r'.isReachable i = r.isReachable i ∧ r'.isEndReachable i = r.isEndReachable i := by
  constructor
  · rw [Bool.eq_iff_iff, h.statement, h'.statement]
    simp only [hfound, Point.Reaches, hpoint]
  · rw [Bool.eq_iff_iff, h.stop, h'.stop]
    simp only [hfound, hpoint]

namespace Reachable

variable (t halts) in
theorem ofSearch_eq_ok (hentry : ∀ p, g.entry = some p → p < g.points.size)
    (hg : ∀ p q, g.Joined p q → q < g.points.size) :
    ∃ r, ofSearch t g halts false = .ok r ∧ r.Exact t g halts := by
  unfold ofSearch
  cases he : g.entry with
  | none =>
      have hnone {p : PointId} : ¬ g.Found halts p := by
        rintro ⟨e, he', -⟩
        cases he.symm.trans he'
      refine ⟨_, rfl, fun i => ?_, fun i => ?_⟩
      · simp [isReachable, hnone]
      · simp [isEndReachable, hnone]
  | some e =>
      have hbegin : Search.Invariant t g halts [] ⟨[e], [e], [], [], .every Search.interval⟩ := by
        refine ⟨.refl _, List.nodup_singleton e, fun hq => ?_, fun hq => ?_,
          fun hq => ?_, by simp, by simp⟩
        · cases List.mem_singleton.mp hq
          exact hentry e he
        · cases List.mem_singleton.mp hq
          exact ⟨e, he, .refl⟩
        · cases hq
      obtain ⟨s, seen, hrun, h, hempty, hsub⟩ :=
        hbegin.run hg (show g.points.size ≤ g.points.size + 0 from Nat.le_refl _)
      have hmem {q : PointId} : q ∈ s.found ↔ q ∈ seen := by
        rw [h.perm.mem_iff, hempty, List.nil_append]
      have hseen {q : PointId} : q ∈ seen ↔ g.Found halts q := by
        refine ⟨fun hq => h.found (hmem.mpr hq), ?_⟩
        rintro ⟨e', he', hpath⟩
        cases he.symm.trans he'
        rw [← hmem]
        induction hpath with
        | refl => exact hsub List.mem_cons_self
        | tail hpath hq ih => exact h.closed (hmem.mp ih) hq
      refine ⟨⟨s.statements, s.ends⟩, ?_, fun i => ?_, fun i => ?_⟩
      · simp only [hrun]
        rfl
      · simp only [isReachable, List.contains_iff_mem, h.statements, hseen]
      · simp only [isEndReachable, List.contains_iff_mem, h.ends, hseen]

theorem ofSearch_uncancelled {cancelled : Bool} (h : ofSearch t g halts cancelled = .ok r) :
    ofSearch t g halts false = .ok r := by
  unfold ofSearch at h ⊢
  split at h
  · exact h
  · cases hs : Search.run t g halts cancelled g.points.size
      ⟨[_], [_], [], [], .every Search.interval⟩ with
    | error x =>
        rw [hs] at h
        cases h
    | ok s =>
        rw [hs] at h
        rw [Search.run_uncancelled hs]
        exact h

/-- A search of a graph succeeds; what it finds has the entry in it, and no edge leads out of it. -/
theorem ofGraph_eq_ok (hp : g.entry = some p) (hlt : p < g.points.size)
    (hg : ∀ p q, g.Joined p q → q < g.points.size) :
    ∃ (r : Reachable) (R : PointId → Prop), Reachable.ofGraph t g none false = .ok r ∧ R p ∧
      (∀ p, R p → ∀ q, g.Joined p q → R q) ∧
      ∀ p, R p → ((g.point p).next ≠ .null → r.isReachable (g.point p).next = true) ∧
        ((g.point p).previous ≠ .null → r.isEndReachable (g.point p).previous = true ∧
          (t.kind (g.point p).previous = .statement .label →
            r.isReachable (g.point p).previous = true)) := by
  obtain ⟨r, hr, hexact⟩ := ofSearch_eq_ok t (Detector.halts none t)
    (fun q hq => Option.some.inj (hp.symm.trans hq) ▸ hlt) hg
  refine ⟨r, g.Found (Detector.halts none t), hr, ⟨p, hp, .refl⟩, fun q hq q' hj => ?_,
    fun q hq => ⟨fun hn => ?_, fun hn => ⟨?_, fun hk => ?_⟩⟩⟩
  · exact hq.goesOn ⟨fun hh => Bool.false_ne_true hh.2, hj⟩
  · exact (hexact.statement _).mpr ⟨hn, q, hq, .inl rfl⟩
  · exact (hexact.stop _).mpr ⟨hn, q, hq, rfl⟩
  · exact (hexact.statement _).mpr ⟨hn, q, hq, .inr ⟨rfl, hk⟩⟩

end Reachable

end

end TreeScribe.Flow
