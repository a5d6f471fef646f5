import TreeScribe.Layout.Basic
import TreeScribe.Proofs.Tree.Statements

namespace TreeScribe.Tree

variable {t : Tree} {root c g i j p q x T S : NodeId} {r : Role}

def hasFinally (t : Tree) (i : NodeId) : Bool :=
  t.kind i = .statement .tryCatch && t.hasChild i .finallyBlock

/-- The try statements with a finally block that a node lies strictly inside of, innermost first. -/
def finallies (t : Tree) (i : NodeId) : List NodeId := (t.ancestors i).filter t.hasFinally

def crossed (t : Tree) (i j : NodeId) : List NodeId :=
  (t.finallies i).filter fun T => !(t.ancestors j).contains T

/-- A step from `i` to `j` leaves no try statement through a finally block. -/
def Clear (t : Tree) (i j : NodeId) : Prop := t.finallies i ⊆ t.finallies j

theorem Clear.refl (t : Tree) (i : NodeId) : t.Clear i i := List.Subset.refl _

theorem Clear.trans (h : t.Clear i j) (h' : t.Clear j x) : t.Clear i x := List.Subset.trans h h'

theorem mem_finallies : T ∈ t.finallies i ↔ T ∈ t.ancestors i ∧ t.hasFinally T = true := by
  simp only [finallies, List.mem_filter]

theorem mem_crossed : T ∈ t.crossed i j ↔ T ∈ t.finallies i ∧ T ∉ t.ancestors j := by
  simp [crossed, List.mem_filter]

theorem Clear.crossed_eq (h : t.Clear i j) : t.crossed i j = [] := by
  refine List.eq_nil_iff_forall_not_mem.mpr fun T hT => ?_
  obtain ⟨hi, hj⟩ := mem_crossed.mp hT
  exact hj (mem_finallies.mp (h hi)).1

namespace WellFormed

theorem finallies_of_parent (hw : t.WellFormed) (hc : t.parent c = some p) :
    t.finallies c = (if t.hasFinally p then [p] else []) ++ t.finallies p := by
  rw [finallies, hw.ancestors_of_parent hc, List.filter_cons]
  split <;> rfl

theorem clear_of_parent (hw : t.WellFormed) (hc : t.parent c = some p) : t.Clear p c := by
  rw [Clear, hw.finallies_of_parent hc]
  exact List.subset_append_right _ _

theorem clear_of_child (hw : t.WellFormed) (hc : t.parent c = some p)
    (hp : t.hasFinally p = false) : t.Clear c p := by
  rw [Clear, hw.finallies_of_parent hc, hp]
  exact List.Subset.refl _

theorem clear_of_sibling (hw : t.WellFormed) (hi : t.parent i = some p) (hj : t.parent j = some p) :
    t.Clear i j := by
  rw [Clear, hw.finallies_of_parent hi, hw.finallies_of_parent hj]
  exact List.Subset.refl _

theorem crossed_of_guarded (hw : t.WellFormed) (hc : t.parent c = some p)
    (hp : p = i ∨ t.parent p = some i ∧ t.hasFinally p = false) :
    t.crossed c i = if t.hasFinally i then [i] else [] := by
  have hfinallies : t.finallies c = (if t.hasFinally i then [i] else []) ++ t.finallies i := by
    rcases hp with rfl | ⟨hg, hp⟩
    · exact hw.finallies_of_parent hc
    · rw [hw.finallies_of_parent hc, hp]
      exact hw.finallies_of_parent hg
  have hself : i ∉ t.ancestors i := (List.nodup_cons.mp (hw.follows_parent i).nodup).1
  have hnone : (t.finallies i).filter (fun T => !(t.ancestors i).contains T) = [] :=
    (Clear.refl t i).crossed_eq
  rw [crossed, hfinallies, List.filter_append, hnone, List.append_nil]
  split
  · simp [hself]
  · rfl

theorem mem_ancestors_iff (hw : t.WellFormed) :
    p ∈ t.ancestors i ↔ ∃ q, t.parent i = some q ∧ t.Below p q := by
  cases hq : t.parent i with
  | none => simp [hw.ancestors_of_parent_none hq]
  | some q => simp [hw.ancestors_of_parent hq, hw.below_iff]

theorem pairwise_ancestors (hw : t.WellFormed) (i : NodeId) :
    (t.ancestors i).Pairwise fun a b => b ∈ t.ancestors a := by
  generalize hl : t.ancestors i = l
  induction l generalizing i with
  | nil => exact .nil
  | cons a l ih =>
      cases hp : t.parent i with
      | none =>
          rw [hw.ancestors_of_parent_none hp] at hl
          cases hl
      | some p =>
          obtain ⟨ha, hrest⟩ := List.cons.inj ((hw.ancestors_of_parent hp).symm.trans hl)
          subst ha
          exact .cons (fun b hb => hrest ▸ hb) (ih p hrest)

theorem mem_ancestors_trans (hw : t.WellFormed) (hi : p ∈ t.ancestors i) (hp : q ∈ t.ancestors p) :
    q ∈ t.ancestors i := by
  obtain ⟨x, hx, hb⟩ := hw.mem_ancestors_iff.mp hi
  obtain ⟨y, hy, hb'⟩ := hw.mem_ancestors_iff.mp hp
  exact hw.mem_ancestors_iff.mpr ⟨x, hx, (hb'.child hy).trans hb⟩

end WellFormed

/-- Up to where a property holds that holds of all that comes behind as well. -/
theorem takeWhile_not_eq_filter {α : Type} {P : α → Bool} {l : List α}
    (h : l.Pairwise fun a b => P a = true → P b = true) : l.takeWhile (!P ·) = l.filter (!P ·) := by
  induction h with
  | nil => rfl
  | @cons a l ha h ih =>
      cases hP : P a with
      | false => simp [hP, ih]
      | true =>
          have hnone : l.filter (!P ·) = [] :=
            List.filter_eq_nil_iff.mpr fun b hb => by simp [ha b hb hP]
          simp [hP, hnone]

def InBody (t : Tree) (T i : NodeId) : Prop :=
  ∃ b, (b ∈ t.childrenIn T .embeddedStatement ∨ b ∈ t.childrenIn T .switchSection) ∧ t.Below b i

structure BreaksOut (t : Tree) (root i T : NodeId) : Prop where
  target : t.breakTarget i = some T
  below : t.Below root T
  inBody : t.InBody T i

structure Continues (t : Tree) (root i T : NodeId) : Prop where
  target : t.continueTarget i = some T
  below : t.Below root T
  inBody : t.InBody T i

structure InSection (t : Tree) (S i : NodeId) : Prop where
  isSwitch : t.kind S = .statement .switch
  inside : ∃ x ∈ t.childrenIn S .switchSection, t.Below x i

/-- Of the switches inside the root in a section of which `i` lies, the innermost. -/
structure SwitchAround (t : Tree) (root i S : NodeId) : Prop where
  below : t.Below root S
  inSection : t.InSection S i
  innermost {S' : NodeId} (hb : t.Below root S') (h : t.InSection S' i) : t.Below S' S

/-- A part of a statement that is drawn with it: a child, or a child of a section or of a catch
clause. -/
inductive Piece (t : Tree) (i : NodeId) : NodeId → Prop
  | child {j : NodeId} (h : t.parent j = some i) : Piece t i j
  | grouped {g j : NodeId} (h : t.parent g = some i) (hj : t.parent j = some g)
      (hr : t.role j = .statement ∨ t.role j = .body) : Piece t i j

namespace WellFormed

variable (hw : t.WellFormed)
include hw

theorem enclosing_of_parent {P : Kind → Bool} (hc : t.parent c = some p) :
    t.enclosingInFunction P c =
    if (t.kind p).isFunction then none else if P (t.kind p) then some p
    else t.enclosingInFunction P p := by
  simp only [enclosingInFunction, hw.ancestors_of_parent hc, List.takeWhile_cons]
  cases (t.kind p).isFunction with
  | true => rfl
  | false =>
      cases hP : P (t.kind p) <;> simp [hP]

theorem inBody_of_parent (hc : t.parent c = some p) (h : t.InBody T c) :
    (T = p ∧ (t.role c = .embeddedStatement ∨ t.role c = .switchSection)) ∨ t.InBody T p := by
  obtain ⟨b, hb, hbelow⟩ := h
  by_cases hbc : b = c
  · subst hbc
    have hparent : t.parent b = some T :=
      hb.elim hw.parent_of_mem_childrenIn hw.parent_of_mem_childrenIn
    refine .inl ⟨Option.some.inj (hparent.symm.trans hc), ?_⟩
    exact hb.imp (fun h => (mem_childrenIn_iff.mp h).2) fun h => (mem_childrenIn_iff.mp h).2
  · obtain ⟨q, hq, hbelow⟩ := hbelow.climb (Ne.symm hbc)
    cases hc.symm.trans hq
    exact .inr ⟨b, hb, hbelow⟩

theorem not_inBody_of_below (h : t.Below i T) : ¬ t.InBody T i := by
  rintro ⟨b, hb, hbelow⟩
  exact hw.not_below_of_parent (hb.elim hw.parent_of_mem_childrenIn hw.parent_of_mem_childrenIn)
    (hbelow.trans h)

omit hw in
theorem mem_ancestors_of_enclosing {P : Kind → Bool} (h : t.enclosingInFunction P i = some T) :
    T ∈ t.ancestors i :=
  List.takeWhile_subset _ (List.mem_of_find?_eq_some h)

theorem enclosing_of_piece {P : Kind → Bool} {k : StatementKind} (hk : t.kind i = .statement k)
    (hj : t.Piece i j) (h : t.enclosingInFunction P j = some T) (hb : t.InBody T j) :
    (T = i ∧ P (.statement k) = true) ∨ P (.statement k) = false ∧
    t.enclosingInFunction P i = some T ∧ t.InBody T i := by
  have hstatement {c : NodeId} (hc : t.parent c = some i) (h : t.enclosingInFunction P c = some T)
    (hb : t.InBody T c) :
      (T = i ∧ P (.statement k) = true) ∨ P (.statement k) = false ∧
        t.enclosingInFunction P i = some T ∧ t.InBody T i := by
    have hfunction : (t.kind i).isFunction = false := by rw [hk]; rfl
    rw [hw.enclosing_of_parent hc, hfunction, hk] at h
    cases hP : P (.statement k) with
    | true =>
        simp only [hP, Bool.false_eq_true, if_false, if_true, Option.some.injEq] at h
        exact .inl ⟨h.symm, rfl⟩
    | false =>
        simp only [hP, Bool.false_eq_true, if_false] at h
        rcases hw.inBody_of_parent hc hb with ⟨rfl, -⟩ | hb
        · exact absurd (mem_ancestors_of_enclosing h)
            (List.nodup_cons.mp (hw.follows_parent T).nodup).1
        · exact .inr ⟨rfl, h, hb⟩
  cases hj with
  | child hc => exact hstatement hc h hb
  | @grouped g j hg hj hr =>
      -- what groups parts has none of them in a body
      have hout : T ≠ g ∧ t.InBody T g := by
        rcases hw.inBody_of_parent hj hb with ⟨-, hrole | hrole⟩ | hb
        · rcases hr with hr | hr <;> cases hr.symm.trans hrole
        · rcases hr with hr | hr <;> cases hr.symm.trans hrole
        · refine ⟨?_, hb⟩
          rintro rfl
          exact hw.not_inBody_of_below .self hb
      rw [hw.enclosing_of_parent hj] at h
      split at h
      · cases h
      · split at h
        · exact absurd (Option.some.inj h).symm hout.1
        · exact hstatement hg h hout.2

theorem inSection_of_parent (hc : t.parent c = some p) (h : t.InSection S c) :
    (S = p ∧ t.role c = .switchSection) ∨ t.InSection S p := by
  obtain ⟨hs, x, hx, hbelow⟩ := h
  by_cases hxc : x = c
  · subst hxc
    exact .inl ⟨Option.some.inj ((hw.parent_of_mem_childrenIn hx).symm.trans hc),
      (mem_childrenIn_iff.mp hx).2⟩
  · obtain ⟨q, hq, hbelow⟩ := hbelow.climb (Ne.symm hxc)
    cases hc.symm.trans hq
    exact .inr ⟨hs, x, hx, hbelow⟩

theorem not_inSection_of_below (h : t.Below i S) : ¬ t.InSection S i := by
  rintro ⟨-, x, hx, hbelow⟩
  exact hw.not_below_of_parent (hw.parent_of_mem_childrenIn hx) (hbelow.trans h)

end WellFormed

theorem InSection.child (h : t.InSection S p) (hc : t.parent c = some p) : t.InSection S c := by
  obtain ⟨hs, x, hx, hbelow⟩ := h
  exact ⟨hs, x, hx, hbelow.child hc⟩

section

variable (hw : t.WellFormed) {k : StatementKind}
include hw

theorem BreaksOut.of_piece (h : t.BreaksOut root j T) (hk : t.kind i = .statement k)
    (hj : t.Piece i j) :
    (T = i ∧ (k.isLoop = true ∨ k = .switch)) ∨ ¬ (k.isLoop = true ∨ k = .switch) ∧
    t.BreaksOut root i T := by
  have hP : (Kind.statement k).isLoop = k.isLoop := by cases k <;> rfl
  rcases hw.enclosing_of_piece hk hj h.target h.inBody with ⟨hT, hk⟩ | ⟨hk, ht, hb⟩
  · exact .inl ⟨hT, by simpa [hP] using hk⟩
  · exact .inr ⟨by simpa [hP] using hk, ht, h.below, hb⟩

theorem Continues.of_piece (h : t.Continues root j T) (hk : t.kind i = .statement k)
    (hj : t.Piece i j) : (T = i ∧ k.isLoop = true) ∨ k.isLoop = false ∧ t.Continues root i T := by
  have hP : (Kind.statement k).isLoop = k.isLoop := by cases k <;> rfl
  rcases hw.enclosing_of_piece hk hj h.target h.inBody with ⟨hT, hk⟩ | ⟨hk, ht, hb⟩
  · exact .inl ⟨hT, hP ▸ hk⟩
  · exact .inr ⟨hP ▸ hk, ht, h.below, hb⟩

theorem SwitchAround.of_piece (h : t.SwitchAround root j S) (hj : t.Piece i j) :
    S = i ∨ t.SwitchAround root i S := by
  have hchild {c : NodeId} (hc : t.parent c = some i) (h : t.SwitchAround root c S) :
      S = i ∨ t.SwitchAround root i S := by
    rcases hw.inSection_of_parent hc h.inSection with ⟨hS, -⟩ | hin
    · exact .inl hS
    · exact .inr ⟨h.below, hin, fun hb h' => h.innermost hb (h'.child hc)⟩
  cases hj with
  | child hc => exact hchild hc h
  | grouped hg hj hr =>
      rcases hw.inSection_of_parent hj h.inSection with ⟨-, hrole⟩ | hin
      · rcases hr with hr | hr <;> cases hr.symm.trans hrole
      · exact hchild hg ⟨h.below, hin, fun hb h' => h.innermost hb (h'.child hj)⟩

/-- The innermost switch around what stands in a section of `i` is `i`. -/
theorem SwitchAround.eq_of_inSection (h : t.SwitchAround root j S) (hi : t.Below root i)
    (hj : t.Piece i j) (hin : t.InSection i j) : S = i := by
  rcases h.of_piece hw hj with hS | hS
  · exact hS
  · exact absurd hS.inSection (hw.not_inSection_of_below (h.innermost hi hin))

theorem not_breaksOut_self : ¬ t.BreaksOut root root T :=
  fun h => hw.not_inBody_of_below h.below h.inBody

theorem not_continues_self : ¬ t.Continues root root T :=
  fun h => hw.not_inBody_of_below h.below h.inBody

theorem not_switchAround_self : ¬ t.SwitchAround root root S :=
  fun h => hw.not_inSection_of_below h.below h.inSection

end

end TreeScribe.Tree
