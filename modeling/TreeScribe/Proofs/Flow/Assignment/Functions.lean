import TreeScribe.Flow.Assignment.Basic
import TreeScribe.Proofs.Tree.Statements

namespace TreeScribe.Tree

def isFunction (t : Tree) (i : NodeId) : Bool :=
  match t.kind i with
  | .expression (.lambda _) | .expression (.anonymousMethod ..) => true
  | _ => false

inductive Starts (t : Tree) : NodeId → NodeId → Prop
  | body {i b : NodeId} (hf : t.isFunction i = true) (hb : t.child i .body = b)
      (hs : (t.kind b).isStatement = true) :
    Starts t i b
  | child {i c b : NodeId} (hk : (t.kind i).isStatement = false) (hf : t.isFunction i = false)
      (hc : t.parent c = some i)
    (h : Starts t c b) : Starts t i b

def IsBody (t : Tree) (b : NodeId) : Prop :=
  ∃ i, t.isFunction i = true ∧ t.child i .body = b ∧ (t.kind b).isStatement = true

def holdsOperand : Role → Bool
  | .expression | .left | .right | .condition | .trueExpression | .falseExpression | .initializer
  | .inExpression
  | .variable_ => true
  | _ => false

/-- Code below a root: operands are no statements, what groups parts of a statement is neither a
statement nor an expression, and nothing below the root is a null node. -/
structure Code (t : Tree) (root : NodeId) : Prop where
  wellFormed : t.WellFormed
  operand {i : NodeId} (hi : t.Below root i) (hr : holdsOperand (t.role i) = true) :
    (t.kind i).isStatement = false
  group {i : NodeId} (hi : t.Below root i) (hr : groups (t.role i) = true) : ∃ k, t.kind i = .part k
  kind_ne_null {i : NodeId} (hi : t.Below root i) : t.kind i ≠ .null

/-- No function with a statement as body stands in the expression that another function has as its
body. -/
def Unnested (t : Tree) (root : NodeId) : Prop :=
  ∀ i, t.Below root i → t.isFunction i = true → (t.kind (t.child i .body)).isStatement = false →
    ∀ b, t.IsBody b → ¬ t.Below (t.child i .body) b

/-- A tree is code if all nodes stand where code of their kind may stand. Without functions that
have an expression as body, none is nested in such a one. -/
theorem code_of_forall {t : Tree} {root : NodeId} (hw : t.WellFormed)
    (hroot : root < t.size ∧ root ≠ .null)
    (h : ∀ i < t.size, (holdsOperand (t.role i) = true → (t.kind i).isStatement = false) ∧
      groups (t.role i) = false ∧
      (i ≠ NodeId.null → t.kind i ≠ .null) ∧
        (t.isFunction i = true → (t.kind (t.child i .body)).isStatement = true) ∧
        t.role i ≠ .finallyBlock) :
    t.Code root ∧ t.Unnested root ∧ ∀ i, t.Below root i → t.role i ≠ .finallyBlock := by
  have hlt {i : NodeId} (hi : t.Below root i) : i < t.size ∧ i ≠ .null := by
    cases hi with
    | self => exact hroot
    | child _ hc => exact ⟨lt_of_parent hc, hw.ne_null hc⟩
  refine ⟨⟨hw, fun {i} hi hr => ?_, fun {i} hi hr => ?_, fun {i} hi => ?_⟩, fun i hi hf hs => ?_,
    fun i hi => ?_⟩
  · exact (h i (hlt hi).1).1 hr
  · cases (h i (hlt hi).1).2.1.symm.trans hr
  · exact (h i (hlt hi).1).2.2.1 (hlt hi).2
  · cases ((h i (hlt hi).1).2.2.2.1 hf).symm.trans hs
  · exact (h i (hlt hi).1).2.2.2.2

def Begun (t : Tree) (i : NodeId) (R : NodeId → Prop) (b : NodeId) : Prop :=
  ∃ c, t.parent c = some i ∧ R c ∧ t.Starts c b

variable {t : Tree} {root r i i' b b' c c' m x : NodeId}

theorem isStatement_of_isFunction (h : t.isFunction i = true) : (t.kind i).isStatement = false := by
  unfold isFunction at h
  split at h
  · rename_i hk
    rw [hk]
    rfl
  · rename_i hk
    rw [hk]
    rfl
  · cases h

theorem Code.groups_of_isFunction (h : t.Code root) (hi : t.Below root i)
    (hf : t.isFunction i = true) : groups (t.role i) = false := by
  cases hg : groups (t.role i) with
  | false => rfl
  | true =>
      obtain ⟨k, hk⟩ := h.group hi hg
      rw [isFunction, hk] at hf
      cases hf

namespace WellFormed

variable (hw : t.WellFormed)
include hw

theorem below_antisymm (h : t.Below b x) (h' : t.Below x b) : b = x := by
  by_contra hne
  obtain ⟨p, hp, hb⟩ := h.climb (Ne.symm hne)
  exact hw.not_below_of_parent hp (h'.trans hb)

theorem depth_le_of_below (h : t.Below b x) : t.depth b ≤ t.depth x := by
  induction h with
  | self => exact Nat.le_refl _
  | child _ hc ih =>
      rw [hw.depth_of_parent hc]
      exact Nat.le_succ_of_le ih

theorem parent_of_body (hb : t.child i .body = b) (hs : (t.kind b).isStatement = true) :
    t.parent b = some i ∧ t.role b = .body := by
  subst hb
  obtain ⟨hm, hr⟩ := role_child (hw.ne_null_of_isStatement hs)
  exact ⟨hw.mem_children.mp hm, hr⟩

end WellFormed

theorem IsBody.parent (hw : t.WellFormed) (h : t.IsBody b) :
    ∃ i, t.parent b = some i ∧ t.isFunction i = true ∧ t.role b = .body := by
  obtain ⟨i, hf, hb, hs⟩ := h
  obtain ⟨hp, hr⟩ := hw.parent_of_body hb hs
  exact ⟨i, hp, hf, hr⟩

namespace Starts

theorem isBody (h : t.Starts c b) : t.IsBody b := by
  induction h with
  | body hf hb hs => exact ⟨_, hf, hb, hs⟩
  | child _ _ _ _ ih => exact ih

theorem isStatement (h : t.Starts c b) : (t.kind c).isStatement = false := by
  cases h with
  | body hf => exact isStatement_of_isFunction hf
  | child hk => exact hk

theorem to_below (hw : t.WellFormed) (h : t.Starts c b) : t.Below c b := by
  induction h with
  | body hf hb hs => exact .child .self (hw.parent_of_body hb hs).1
  | child _ _ hc _ ih => exact (Below.child .self hc).trans ih

theorem eq_of_isStatement (hw : t.WellFormed) (h : t.Starts c b) (hx : t.Below c x)
    (hb : t.Below x b) (hs : (t.kind x).isStatement = true) : x = b := by
  induction h with
  | @body i b hf hbody hbs =>
      by_contra hne
      obtain ⟨p, hp, hb⟩ := hb.climb (Ne.symm hne)
      cases (hw.parent_of_body hbody hbs).1.symm.trans hp
      cases hw.below_antisymm hx hb
      cases hs.symm.trans (isStatement_of_isFunction hf)
  | @child i c b hk hf hc h ih =>
      rcases hx.cases_top with rfl | ⟨d, hd, hx⟩
      · cases hs.symm.trans hk
      · cases hw.eq_of_below hd hc (hx.trans hb) (h.to_below hw)
        exact ih hx hb

/-- A body is started by one statement. -/
theorem owner_eq (hw : t.WellFormed) (h : t.Starts c b) (h' : t.Starts c' b)
    (hc : t.parent c = some i) (hc' : t.parent c' = some i') (hi : (t.kind i).isStatement = true)
    (hi' : (t.kind i').isStatement = true) : i = i' := by
  have hnot {c c' i' : NodeId} (h : t.Starts c b) (h' : t.Starts c' b) (hc' : t.parent c' = some i')
      (hi' : (t.kind i').isStatement = true) : ¬ t.Below c i' := by
    intro hb
    have hbelow : t.Below i' b := (Below.child .self hc').trans (h'.to_below hw)
    cases h.eq_of_isStatement hw hb hbelow hi'
    exact hw.not_below_of_parent hc' (h'.to_below hw)
  rcases (h.to_below hw).total (h'.to_below hw) with hcc | hcc
  · by_cases he : c' = c
    · subst he
      exact Option.some.inj (hc.symm.trans hc')
    · obtain ⟨p, hp, hb⟩ := hcc.climb he
      cases hc'.symm.trans hp
      exact absurd hb (hnot h h' hc' hi')
  · by_cases he : c = c'
    · subst he
      exact Option.some.inj (hc.symm.trans hc')
    · obtain ⟨p, hp, hb⟩ := hcc.climb he
      cases hc.symm.trans hp
      exact absurd hb (hnot h' h hc hi)

end Starts

theorem Begun.disjoint {R R' : NodeId → Prop} (hw : t.WellFormed) (h : t.Begun i R b)
    (hR : ∀ c, R c → ¬ R' c) : ¬ t.Begun i R' b := by
  rintro ⟨c', hc', hr', hs'⟩
  obtain ⟨c, hc, hr, hs⟩ := h
  cases hw.eq_of_below hc hc' (hs.to_below hw) (hs'.to_below hw)
  exact hR _ hr hr'

theorem Begun.disjoint_role {r r' : Role} (hw : t.WellFormed) (h : t.Begun i (t.role · = r) b)
    (hr : r ≠ r') : ¬ t.Begun i (t.role · = r') b :=
  h.disjoint hw fun _ hc hc' => hr (hc.symm.trans hc')

/-- Climbing from part to statement never passes the body of a function. -/
theorem Code.below_of_inside (h : t.Code root) (hb : t.IsBody b) (hroot : t.Below root r)
    (hin : t.Inside r m) (hm : t.Below b m) : t.Below b r := by
  have hw := h.wellFormed
  obtain ⟨j, hj, hf, hr⟩ := hb.parent hw
  induction hin with
  | self => exact hm
  | @part p c hin hk hc ih =>
      have hbp (hbp : t.Below b p) : t.Below b r := ih hbp
      have hne {s : NodeId} (hs : t.parent s = some p) : s ≠ b := by
        rintro rfl
        cases hj.symm.trans hs
        cases hk.symm.trans (isStatement_of_isFunction hf)
      cases hc with
      | child hc =>
          obtain ⟨q, hq, hq'⟩ := hm.climb (hne hc)
          cases hc.symm.trans hq
          exact ih hq'
      | @grouped s _ hs hgroup hc =>
          by_cases hcb : c = b
          · subst hcb
            cases hj.symm.trans hc
            have hroot : t.Below root j := (hroot.trans hin.to_below).child hs
            cases hgroup.symm.trans (h.groups_of_isFunction hroot hf)
          · obtain ⟨q, hq, hq'⟩ := hm.climb hcb
            cases hc.symm.trans hq
            obtain ⟨q, hq, hq'⟩ := hq'.climb (hne hs)
            cases hs.symm.trans hq
            exact ih hq'

def Asunder (t : Tree) (b b' : NodeId) : Prop := ∀ x, t.Below b x → ¬ t.Below b' x

theorem Asunder.symm (h : t.Asunder b b') : t.Asunder b' b := fun x hx hx' => h x hx' hx

structure Separate (t : Tree) (bodies : List NodeId) : Prop where
  nodup : bodies.Nodup
  asunder {b b' : NodeId} (hb : b ∈ bodies) (hb' : b' ∈ bodies) (hne : b ≠ b') : t.Asunder b b'

theorem Separate.of_cons {bodies : List NodeId} (h : t.Separate (b :: bodies)) :
    t.Separate bodies ∧ ∀ b' ∈ bodies, t.Asunder b b' := by
  obtain ⟨hb, hn⟩ := List.nodup_cons.mp h.nodup
  refine ⟨⟨hn, fun hb hb' => h.asunder (List.mem_cons_of_mem _ hb) (List.mem_cons_of_mem _ hb')⟩,
    fun b' hb' => ?_⟩
  exact h.asunder List.mem_cons_self (List.mem_cons_of_mem _ hb') fun he => hb (he ▸ hb')

theorem Separate.of_append {l l' : List NodeId} (h : t.Separate (l ++ l')) :
    t.Separate l ∧ t.Separate l' ∧ ∀ b ∈ l, ∀ b' ∈ l', t.Asunder b b' := by
  obtain ⟨hl, hl', hd⟩ := List.nodup_append'.mp h.nodup
  refine ⟨⟨hl, fun hb hb' => h.asunder (List.mem_append_left _ hb) (List.mem_append_left _ hb')⟩,
    ⟨hl', fun hb hb' => h.asunder (List.mem_append_right _ hb) (List.mem_append_right _ hb')⟩,
    fun b hb b' hb' => ?_⟩
  exact h.asunder (List.mem_append_left _ hb) (List.mem_append_right _ hb') fun he =>
    hd hb (he ▸ hb')

def StartedIn (t : Tree) (r i b : NodeId) : Prop :=
  t.Inside r i ∧ ∃ c, t.parent c = some i ∧ t.Starts c b

namespace StartedIn

variable {r' : NodeId}

theorem isBody (h : t.StartedIn r i b) : t.IsBody b := by
  obtain ⟨-, c, -, hs⟩ := h
  exact hs.isBody

theorem to_below (hw : t.WellFormed) (h : t.StartedIn r i b) : t.Below r b := by
  obtain ⟨hin, c, hc, hs⟩ := h
  exact (hin.to_below.child hc).trans (hs.to_below hw)

theorem depth_lt (hw : t.WellFormed) (h : t.StartedIn r i b) : t.depth i < t.depth b := by
  obtain ⟨-, c, hc, hs⟩ := h
  have hd := hw.depth_of_parent hc
  have hle := hw.depth_le_of_below (hs.to_below hw)
  omega

theorem ne (hw : t.WellFormed) (h : t.StartedIn r i b) : b ≠ r := by
  rintro rfl
  have := h.depth_lt hw
  have := hw.depth_le_of_below h.1.to_below
  omega

theorem not_below_inside (h : t.Code root) (hr' : t.Below root r') (hrr : r = r' ∨ t.Asunder r r')
    (hb : t.StartedIn r i b) (hin : t.Inside r' x) : ¬ t.Below b x := by
  intro hbelow
  have hw := h.wellFormed
  have hbr : t.Below b r' := h.below_of_inside hb.isBody hr' hin hbelow
  rcases hrr with rfl | hrr
  · exact hb.ne hw (hw.below_antisymm hbr (hb.to_below hw))
  · exact hrr r' ((hb.to_below hw).trans hbr) .self

theorem not_below (h : t.Code root) (hr' : t.Below root r') (hrr : r = r' ∨ t.Asunder r r')
    (hb : t.StartedIn r i b) (hb' : t.StartedIn r' i' b') (hne : b ≠ b') : ¬ t.Below b b' := by
  have hw := h.wellFormed
  intro hbelow
  obtain ⟨hin, c', hc', hs'⟩ := hb'
  obtain ⟨_, _, _, hstatement⟩ := hb.isBody
  refine hb.not_below_inside h hr' hrr hin ?_
  rcases hbelow.total (hs'.to_below hw) with hx | hx
  · obtain ⟨p, hp, hx⟩ := hx.climb fun he => by
      cases (he ▸ hs'.isStatement).symm.trans hstatement
    cases hc'.symm.trans hp
    exact hx
  · exact absurd (hs'.eq_of_isStatement hw hx hbelow hstatement) hne

/-- Bodies that are started at different places have nothing in common. -/
theorem asunder (h : t.Code root) (hr : t.Below root r) (hr' : t.Below root r')
    (hrr : r = r' ∨ t.Asunder r r') (hb : t.StartedIn r i b) (hb' : t.StartedIn r' i' b')
    (hne : b ≠ b') : t.Asunder b b' := by
  intro x hx hx'
  rcases hx.total hx' with hbb | hbb
  · exact not_below h hr' hrr hb hb' hne hbb
  · exact not_below h hr (hrr.imp Eq.symm Asunder.symm) hb' hb (Ne.symm hne) hbb

end StartedIn

end TreeScribe.Tree

namespace TreeScribe.Flow

open TreeScribe.Tree

variable {t : Tree} {i b c : NodeId} {fuel : Nat}

theorem starts_of_mem (hw : t.WellFormed) (hb : b ∈ functionBodiesWithin t fuel c) :
    t.Starts c b := by
  induction fuel generalizing c with
  | zero => simp [functionBodiesWithin] at hb
  | succ fuel ih =>
      unfold functionBodiesWithin at hb
      split at hb
      · simp at hb
      · rename_i hk
        split at hb
        · cases List.mem_singleton.mp hb
          exact .body (by rw [isFunction, hk]) rfl ‹_›
        · simp at hb
      · rename_i hk
        split at hb
        · cases List.mem_singleton.mp hb
          exact .body (by rw [isFunction, hk]) rfl ‹_›
        · simp at hb
      · rename_i hs hl ha
        obtain ⟨d, hd, hb⟩ := List.mem_flatMap.mp hb
        refine .child ?_ ?_ (hw.mem_children.mp hd) (ih hb)
        · cases hk : t.kind c <;> simp_all [Kind.isStatement]
        · unfold isFunction
          split
          · exact absurd ‹_› (hl _)
          · exact absurd ‹_› (ha _ _)
          · rfl

theorem mem_of_starts (hw : t.WellFormed) (hf : t.size ≤ fuel + t.depth c) (h : t.Starts c b) :
    b ∈ functionBodiesWithin t fuel c := by
  have hlt : c < t.size := by
    cases h with
    | body hf hb hs => exact hw.lt_parent (hw.parent_of_body hb hs).1
    | child _ _ hc _ => exact hw.lt_parent hc
  have hdepth := hw.depth_lt hlt
  induction h generalizing fuel with
  | @body i b hfun hb hs =>
      obtain ⟨fuel, rfl⟩ : ∃ n, fuel = n + 1 := ⟨fuel - 1, by omega⟩
      unfold functionBodiesWithin
      unfold isFunction at hfun
      split at hfun
      · simp [*]
      · simp [*]
      · cases hfun
  | @child i c b hk hfun hc h ih =>
      obtain ⟨fuel, rfl⟩ : ∃ n, fuel = n + 1 := ⟨fuel - 1, by omega⟩
      have hd := hw.depth_of_parent hc
      have hin : b ∈ functionBodiesWithin t fuel c :=
        ih (by omega) (lt_of_parent hc) (hw.depth_lt (lt_of_parent hc))
      have hm := List.mem_flatMap.mpr ⟨c, hw.mem_children.mpr hc, hin⟩
      unfold functionBodiesWithin
      split
      · rename_i hks
        rw [hks] at hk
        cases hk
      · rename_i hkl
        rw [isFunction, hkl] at hfun
        cases hfun
      · rename_i hka
        rw [isFunction, hka] at hfun
        cases hfun
      · exact hm

theorem nodup_flatMap_bodies (hw : t.WellFormed) {nodes : List NodeId} (hn : nodes.Nodup)
    (hp : ∀ c ∈ nodes, t.parent c = some i)
    (hd : ∀ c ∈ nodes, (functionBodiesWithin t fuel c).Nodup) :
    (nodes.flatMap (functionBodiesWithin t fuel)).Nodup := by
  refine List.nodup_flatMap.mpr ⟨hd, hn.imp_of_mem fun {c d} hc hd hne b hb hb' => hne ?_⟩
  exact hw.eq_of_below (hp c hc) (hp d hd) ((starts_of_mem hw hb).to_below hw)
    ((starts_of_mem hw hb').to_below hw)

theorem nodup_functionBodiesWithin (hw : t.WellFormed) : (functionBodiesWithin t fuel c).Nodup := by
  induction fuel generalizing c with
  | zero => exact List.nodup_nil
  | succ fuel ih =>
      unfold functionBodiesWithin
      split
      · exact List.nodup_nil
      · split <;> simp
      · split <;> simp
      · exact nodup_flatMap_bodies hw (hw.linked.nodup c) (fun d hd => hw.mem_children.mp hd)
          fun _ _ => ih

theorem nodup_functionBodies (hw : t.WellFormed) : (functionBodies t i).Nodup :=
  nodup_flatMap_bodies hw (hw.linked.nodup i) (fun _ hd => hw.mem_children.mp hd) fun _ _ =>
    nodup_functionBodiesWithin hw

theorem mem_functionBodies (hw : t.WellFormed) :
    b ∈ functionBodies t i ↔ ∃ c, t.parent c = some i ∧ t.Starts c b := by
  unfold functionBodies
  rw [List.mem_flatMap]
  constructor
  · rintro ⟨c, hc, hb⟩
    exact ⟨c, hw.mem_children.mp hc, starts_of_mem hw hb⟩
  · rintro ⟨c, hc, hb⟩
    exact ⟨c, hw.mem_children.mpr hc, mem_of_starts hw (Nat.le_add_right _ _) hb⟩

end TreeScribe.Flow
