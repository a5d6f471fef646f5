import TreeScribe.Proofs.Tree.Below
import TreeScribe.Proofs.Tree.Edits

namespace TreeScribe.Tree

variable {t u : Tree} {a c i p q v x y : NodeId} {r : Role} {l₁ l₂ : List NodeId}

/-- What stands where `c` stood once `v` is in new parentheses. -/
def standIn (t : Tree) (v c : NodeId) : NodeId := if c = v then t.size else c

theorem standIn_self : t.standIn v v = t.size := if_pos rfl

theorem standIn_of_ne (hc : c ≠ v) : t.standIn v c = c := if_neg hc

theorem map_standIn_of_notMem {l : List NodeId} (hv : v ∉ l) : l.map (t.standIn v) = l := by
  refine (List.map_congr_left fun c hc => ?_).trans (List.map_id l)
  exact standIn_of_ne fun he => hv (he ▸ hc)

/-- One node is new in `u`. It stands where `v` stood in `t`, in its role, and has `v` as its only
child. -/
structure Wrapped (t : Tree) (v : NodeId) (u : Tree) : Prop where
  wellFormed : u.WellFormed
  size : u.size = t.size + 1
  kind (x : NodeId) : u.kind x = if x = t.size then .expression .parenthesized else t.kind x
  role (x : NodeId) : u.role x = if x = v then .expression else if x = t.size then t.role v
    else t.role x
  parent (x : NodeId) : u.parent x = if x = v then some t.size else if x = t.size then t.parent v
    else t.parent x
  children (x : NodeId) : u.children x =
    if x = t.size then [v] else (t.children x).map (t.standIn v)
  placements : u.placements = t.placements
  marks : u.marks = t.marks

theorem Below.mono (h : u.Below a x)
    (hp : ∀ c p, c ≠ a → u.parent c = some p → t.parent c = some p) : t.Below a x := by
  induction h with
  | self => exact .self
  | child _ hc ih =>
      rename_i p c _
      by_cases hca : c = a
      · subst c
        exact .self
      · exact ih.child (hp c p hca hc)

theorem parent_of_size_le (hx : t.size ≤ x) : t.parent x = none := by
  rw [parent, node_of_size_le hx]
  rfl

theorem kind_alloc {k : Kind} : (t.alloc k).2.kind x = if x = t.size then k else t.kind x := by
  rw [kind, node_alloc]
  split <;> rfl

theorem role_alloc {k : Kind} : (t.alloc k).2.role x = t.role x := by
  rw [role, node_alloc]
  split
  · rename_i hx
    rw [role, node_of_size_le (Nat.le_of_eq hx.symm)]
    rfl
  · rfl

namespace WellFormed

theorem children_of_size_le (h : t.WellFormed) (hx : t.size ≤ x) : t.children x = [] := by
  rw [← List.head?_eq_none_iff, ← h.linked.first, firstChild, node_of_size_le hx]
  rfl

theorem not_below_of_parent_none (h : t.WellFormed) (hx : t.parent x = none) (hne : x ≠ a) :
    ¬ t.Below a x := by
  rw [h.below_iff, h.ancestors_of_parent_none hx]
  simpa using Ne.symm hne

theorem attachable (h : t.WellFormed) (hp : p ≠ .null) (hc : t.parent c = none)
    (hb : ¬ t.Below c p) : t.Attachable p c := by
  refine ⟨hp, hc, ?_⟩
  rwa [← Bool.not_eq_true, h.isAncestorOrSelf_eq_true_iff]

theorem enclose_eq (h : t.WellFormed) (hv : t.parent v = none) (hvn : v ≠ .null)
    (hlt : v < t.size) :
    ∃ u, t.enclose v = .ok (t.size, u) ∧ u.WellFormed ∧ u.size = t.size + 1 ∧
      (∀ x, u.kind x = if x = t.size then .expression .parenthesized else t.kind x) ∧
      (∀ x, u.role x = if x = v then .expression else t.role x) ∧
      (∀ x, u.parent x = if x = v then some t.size else t.parent x) ∧
      u.children = Function.update t.children t.size [v] ∧
      u.placements = t.placements ∧ u.marks = t.marks := by
  have ha := h.alloc (.expression .parenthesized)
  have hs : SameLinks t (t.alloc (.expression .parenthesized)).2 := sameLinks_alloc
  have hk : (t.alloc (.expression .parenthesized)).2.children t.size = [] ++ [] := by
    rw [hs.children_eq h, h.children_of_size_le (Nat.le_refl _), List.nil_append]
  have hp : t.size < (t.alloc (.expression .parenthesized)).2.size := by simp
  have hc := Nat.lt_trans hlt hp
  have hcp := (hs.parent v).trans hv
  have hr := (hs.parent t.size).trans (parent_of_size_le (Nat.le_refl _))
  have hat := ha.attachable (Nat.ne_of_gt h.size_pos)
    hcp (ha.not_below_of_parent_none hr (Nat.ne_of_gt hlt))
  have he := ha.insertBefore_eq (r := .expression) hk hvn hat
  refine ⟨_, ?_, ha.link (r := .expression) hp hat.1 hc hvn hcp hat.2.2 hk,
    by simp, fun x => ?_, fun x => ?_, fun x => ?_, ?_, rfl, rfl⟩
  · simp only [enclose, bind, Except.bind, pure, Except.pure]
    exact congrArg (fun e => Except.bind e fun u => .ok (t.size, u)) he
  · rw [ha.kind_link hp hc hk, kind_alloc]
  · rw [ha.role_link hp hc hk, role_alloc]
  · rw [ha.parent_link hp hc hk, hs.parent]
  · rw [ha.children_link hp hc hcp hk, hs.children_eq h]
    rfl

theorem wrapped (h : t.WellFormed) (hv : t.parent v = some q) : Wrapped t v (t.parenthesize v) := by
  obtain ⟨l₁, l₂, hk⟩ := h.exists_split hv
  obtain ⟨hv₁, hv₂⟩ := h.linked.notMem_of_split hk
  have hlt : v < t.size := lt_of_parent hv
  have hqlt : q < t.size := h.lt_parent hv
  have hqn : q ≠ .null := h.parent_ne_null hv
  have hvn : v ≠ .null := h.ne_null hv
  have hd := h.detach v
  have hdv : (t.detach v).parent v = none := by rw [h.parent_detach, if_pos rfl]
  obtain ⟨w, he, hw, hws, hwk, hwr, hwp, hwc, hwl, hwm⟩ :=
    hd.enclose_eq hdv hvn (by simpa using hlt)
  rw [size_detach] at he hws hwk hwp hwc
  have hwq : w.children q = l₁ ++ l₂ := by
    rw [hwc, Function.update_of_ne (Nat.ne_of_lt hqlt), h.children_detach hk, Function.update_self]
  have hpn : t.size ≠ NodeId.null := Nat.ne_of_gt h.size_pos
  have hpp : w.parent t.size = none := by
    rw [hwp, if_neg (Nat.ne_of_gt hlt), h.parent_detach, if_neg (Nat.ne_of_gt hlt),
      parent_of_size_le (Nat.le_refl _)]
  -- Climbing from `q` never came to `v`, so it does not come to the parentheses around `v` either.
  have hb : ¬ w.Below t.size q := by
    intro hb
    rcases hb.cases_top with hq | ⟨c, hc, hb⟩
    · exact Nat.ne_of_lt hqlt hq
    · have hcv : c = v := by
        have hm := hw.mem_children.mpr hc
        rw [hwc, Function.update_self] at hm
        simpa using hm
      subst c
      refine h.not_below_of_parent hv (hb.mono fun c p hcv hc => ?_)
      rwa [hwp, if_neg hcv, h.parent_detach, if_neg hcv] at hc
  have hat := hw.attachable hqn hpp hb
  have hl := hw.insertBefore_eq (r := t.role v) hwq hpn hat
  have hp : t.parenthesize v = w.link q (t.role v) l₁.getLast? l₂.head? t.size := by
    have hr : t.replaceWith v enclose =
        .ok (t.size, w.link q (t.role v) l₁.getLast? l₂.head? t.size) := by
      refine replaceWith_eq_ok_iff.mpr ⟨w, he, ?_⟩
      rw [hv, h.linked.next hk]
      exact hl
    rw [parenthesize, hr]
    rfl
  have hqw : q < w.size := hws ▸ Nat.lt_succ_of_lt hqlt
  have hpw : t.size < w.size := hws ▸ Nat.lt_succ_self _
  rw [hp]
  refine ⟨hw.link hqw hqn hpw hpn hpp hat.2.2 hwq,
    by simpa using hws, fun x => ?_, fun x => ?_, fun x => ?_, fun x => ?_, ?_, ?_⟩
  · rw [hw.kind_link hqw hpw hwq, hwk, h.kind_detach]
  · rw [hw.role_link hqw hpw hwq, hwr, h.role_detach]
    by_cases hx : x = v
    · rw [if_pos hx, if_pos hx, if_neg (hx ▸ Nat.ne_of_lt hlt)]
    · rw [if_neg hx, if_neg hx]
  · rw [hw.parent_link hqw hpw hwq, hwp, h.parent_detach, hv]
    by_cases hx : x = v
    · rw [if_pos hx, if_pos hx, if_neg (hx ▸ Nat.ne_of_lt hlt)]
    · rw [if_neg hx, if_neg hx, if_neg hx]
  · rw [hw.children_link hqw hpw hpp hwq, hwc, h.children_detach hk]
    by_cases hxq : x = q
    · rw [hxq, Function.update_self, if_neg (Nat.ne_of_lt hqlt), hk, List.map_append, List.map_cons,
        standIn_self, map_standIn_of_notMem hv₁, map_standIn_of_notMem hv₂]
    · rw [Function.update_of_ne hxq]
      by_cases hx : x = t.size
      · rw [hx, Function.update_self, if_pos rfl]
      · rw [Function.update_of_ne hx, Function.update_of_ne hxq, if_neg hx, map_standIn_of_notMem]
        exact fun hm => hxq (Option.some.inj ((h.mem_children.mp hm).symm.trans hv))
  · rw [placements_link, hwl, placements_detach]
  · rw [marks_link, hwm, marks_detach]

end WellFormed

namespace Wrapped

variable (h : t.WellFormed) (hv : t.parent v = some q) (hw : Wrapped t v u)

include hw in
theorem kind_old (hx : x < t.size) : u.kind x = t.kind x := by
  rw [hw.kind, if_neg (Nat.ne_of_lt hx)]

include hw in
theorem kind_new : u.kind t.size = .expression .parenthesized := by
  rw [hw.kind, if_pos rfl]

include hv hw in
theorem parent_new : u.parent t.size = some q := by
  rw [hw.parent, if_neg (Nat.ne_of_gt (lt_of_parent hv)), if_pos rfl, hv]

include hw in
theorem parent_inner : u.parent v = some t.size := by
  rw [hw.parent, if_pos rfl]

include hw in
theorem parent_old (hx : x < t.size) (hxv : x ≠ v) : u.parent x = t.parent x := by
  rw [hw.parent, if_neg hxv, if_neg (Nat.ne_of_lt hx)]

include h hv in
theorem standIn_null : t.standIn v .null = .null := standIn_of_ne (Ne.symm (h.ne_null hv))

include hw in
theorem role_standIn (hx : x < t.size) : u.role (t.standIn v x) = t.role x := by
  rw [hw.role]
  by_cases hxv : x = v
  · rw [hxv, standIn_self, if_neg, if_pos rfl]
    exact fun he => Nat.ne_of_lt hx (hxv.trans he.symm)
  · rw [standIn_of_ne hxv, if_neg hxv, if_neg (Nat.ne_of_lt hx)]

include h hw in
theorem childrenIn_old (hx : x < t.size) :
    u.childrenIn x r = (t.childrenIn x r).map (t.standIn v) := by
  rw [childrenIn, hw.children, if_neg (Nat.ne_of_lt hx), List.filter_map]
  refine congrArg _ (List.filter_congr fun c hc => ?_)
  rw [Function.comp, hw.role_standIn (lt_of_parent (h.mem_children.mp hc))]

include h hv hw in
theorem child_old (hx : x < t.size) : u.child x r = t.standIn v (t.child x r) := by
  rw [child, child, hw.childrenIn_old h hx]
  cases t.childrenIn x r with
  | nil => exact (standIn_null h hv).symm
  | cons c l => rfl

include h hv hw in
theorem hasChild_old (hx : x < t.size) : u.hasChild x r = t.hasChild x r := by
  rw [hasChild, hasChild, hw.child_old h hv hx]
  by_cases hc : t.child x r = v
  · have hs : t.size ≠ NodeId.null := Nat.ne_of_gt h.size_pos
    rw [hc, standIn_self, bne_iff_ne.mpr hs, bne_iff_ne.mpr (h.ne_null hv)]
  · rw [standIn_of_ne hc]

include hv hw in
theorem below (hb : t.Below a x) : u.Below a x := by
  induction hb with
  | self => exact .self
  | child _ hc ih =>
      rename_i p c _
      by_cases hcv : c = v
      · subst c
        cases hc.symm.trans hv
        exact (ih.child (hw.parent_new hv)).child hw.parent_inner
      · exact ih.child ((hw.parent_old (lt_of_parent hc) hcv).trans hc)

include h hv hw in
/-- What is below an old node now was so before; the new node is where `v` was. -/
theorem below_old (ha : a < t.size) (hb : u.Below a x) :
    (x < t.size → t.Below a x) ∧ (x = t.size → t.Below a q) := by
  induction hb with
  | self => exact ⟨fun _ => .self, fun hx => absurd hx (Nat.ne_of_lt ha)⟩
  | child _ hc ih =>
      rename_i p c _
      constructor
      · intro hlt
        by_cases hcv : c = v
        · subst c
          cases hc.symm.trans hw.parent_inner
          exact (ih.2 rfl).child hv
        · rw [hw.parent_old hlt hcv] at hc
          exact (ih.1 (h.lt_parent hc)).child hc
      · rintro rfl
        cases hc.symm.trans (hw.parent_new hv)
        exact ih.1 (h.lt_parent hv)

include h hv hw in
theorem depth_le (hx : x < t.size) : t.depth x ≤ u.depth x := by
  generalize hn : t.depth x = n
  induction n generalizing x with
  | zero => exact Nat.zero_le _
  | succ n ih =>
      cases hp : t.parent x with
      | none => simp [depth, h.ancestors_of_parent_none hp] at hn
      | some p =>
          have hd := h.depth_of_parent hp
          have ihp := ih (x := p) (h.lt_parent hp) (by omega)
          by_cases hxv : x = v
          · subst x
            cases hp.symm.trans hv
            rw [hw.wellFormed.depth_of_parent hw.parent_inner,
              hw.wellFormed.depth_of_parent (hw.parent_new hv)]
            omega
          · rw [hw.wellFormed.depth_of_parent ((hw.parent_old hx hxv).trans hp)]
            omega

include h hv hw in
theorem children_of_not_below (hx : x < t.size) (ha : t.Below a q) (hb : ¬ t.Below a x) :
    u.children x = t.children x := by
  rw [hw.children, if_neg (Nat.ne_of_lt hx), map_standIn_of_notMem]
  intro hm
  cases (h.mem_children.mp hm).symm.trans hv
  exact hb ha

include h hv hw in
theorem node_of_not_below (hx : x < t.size) (ha : t.Below a q) (hb : ¬ t.Below a x) :
    u.node x = t.node x := by
  have hxv : x ≠ v := fun he => hb (he ▸ ha.child hv)
  refine h.node_congr hw.wellFormed (hw.kind_old hx) ?_ (hw.parent_old hx hxv)
    (hw.children_of_not_below h hv hx ha hb) fun p hp => ?_
  · rw [hw.role, if_neg hxv, if_neg (Nat.ne_of_lt hx)]
  · exact hw.children_of_not_below h hv (h.lt_parent hp) ha fun hb' => hb (hb'.child hp)

include h hv hw in
/-- An ancestor of `v` keeps its place under its own parent. -/
theorem place_of_above (ha : t.Below a q) : u.parent a = t.parent a ∧ u.role a = t.role a ∧
    u.nextSibling a = t.nextSibling a ∧ u.prevSibling a = t.prevSibling a := by
  have hav : a ≠ v := fun he => h.not_below_of_parent hv (he ▸ ha)
  have hlt := h.lt_of_below ha (h.lt_parent hv)
  have hp := hw.parent_old hlt hav
  refine ⟨hp, ?_, h.siblings_congr hw.wellFormed hp fun p hp => ?_⟩
  · rw [hw.role, if_neg hav, if_neg (Nat.ne_of_lt hlt)]
  · exact hw.children_of_not_below h hv (h.lt_parent hp) ha (h.not_below_of_parent hp)

end Wrapped

def unwrapLast (t : Tree) : Tree :=
  let p := t.size - 1
  let c := (t.firstChild p).getD .null
  let u := ((t.detach c).replace p c).toOption.getD t
  { u with nodes := u.nodes.pop }

theorem node_pop {x : Nat} : ({ t with nodes := t.nodes.pop } : Tree).node x =
    if x = t.size - 1 then .detached .null else t.node x := by
  simp only [node, size, Array.getD_eq_getD_getElem?, Array.getElem?_pop]
  by_cases hx : x = t.nodes.size - 1
  · rw [if_pos hx, if_neg (Nat.not_lt.mpr (Nat.le_of_eq hx.symm))]
    rfl
  · rw [if_neg hx]
    split
    · rfl
    · rw [Array.getElem?_eq_none]
      omega

theorem sameLinks_pop (h : t.WellFormed) (hp : t.parent (t.size - 1) = none)
    (hc : t.children (t.size - 1) = []) : SameLinks t { t with nodes := t.nodes.pop } := by
  have hf : t.firstChild (t.size - 1) = none := by rw [h.linked.first, hc]; rfl
  have hl : t.lastChild (t.size - 1) = none := by rw [h.linked.last, hc]; rfl
  obtain ⟨hn, hv⟩ := h.single _ hp
  constructor <;> intro x <;> by_cases hx : x = t.size - 1 <;>
    simp only [parent, firstChild, lastChild, nextSibling, prevSibling, node_pop, hx, if_true,
      if_false] <;>
    first | exact hp.symm | exact hf.symm | exact hl.symm | exact hn.symm | exact hv.symm

namespace Wrapped

/-- The child of the parentheses can take their place and role: all links are then as they were. -/
theorem replace_new (h : t.WellFormed) (hv : t.parent v = some q) (hw : Wrapped t v u) :
    ∃ w, (u.detach v).replace t.size v = .ok w ∧ w.WellFormed ∧ w.size = t.size + 1 ∧
      (∀ x, w.kind x = u.kind x) ∧ (∀ x, w.role x = if x = v then t.role v else u.role x) ∧
      (∀ x, w.parent x = if x = t.size then none else t.parent x) ∧ w.children = t.children ∧
      w.placements = u.placements ∧ w.marks = u.marks := by
  obtain ⟨l₁, l₂, hk⟩ := h.exists_split hv
  obtain ⟨hv₁, hv₂⟩ := h.linked.notMem_of_split hk
  have hu := hw.wellFormed
  have hlt : v < t.size := lt_of_parent hv
  have hqlt : q < t.size := h.lt_parent hv
  have hkp : u.children t.size = [] ++ v :: [] := by rw [hw.children, if_pos rfl, List.nil_append]
  have hkq : u.children q = l₁ ++ t.size :: l₂ := by
    rw [hw.children, if_neg (Nat.ne_of_lt hqlt), hk, List.map_append, List.map_cons, standIn_self,
      map_standIn_of_notMem hv₁, map_standIn_of_notMem hv₂]
  have hd := hu.detach v
  have hdk : (u.detach v).children q = l₁ ++ t.size :: l₂ := by
    rw [hu.children_detach hkp, Function.update_of_ne (Nat.ne_of_lt hqlt), hkq]
  have he := hd.detach t.size
  have hek : ((u.detach v).detach t.size).children q = l₁ ++ l₂ := by
    rw [hd.children_detach hdk, Function.update_self]
  have hev : ((u.detach v).detach t.size).parent v = none := by
    rw [hd.parent_detach, hu.parent_detach, if_neg (Nat.ne_of_lt hlt), if_pos rfl]
  have hb : ¬ ((u.detach v).detach t.size).Below v q := by
    intro hb
    refine h.not_below_of_parent hv (hb.mono fun c p hcv hc => ?_)
    rw [hd.parent_detach, hu.parent_detach, if_neg hcv] at hc
    split at hc
    · cases hc
    · rename_i hcs
      rwa [hw.parent, if_neg hcv, if_neg hcs] at hc
  have hat := he.attachable (h.parent_ne_null hv) hev hb
  have hl := he.insertBefore_eq (r := t.role v) hek (h.ne_null hv) hat
  have hr : (u.detach v).replace t.size v =
      .ok (((u.detach v).detach t.size).link q (t.role v) l₁.getLast? l₂.head? v) := by
    have hp : (u.detach v).parent t.size = some q := by
      rw [hu.parent_detach, if_neg (Nat.ne_of_gt hlt), hw.parent_new hv]
    have hrole : (u.detach v).role t.size = t.role v := by
      rw [hu.role_detach, hw.role, if_neg (Nat.ne_of_gt hlt), if_pos rfl]
    rw [replace, hp]
    simp only [hd.linked.next hdk, hrole]
    exact hl
  have hfq : q < ((u.detach v).detach t.size).size := by
    rw [size_detach, size_detach, hw.size]
    exact Nat.lt_succ_of_lt hqlt
  have hfv : v < ((u.detach v).detach t.size).size := by
    rw [size_detach, size_detach, hw.size]
    exact Nat.lt_succ_of_lt hlt
  refine ⟨_, hr, he.link hfq hat.1 hfv (h.ne_null hv) hev hat.2.2 hek, ?_, fun x => ?_, fun x => ?_,
    fun x => ?_, ?_, ?_, ?_⟩
  · rw [size_link, size_detach, size_detach, hw.size]
  · rw [he.kind_link hfq hfv hek, hd.kind_detach, hu.kind_detach]
  · rw [he.role_link hfq hfv hek, hd.role_detach, hu.role_detach]
  · rw [he.parent_link hfq hfv hek, hd.parent_detach, hu.parent_detach, hw.parent]
    by_cases hxv : x = v
    · rw [if_pos hxv, if_neg (hxv ▸ Nat.ne_of_lt hlt), hxv, hv]
    · by_cases hx : x = t.size
      · rw [if_neg hxv, if_pos hx, if_pos hx]
      · rw [if_neg hxv, if_neg hx, if_neg hxv, if_neg hxv, if_neg hx, if_neg hx]
  · rw [he.children_link hfq hfv hev hek, hd.children_detach hdk, hu.children_detach hkp]
    funext x
    by_cases hxq : x = q
    · rw [hxq, Function.update_self, hk]
    · rw [Function.update_of_ne hxq, Function.update_of_ne hxq]
      by_cases hx : x = t.size
      · rw [hx, Function.update_self, h.children_of_size_le (Nat.le_refl _), List.nil_append]
      · rw [Function.update_of_ne hx, hw.children, if_neg hx, map_standIn_of_notMem]
        exact fun hm => hxq (Option.some.inj ((h.mem_children.mp hm).symm.trans hv))
  · rw [placements_link, placements_detach, placements_detach]
  · rw [marks_link, marks_detach, marks_detach]

theorem unwrapLast_eq (h : t.WellFormed) (hv : t.parent v = some q) (hw : Wrapped t v u) :
    u.unwrapLast = t := by
  obtain ⟨w, hr, hww, hws, hwk, hwr, hwp, hwc, hwl, hwm⟩ := hw.replace_new h hv
  have hlast : w.size - 1 = t.size := by rw [hws, Nat.add_sub_cancel]
  have hun : u.unwrapLast = { w with nodes := w.nodes.pop } := by
    have hfirst : u.firstChild t.size = some v := by
      rw [hw.wellFormed.linked.first, hw.children, if_pos rfl]
      rfl
    rw [unwrapLast, hw.size, Nat.add_sub_cancel, hfirst, Option.getD_some, hr]
    rfl
  have hs := sameLinks_pop hww (by rw [hlast, hwp, if_pos rfl])
    (by rw [hlast, hwc, h.children_of_size_le (Nat.le_refl _)])
  have hnull : NodeId.null ≠ w.size - 1 := hlast ▸ Nat.ne_of_lt h.size_pos
  have hsize : ({ w with nodes := w.nodes.pop } : Tree).size = t.size :=
    Array.size_pop.trans hlast
  rw [hun]
  refine h.ext (hs.wellFormed hww ?_ ?_) ?_ (fun x => ?_) (fun x => ?_) (fun x => ?_)
    ?_ (hwl.trans hw.placements)
    (hwm.trans hw.marks)
  · rw [Tree.kind, node_pop, if_neg hnull]
    exact hww.null_kind
  · rw [hsize]
    exact h.size_pos
  · exact hsize
  · rw [Tree.kind, node_pop, hlast]
    by_cases hx : x = t.size
    · rw [if_pos hx, Tree.kind, node_of_size_le (Nat.le_of_eq hx.symm)]
    · rw [if_neg hx, ← Tree.kind, hwk, hw.kind, if_neg hx]
  · rw [Tree.role, node_pop, hlast]
    by_cases hx : x = t.size
    · rw [if_pos hx, Tree.role, node_of_size_le (Nat.le_of_eq hx.symm)]
    · rw [if_neg hx, ← Tree.role, hwr, hw.role, if_neg hx]
      by_cases hxv : x = v
      · rw [if_pos hxv, hxv]
      · rw [if_neg hxv, if_neg hxv]
  · rw [hs.parent, hwp]
    by_cases hx : x = t.size
    · rw [if_pos hx, parent_of_size_le (Nat.le_of_eq hx.symm)]
    · rw [if_neg hx]
  · rw [hs.children_eq hww, hwc]

end Wrapped

end TreeScribe.Tree
