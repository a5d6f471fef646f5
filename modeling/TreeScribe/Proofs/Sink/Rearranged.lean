import Mathlib.Data.List.DropRight
import Mathlib.Data.List.Forall2
import TreeScribe.Proofs.Sink.Arranged

namespace TreeScribe

def Entry.node? : Entry → Option NodeId
  | .node i => some i
  | .token .. | .modifier .. => none

def leading (f : NodeId → Bool) (l : List NodeId) (x : NodeId) : List NodeId :=
  (l.takeWhile (· != x)).rtakeWhile (!f ·)

def trailing (f : NodeId → Bool) (l : List NodeId) : List NodeId := l.rtakeWhile (!f ·)

namespace Tree

def lasting (t : Tree) (p : NodeId) : List NodeId := (t.children p).filter fun c => !t.isTokenNode c

structure TokenAt (t : Tree) (k : Kind) (r : Role) (rg : TextRange) (x : NodeId) : Prop where
  lt : x < t.size
  kind : t.kind x = k
  role : t.role x = r
  children : t.children x = []
  place : t.placements[x]? = some ⟨some rg.start, some rg.stop⟩

/-- What became of an entry of `p` in `u`: a child, behind those before it that were not written, or
a new token. -/
def Attached (t : Tree) (p : NodeId) (f : NodeId → Bool) (u : Tree) : Entry → List NodeId → Prop
  | .node j, piece => piece = if j ∈ t.lasting p then leading f (t.lasting p) j ++ [j] else []
  | .token r rg, piece => ∃ x, t.size ≤ x ∧ u.TokenAt .token r rg x ∧ piece = [x]
  | .modifier m rg, piece => ∃ x, t.size ≤ x ∧ u.TokenAt (.modifier m) .modifier rg x ∧ piece = [x]

/-- The children of `p` in `u` are those that the entries say. -/
def Rearranged (t : Tree) (p : NodeId) (entries : List Entry) (u : Tree) : Prop :=
  let f := fun i => entries.contains (.node i)
  ∃ pieces, List.Forall₂ (t.Attached p f u) entries pieces ∧
    u.children p = pieces.flatten ++ trailing f (t.lasting p)

end Tree

structure Moves (t : Tree) (p : NodeId) (u : Tree) : Prop where
  kept : Kept t u
  children_ne {q : NodeId} (hq : q ≠ p) : u.children q = t.children q
  placement_old {x : NodeId} (hx : x < t.size) : u.placements[x]? = t.placements[x]?
  marks : u.marks = t.marks

variable {t u v : Tree} {c p q x : NodeId} {f : NodeId → Bool} {l acc : List NodeId} {k : Kind}
  {r : Role}
  {rg : TextRange} {e : Entry} {entries : List Entry} {runs : List (NodeId × List NodeId)}

theorem rtakeWhile_append_of_pos {g : NodeId → Bool} (h : ∀ y ∈ acc, g y = true) :
    (l ++ acc).rtakeWhile g = l.rtakeWhile g ++ acc := by
  rw [List.rtakeWhile, List.reverse_append,
    List.takeWhile_append_of_pos fun y hy => h y (List.mem_reverse.mp hy), List.reverse_append,
    List.reverse_reverse, List.rtakeWhile]

theorem rtakeWhile_append_cons_of_neg {g : NodeId → Bool} (h : g x = false) :
    (l ++ x :: acc).rtakeWhile g = acc.rtakeWhile g := by
  have hx : (x :: l.reverse).takeWhile g = [] := List.takeWhile_cons_of_neg (by simp [h])
  rw [List.rtakeWhile, List.reverse_append, List.reverse_cons, List.append_assoc,
    List.singleton_append, List.takeWhile_append, hx, List.append_nil, List.rtakeWhile]
  split
  · rename_i hl
    rw [(List.takeWhile_prefix g).eq_of_length hl]
  · rfl

theorem leading_append (hx : x ∉ l) : leading f (l ++ x :: acc) x = l.rtakeWhile (!f ·) := by
  have hn : ∀ y ∈ l, (y != x) = true := fun y hy => by
    rw [bne_iff_ne]
    rintro rfl
    exact hx hy
  rw [leading, List.takeWhile_append_of_pos hn, List.takeWhile_cons_of_neg (by simp),
    List.append_nil]

theorem leading_append_of_mem (hx : x ∈ l) : leading f (l ++ acc) x = leading f l x := by
  obtain ⟨a, b, rfl, ha⟩ := List.eq_append_cons_of_mem hx
  rw [List.append_assoc, List.cons_append, leading_append ha, leading_append ha]

theorem mem_of_mem_leading (h : x ∈ leading f l c) : x ∈ l ∧ f x = false :=
  ⟨(List.takeWhile_prefix _).subset ((List.rtakeWhile_suffix _ _).subset h),
    by simpa using List.mem_rtakeWhile_imp (p := fun y => !f y) h⟩

theorem mem_of_mem_trailing (h : x ∈ trailing f l) : x ∈ l ∧ f x = false :=
  ⟨(List.rtakeWhile_suffix _ _).subset h,
      by simpa using List.mem_rtakeWhile_imp (p := fun y => !f y) h⟩

theorem mem_leading_or_trailing (hx : x ∈ l) (hd : l.Nodup) :
    x ∈ trailing f l ∨ ∃ j ∈ l, f j = true ∧ x ∈ leading f l j ++ [j] := by
  induction l using List.reverseRecOn with
  | nil => cases hx
  | append_singleton l y ih =>
      obtain ⟨hd, -, hy⟩ := List.nodup_append.mp hd
      have hyl : y ∉ l := fun hm => hy y hm y (by simp) rfl
      rw [List.mem_append, List.mem_singleton] at hx
      cases hf : f y with
      | true =>
          rcases hx with hx | rfl
          · rcases ih hx hd with ht | ⟨j, hj, hfj, hxj⟩
            · exact .inr
                ⟨y, by simp, hf, by rw [leading_append hyl]; exact List.mem_append_left _ ht⟩
            · exact .inr ⟨j, by simp [hj], hfj, by rwa [leading_append_of_mem hj]⟩
          · exact .inr ⟨x, by simp, hf, by simp⟩
      | false =>
          have ht : trailing f (l ++ [y]) = trailing f l ++ [y] :=
            rtakeWhile_append_of_pos (by simp [hf])
          rw [ht]
          rcases hx with hx | rfl
          · rcases ih hx hd with ht | ⟨j, hj, hfj, hxj⟩
            · exact .inl (List.mem_append_left _ ht)
            · exact .inr ⟨j, by simp [hj], hfj, by rwa [leading_append_of_mem hj]⟩
          · exact .inl (by simp)

namespace Tree

/-- The runs of a list are what stands right before the members that `f` holds for. -/
theorem lookup_runsBefore (hf : f x = true) (hacc : ∀ y ∈ acc, f y = false) :
    (runsBefore f acc l).1.lookup x = if x ∈ l then some (leading f (acc.reverse ++ l) x)
    else none := by
  have hx : x ∉ acc := fun hx => by simp [hacc x hx] at hf
  induction l generalizing acc with
  | nil => rfl
  | cons i l ih =>
      rw [runsBefore]
      split
      · rename_i hi
        rw [List.lookup_cons]
        by_cases hxi : x = i
        · subst hxi
          have hall : ∀ y ∈ acc.reverse, (!f y) = true :=
            fun y hy => by simp [hacc y (List.mem_reverse.mp hy)]
          have hl : leading f (acc.reverse ++ x :: l) x = acc.reverse := by
            rw [leading_append (by simpa using hx), List.rtakeWhile_eq_self_iff.mpr hall]
          simp [hl]
        · have hrest := @ih [] (by simp) (by simp)
          have hl (hm : x ∈ l) : leading f (acc.reverse ++ i :: l) x = leading f l x := by
            obtain ⟨a, b, rfl, ha⟩ := List.eq_append_cons_of_mem hm
            have hn : x ∉ acc.reverse ++ i :: a := by simp [hx, hxi, ha]
            have he : acc.reverse ++ i :: (a ++ x :: b) = (acc.reverse ++ i :: a) ++ x :: b := by
              simp
            rw [he, leading_append hn, leading_append ha,
              rtakeWhile_append_cons_of_neg (by simp [hi])]
          rw [beq_eq_false_iff_ne.mpr hxi, hrest]
          by_cases hm : x ∈ l
          · simp [hm, hl hm]
          · simp [hm, hxi]
      · rename_i hi
        have hxi : x ≠ i := by
          rintro rfl
          exact hi hf
        have hrest := @ih (i :: acc) (List.forall_mem_cons.mpr ⟨by simpa using hi, hacc⟩)
          (by simp [hxi, hx])
        simp only [List.reverse_cons, List.append_assoc, List.singleton_append] at hrest
        rw [hrest]
        simp [hxi]

theorem snd_runsBefore (hacc : ∀ y ∈ acc, f y = false) :
    (runsBefore f acc l).2 = trailing f (acc.reverse ++ l) := by
  induction l generalizing acc with
  | nil =>
      have hall : ∀ y ∈ acc.reverse, (!f y) = true :=
        fun y hy => by simp [hacc y (List.mem_reverse.mp hy)]
      rw [runsBefore, List.append_nil, trailing, List.rtakeWhile_eq_self_iff.mpr hall]
  | cons i l ih =>
      rw [runsBefore]
      split
      · rename_i hi
        rw [trailing, rtakeWhile_append_cons_of_neg (by simp [hi])]
        exact @ih [] (by simp)
      · rename_i hi
        rw [@ih (i :: acc) (List.forall_mem_cons.mpr ⟨by simpa using hi, hacc⟩), List.reverse_cons,
          List.append_assoc, List.singleton_append]

end Tree

theorem exists_of_mem_forall₂ {α β : Type} {R : α → β → Prop} {l : List α} {m : List β} {a : α}
    (h : List.Forall₂ R l m) (ha : a ∈ l) : ∃ b ∈ m, R a b := by
  induction h with
  | nil => cases ha
  | cons hab _ ih =>
      rcases List.mem_cons.mp ha with rfl | ha
      · exact ⟨_, List.mem_cons_self, hab⟩
      · obtain ⟨b, hb, hr⟩ := ih ha
        exact ⟨b, List.mem_cons_of_mem _ hb, hr⟩

theorem Tree.Attached.imp {piece : List NodeId} (ha : t.Attached p f u e piece)
    (h : ∀ x k r rg, t.size ≤ x → u.TokenAt k r rg x → v.TokenAt k r rg x) :
    t.Attached p f v e piece := by
  cases e with
  | node j => exact ha
  | token r rg | modifier m rg =>
      obtain ⟨x, hx, hat, rfl⟩ := ha
      exact ⟨x, hx, h x _ _ _ hx hat, rfl⟩

theorem Tree.Attached.notMem {piece : List NodeId} (ha : t.Attached p f u e piece) (hx : x < t.size)
    (hf : f x = true) (he : e ≠ .node x) : x ∉ piece := by
  intro hm
  cases e with
  | node j =>
      rw [Attached] at ha
      split at ha
      · rcases List.mem_append.mp (ha ▸ hm) with hm | hm
        · simp [(mem_of_mem_leading hm).2] at hf
        · exact he (List.mem_singleton.mp hm ▸ rfl)
      · simp [ha] at hm
  | token | modifier =>
      obtain ⟨y, hy, -, rfl⟩ := ha
      exact absurd hx (Nat.not_lt.mpr (List.mem_singleton.mp hm ▸ hy))

theorem Placements.getElem?_setRange {ps : Placements} :
    (ps.setRange c rg)[x]? = if x = c then some ⟨some rg.start, some rg.stop⟩ else ps[x]? := by
  simp only [setRange, Std.TreeMap.getElem?_insert, compare_eq_iff_eq, eq_comm (a := c)]

namespace Moves

theorem refl (h : t.WellFormed) : Moves t p t := ⟨.refl h, fun _ => rfl, fun _ => rfl, rfl⟩

theorem trans (h : Moves t p u) (h' : Moves u p v) : Moves t p v where
  kept := h.kept.trans h'.kept
  children_ne hq := (h'.children_ne hq).trans (h.children_ne hq)
  placement_old hx :=
  (h'.placement_old (Nat.lt_of_lt_of_le hx h.kept.size_le)).trans (h.placement_old hx)
  marks := h'.marks.trans h.marks

theorem tokenAt (h : Moves t p u) (ht : t.TokenAt k r rg x) (hx : x ≠ p) : u.TokenAt k r rg x where
  lt := Nat.lt_of_lt_of_le ht.lt h.kept.size_le
  kind := (h.kept.kind_old ht.lt).trans ht.kind
  role := (h.kept.role_old ht.lt).trans ht.role
  children := (h.children_ne hx).trans ht.children
  place := (h.placement_old ht.lt).trans ht.place

theorem detach (h : t.WellFormed) (hc : t.parent c = some p) :
    Moves t p (t.detach c) ∧ (t.detach c).children p = (t.children p).filter (· ∉ [c]) := by
  obtain ⟨l₁, l₂, hk⟩ := h.exists_split hc
  obtain ⟨hc₁, hc₂⟩ := h.linked.notMem_of_split hk
  have hchildren := h.children_detach hk
  refine ⟨⟨.detach h, fun hq => ?_, fun _ => by rw [Tree.placements_detach], Tree.marks_detach⟩, ?_⟩
  · rw [hchildren, Function.update_of_ne hq]
  · rw [hchildren, Function.update_self, hk, List.filter_append, List.filter_cons_of_neg (by simp),
      List.filter_eq_self.mpr (by rintro y hy; simpa using ne_of_mem_of_not_mem hy hc₁),
      List.filter_eq_self.mpr (by rintro y hy; simpa using ne_of_mem_of_not_mem hy hc₂)]

theorem foldl_detach (h : t.WellFormed) (hl : ∀ c ∈ l, t.parent c = some p) (hd : l.Nodup) :
    Moves t p (l.foldl Tree.detach t) ∧
      (l.foldl Tree.detach t).children p = (t.children p).filter (· ∉ l) := by
  induction l generalizing t with
  | nil => exact ⟨.refl h, by simp⟩
  | cons c l ih =>
      obtain ⟨hcl, hd⟩ := List.nodup_cons.mp hd
      obtain ⟨hm, hk⟩ := detach h (hl c List.mem_cons_self)
      obtain ⟨hm', hk'⟩ := ih (h.detach c) (fun x hx => by
        rw [h.parent_detach, if_neg (ne_of_mem_of_not_mem hx hcl),
          hl x (List.mem_cons_of_mem _ hx)]) hd
      refine ⟨hm.trans hm', ?_⟩
      rw [List.foldl_cons, hk', hk, List.filter_filter]
      refine List.filter_congr fun x _ => ?_
      simp [Bool.and_comm]

/-- A child that is attached comes last. -/
theorem addChild (h : t.WellFormed) (hp : p < t.size) (hc : c < t.size) (hcn : c ≠ .null)
    (ho : t.addChild p r c = .ok u) :
    u.children = Function.update t.children p (t.children p ++ [c]) ∧
      u.placements = t.placements ∧ u.marks = t.marks := by
  have ha := ((Tree.addChild_eq_ok_iff hcn).mp ho).1
  have hk : t.children p = t.children p ++ [] := (List.append_nil _).symm
  cases ho.symm.trans (h.insertBefore_eq hk hcn ha)
  exact ⟨h.children_link hp hc ha.2.1 hk, Tree.placements_link, Tree.marks_link⟩

theorem reattach (h : t.WellFormed) (hp : p < t.size) (hl : ∀ c ∈ l, c < t.size ∧ c ≠ .null)
    (ho : t.reattach p l = .ok u) : Moves t p u ∧ u.children p = t.children p ++ l := by
  induction l generalizing t with
  | nil =>
      cases ho
      exact ⟨.refl h, by simp⟩
  | cons c l ih =>
      obtain ⟨hc, hcn⟩ := hl c List.mem_cons_self
      rw [Tree.reattach, List.foldlM_cons] at ho
      cases hv : t.addChild p (t.role c) c with
      | error e =>
          rw [hv] at ho
          cases ho
      | ok v =>
          rw [hv] at ho
          obtain ⟨hk, hplaces, hmarks⟩ := addChild h hp hc hcn hv
          have hkept : Kept t v := .addChild h hp hc hv
          have hm : Moves t p v :=
            ⟨hkept, fun hq => by rw [hk,
              Function.update_of_ne hq], fun _ => by rw [hplaces], hmarks⟩
          obtain ⟨hm', hk'⟩ := ih hkept.wellFormed (Nat.lt_of_lt_of_le hp hkept.size_le)
            (fun x hx => by
            obtain ⟨hlt, hn⟩ := hl x (List.mem_cons_of_mem _ hx)
            exact ⟨Nat.lt_of_lt_of_le hlt hkept.size_le, hn⟩) ho
          refine ⟨hm.trans hm', ?_⟩
          rw [hk', hk, Function.update_self, List.append_assoc, List.singleton_append]

theorem addTokenNode (h : t.WellFormed) (hp : p < t.size) (hk : k = .token ∨ ∃ m, k = .modifier m)
    (ho : t.addTokenNode p k r rg = .ok u) :
    Moves t p u ∧ u.children p = t.children p ++ [t.size] ∧ u.TokenAt k r rg t.size := by
  have hkept : Kept t u := .addTokenNode h hp hk ho
  have ha := h.alloc k
  have hs : (t.alloc k).2.size = t.size + 1 := Tree.size_alloc
  have hp' : p < (t.alloc k).2.size := hs ▸ Nat.lt_succ_of_lt hp
  have hc : t.size < (t.alloc k).2.size := hs ▸ Nat.lt_succ_self _
  have hcn : t.size ≠ NodeId.null := Nat.ne_of_gt h.size_pos
  have hnone : t.children t.size = [] := by
    refine List.eq_nil_iff_forall_not_mem.mpr fun x hx => ?_
    exact absurd (h.lt_parent (h.mem_children.mp hx)) (Nat.lt_irrefl _)
  obtain ⟨w, hw, rfl⟩ := Tree.addTokenNode_eq_ok ho
  obtain ⟨hchildren, hplaces, hmarks⟩ := addChild ha hp' hc hcn hw
  rw [Tree.sameLinks_alloc.children_eq h] at hchildren
  have hw' : (w.mapPlacements (·.setRange t.size rg)).children = w.children := rfl
  have hplace (x : NodeId) : (w.mapPlacements (·.setRange t.size rg)).placements[x]? =
      if x = t.size then some ⟨some rg.start, some rg.stop⟩ else t.placements[x]? := by
    change (w.placements.setRange t.size rg)[x]? = _
    rw [Placements.getElem?_setRange, hplaces]
    rfl
  refine ⟨⟨hkept, fun hq => ?_, fun hx => ?_, hmarks⟩, ?_, ?_⟩
  · rw [hw', hchildren, Function.update_of_ne hq]
  · rw [hplace, if_neg (Nat.ne_of_lt hx)]
  · rw [hw', hchildren, Function.update_self]
  · refine ⟨(Tree.size_addChild hw).symm ▸ hc, ?_, ?_, ?_, ?_⟩
    · exact (ha.kind_addChild hp' hc hw).trans (by rw [Tree.kind_alloc, if_pos rfl])
    · exact (ha.role_addChild hp' hc hw).trans (if_pos ⟨rfl, hcn⟩)
    · rw [hw', hchildren, Function.update_of_ne (Nat.ne_of_gt hp), hnone]
    · rw [hplace, if_pos rfl]

theorem parent_cases (h : Moves t p u) (ht : t.WellFormed) (hx : t.parent x = none)
    (hu : u.parent x = some q) : x ∈ u.children p := by
  have hq : q = p := by
    by_contra hq
    have hm := h.kept.wellFormed.mem_children.mpr hu
    rw [h.children_ne hq, ht.mem_children, hx] at hm
    cases hm
  exact hq ▸ h.kept.wellFormed.mem_children.mpr hu

theorem attached (h : Moves u p v)
    (hp : p < t.size) {piece : List NodeId} (ha : t.Attached p f u e piece) :
    t.Attached p f v e piece :=
  ha.imp fun _ _ _ _ hx hat => h.tokenAt hat (Nat.ne_of_gt (Nat.lt_of_lt_of_le hp hx))

theorem attachEntry (h : t.WellFormed) (hp : p < t.size) (hu : Moves t p u)
    (hk : ∀ c ∈ t.lasting p, c < u.size) (hlookup : ∀ j, e = .node j → runs.lookup j =
      if j ∈ t.lasting p then some (leading f (t.lasting p) j) else none)
    (hnone : ∀ j ∈ t.lasting p, e = .node j → u.parent j = none)
    (ho : Tree.attachEntry p runs u e = .ok v) :
    Moves u p v ∧ ∃ piece, t.Attached p f v e piece ∧ v.children p = u.children p ++ piece := by
  have hu' := hu.kept.wellFormed
  have hp' := Nat.lt_of_lt_of_le hp hu.kept.size_le
  cases e with
  | node j =>
      simp only [Tree.attachEntry, hlookup j rfl] at ho
      by_cases hj : j ∈ t.lasting p
      · simp only [if_pos hj, hnone j hj rfl, Option.isSome_none, Bool.false_eq_true, if_false]
          at ho
        have hl : ∀ c ∈ leading f (t.lasting p) j ++ [j], c < u.size ∧ c ≠ .null := by
          intro c hc
          have hc : c ∈ t.lasting p := by
            rcases List.mem_append.mp hc with hc | hc
            · exact (mem_of_mem_leading hc).1
            · exact List.mem_singleton.mp hc ▸ hj
          exact ⟨hk c hc, h.ne_null (h.mem_children.mp (List.mem_of_mem_filter hc))⟩
        obtain ⟨hm, hchildren⟩ := reattach hu' hp' hl ho
        exact ⟨hm, _, by rw [Tree.Attached, if_pos hj], hchildren⟩
      · simp only [if_neg hj] at ho
        cases ho
        exact ⟨.refl hu', [], by rw [Tree.Attached, if_neg hj], by simp⟩
  | token r rg =>
      obtain ⟨hm, hchildren, ht⟩ := addTokenNode hu' hp' (.inl rfl) ho
      exact ⟨hm, _, ⟨_, hu.kept.size_le, ht, rfl⟩, hchildren⟩
  | modifier m rg =>
      obtain ⟨hm, hchildren, ht⟩ := addTokenNode hu' hp' (.inr ⟨m, rfl⟩) ho
      exact ⟨hm, _, ⟨_, hu.kept.size_le, ht, rfl⟩, hchildren⟩

theorem attachEntries (h : t.WellFormed) (hp : p < t.size) (hu : Moves t p u)
    (hk : ∀ c ∈ t.lasting p, c < t.size) (hlookup : ∀ j, f j = true → runs.lookup j =
      if j ∈ t.lasting p then some (leading f (t.lasting p) j) else none)
    (hf : ∀ j, .node j ∈ entries → f j = true) (hn : (entries.filterMap Entry.node?).Nodup)
    (hnone : ∀ j ∈ t.lasting p, .node j ∈ entries → u.parent j = none)
    (ho : entries.foldlM (Tree.attachEntry p runs) u = .ok v) :
    Moves u p v ∧ ∃ pieces, List.Forall₂ (t.Attached p f v) entries pieces ∧
      v.children p = u.children p ++ pieces.flatten := by
  induction entries generalizing u with
  | nil =>
      cases ho
      exact ⟨.refl hu.kept.wellFormed, [], .nil, by simp⟩
  | cons e entries ih =>
      rw [List.foldlM_cons] at ho
      cases hw : Tree.attachEntry p runs u e with
      | error a =>
          rw [hw] at ho
          cases ho
      | ok w =>
          rw [hw] at ho
          have hlt : ∀ c ∈ t.lasting p, c < u.size :=
            fun c hc => Nat.lt_of_lt_of_le (hk c hc) hu.kept.size_le
          obtain ⟨hm, piece, hpiece, hchildren⟩ := attachEntry h hp hu hlt
            (fun j he => hlookup j (hf j (he ▸ List.mem_cons_self)))
            (fun j hj he => hnone j hj (he ▸ List.mem_cons_self)) hw
          obtain ⟨he, hn'⟩ : (∀ j, .node j ∈ entries → e ≠ .node j) ∧
            (entries.filterMap Entry.node?).Nodup := by
            cases e with
            | node i =>
                obtain ⟨hi, hn⟩ := List.nodup_cons.mp hn
                exact ⟨fun j hj he => hi (List.mem_filterMap.mpr ⟨_, hj, he ▸ rfl⟩), hn⟩
            | token | modifier => exact ⟨fun _ _ => by simp, hn⟩
          have hpending : ∀ j ∈ t.lasting p, .node j ∈ entries → w.parent j = none := by
            intro j hj hje
            have hju := hnone j hj (List.mem_cons_of_mem _ hje)
            cases hq : w.parent j with
            | none => rfl
            | some q =>
                have hmem := hm.parent_cases hu.kept.wellFormed hju hq
                rw [hchildren, List.mem_append, hu.kept.wellFormed.mem_children, hju] at hmem
                exact absurd (hmem.resolve_left (by simp))
                  (hpiece.notMem (hk j hj) (hf j (List.mem_cons_of_mem _ hje)) (he j hje))
          obtain ⟨hm', pieces, hpieces, hchildren'⟩ := ih (hu.trans hm)
            (fun j he => hf j (List.mem_cons_of_mem _ he)) hn' hpending ho
          refine ⟨hm.trans hm', piece :: pieces, .cons (hm'.attached hp hpiece) hpieces, ?_⟩
          rw [hchildren', hchildren, List.append_assoc, List.flatten_cons]

/-- Arranging a node moves nothing else, and leaves the children that its entries say. -/
theorem arrange (h : t.WellFormed) (hp : p < t.size) (hn : (entries.filterMap Entry.node?).Nodup)
    (ho : t.arrange p entries = .ok u) : Moves t p u ∧ t.Rearranged p entries u := by
  have hparent {c : NodeId} (hc : c ∈ t.lasting p) : t.parent c = some p :=
    h.mem_children.mp (List.mem_of_mem_filter hc)
  rw [Tree.arrange] at ho
  obtain ⟨hm₁, hk₁⟩ := foldl_detach (l := (t.children p).filter t.isTokenNode) h
    (fun c hc => h.mem_children.mp (List.mem_of_mem_filter hc)) ((h.linked.nodup p).filter _)
  have hlasting : (t.children p).filter (· ∉ (t.children p).filter t.isTokenNode) = t.lasting p :=
    List.filter_congr fun c hc => by simp [hc]
  rw [hlasting] at hk₁
  generalize ((t.children p).filter t.isTokenNode).foldl Tree.detach t = t₁ at hm₁ hk₁ ho
  have h₁ := hm₁.kept.wellFormed
  obtain ⟨hm₂, hk₂⟩ := foldl_detach (l := t₁.children p) h₁ (fun c hc => h₁.mem_children.mp hc)
    (h₁.linked.nodup p)
  have hpar (x : NodeId) := h₁.parent_foldl_detach (l := t₁.children p) (x := x)
  rw [List.filter_eq_nil_iff.mpr (by simp)] at hk₂
  rw [hk₁] at hm₂ hk₂ hpar ho
  generalize (t.lasting p).foldl Tree.detach t₁ = t₂ at hm₂ hk₂ hpar ho
  have hu := hm₁.trans hm₂
  have hnil (f : NodeId → Bool) : ∀ y ∈ ([] : List NodeId), f y = false := by simp
  have hlookup (j : NodeId) (hj : entries.contains (.node j) = true) :=
    Tree.lookup_runsBefore (l := t.lasting p) (f := fun i => entries.contains (.node i)) hj (hnil _)
  have hlast := Tree.snd_runsBefore (f := fun i => entries.contains (.node i))
    (l := t.lasting p) (hnil _)
  simp only [List.reverse_nil, List.nil_append] at hlookup hlast
  simp only [bind, Except.bind] at ho
  split at ho
  · cases ho
  · rename_i w hw
    obtain ⟨hm₃, pieces, hpieces, hk₃⟩ :=
      attachEntries h hp hu (fun c hc => Tree.lt_of_parent (hparent hc)) hlookup
      (fun j hj => by simpa using hj) hn (fun j hj _ => by rw [hpar, if_pos hj]) hw
    rw [hlast] at ho
    have hlt : ∀ c ∈ trailing (fun i => entries.contains (.node i)) (t.lasting p), c < w.size ∧
        c ≠ .null := by
      intro c hc
      have hc := hparent (mem_of_mem_trailing hc).1
      exact ⟨Nat.lt_of_lt_of_le (Tree.lt_of_parent hc) (hu.trans hm₃).kept.size_le, h.ne_null hc⟩
    obtain ⟨hm₄, hk₄⟩ := reattach hm₃.kept.wellFormed
      (Nat.lt_of_lt_of_le hp (hu.trans hm₃).kept.size_le) hlt ho
    refine ⟨(hu.trans hm₃).trans hm₄, pieces, hpieces.imp fun e piece => hm₄.attached hp, ?_⟩
    rw [hk₄, hk₃, hk₂, List.nil_append]

end Moves

namespace Tree

theorem lt_of_mem_children (h : t.WellFormed) (hx : x ∈ t.children p) : x < t.size :=
  lt_of_parent (h.mem_children.mp hx)

theorem Rearranged.mem_children (h : t.WellFormed) (ha : t.Rearranged p entries u)
    (hx : t.parent x = some p) (hk : t.isTokenNode x = false) : x ∈ u.children p := by
  obtain ⟨pieces, hpieces, hchildren⟩ := ha
  have hmem : x ∈ t.lasting p := List.mem_filter.mpr ⟨h.mem_children.mpr hx, by simp [hk]⟩
  rw [hchildren]
  rcases mem_leading_or_trailing (f := fun i => entries.contains (.node i))
    hmem ((h.linked.nodup p).filter _) with
    ht | ⟨j, hj, hf, hxj⟩
  · exact List.mem_append_right _ ht
  · obtain ⟨piece, hpiece, ha⟩ := exists_of_mem_forall₂ hpieces (by simpa using hf)
    rw [Attached, if_pos hj] at ha
    exact List.mem_append_left _ (List.mem_flatten.mpr ⟨piece, hpiece, ha ▸ hxj⟩)

theorem Rearranged.mem_lasting (ha : t.Rearranged p entries u) (hx : x ∈ u.children p) :
    x ∈ t.lasting p ∨ t.size ≤ x := by
  obtain ⟨pieces, hpieces, hchildren⟩ := ha
  rw [hchildren] at hx
  rcases List.mem_append.mp hx with hx | hx
  · obtain ⟨piece, hpiece, hx⟩ := List.mem_flatten.mp hx
    obtain ⟨e, -, ha⟩ := exists_of_mem_forall₂ (List.Forall₂.flip hpieces) hpiece
    cases e with
    | node j =>
        have ha : piece = _ := ha
        split at ha
        · rename_i hj
          rcases List.mem_append.mp (ha ▸ hx) with hx | hx
          · exact .inl (mem_of_mem_leading hx).1
          · exact .inl (List.mem_singleton.mp hx ▸ hj)
        · simp [ha] at hx
    | token r rg | modifier m rg =>
        obtain ⟨y, hy, -, rfl⟩ := ha
        exact .inr (List.mem_singleton.mp hx ▸ hy)
  · exact .inl (mem_of_mem_trailing hx).1

structure Arranged (t : Tree) (plan : List (NodeId × List Entry)) (u : Tree) : Prop where
  kept : Kept t u
  children {q : NodeId} (hq : q ∉ plan.map (·.1)) : u.children q = t.children q
  rearranged {e : NodeId × List Entry} (he : e ∈ plan) : t.Rearranged e.1 e.2 u
  placement_old {x : NodeId} (hx : x < t.size) : u.placements[x]? = t.placements[x]?
  marks : u.marks = t.marks

/-- Nodes that are no tokens stay where they are, and so do all that are not children of an arranged
node. -/
theorem Arranged.parent {plan : List (NodeId × List Entry)} (h : t.WellFormed)
    (hu : Arranged t plan u) (hx : x < t.size)
    (hk : t.isTokenNode x = false ∨ ∀ p ∈ t.parent x, p ∉ plan.map (·.1)) :
    u.parent x = t.parent x := by
  have hw := hu.kept.wellFormed
  cases hp : t.parent x with
  | some p =>
      refine hw.mem_children.mp ?_
      by_cases hm : p ∈ plan.map (·.1)
      · obtain ⟨e, he, rfl⟩ := List.mem_map.mp hm
        exact (hu.rearranged he).mem_children h hp (hk.resolve_right fun hk => hk _ hp hm)
      · rw [hu.children hm]
        exact h.mem_children.mpr hp
  | none =>
      cases hq : u.parent x with
      | none => rfl
      | some q =>
          have hxq := hw.mem_children.mpr hq
          by_cases hm : q ∈ plan.map (·.1)
          · obtain ⟨e, he, rfl⟩ := List.mem_map.mp hm
            rcases (hu.rearranged he).mem_lasting hxq with hl | hl
            · cases hp.symm.trans (h.mem_children.mp (List.mem_of_mem_filter hl))
            · exact absurd hx (Nat.not_lt.mpr hl)
          · rw [hu.children hm] at hxq
            cases hp.symm.trans (h.mem_children.mp hxq)

/-- A node is described alike before another was arranged and after. -/
theorem Rearranged.congr (h : t.WellFormed) (hm : Moves t p v) (hq : q ≠ p)
    (ha : v.Rearranged q entries u) : t.Rearranged q entries u := by
  have hl : v.lasting q = t.lasting q := by
    rw [lasting, lasting, hm.children_ne hq]
    refine List.filter_congr fun c hc => ?_
    rw [isTokenNode, isTokenNode, hm.kept.kind_old (lt_of_mem_children h hc)]
  obtain ⟨pieces, hpieces, hchildren⟩ := ha
  refine ⟨pieces, hpieces.imp fun e piece ha => ?_, hl ▸ hchildren⟩
  cases e with
  | node j => rwa [Attached, hl] at ha
  | token r rg | modifier m rg =>
      obtain ⟨x, hx, hat, rfl⟩ := ha
      exact ⟨x, Nat.le_trans hm.kept.size_le hx, hat, rfl⟩

theorem Arranged.rearranged_of_notMem {plan : List (NodeId × List Entry)} (h : Arranged v plan u)
    (hplan : ∀ e ∈ plan, e.1 < t.size) (hq : q ∉ plan.map (·.1)) (ha : t.Rearranged q entries v) :
    t.Rearranged q entries u := by
  obtain ⟨pieces, hpieces, hchildren⟩ := ha
  refine ⟨pieces, hpieces.imp fun e piece ha => ha.imp fun x k r rg hx hat => ?_,
    (h.children hq).trans hchildren⟩
  have hxp : x ∉ plan.map (·.1) := by
    intro hm
    obtain ⟨e, he, rfl⟩ := List.mem_map.mp hm
    exact absurd (hplan e he) (Nat.not_lt.mpr hx)
  exact ⟨Nat.lt_of_lt_of_le hat.lt h.kept.size_le, (h.kept.kind_old hat.lt).trans hat.kind,
    (h.kept.role_old hat.lt).trans hat.role, (h.children hxp).trans hat.children,
    (h.placement_old hat.lt).trans hat.place⟩

theorem arranged {plan : List (NodeId × List Entry)} (h : t.WellFormed)
    (hlt : ∀ e ∈ plan, e.1 < t.size) (hn : (plan.map (·.1)).Nodup)
    (hne : ∀ e ∈ plan, (e.2.filterMap Entry.node?).Nodup)
    (ho : plan.foldlM (fun t (i, entries) => t.arrange i entries) t = .ok u) :
    Arranged t plan u := by
  induction plan generalizing t with
  | nil =>
      cases ho
      exact ⟨.refl h, fun _ => rfl, by simp, fun _ => rfl, rfl⟩
  | cons e plan ih =>
      obtain ⟨p, entries⟩ := e
      obtain ⟨hp, hn⟩ := List.nodup_cons.mp hn
      rw [List.foldlM_cons] at ho
      cases hv : t.arrange p entries with
      | error a =>
          simp only [hv] at ho
          cases ho
      | ok v =>
          simp only [hv] at ho
          obtain ⟨hm, ha⟩ := Moves.arrange h (hlt _ List.mem_cons_self)
            (hne _ List.mem_cons_self) hv
          have hlt' : ∀ e ∈ plan, e.1 < t.size := fun e he => hlt e (List.mem_cons_of_mem _ he)
          have hr := ih hm.kept.wellFormed
            (fun e he => Nat.lt_of_lt_of_le (hlt' e he) hm.kept.size_le) hn
            (fun e he => hne e (List.mem_cons_of_mem _ he)) ho
          refine ⟨hm.kept.trans hr.kept, fun hq => ?_, fun {e} he => ?_, fun hx => ?_,
            hr.marks.trans hm.marks⟩
          · rw [List.map_cons, List.mem_cons, not_or] at hq
            rw [hr.children hq.2, hm.children_ne hq.1]
          · rcases List.mem_cons.mp he with rfl | he
            · exact hr.rearranged_of_notMem hlt' hp ha
            · have hep : e.1 ≠ p := fun hep => hp (List.mem_map.mpr ⟨e, he, hep⟩)
              exact .congr h hm hep (hr.rearranged he)
          · rw [hr.placement_old (Nat.lt_of_lt_of_le hx hm.kept.size_le), hm.placement_old hx]

end Tree

end TreeScribe
