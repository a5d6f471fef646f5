import TreeScribe.Proofs.Layout.Opens
import TreeScribe.Proofs.Layout.Pairing
import TreeScribe.Proofs.Tree.Below

namespace TreeScribe

theorem Tree.Hangs.child {t : Tree} {i j x : NodeId} (h : t.Hangs j x) (hj : t.parent j = some i)
    (hr : (t.kind i).encloses (t.role j) = false) : t.Hangs i x :=
  ⟨.child hj hr h.outside, h.kind_eq, h.no_else⟩

namespace Layout

structure Context.Orderly (c : Context) (root : NodeId) : Prop where
  wellFormed : c.tree.WellFormed
  paired : c.tree.Paired root
  visit {j : NodeId} (hj : c.tree.Below root j) : Pairs (c.tree.Hangs j) (c.visit j)
  visit_null : c.visit .null = []

variable {c d : Context} {root i : NodeId} {js : List NodeId} {l m : Layout} {E : NodeId → Prop}
  {r : Role}

namespace Context.Orderly

variable (h : c.Orderly root)

include h

theorem block (hi : c.tree.Below root i) {style : BraceStyle} : Pairs E (c.block style i) := by
  have hrun (nodes : List NodeId) (hn : ∀ j ∈ nodes, c.tree.parent j = some i) :
      Pairs (fun _ => True) (c.run nodes) := by
    induction nodes with
    | nil => exact .nil
    | cons j nodes ih =>
        obtain ⟨hj, hnodes⟩ := List.forall_mem_cons.mp hn
        have hvisit : Pairs (fun _ => True) (c.visit j) :=
          (h.visit (hi.child hj)).mono fun _ _ => trivial
        exact (hvisit.before (l := [.tick]) (silent_of_flat (by simp))).append (ih hnodes)
  exact .node (.braces (hrun _ fun _ => h.wellFormed.parent_childrenIn))

theorem parent_of_mem_firstIn {j : NodeId} (hj : j ∈ c.tree.firstIn i r) :
    c.tree.parent j = some i ∧ c.tree.role j = r := by
  have hmem := Tree.firstIn_sublist.subset hj
  exact ⟨h.wellFormed.parent_childrenIn hmem, (Tree.mem_childrenIn_iff.mp hmem).2⟩

end Context.Orderly

/-- What is put together from children leaves no more than these do. -/
theorem Laid.pairs (h : Laid c d i js l m) (ho : c.Orderly root) (hi : c.tree.Below root i)
    (hE : ∀ j ∈ js, c.tree.parent j = some i → ∀ x, c.tree.Hangs j x → E x) : Pairs E l := by
  induction h generalizing E with
  | words hw => exact .silent (silent_of_flat hw.1)
  | absent =>
      rw [ho.visit_null]
      exact .nil
  | visit hj =>
      have hp := ho.wellFormed.parent_childrenIn hj
      exact (ho.visit (hi.child hp)).mono (hE _ List.mem_cons_self hp)
  | name => exact .silent fun c hc s => by cases List.mem_singleton.mp hc; rfl
  | block hc =>
      exact ho.block
        (hi.child (ho.wellFormed.mem_children.mp (Tree.role_child (bne_iff_ne.mp hc)).1))
  | append _ _ ihl ihr =>
      intro hf
      obtain ⟨hfl, -⟩ := failure?_append_eq_none.mp hf
      exact ((ihl fun j hj => hE j (List.mem_append_left _ hj)).append
        (ihr hfl fun j hj => hE j (List.mem_append_right _ hj))) hf
  | fewer _ hs ih => exact ih fun j hj => hE j (hs.subset hj)
  | indented _ ih =>
      exact ((ih hE).before (silent_of_code (by simp))).behind (silent_of_code (by simp))
  | braces _ _ ih =>
      have hinner : Pairs (fun _ => True) _ := ih fun _ _ _ _ _ => trivial
      exact .braces hinner.outdentedUnless

theorem Construct.pairs (h : Construct c d i l m) (ho : c.Orderly root) (hi : c.tree.Below root i) :
    Pairs (c.tree.Hangs i) l := by
  have hfree {rs : List Role} {l m : Layout} (h : Pieces c d i rs l m)
      (hf : ∀ r ∈ rs, (c.tree.kind i).encloses r = false) : Pairs (c.tree.Hangs i) l := by
    refine h.pairs ho hi fun j hj hp x hx => ?_
    obtain ⟨r, hr, hj⟩ := List.mem_flatMap.mp hj
    exact hx.child hp ((Tree.mem_childrenIn_iff.mp hj).2 ▸ hf r hr)
  have hfirst {r : Role} {l m : Layout} (h : Laid c d i (c.tree.firstIn i r) l m)
    (hr : r.isFree = true) :
      Pairs (c.tree.Hangs i) l := by
    refine h.pairs ho hi fun j hj hp x hx => ?_
    exact hx.child hp (Kind.encloses_of_isFree ((ho.parent_of_mem_firstIn hj).2 ▸ hr))
  -- nothing hangs in what a branch writes before its else
  have hnone {r : Role} {l m : Layout} (h : Laid c d i (c.tree.firstIn i r) l m)
      (hr : ∀ x, ¬ c.tree.Hangs (c.tree.child i r) x) : Pairs (fun _ => False) l := by
    refine h.pairs ho hi fun j hj _ x hx => ?_
    rw [Tree.eq_child_of_mem_firstIn hj] at hx
    exact hr x hx
  induction h with
  | word hw => exact .node (.silent (silent_word hw.2))
  | node _ _ _ hf h => exact .node (hfree h hf)
  | block => exact (ho.block hi).behind (silent_of_code (by simp))
  | link _ _ hf ht h hx hy =>
      have htarget := hfree ht (List.forall_mem_singleton.mpr (Kind.encloses_of_isFree rfl))
      have hparts := hfree h fun r hr => Kind.encloses_of_isFree (hf r hr)
      exact .node (((htarget.behind (silent_of_code hx)).append hparts).behind (silent_of_code hy))
  | branch hk hn h h' => exact ((hfirst h rfl).append (hfirst h' rfl)).unpaired ⟨.self, hk, hn⟩
  | branchElse hk hn h h' h'' =>
      have hcondition := hnone h fun x => (ho.paired i x hi hk hn).1
      have htrue := hnone h' fun x => (ho.paired i x hi hk hn).2
      exact (hcondition.append htrue).paired (hfirst h'' rfl)
  | switch _ h hs =>
      have hvalue := hfree h (List.forall_mem_singleton.mpr (Kind.encloses_of_isFree rfl))
      have hsections : Pairs (fun _ => True) _ := hs.pairs ho hi fun _ _ _ _ _ => trivial
      exact .node
        ((hvalue.append (.braces hsections.outdentedUnless)).behind (silent_of_code code_newLine))
  | @guarded b _ _ _ _ ih =>
      cases b with
      | false => exact ih rfl
      | true => exact fun hf => by cases (failure?_append_eq_none.mp hf).1

/-- The layout of a node pairs its ifs, if all elses below it have what they need. -/
theorem pairs_ofNodeWithin {t : Tree} {p : Policy} {root : NodeId} (ht : t.WellFormed)
    (hp : t.Paired root) (fuel : Nat) {i : NodeId} (hi : t.Below root i) :
    Pairs (t.Hangs i) (ofNodeWithin t p fuel i) := by
  induction fuel generalizing i with
  | zero => exact .nil
  | succ fuel ih =>
      have h : Context.Orderly ⟨t, p, ofNodeWithin t p fuel⟩ root :=
        ⟨ht, hp, ih, ofNodeWithin_null ht fuel⟩
      rw [ofNodeWithin]
      cases hv : (t.kind i).isVisited with
      | true =>
          have hc := construct_kind (c := ⟨t, p, ofNodeWithin t p fuel⟩) (q := p)
            (v := ofNodeWithin t p fuel) hv
          exact hc.pairs h hi
      | false =>
          cases hk : t.kind i with
          | null => exact .nil
          | identifier | token | modifier | special => exact fun hf => by cases hf
          | _ => simp [hk, Kind.isVisited] at hv

end Layout

end TreeScribe
