import TreeScribe.Proofs.Layout.Nesting
import TreeScribe.Proofs.Layout.Opens

namespace TreeScribe

open Layout.Context (chainBreak)

namespace Tree

variable {t : Tree} {i j p : NodeId} {r : Role}

theorem callChainWithin_eq_min {bound : Nat} :
    t.callChainWithin bound i = min bound (t.callChainWithin (bound + 1) i) := by
  induction bound generalizing i with
  | zero => simp [callChainWithin]
  | succ bound ih =>
      rw [callChainWithin, callChainWithin]
      cases t.previousLink i with
      | none => simp
      | some link =>
          simp only [ih (i := link)]
          omega

theorem breaksChain_of_kind (h : t.kind i = .expression .member) :
    t.breaksChain i = decide (chainBreak ≤ t.callChain i) := by simp [breaksChain, h]

theorem handsOn_of_kind (hm : t.kind i ≠ .expression .member)
    (hi : t.kind i ≠ .expression .invocation) : t.handsOn i = false := by
  unfold handsOn
  split
  · contradiction
  · contradiction
  · rfl

theorem handsOn_of_parent (hp : t.parent i = some p) (hm : t.kind p ≠ .expression .member)
    (hi : t.kind p ≠ .expression .invocation) : t.handsOn i = false := by
  unfold handsOn
  split <;> simp [hasParent, parentKind?, hp, hm, hi]

theorem isExpected_of_handsOn (h : t.handsOn i = false) : t.isExpected i = false := by
  rw [isExpected, h, Bool.false_and]

theorem isExpected_of_role (h : t.WellFormed) (hp : t.parent i = some p) (hr : t.role i ≠ .target) :
    t.isExpected i = false := by
  have hn : i ≠ .null := by
    rintro rfl
    rw [h.null_parent] at hp
    cases hp
  have ht : t.isTarget i = false := by
    rw [isTarget, hp, Option.any_some, decide_eq_false_iff_not]
    intro hc
    exact hr (hc ▸ (role_child (hc ▸ hn)).2)
  rw [isExpected, ht, Bool.and_false]

theorem isTarget_child (h : t.WellFormed) (hk : t.kind (t.child i .target) ≠ .null) :
    t.isTarget (t.child i .target) = true := by
  simp [isTarget, h.parent_child hk]

theorem hasParent_child (h : t.WellFormed) (hk : t.kind (t.child i r) ≠ .null) {q : Kind → Bool} :
    t.hasParent (t.child i r) q = q (t.kind i) := by
  simp [hasParent, parentKind?, h.parent_child hk]

/-- The target of a member hands a level on if it is the call of a link behind which the chain was
broken. -/
theorem isExpected_target_of_member (h : t.WellFormed) (hk : t.kind i = .expression .member) :
    t.isExpected (t.child i .target) = decide (chainBreak < t.callChain i) := by
  have hparent {q : Kind → Bool} (hn : t.kind (t.child i .target) ≠ .null) :=
    t.hasParent_child h hn (q := q)
  by_cases hl : t.kind (t.child i .target) = .expression .invocation ∧
      t.kind (t.child (t.child i .target) .target) = .expression .member
  · have hn : t.kind (t.child i .target) ≠ .null := by simp [hl.1]
    have hchain : t.callChain i =
        t.callChainWithin 3 (t.child (t.child i .target) .target) + 1 := by
      simp [callChain, callChainWithin, previousLink, hl]
    -- the count that comes from outside has passed one link, so it goes one link less from here
    have hbound : t.callChainWithin 3 (t.child (t.child i .target) .target) =
        min 3 (t.callChainWithin 4 (t.child (t.child i .target) .target)) := callChainWithin_eq_min
    have hhands : t.handsOn (t.child i .target) =
        t.breaksChain (t.child (t.child i .target) .target) := by
      simp [handsOn, hl.1, hparent hn, hk]
    rw [isExpected, isTarget_child h hn, Bool.and_true, hhands, breaksChain_of_kind hl.2, hchain,
      decide_eq_decide, callChain, chainBreak]
    omega
  · have hchain : t.callChain i = 0 := by simp [callChain, callChainWithin, previousLink, hl]
    rw [hchain, isExpected_of_handsOn]
    · rfl
    · unfold handsOn
      split
      · rename_i hm
        simp [hparent (by simp [hm]), hk]
      · rename_i hv
        have hinner : t.kind (t.child (t.child i .target) .target) ≠ .expression .member :=
          fun hm => hl ⟨hv, hm⟩
        simp [breaksChain, hinner]
      · rfl

/-- The target of an invocation hands a level on if it is a link before which the chain was
broken. -/
theorem isExpected_target_of_invocation (h : t.WellFormed)
    (hk : t.kind i = .expression .invocation) :
    t.isExpected (t.child i .target) = t.breaksChain (t.child i .target) := by
  have hparent {q : Kind → Bool} (hn : t.kind (t.child i .target) ≠ .null) :=
    t.hasParent_child h hn (q := q)
  by_cases hm : t.kind (t.child i .target) = .expression .member
  · have hn : t.kind (t.child i .target) ≠ .null := by simp [hm]
    simp [isExpected, isTarget_child h hn, handsOn, hm, hparent hn, hk]
  · have hb : t.breaksChain (t.child i .target) = false := by simp [breaksChain, hm]
    rw [hb, isExpected_of_handsOn]
    unfold handsOn
    split
    · contradiction
    · rename_i hv
      simp [hparent (by simp [hv]), hk]
    · rfl

end Tree

namespace Layout

variable {c d : Context} {i : NodeId} {js : List NodeId} {l m : Layout} {r : Role} {rs : List Role}
  {s : Nesting}
  {b n : Nat} {o : List (NodeId × Nat)}

namespace Context

structure Levels (c : Context) (i : NodeId) : Prop where
  wellFormed : c.tree.WellFormed
  visit {j p : NodeId} (hj : c.tree.parent j = some p) (hp : c.tree.depth i ≤ c.tree.depth p)
    (b n : Nat) (o : List (NodeId × Nat)) (hf : failure? (c.visit j) = none) :
    nest? c.tree ⟨b, n, o⟩ (c.visit j) = some ⟨b, n + (c.tree.isExpected j).toNat, o⟩
  visit_null : c.visit .null = []

namespace Levels

variable (h : c.Levels i)

include h

theorem requiredTarget (hf : failure? (c.required i .target) = none) :
    nest? c.tree ⟨b, n, o⟩ (c.required i .target) =
    some ⟨b, n + (c.tree.isExpected (c.child i .target)).toNat, o⟩ := by
  rw [Context.required, nest?_append, balanced_of_flat Context.flat_need, Option.bind_some,
    Context.visitIn]
  by_cases hn : c.child i .target = .null
  · have hk : c.tree.handsOn .null = false :=
      Tree.handsOn_of_kind (by simp [h.wellFormed.null_kind]) (by simp [h.wellFormed.null_kind])
    rw [hn, h.visit_null, Tree.isExpected_of_handsOn hk]
    rfl
  · have hparent := h.wellFormed.mem_children.mp (Tree.role_child hn).1
    exact h.visit hparent (Nat.le_refl _) b n o (failure?_append_eq_none.mp hf).2

theorem block {p : NodeId} (hp : c.tree.depth i ≤ c.tree.depth p) (hn : c.tree.handsOn p = false)
    {style : BraceStyle} (hf : failure? (c.block style p) = none) :
    Balanced c.tree (c.block style p) := by
  have hrun (nodes : List NodeId) (hnodes : ∀ j ∈ nodes, j ∈ c.childrenIn p .statement)
      (hf : failure? (c.run nodes) = none) : Balanced c.tree (c.run nodes) := by
    induction nodes with
    | nil => exact fun _ => rfl
    | cons j nodes ih =>
        obtain ⟨hj, hnodes⟩ := List.forall_mem_cons.mp hnodes
        obtain ⟨hfj, hf⟩ : failure? (.tick :: c.visit j) = none ∧ failure? (c.run nodes) = none :=
          failure?_append_eq_none.mp hf
        have hparent := h.wellFormed.parent_childrenIn hj
        have hrole : c.tree.role j ≠ .target := by rw [(Tree.mem_childrenIn_iff.mp hj).2]; decide
        have hvisit : Balanced c.tree (c.visit j) := by
          intro ⟨b, n, o⟩
          rw [h.visit hparent hp b n o hfj, Tree.isExpected_of_role h.wellFormed hparent hrole]
          rfl
        exact balanced_append (l := .tick :: c.visit j) hvisit (ih hnodes hf)
  have hbody := (failure?_append_eq_none.mp (failure?_append_eq_none.mp (failure?_node.mp hf)).1).2
  refine balanced_node hn fun ⟨b, n, o⟩ => ?_
  rw [nest?_append, nest?_append, nest?_openBrace, Option.bind_some, hrun _ (fun _ => id) hbody,
    Option.bind_some, nest?_closeBrace]

end Levels

end Context

/-- What is put together from children is balanced, if none of them leaves a level to the node. -/
theorem Laid.balanced (h : Laid c d i js l m) (hl : c.Levels i)
    (hj : ∀ j ∈ js, c.tree.parent j = some i → c.tree.isExpected j = false)
    (hf : failure? l = none) : Balanced c.tree l := by
  induction h with
  | words hw => exact balanced_of_flat hw.1
  | absent =>
      rw [hl.visit_null]
      exact fun _ => rfl
  | visit hr =>
      have hp := hl.wellFormed.parent_childrenIn hr
      intro ⟨b, n, o⟩
      rw [hl.visit hp (Nat.le_refl _) b n o hf, hj _ List.mem_cons_self hp]
      rfl
  | name => exact fun _ => rfl
  | @block r _ _ hc hb =>
      have hp := hl.wellFormed.mem_children.mp (Tree.role_child (bne_iff_ne.mp hc)).1
      have hdepth := hl.wellFormed.depth_of_parent hp
      refine hl.block (by rw [Context.child, hdepth]; omega) ?_ hf
      rcases hb with hb | hk
      · refine Tree.handsOn_of_parent hp ?_ ?_ <;> intro hk <;> rw [hk] at hb <;> cases r
          <;> cases hb
      · exact Tree.handsOn_of_kind (by simp [hk]) (by simp [hk])
  | append _ _ ihl ihr =>
      obtain ⟨hfl, hfm⟩ := failure?_append_eq_none.mp hf
      exact balanced_append (ihl (fun j hm => hj j (List.mem_append_left _ hm)) hfl)
        (ihr hfl (fun j hm => hj j (List.mem_append_right _ hm)) hfm)
  | fewer _ hs ih => exact ih (fun j hm => hj j (hs.subset hm)) hf
  | @indented b _ _ l _ _ ih =>
      have hbody := ih hj (failure?_append_eq_none.mp (failure?_append_eq_none.mp hf).1).2
      intro ⟨k, n, o⟩
      cases b <;> simp [hbody]
  | @braces _ style _ body _ b _ _ l _ hb _ ih =>
      have hinner := (failure?_append_eq_none.mp (failure?_append_eq_none.mp hf).1).2
      have hbody := ih hj (failure?_append_eq_none.mp (failure?_append_eq_none.mp hinner).1).2
      intro ⟨k, n, o⟩
      rw [nest?_append, nest?_append, nest?_openBrace, Option.bind_some]
      cases b with
      | false =>
          obtain rfl := hb rfl
          rw [nest?_outdentedUnless style hbody, Option.bind_some, nest?_closeBrace]
      | true => simp [outdentedUnless, hbody]

/-- All constructs but the links of call chains close the braces that they open and end the
indentation that they start. -/
theorem Construct.balanced (h : Construct c d i l m) (hl : c.Levels i) (hi : ¬ c.tree.IsLink i)
    (hf : failure? l = none) : Balanced c.tree l := by
  obtain ⟨hmember, hinvocation⟩ := not_or.mp hi
  have hhands : c.tree.handsOn i = false := Tree.handsOn_of_kind hmember hinvocation
  have hparts {js : List NodeId} {l m : Layout} (h : Laid c d i js l m) (hf : failure? l = none) :
      Balanced c.tree l :=
    h.balanced hl (fun _ _ hp =>
      Tree.isExpected_of_handsOn (Tree.handsOn_of_parent hp hmember hinvocation)) hf
  have hif : Balanced c.tree (keyword "if") := fun _ => rfl
  have helse : Balanced c.tree (keyword "else") := fun _ => rfl
  induction h with
  | word hw =>
      refine balanced_node hhands fun s => ?_
      have hword := hw.2
      unfold Tree.wordOf? at hword
      split at hword <;> cases hword <;> rfl
  | node _ _ _ _ h => exact balanced_node hhands (hparts h (failure?_node.mp hf))
  | block =>
      refine balanced_append (hl.block (Nat.le_refl _) hhands (failure?_append_eq_none.mp hf).1)
        fun s => ?_
      rw [nest?_when, nest?_newLine, ite_self]
  | link hk => exact absurd hk hi
  | branch _ _ h h' =>
      obtain ⟨hf, hf'⟩ := failure?_append_eq_none.mp
        (failure?_append_eq_none.mp (failure?_node.mp hf)).2
      exact balanced_node hhands
        (balanced_append hif (balanced_append (hparts h hf) (hparts h' hf')))
  | branchElse _ _ h h' h'' =>
      obtain ⟨hpositive, hnegative⟩ :=
        failure?_append_eq_none.mp (failure?_append_eq_none.mp (failure?_node.mp hf)).2
      obtain ⟨hf, hf'⟩ := failure?_append_eq_none.mp hpositive
      have hlast := balanced_append helse (hparts h'' (failure?_append_eq_none.mp hnegative).2)
      have hfirst := balanced_append (hparts h hf) (hparts h' hf')
      exact balanced_node hhands (balanced_append hif (balanced_append hfirst hlast))
  | @switch _ _ y _ e _ _ _ _ _ h hs =>
      obtain ⟨hf, -⟩ := failure?_append_eq_none.mp (failure?_node.mp hf)
      obtain ⟨hf, hbraces⟩ := failure?_append_eq_none.mp hf
      have hsections := hparts (.braces (y := y) (g := true) (e := e) (by simp) hs) hbraces
      exact balanced_node hhands
        (balanced_append (balanced_append (hparts h hf) hsections) fun _ => nest?_newLine)
  | @guarded b _ _ _ _ ih =>
      cases b with
      | false => exact ih rfl hf
      | true => cases (failure?_append_eq_none.mp hf).1

namespace Context.Levels

variable (h : c.Levels i)

include h

theorem pieces (hp : Pieces c d i rs l m) (hr : .target ∉ rs) (hf : failure? l = none) :
    Balanced c.tree l := by
  refine Laid.balanced hp h (fun j hj hparent => ?_) hf
  obtain ⟨r, hrs, hj⟩ := List.mem_flatMap.mp hj
  refine Tree.isExpected_of_role h.wellFormed hparent ?_
  rw [(Tree.mem_childrenIn_iff.mp hj).2]
  rintro rfl
  exact hr hrs

theorem invocation (hk : c.tree.kind i = .expression .invocation)
    (hf : failure? (c.invocation i) = none) :
    nest? c.tree ⟨b, n, o⟩ (c.invocation i) = some ⟨b, n + (c.tree.isExpected i).toNat, o⟩ := by
  obtain ⟨htarget, harguments⟩ :=
    failure?_append_eq_none.mp (failure?_append_eq_none.mp (failure?_node.mp hf)).1
  replace harguments : Balanced c.tree (c.arguments i) :=
    h.pieces (Pieces.arguments (q := c.policy) (v := c.visit)) (by decide) harguments
  refine nest?_node ?_
  have hhands : c.tree.handsOn i =
      (c.tree.breaksChain (c.child i .target) && c.tree.hasParent i (· = .expression .member)) := by
    simp [Tree.handsOn, hk, child]
  have hend : (!c.tree.hasParent i (· = .expression .member) &&
      c.tree.kind (c.child i .target) = .expression .member && chainBreak ≤
        c.tree.callChain (c.child i .target)) =
      (!c.tree.hasParent i (· = .expression .member) &&
      c.tree.breaksChain (c.child i .target)) := by
    rw [Tree.breaksChain, Bool.and_assoc]
  -- a broken target hands its level on; it is ended here, unless a member follows that the
  -- invocation hands it on to
  rw [nest?_append, nest?_append, h.requiredTarget htarget, Option.bind_some, harguments,
    Option.bind_some, hend, hhands, child, Tree.isExpected_target_of_invocation h.wellFormed hk]
  cases c.tree.breaksChain (c.tree.child i .target)
    <;> cases c.tree.hasParent i (· = .expression .member) <;> simp

theorem member (hk : c.tree.kind i = .expression .member) (hf : failure? (c.member i) = none) :
    nest? c.tree ⟨b, n, o⟩ (c.member i) = some ⟨b, n + (c.tree.isExpected i).toNat, o⟩ := by
  obtain ⟨hhead, htypes⟩ :=
    failure?_append_eq_none.mp (failure?_append_eq_none.mp (failure?_node.mp hf)).1
  obtain ⟨hhead, hname⟩ := failure?_append_eq_none.mp hhead
  have htarget := (failure?_append_eq_none.mp (failure?_append_eq_none.mp hhead).1).1
  replace hname : Balanced c.tree (c.name i) :=
    h.pieces (Pieces.name (q := c.policy) (v := c.visit)) (by decide) hname
  replace htypes : Balanced c.tree (c.typeArguments i) :=
    h.pieces (Pieces.typeArguments (q := c.policy) (v := c.visit)) (by decide) htypes
  have hdot : Balanced c.tree (token ".") := fun _ => rfl
  refine nest?_node ?_
  have hhands : c.tree.handsOn i =
      (decide (chainBreak ≤ c.tree.callChain i) &&
      c.tree.hasParent i (· = .expression .invocation)) := by
    simp [Tree.handsOn, Tree.breaksChain, hk]
  have hbreak : nest? c.tree ⟨b, (decide (chainBreak < c.tree.callChain i)).toNat, (i, n) :: o⟩
      (when (chainBreak ≤ c.tree.callChain i)
        (when (c.tree.callChain i = chainBreak) indent ++ newLine)) =
      some ⟨b, (decide (chainBreak ≤ c.tree.callChain i)).toNat, (i, n) :: o⟩ := by
    rcases Nat.lt_trichotomy chainBreak (c.tree.callChain i) with hlt | heq | hgt
    · simp [hlt, Nat.le_of_lt hlt, Nat.ne_of_gt hlt]
    · simp [← heq]
    · simp [Nat.not_le.mpr hgt, Nat.not_lt.mpr (Nat.le_of_lt hgt)]
  simp only [nest?_append, h.requiredTarget htarget, Option.bind_some, child,
    Tree.isExpected_target_of_member h.wellFormed hk, Nat.zero_add, hbreak, hhands, hdot _,
    hname _, htypes _]
  cases decide (chainBreak ≤ c.tree.callChain i)
    <;> cases c.tree.hasParent i (· = .expression .invocation) <;> simp

end Context.Levels

/-- The layout of a node is balanced, up to the level that a link of a broken chain leaves to the
node around it. -/
theorem nest?_ofNodeWithin {t : Tree} {p : Policy} (ht : t.WellFormed) (fuel : Nat) {i : NodeId}
    (hn : t.size ≤ fuel + t.depth i) (hf : failure? (ofNodeWithin t p fuel i) = none) (b n : Nat)
    (o : List (NodeId × Nat)) :
    nest? t ⟨b, n, o⟩ (ofNodeWithin t p fuel i) = some ⟨b, n + (t.isExpected i).toNat, o⟩ := by
  induction fuel generalizing i b n o with
  | zero =>
      have hi : ¬ i < t.size := fun hi => by
        have := ht.depth_lt hi
        omega
      have hk : t.kind i = .null := by_contra fun hk => hi (Tree.lt_of_kind hk)
      rw [Tree.isExpected_of_handsOn (Tree.handsOn_of_kind (by simp [hk]) (by simp [hk]))]
      rfl
  | succ fuel ih =>
      -- not only for children of the node: braces may be written in place of a child, for the
      -- children of that
      have hvisit {j q : NodeId} (hj : t.parent j = some q) (hq : t.depth i ≤ t.depth q) (b n : Nat)
          (o : List (NodeId × Nat)) (hf : failure? (ofNodeWithin t p fuel j) = none) :
          nest? t ⟨b, n, o⟩ (ofNodeWithin t p fuel j) =
            some ⟨b, n + (t.isExpected j).toNat, o⟩ := by
        have hdepth := ht.depth_of_parent hj
        exact ih (by omega) hf b n o
      have h : Context.Levels ⟨t, p, ofNodeWithin t p fuel⟩ i :=
        ⟨ht, hvisit, ofNodeWithin_null ht fuel⟩
      rw [ofNodeWithin] at hf ⊢
      by_cases hm : t.kind i = .expression .member
      · rw [hm] at hf ⊢
        exact h.member hm hf
      by_cases hv : t.kind i = .expression .invocation
      · rw [hv] at hf ⊢
        exact h.invocation hv hf
      rw [Tree.isExpected_of_handsOn (Tree.handsOn_of_kind hm hv)]
      refine (?_ : Balanced t _) ⟨b, n, o⟩
      cases hk : (t.kind i).isVisited with
      | true =>
          have hc := construct_kind (c := ⟨t, p, ofNodeWithin t p fuel⟩) (q := p)
            (v := ofNodeWithin t p fuel) hk
          exact hc.balanced h (not_or.mpr ⟨hm, hv⟩) hf
      | false =>
          cases hi : t.kind i with
          | null => exact fun _ => rfl
          | identifier | token | modifier | special => rw [hi] at hf; cases hf
          | _ => simp [hi, Kind.isVisited] at hk

end Layout

end TreeScribe
