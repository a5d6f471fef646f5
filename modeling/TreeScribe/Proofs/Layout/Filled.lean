import Mathlib.Data.List.Flatten
import TreeScribe.Proofs.Layout.Constructs
import TreeScribe.Proofs.Layout.Nested

namespace TreeScribe

namespace Layout

/-- A part of the layout of a node that writes some of the nodes `js`, in their order. -/
def LaysOut (t : Tree) (i : NodeId) (js : List NodeId) (l : Layout) : Prop :=
  failure? l = none → ∀ b before, ∃ spots plan, Fills t i before spots plan (issued b l) ∧
    (nodesOf spots).Sublist js

/-- The layout of a whole node, which blanks may follow. The null node has none. -/
def Visits (t : Tree) (i : NodeId) (l : Layout) : Prop :=
  failure? l = none → ∀ b before, issued b l = [] ∨ ∃ m spots plan tail,
    issued b l = .start i :: (m ++ .finish i :: tail) ∧
    Body t i (before ++ [.start i]) spots plan m ∧
      ∀ c ∈ tail, c.isBlank = true

variable {t : Tree} {i j : NodeId} {l m : Layout} {js js' : List NodeId} {rs rs' : List Role}
  {r : Role} {b : Bool}

namespace LaysOut

theorem nil : LaysOut t i [] [] := fun _ _ _ => ⟨[], [], .nil, List.Sublist.refl _⟩

theorem mono (h : LaysOut t i js l) (hs : js.Sublist js') : LaysOut t i js' l := by
  intro hf b before
  obtain ⟨spots, plan, hl, hn⟩ := h hf b before
  exact ⟨spots, plan, hl, hn.trans hs⟩

theorem append (hl : LaysOut t i js l) (hm : failure? l = none → LaysOut t i js' m) :
    LaysOut t i (js ++ js') (l ++ m) := by
  intro hf b before
  obtain ⟨hfl, hfm⟩ := failure?_append_eq_none.mp hf
  obtain ⟨spots, plan, hls, hn⟩ := hl hfl b before
  obtain ⟨spots', plan', hms, hn'⟩ :=
    hm hfl hfm ((issued b l).foldl Call.endsLine b) (before ++ issued b l)
  rw [issued_append]
  exact ⟨_, _, hls.append hms, by rw [nodesOf_append]; exact hn.append hn'⟩

theorem before (hm : LaysOut t i js m) (hl : LaysOut t i [] l) : LaysOut t i js (l ++ m) :=
  hl.append fun _ => hm

theorem behind (hl : LaysOut t i js l) (hm : LaysOut t i [] m) : LaysOut t i js (l ++ m) := by
  simpa using hl.append fun _ => hm

theorem word {c : Call} (hc : t.Says i c) (hn : c.node? = none) : LaysOut t i [] [.write c] :=
  fun _ _ _ => ⟨_, _, .word hc .nil, by simp [nodesOf_cons, hn]⟩

theorem blanks (h : code l = []) : LaysOut t i [] l := by
  intro hf b before
  have hcalls : (issued b l).filter (fun c => !c.isBlank) = [] := by
    rw [code_issued hf, ← codeCalls_code, h]
    rfl
  refine ⟨_, _, .blanks fun c hc => ?_, .slnil⟩
  simpa using List.filter_eq_nil_iff.mp hcalls c hc

theorem of_code (h : ∀ c ∈ code l, LaysOut t i [] [c]) : LaysOut t i [] l := by
  induction l with
  | nil => exact nil
  | cons c l ih =>
      rw [← List.singleton_append]
      cases hc : c.isBlank with
      | true => exact (ih (code_cons_of_blank hc ▸ h)).before (blanks (code_cons_of_blank hc))
      | false =>
          obtain ⟨hc, hl⟩ := List.forall_mem_cons.mp (code_cons hc ▸ h)
          exact (ih hl).before hc

theorem flat (h : Flat l) : LaysOut t i [] l := by
  refine of_code fun c hc => ?_
  replace hc := h c (List.mem_of_mem_filter hc)
  cases c with
  | write c =>
      cases c with
      | token role text =>
          cases role with
          | token text' =>
              obtain ⟨⟨rfl, -⟩, -⟩ : (text' = text ∧ _) ∧ _ := by simpa using hc
              exact word (.token _) rfl
          | _ => simp at hc
      | keyword role word =>
          cases role with
          | token text' =>
              obtain ⟨⟨rfl, -⟩, -⟩ : (text' = word ∧ _) ∧ _ := by simpa using hc
              exact LaysOut.word (.keyword _) rfl
          | modifier =>
              obtain ⟨m, -, hm⟩ := List.any_eq_true.mp hc
              obtain rfl : m.keyword = word := by simpa using hm
              exact LaysOut.word (.modifier m) rfl
          | _ => simp at hc
      | space | newLine => exact blanks rfl
      | _ => simp at hc
  | openBrace | closeBrace => simp at hc
  | gap | freshLine => exact blanks rfl
  | reference | separator | tick | fail => exact fun _ _ _ => ⟨[], [], .nil, .slnil⟩

theorem openBrace {style : BraceStyle} {kind : BraceKind} {body : Bool} :
    LaysOut t i [] (Layout.openBrace style kind body) := by
  refine of_code ?_
  rw [code_openBrace, List.forall_mem_singleton]
  exact fun _ _ _ => ⟨_, _, .word (.token _) .nil, .slnil⟩

theorem closeBrace {style : BraceStyle} {body : Bool} :
    LaysOut t i [] (Layout.closeBrace style body) := by
  refine of_code ?_
  rw [code_closeBrace, List.forall_mem_singleton]
  exact fun _ _ _ => ⟨_, _, .word (.token _) .nil, .slnil⟩

theorem braces {kind : BraceKind} {style : BraceStyle} {body : Bool} (h : LaysOut t i js l) :
    LaysOut t i js
    (Layout.openBrace style kind body ++ outdentedUnless b l ++ Layout.closeBrace style body) := by
  have hinner : LaysOut t i js (outdentedUnless b l) :=
    (h.before (.blanks (by simp))).behind (.blanks (by simp))
  exact (hinner.before .openBrace).behind .closeBrace

theorem visit (h : Visits t j l) (hj : t.parent j = some i) : LaysOut t i [j] l := by
  intro hf b before
  rcases h hf b before with hl | ⟨m, spots, plan, tail, hl, hm, htail⟩
  · rw [hl]
    exact ⟨[], [], .nil, List.nil_sublist _⟩
  · rw [hl]
    cases hm with
    | word hc => exact ⟨_, _, .leaf hj hc (.blanks htail), List.Sublist.refl _⟩
    | composite hk hn hm => exact ⟨_, _, .child hj hk hn hm (.blanks htail), List.Sublist.refl _⟩

end LaysOut

namespace Visits

theorem node {R : List Role} (h : LaysOut t i (R.flatMap (t.childrenIn i)) l) (ht : t.WellFormed)
    (hR : R.Nodup) (hk : t.IsComposite i) : Visits t i (Layout.node i l) := by
  intro hf b before
  obtain ⟨spots, plan, hl, hn⟩ := h (failure?_node.mp hf) b (before ++ [.start i])
  refine .inr ⟨_, spots, plan, [], issued_node, .composite hk ?_ hl, by simp⟩
  refine hn.nodup
    (List.nodup_flatMap.mpr ⟨fun r _ => ht.nodup_childrenIn, hR.imp fun {r r'} hne j hj hj' => ?_⟩)
  exact hne ((Tree.mem_childrenIn_iff.mp hj).2.symm.trans (Tree.mem_childrenIn_iff.mp hj').2)

theorem word {c : Call} (hc : t.IsWord i c) : Visits t i (Layout.node i [.write c]) :=
  fun _ _ _ => .inr ⟨[c], _, [], [], issued_node, .word hc, by simp⟩

theorem behind_newLine (h : Visits t i (Layout.node i l)) :
    Visits t i (Layout.node i l ++ when b newLine) := by
  intro hfail b' before
  rcases h (failure?_append_eq_none.mp hfail).1 b' before
    with hl | ⟨m, spots, plan, tail, hl, hm, htail⟩
  · rw [issued_node] at hl
    cases hl
  · have hblank : ∀ c ∈ (if b then [Call.newLine] else []), c.isBlank = true := by
      cases b <;> simp [Call.isBlank]
    rw [issued_append, hl]
    refine .inr ⟨m, spots, plan, _, ?_, hm, List.forall_mem_append.mpr ⟨htail, hblank⟩⟩
    cases b <;> simp [when, newLine, issued, Command.issued]

end Visits

structure Context.Sound (c : Context) : Prop where
  wellFormed : c.tree.WellFormed
  visit (i : NodeId) : Visits c.tree i (c.visit i)

variable {c d : Context}

theorem Context.Sound.block (h : c.Sound) {style : BraceStyle} (hi : c.tree.IsComposite i) :
    Visits c.tree i (c.block style i) := by
  have hrun (nodes : List NodeId) (hn : ∀ j ∈ nodes, c.tree.parent j = some i) :
      LaysOut c.tree i nodes (c.run nodes) := by
    induction nodes with
    | nil => exact .nil
    | cons j nodes ih =>
        obtain ⟨hj, hnodes⟩ := List.forall_mem_cons.mp hn
        exact ((LaysOut.visit (h.visit j) hj).before (.flat (l := [.tick]) (by simp))).append
          fun _ => ih hnodes
  have hstatements := hrun (c.childrenIn i .statement) fun _ => h.wellFormed.parent_childrenIn
  refine .node (R := [.statement]) ?_ h.wellFormed (by decide) hi
  rw [List.flatMap_singleton]
  exact (hstatements.before .openBrace).behind .closeBrace

theorem Laid.laysOut (h : Laid c d i js l m) (hs : c.Sound) : LaysOut c.tree i js l := by
  induction h with
  | words hw => exact .flat hw.1
  | absent =>
      intro hf b before
      rcases hs.visit .null hf b before with hl | ⟨_, _, _, _, _, hbody, _⟩
      · rw [hl]
        exact ⟨[], [], .nil, .slnil⟩
      · exact absurd hbody hs.wellFormed.not_body_null
  | visit hj => exact .visit (hs.visit _) (hs.wellFormed.parent_childrenIn hj)
  | name hc =>
      obtain ⟨hm, hr⟩ := Tree.role_child (bne_iff_ne.mp hc)
      exact fun _ _ _ => ⟨_, _, .word (.name (hs.wellFormed.mem_children.mp hm) hr) .nil,
        List.Sublist.refl _⟩
  | block hc hb =>
      obtain ⟨hm, hr⟩ := Tree.role_child (bne_iff_ne.mp hc)
      have hp := hs.wellFormed.mem_children.mp hm
      refine .visit (hs.block ?_) hp
      rcases hb with hb | hk
      · exact .inl ⟨i, hp, hr.symm ▸ hb⟩
      · exact Tree.isComposite_of_statement hk
  | append _ _ ihl ihr => exact ihl.append ihr
  | fewer _ hs ih => exact ih.mono hs
  | indented _ ih => exact (ih.before (.blanks (by simp))).behind (.blanks (by simp))
  | braces _ _ ih => exact ih.braces

theorem Construct.visits (h : Construct c d i l m) (hs : c.Sound) : Visits c.tree i l := by
  have hnode {R : List Role} {l : Layout} (hR : R.Nodup) (hi : c.tree.IsComposite i)
      (hl : LaysOut c.tree i (R.flatMap (c.childrenIn i)) l) : Visits c.tree i (Layout.node i l) :=
    .node hl hs.wellFormed hR hi
  induction h with
  | word hw => exact .word hw
  | node hi _ hn _ h => exact hnode hn hi (h.laysOut hs)
  | block hk => exact (hs.block (Tree.isComposite_of_statement hk)).behind_newLine
  | link hk hn _ ht h hx hy =>
      have hi : c.tree.IsComposite i := by
        rcases hk with hk | hk <;> exact .inr ⟨by rw [hk]; rfl, by simp [Tree.wordOf?, hk]⟩
      have htarget := (ht.laysOut hs).behind (.blanks hx)
      rw [List.flatMap_singleton] at htarget
      exact hnode hn hi ((htarget.append fun _ => h.laysOut hs).behind (.blanks hy))
  | branch hk _ h h' =>
      have hparts :=
        ((h.laysOut hs).append fun _ => h'.laysOut hs).before (.word (.keyword "if") rfl)
      refine hnode (R := [.condition, .trueStatement]) (by decide)
        (Tree.isComposite_of_statement hk) (hparts.mono ?_)
      simpa [Context.childrenIn] using Tree.firstIn_sublist.append Tree.firstIn_sublist
  | branchElse hk _ h h' h'' =>
      have helse := (h''.laysOut hs).before (.word (.keyword "else") rfl)
      have hparts := (((h.laysOut hs).append fun _ => h'.laysOut hs).append fun _ => helse).before
        (.word (.keyword "if") rfl)
      refine hnode (R := [.condition, .trueStatement, .falseStatement]) (by decide)
        (Tree.isComposite_of_statement hk)
        (hparts.mono ?_)
      simpa [Context.childrenIn]
        using (Tree.firstIn_sublist.append Tree.firstIn_sublist).append Tree.firstIn_sublist
  | switch hk h hs' =>
      refine hnode (R := [.expression] ++ [.switchSection]) (by decide)
        (Tree.isComposite_of_statement hk) ?_
      rw [List.flatMap_append]
      exact ((h.laysOut hs).append fun _ => (hs'.laysOut hs).braces).behind (.blanks code_newLine)
  | @guarded b _ _ _ _ ih =>
      cases b with
      | false => exact ih rfl
      | true => exact fun hf => by cases (failure?_append_eq_none.mp hf).1

/-- The layout of any node fills it. -/
theorem visits_ofNodeWithin {t : Tree} {p : Policy} (ht : t.WellFormed) (fuel : Nat) (i : NodeId) :
    Visits t i (ofNodeWithin t p fuel i) := by
  induction fuel generalizing i with
  | zero => exact fun _ _ _ => .inl rfl
  | succ fuel ih =>
      rw [ofNodeWithin]
      cases hv : (t.kind i).isVisited with
      | true =>
          have h := construct_kind (c := ⟨t, p, ofNodeWithin t p fuel⟩) (q := p)
            (v := ofNodeWithin t p fuel) hv
          exact h.visits ⟨ht, ih⟩
      | false =>
          cases hk : t.kind i with
          | null => exact fun _ _ _ => .inl rfl
          | identifier | token | modifier | special => exact fun hf => by cases hf
          | _ => simp [hk, Kind.isVisited] at hv

end Layout

end TreeScribe
