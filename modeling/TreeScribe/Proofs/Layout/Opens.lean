import TreeScribe.Proofs.Layout.Constructs

namespace TreeScribe.Layout

/-- `P` holds of every node that the layout starts before it fails. -/
def Opens (P : NodeId → Prop) : Layout → Prop
  | [] => True
  | .write (.start i) :: l => P i ∧ Opens P l
  | .fail .. :: _ => True
  | _ :: l => Opens P l

/-- `P` holds of every node that the layout starts, with all that follows its start, where `rest`
stands behind the layout. -/
def Leads (P : NodeId → Layout → Prop) (rest : Layout) : Layout → Prop
  | [] => True
  | .write (.start i) :: l => P i (l ++ rest) ∧ Leads P rest l
  | .fail .. :: _ => True
  | _ :: l => Leads P rest l

section

variable {P : NodeId → Prop} {l : Layout} {i : NodeId}

theorem opens_of_forall (h : ∀ i, P i) : Opens P l := by
  induction l with
  | nil => trivial
  | cons c l ih =>
      cases c with
      | write c => cases c <;> simp [Opens, ih, h]
      | _ => simp [Opens, ih]

theorem Opens.of_cons {c : Command} (h : Opens P (c :: l)) (hf : ∀ i d, c ≠ .fail i d) :
    (∀ i, c = .write (.start i) → P i) ∧ Opens P l := by
  cases c with
  | write c =>
      cases c with
      | start i =>
          refine ⟨fun j hj => ?_, h.2⟩
          cases hj
          exact h.1
      | _ => exact ⟨by simp, h⟩
  | fail i d => exact absurd rfl (hf i d)
  | _ => exact ⟨by simp, h⟩

theorem opens_of_leads {rest : Layout} (h : Leads (fun i _ => P i) rest l) : Opens P l := by
  induction l with
  | nil => trivial
  | cons c l ih =>
      cases c with
      | write c =>
          cases c with
          | start i => exact ⟨h.1, ih h.2⟩
          | _ => exact ih h
      | fail => trivial
      | _ => exact ih h

end

variable {P : NodeId → Layout → Prop} {l m rest : Layout} {i : NodeId}

@[simp] theorem leads_nil : Leads P rest [] := trivial

@[simp] theorem leads_append :
    Leads P rest (l ++ m) ↔ Leads P (m ++ rest) l ∧ (failure? l = none → Leads P rest m) := by
  induction l with
  | nil => simp [failure?]
  | cons c l ih =>
      simp only [failure?] at ih ⊢
      cases c with
      | write c => cases c <;> simp [Leads, ih, Command.failure?, and_assoc]
      | _ => simp [Leads, ih, Command.failure?]

theorem leads_append_of (hl : Leads P (m ++ rest) l) (hm : Leads P rest m) :
    Leads P rest (l ++ m) :=
  leads_append.mpr ⟨hl, fun _ => hm⟩

theorem Leads.split {l₁ l₂ : Layout} (h : Leads P rest (l₁ ++ .write (.start i) :: l₂))
    (hf : failure? l₁ = none) : P i (l₂ ++ rest) :=
  ((leads_append.mp h).2 hf).1

@[simp] theorem leads_cons {c : Command} (hc : ∀ i, c ≠ .write (.start i))
    (hf : ∀ i d, c ≠ .fail i d) : Leads P rest (c :: l) ↔ Leads P rest l := by
  cases c with
  | write c =>
      cases c with
      | start i => exact absurd rfl (hc i)
      | _ => rfl
  | fail i d => exact absurd rfl (hf i d)
  | _ => rfl

@[simp] theorem leads_node : Leads P rest (node i l) ↔
    P i (l ++ .write (.finish i) :: rest) ∧ Leads P (.write (.finish i) :: rest) l := by
  have hf : Leads P rest (l ++ [.write (.finish i)]) ↔ Leads P (.write (.finish i) :: rest) l := by
    simp [Leads]
  simp only [node, List.cons_append, Leads, hf, List.append_assoc, List.nil_append]

@[simp] theorem leads_when {b : Bool} : Leads P rest (when b l) ↔ (b = true → Leads P rest l) := by
  cases b <;> simp [when]

theorem leads_of_forall (h : ∀ c ∈ l, ∀ j, c ≠ .write (.start j)) : Leads P rest l := by
  induction l with
  | nil => exact leads_nil
  | cons c l ih =>
      obtain ⟨hc, hl⟩ := List.forall_mem_cons.mp h
      cases c with
      | write c =>
          cases c with
          | start j => exact absurd rfl (hc j)
          | _ => exact ih hl
      | fail => trivial
      | _ => exact ih hl

theorem leads_of_flat (h : Flat l) : Leads P rest l := by
  refine leads_of_forall fun c hc j hj => ?_
  subst hj
  simpa using h _ hc

theorem leads_of_code (h : code l = []) : Leads P rest l := by
  refine leads_of_forall fun c hc j hj => ?_
  subst hj
  simpa [Command.isBlank, Call.isBlank] using List.filter_eq_nil_iff.mp h _ hc

@[simp] theorem leads_newLine : Leads P rest newLine := leads_of_code rfl

@[simp] theorem leads_indent : Leads P rest indent := leads_of_code rfl

@[simp] theorem leads_unindent : Leads P rest unindent := leads_of_code rfl

@[simp] theorem leads_fail {d : Defect} : Leads P rest (fail i d) := trivial

@[simp] theorem leads_keyword {word : String} : Leads P rest (keyword word) := trivial

@[simp] theorem failure?_when_unindent {b : Bool} : failure? (when b unindent) = none := by
  cases b <;> rfl

@[simp] theorem leads_openBrace {style : BraceStyle} {kind : BraceKind} {body : Bool} :
    Leads P rest (openBrace style kind body) := by
  cases style <;> simp [openBrace]

@[simp] theorem leads_closeBrace {style : BraceStyle} {body : Bool} :
    Leads P rest (closeBrace style body) := by
  cases style <;> simp [closeBrace]

@[simp] theorem leads_outdentedUnless {b : Bool} :
    Leads P rest (outdentedUnless b l) ↔ Leads P (when (!b) indent ++ rest) l := by
  simp [outdentedUnless]

namespace Context

variable {c : Context} {r : Role}

def braced (c : Context) (style : BraceStyle) (i : NodeId) : Layout :=
  openBrace style (c.tree.braceKind i) true ++ c.run (c.childrenIn i .statement) ++
    closeBrace style true

/-- A context for the layout of a node whose layouts of what is below the node start nodes with a
property that the children have where they are written as blocks. -/
structure Closed (P : NodeId → Layout → Prop) (c : Context) (i : NodeId) : Prop where
  wellFormed : c.tree.WellFormed
  visit {j p : NodeId} (hj : c.tree.parent j = some p) (hp : c.tree.depth i ≤ c.tree.depth p)
    (rest : Layout) : Leads P rest (c.visit j)
  visit_null : c.visit .null = []
  braces {r : Role} (hc : c.has i r = true) (style : BraceStyle) (rest : Layout) :
    P (c.child i r) (c.braced style (c.child i r) ++ .write (.finish (c.child i r)) :: rest)

namespace Closed

variable (h : Closed P c i)

include h

theorem run {p : NodeId} (hp : c.tree.depth i ≤ c.tree.depth p) :
    Leads P rest (c.run (c.childrenIn p r)) := by
  have hrun {nodes : List NodeId} (hn : ∀ j ∈ nodes, c.tree.parent j = some p) {rest : Layout} :
      Leads P rest (c.run nodes) := by
    induction nodes generalizing rest with
    | nil => exact leads_nil
    | cons j nodes ih =>
        obtain ⟨hj, hnodes⟩ := List.forall_mem_cons.mp hn
        exact leads_append_of (h.visit hj hp _) (ih hnodes)
  exact hrun fun _ => h.wellFormed.parent_childrenIn

theorem block {p : NodeId} (hp : c.tree.depth i ≤ c.tree.depth p) {style : BraceStyle} :
    Leads P rest (c.block style p) ↔ P p (c.braced style p ++ .write (.finish p) :: rest) := by
  rw [Context.block, leads_node, braced]
  simp [h.run hp]

theorem childBlock {style : BraceStyle} (hc : c.has i r = true) :
    Leads P rest (c.block style (c.child i r)) := by
  rcases h.wellFormed.child_cases (p := i) (r := r) with hn | hp
  · exact absurd hn (bne_iff_ne.mp hc)
  · have hdepth := h.wellFormed.depth_of_parent hp
    exact (h.block (by rw [child, hdepth]; omega)).mpr (h.braces hc style rest)

end Closed

end Context

open Context (Closed)

variable {c d : Context} {js : List NodeId}

theorem Laid.leads (h : Laid c d i js l m) (hc : Closed P c i) (rest : Layout) :
    Leads P rest l := by
  induction h generalizing rest with
  | words hw => exact leads_of_flat hw.1
  | absent =>
      rw [hc.visit_null]
      exact leads_nil
  | visit hj => exact hc.visit (hc.wellFormed.parent_childrenIn hj) (Nat.le_refl _) rest
  | name => exact trivial
  | block hb => exact hc.childBlock hb
  | append _ _ ihl ihr => exact leads_append.mpr ⟨ihl _, fun hf => ihr hf _⟩
  | fewer _ _ ih => exact ih rest
  | indented _ ih => simp [ih]
  | braces _ _ ih => simp [ih]

theorem Construct.leads (h : Construct c d i l m) (hc : Closed P c i) (hi : ∀ m, P i m)
    (rest : Layout) : Leads P rest l := by
  have hnode {l : Layout} (hl : ∀ rest, Leads P rest l) {rest : Layout} :
      Leads P rest (Layout.node i l) :=
    leads_node.mpr ⟨hi _, hl _⟩
  induction h generalizing rest with
  | word hw =>
      refine hnode fun _ => leads_of_forall fun e he j hj => ?_
      cases List.mem_singleton.mp he
      cases hj
      cases (Tree.of_wordOf? hw.2).1
  | node _ _ _ _ h => exact hnode fun _ => h.leads hc _
  | block => exact leads_append_of ((hc.block (Nat.le_refl _)).mpr (hi _)) (by simp)
  | link _ _ _ ht h hx hy =>
      refine hnode fun rest => leads_append_of (leads_append_of (leads_append_of ?_ ?_) ?_) ?_
      · exact ht.leads hc _
      · exact leads_of_code hx
      · exact h.leads hc _
      · exact leads_of_code hy
  | branch _ _ h h' =>
      exact hnode fun _ => leads_append_of leads_keyword
        (leads_append_of (h.leads hc _) (h'.leads hc _))
  | branchElse _ _ h h' h'' =>
      refine hnode fun _ => leads_append_of leads_keyword
        (leads_append_of ?_ (leads_append_of leads_keyword (h''.leads hc _)))
      exact leads_append_of (h.leads hc _) (h'.leads hc _)
  | switch _ h hs => exact hnode fun _ => by simp [h.leads hc, hs.leads hc]
  | @guarded b _ _ _ _ ih =>
      cases b with
      | false => exact ih rfl rest
      | true => exact leads_append.mpr ⟨leads_fail, fun hf => by cases hf⟩

section

variable {t : Tree} {p : Policy}

theorem ofNodeWithin_null (ht : t.WellFormed) (fuel : Nat) :
    ofNodeWithin t p fuel NodeId.null = [] := by
  cases fuel with
  | zero => rfl
  | succ fuel => rw [ofNodeWithin, ht.null_kind, Context.kind]

/-- What holds of every node that is no block, and of every block in front of its braces, holds of
all nodes that a layout starts. -/
theorem leads_ofNodeWithin (ht : t.WellFormed)
    (hnode : ∀ j m, t.kind j ≠ .null → t.kind j ≠ .statement .block → P j m)
    (hblock : ∀ (fuel : Nat) (j : NodeId) (style : BraceStyle) (rest : Layout), j ≠ .null →
      j < t.size →
      t.size ≤ fuel + 1 + t.depth j →
      P j (Context.braced ⟨t, p, ofNodeWithin t p fuel⟩ style j ++ .write (.finish j) :: rest))
    (fuel : Nat) (hf : t.size ≤ fuel + t.depth i) (rest : Layout) :
    Leads P rest (ofNodeWithin t p fuel i) := by
  induction fuel generalizing i rest with
  | zero => exact leads_nil
  | succ fuel ih =>
      have hc : Context.Closed P ⟨t, p, ofNodeWithin t p fuel⟩ i := by
        refine ⟨ht, fun {j q} hj hq rest => ih ?_ rest, ofNodeWithin_null ht fuel,
          fun {r} hc style rest => ?_⟩
        · have hdepth := ht.depth_of_parent hj
          change t.depth i ≤ t.depth q at hq
          omega
        · rcases ht.child_cases (p := i) (r := r) with hn | hp
          · exact absurd hn (bne_iff_ne.mp hc)
          · have hdepth := ht.depth_of_parent hp
            exact hblock fuel _ style rest (bne_iff_ne.mp hc)
              ht.child_lt (by rw [Context.child, hdepth]; omega)
      rw [ofNodeWithin]
      by_cases hb : t.kind i = .statement .block
      · have hn : t.kind i ≠ .null := by simp [hb]
        rw [hb]
        refine leads_append_of ((hc.block (Nat.le_refl _)).mpr ?_) (by simp)
        exact hblock fuel i _ _ (ht.ne_null_of_kind hn) (Tree.lt_of_kind hn) hf
      · cases hv : (t.kind i).isVisited with
        | true =>
            have h := construct_kind (c := ⟨t, p, ofNodeWithin t p fuel⟩) (q := p)
              (v := ofNodeWithin t p fuel) hv
            exact h.leads hc (fun m => hnode i m (by rintro hn; simp [hn, Kind.isVisited] at hv) hb)
              rest
        | false =>
            cases hk : t.kind i with
            | null => exact leads_nil
            | identifier | token | modifier | special => exact leads_fail
            | _ => simp [hk, Kind.isVisited] at hv

theorem opens_ofNode (ht : t.WellFormed) (i : NodeId) :
    Opens (fun i => i < t.size ∧ i ≠ .null) (ofNode t p i) := by
  refine opens_of_leads (leads_ofNodeWithin ht (fun j _ hj _ => ?_)
    (fun _ j _ _ hj hlt _ => ?_) t.size
    (Nat.le_add_right _ _) [])
  · exact ⟨Tree.lt_of_kind hj, ht.ne_null_of_kind hj⟩
  · exact ⟨hlt, hj⟩

end

end TreeScribe.Layout
