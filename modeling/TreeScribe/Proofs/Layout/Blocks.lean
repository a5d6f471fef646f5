import TreeScribe.Proofs.Layout.Opens
import TreeScribe.Proofs.Layout.Pairing

namespace TreeScribe

namespace Tree

/-- Whether a child is a statement of the block that it stands in. -/
def standsAsStatement (t : Tree) (x : NodeId) : Bool := t.kind x ≠ .null && t.role x = .statement

def statementsOf (t : Tree) (b : NodeId) : List NodeId := (t.children b).filter t.standsAsStatement

theorem filter_childrenIn (t : Tree) (b : NodeId) :
    ((t.childrenIn b .statement).filter fun j => t.kind j ≠ .null) = t.statementsOf b :=
  List.filter_filter

end Tree

theorem Command.eq_of_call?_start {c : Command} {b : NodeId} (h : c.call? = some (.start b)) :
    c = .write (.start b) := by
  cases c with
  | write c =>
      have hc : c.isBlank = false ∧ c = .start b := by simpa [call?] using h
      rw [hc.2]
  | _ => cases h

inductive Chain (t : Tree) : List NodeId → List Call → Prop
  | nil : Chain t [] []
  | node {j : NodeId} {js : List NodeId} {before m l : List Call} {spots : List Spot} {plan : Plan}
      (hk : (t.kind j).isVisited = true) (hm : Body t j before spots plan m) (h : Chain t js l) :
      Chain t (j :: js) (.start j :: (m ++ .finish j :: l))

namespace Layout

variable {t : Tree} {p : Policy} {i j b : NodeId} {js : List NodeId} {l : Layout} {fuel : Nat}

theorem Context.exists_start (c : Context) {k : Kind} (hk : k.isVisited = true) :
    ∃ l m, c.kind i k = l ++ .write (.start i) :: m := by
  cases k with
  | null | identifier | token | modifier | special => cases hk
  | entity k => cases k <;> first | exact ⟨[], _, rfl⟩ | exact ⟨_, _, rfl⟩
  | part k => cases k <;> first | exact ⟨[], _, rfl⟩ | exact ⟨_, _, rfl⟩
  | type k => cases k <;> exact ⟨[], _, rfl⟩
  | statement k => cases k <;> exact ⟨[], _, rfl⟩
  | expression k => cases k <;> exact ⟨[], _, rfl⟩

theorem Visits.said (h : Visits t j l) (hf : failure? l = none) (hs : .write (.start j) ∈ l) :
    ∃ m before spots plan, Layout.said l = .start j :: (m ++ [.finish j]) ∧
      Body t j before spots plan m := by
  have hmem : Call.start j ∈ Layout.said l := List.mem_filterMap.mpr ⟨_, hs, rfl⟩
  rw [← said_eq_filter (b := true)] at hmem ⊢
  rcases h hf true [] with he | ⟨m, spots, plan, tail, he, hm, htail⟩
  · rw [he] at hmem
    cases hmem
  · have hnone : tail.filter (fun c => !c.isBlank) = [] := by
      rw [List.filter_eq_nil_iff]
      intro c hc
      simp [htail c hc]
    obtain ⟨spots', plan', hm', -⟩ := hm.code [.start j]
    refine ⟨_, _, spots', plan', ?_, hm'⟩
    rw [he, List.filter_cons_of_pos rfl, List.filter_append, List.filter_cons_of_pos rfl, hnone]

theorem said_ofNodeWithin (ht : t.WellFormed) (hn : t.size ≤ fuel + t.depth j)
    (hf : failure? (ofNodeWithin t p fuel j) = none) (hk : t.kind j ≠ .null) :
    (t.kind j).isVisited = true ∧ ∃ m before spots plan,
      said (ofNodeWithin t p fuel j) = .start j :: (m ++ [.finish j]) ∧
      Body t j before spots plan m := by
  have hvisits : Visits t j (ofNodeWithin t p fuel j) := visits_ofNodeWithin ht fuel j
  obtain ⟨fuel, rfl⟩ := ht.exists_fuel hk hn
  have hv : (t.kind j).isVisited = true := by
    rw [ofNodeWithin] at hf
    cases hkind : t.kind j with
    | null => exact absurd hkind hk
    | identifier | token | modifier | special =>
        rw [hkind] at hf
        cases hf
    | entity | part | type | statement | expression => rfl
  refine ⟨hv, hvisits.said hf ?_⟩
  obtain ⟨l, m, he⟩ := Context.exists_start ⟨t, p, ofNodeWithin t p fuel⟩ (i := j) hv
  rw [ofNodeWithin, he]
  simp

theorem said_ofNodeWithin_null (hk : t.kind j = .null) : said (ofNodeWithin t p fuel j) = [] := by
  cases fuel with
  | zero => rfl
  | succ fuel =>
      rw [ofNodeWithin, hk]
      rfl

theorem chain_run (ht : t.WellFormed) (hjs : ∀ j ∈ js, t.size ≤ fuel + t.depth j)
    (hf : failure? (Context.run ⟨t, p, ofNodeWithin t p fuel⟩ js) = none) :
    Chain t (js.filter fun j => t.kind j ≠ .null)
      (said (Context.run ⟨t, p, ofNodeWithin t p fuel⟩ js)) := by
  induction js with
  | nil => exact .nil
  | cons j js ih =>
      obtain ⟨hj, hjs⟩ := List.forall_mem_cons.mp hjs
      have hrun : Context.run ⟨t, p, ofNodeWithin t p fuel⟩ (j :: js) =
          [.tick] ++ (ofNodeWithin t p fuel j ++ Context.run ⟨t, p, ofNodeWithin t p fuel⟩ js) :=
          rfl
      rw [hrun, failure?_append_eq_none, failure?_append_eq_none] at hf
      have htick : said [.tick] = [] := rfl
      rw [hrun, said_append, said_append, htick, List.nil_append]
      by_cases hk : t.kind j = .null
      · rw [List.filter_cons_of_neg (by simp [hk]), said_ofNodeWithin_null hk]
        exact ih hjs hf.2.2
      · obtain ⟨hv, m, before, spots, plan, he, hm⟩ := said_ofNodeWithin ht hj hf.2.1 hk
        rw [List.filter_cons_of_pos (by simp [hk]), he, List.cons_append, List.append_assoc]
        exact .node hv hm (ih hjs hf.2.2)

theorem said_braced {c : Context} {style : BraceStyle} : said (c.braced style b) =
    .token (.token "\x7b") "\x7b" ::
      (said (c.run (c.childrenIn b .statement)) ++ [.token (.token "\x7d") "\x7d"]) := by
  rw [Context.braced, said_append, said_append, said_openBrace, said_closeBrace]
  rfl

/-- Where a block is started, its braces with its statements follow, and its finish. -/
theorem exists_block (ht : t.WellFormed) (hf : failure? (ofNode t p i) = none)
    (hb : t.kind b = .statement .block) (hs : .start b ∈ said (ofNode t p i)) :
    ∃ before l after, Chain t (t.statementsOf b) l ∧
      said (ofNode t p i) = before ++ .start b :: .token (.token "\x7b") "\x7b" ::
        (l ++ .token (.token "\x7d") "\x7d" :: .finish b :: after) := by
  have hleads :
      Leads (fun j m => t.kind j = .statement .block →
      ∃ fuel style rest, t.size ≤ fuel + 1 + t.depth j ∧
        m = Context.braced ⟨t, p, ofNodeWithin t p fuel⟩ style j ++ .write (.finish j) ::
        rest) [] (ofNode t p i) :=
    leads_ofNodeWithin ht (fun _ _ _ hn hk => absurd hk hn)
      (fun fuel _ style rest _ _ hn _ => ⟨fuel, style, rest, hn, rfl⟩)
        t.size (Nat.le_add_right _ _) []
  obtain ⟨c, hc, hcall⟩ := List.mem_filterMap.mp hs
  obtain rfl := Command.eq_of_call?_start hcall
  obtain ⟨l₁, l₂, hsplit⟩ := List.append_of_mem hc
  rw [hsplit] at hleads hf ⊢
  rw [failure?_append_eq_none, failure?_cons_eq_none] at hf
  obtain ⟨fuel, style, rest, hn, hl₂⟩ := hleads.split hf.1 hb
  rw [List.append_nil] at hl₂
  subst hl₂
  have hrun : failure? (Context.run ⟨t, p, ofNodeWithin t p fuel⟩ (t.childrenIn b .statement)) =
      none := by
    rw [failure?_append_eq_none, Context.braced, failure?_append_eq_none, failure?_append_eq_none]
      at hf
    exact hf.2.2.1.1.2
  have hchain := chain_run ht (fun j hj => ht.fuel_child hn (ht.parent_childrenIn hj)) hrun
  rw [Tree.filter_childrenIn] at hchain
  refine ⟨said l₁, _, said rest, hchain, ?_⟩
  have hstart : (Command.write (.start b)).call? = some (.start b) := rfl
  have hfinish : (Command.write (.finish b)).call? = some (.finish b) := rfl
  rw [said_append, said_cons, said_append, said_braced, said_cons, hstart, hfinish]
  simp [Context.childrenIn]

end Layout

end TreeScribe
