import TreeScribe.Proofs.Render.Progress
import TreeScribe.Proofs.Tree.Wrap
import TreeScribe.Render.Text

namespace TreeScribe

variable {W : Type} [Sink W] {t u v : Tree} {P : NodeId → Prop} {c i p x : NodeId} {r : Role}

namespace Recording

structure Notes {W : Type} (P : NodeId → Prop) (w : Recording W) : Prop where
  opened : ∀ o ∈ w.opened, P o.node
  plan : ∀ e ∈ w.plan, P e.1

theorem notes_new {W : Type} {inner : W} : Notes P (new inner) := ⟨by simp [new], by simp [new]⟩

theorem Notes.imp {W : Type} {Q : NodeId → Prop} {w : Recording W} (h : Notes P w)
    (hq : ∀ i, P i → Q i) : Notes Q w :=
  ⟨fun o ho => hq _ (h.opened o ho), fun e he => hq _ (h.plan e he)⟩

def Similar {W : Type} (w w' : Recording W) : Prop :=
  w'.opened.map (·.node) = w.opened.map (·.node) ∧ w'.plan = w.plan

theorem Notes.similar {W : Type} {w w' : Recording W} (h : Notes P w) (hs : Similar w w') :
    Notes P w' := by
  refine ⟨fun o ho => ?_, hs.2 ▸ h.plan⟩
  have hm : o.node ∈ w.opened.map (·.node) := hs.1 ▸ List.mem_map_of_mem ho
  obtain ⟨o', ho', he⟩ := List.mem_map.mp hm
  exact he ▸ h.opened o' ho'

namespace Similar

variable {W : Type} {w w' w'' : Recording W} {l : Location} {e : Extent} {rg : TextRange}

theorem refl : Similar w w := ⟨rfl, rfl⟩

theorem trans (h : Similar w w') (h' : Similar w' w'') : Similar w w'' :=
  ⟨h'.1.trans h.1, h'.2.trans h.2⟩

theorem addEntry {a : Entry} : Similar w (w.addEntry a) := by
  unfold Recording.addEntry
  split
  · exact refl
  · rename_i ho
    exact ⟨by rw [ho]; rfl, rfl⟩

theorem locate : Similar w (w.locate i rg) := ⟨rfl, rfl⟩

theorem map_node_noteFirst (os : List OpenNode) :
    (noteFirst l os).map (·.node) = os.map (·.node) := by
  induction os with
  | nil => rfl
  | cons o os ih =>
      unfold noteFirst
      split
      · rfl
      · rw [List.map_cons, List.map_cons, ih]

theorem note : Similar w (w.note rg) := ⟨map_node_noteFirst _, rfl⟩

theorem locateOpen : Similar w (w.locateOpen rg) := by
  unfold Recording.locateOpen
  split
  · exact refl
  · exact locate

theorem locateIf : Similar w (w.locateIf e rg) := by
  unfold Recording.locateIf
  split
  · exact locateOpen
  · exact refl

theorem recordToken (c : Call) : Similar w (w.recordToken rg c) := by
  unfold Recording.recordToken
  split
  · split
    · exact refl
    · exact addEntry.trans locate
  · exact addEntry
  · split
    · exact addEntry
    · exact refl
  · exact locateIf
  · exact locateIf
  · split
    · exact locateOpen
    · split
      · exact addEntry
      · exact refl
  · split
    · exact locateOpen
    · exact locateIf
  · exact locateIf
  · exact refl

theorem recordUnplaced (c : Call) : Similar w (w.recordUnplaced c) := by
  unfold Recording.recordUnplaced
  split
  · split
    · exact refl
    · exact addEntry
  · exact refl

end Similar

/-- Only the start of a node opens one. -/
theorem keeps_notes : Progress.Keeps t P (Notes P : Recording W → Prop) := by
  intro w c hc hw
  have hi : Notes P { w with inner := Sink.put t w.inner c } := hw.similar .refl
  change Notes P (w.put t c)
  unfold Recording.put
  cases c with
  | start i =>
      have ha := hw.similar (Similar.addEntry (a := .node i))
      refine ⟨fun o ho => ?_, ha.plan⟩
      rcases List.mem_cons.mp ho with rfl | ho
      · exact hc i rfl
      · exact ha.opened o ho
  | finish i =>
      simp only [finished]
      cases ho : w.opened with
      | nil => exact ⟨by simp [ho], hw.plan⟩
      | cons o outer =>
          refine ⟨fun o' ho' => hw.opened o' (ho ▸ List.mem_cons_of_mem _ ho'), fun e he => ?_⟩
          rcases List.mem_cons.mp he with rfl | he
          · exact hw.opened o (ho ▸ List.mem_cons_self)
          · exact hw.plan e he
  | identifier | keyword | token | literal | primitiveType =>
      simp only
      split
      · exact hi.similar (Similar.note.trans (Similar.recordToken _))
      · exact hi.similar (Similar.recordUnplaced _)
  | special k =>
      cases k with
      | comment kind content =>
          simp only
          split
          · exact hi.similar (Similar.note.trans Similar.locateIf)
          · exact hi
      | directive => exact hi
  | space | indent | unindent | newLine => exact hi

end Recording

namespace Tree.WellFormed

theorem kind_addChild (h : t.WellFormed) (hp : p < t.size) (hc : c < t.size)
    (ho : t.addChild p r c = .ok u) : u.kind x = t.kind x := by
  by_cases hcn : c = .null
  · simp only [Tree.addChild, if_pos hcn, Except.ok.injEq] at ho
    rw [ho]
  · cases ho.symm.trans (h.insertBefore_eq (List.append_nil _).symm hcn
      ((addChild_eq_ok_iff hcn).mp ho).1)
    exact h.kind_link hp hc (List.append_nil _).symm

theorem role_addChild (h : t.WellFormed) (hp : p < t.size) (hc : c < t.size)
    (ho : t.addChild p r c = .ok u) : u.role x = if x = c ∧ c ≠ .null then r else t.role x := by
  by_cases hcn : c = .null
  · simp only [Tree.addChild, if_pos hcn, Except.ok.injEq] at ho
    rw [ho, if_neg fun hx => hx.2 hcn]
  · cases ho.symm.trans (h.insertBefore_eq (List.append_nil _).symm hcn
      ((addChild_eq_ok_iff hcn).mp ho).1)
    simp only [h.role_link hp hc (List.append_nil _).symm, hcn, ne_eq, not_false_eq_true, and_true]

end Tree.WellFormed

theorem Tree.addTokenNode_eq_ok {k : Kind} {rg : TextRange} (ho : t.addTokenNode p k r rg = .ok u) :
    ∃ w, (t.alloc k).2.addChild p r t.size = .ok w ∧
      u = w.mapPlacements (·.setRange t.size rg) := by
  cases hw : (t.alloc k).2.addChild p r t.size with
  | error e =>
      simp only [Tree.addTokenNode, Tree.alloc, bind, Except.bind] at ho hw
      rw [hw] at ho
      cases ho
  | ok w =>
      simp only [Tree.addTokenNode, Tree.alloc, bind, Except.bind, pure, Except.pure] at ho hw
      rw [hw] at ho
      cases ho
      exact ⟨w, rfl, rfl⟩

structure Kept (t u : Tree) : Prop where
  wellFormed : u.WellFormed
  size_le : t.size ≤ u.size
  kind_old {x : NodeId} (hx : x < t.size) : u.kind x = t.kind x
  role_old {x : NodeId} (hx : x < t.size) : u.role x = t.role x
  kind_new {x : NodeId} (hx : t.size ≤ x) (hu : x < u.size) : u.isTokenNode x = true

namespace Kept

theorem refl (h : t.WellFormed) : Kept t t :=
  ⟨h, Nat.le_refl _, fun _ => rfl, fun _ => rfl, fun hx hu => absurd hu (Nat.not_lt.mpr hx)⟩

theorem trans (h : Kept t u) (h' : Kept u v) : Kept t v := by
  refine ⟨h'.wellFormed, Nat.le_trans h.size_le h'.size_le, fun {x} hx => ?_, fun {x} hx => ?_,
    fun {x} hx hv => ?_⟩
  · rw [h'.kind_old (Nat.lt_of_lt_of_le hx h.size_le), h.kind_old hx]
  · rw [h'.role_old (Nat.lt_of_lt_of_le hx h.size_le), h.role_old hx]
  · rcases Nat.lt_or_ge x u.size with hu | hu
    · have hk := h.kind_new hx hu
      rwa [Tree.isTokenNode, ← h'.kind_old hu] at hk
    · exact h'.kind_new hu hv

theorem detach (h : t.WellFormed) : Kept t (t.detach i) :=
  ⟨h.detach i, Nat.le_of_eq Tree.size_detach.symm, fun _ => h.kind_detach, fun _ => h.role_detach,
      fun hx hu => by
    rw [Tree.size_detach] at hu
    exact absurd hu (Nat.not_lt.mpr hx)⟩

theorem mapPlacements {f : Placements → Placements} (h : Kept t u) :
    Kept t (u.mapPlacements f) := by
  have hs : Tree.SameLinks u (u.mapPlacements f) :=
    ⟨fun _ => rfl, fun _ => rfl, fun _ => rfl, fun _ => rfl, fun _ => rfl⟩
  exact ⟨hs.wellFormed h.wellFormed h.wellFormed.null_kind h.wellFormed.size_pos, h.size_le,
    h.kind_old, h.role_old, h.kind_new⟩

theorem foldl_detach (h : Kept t u) (l : List NodeId) : Kept t (l.foldl Tree.detach u) := by
  induction l generalizing u with
  | nil => exact h
  | cons i l ih => exact ih (h.trans (.detach h.wellFormed))

theorem foldlM {α : Type} {f : Tree → α → Except AttachError Tree} {l : List α} (hu : Kept t u)
    (hf : ∀ u a v, Kept t u → a ∈ l → f u a = .ok v → Kept u v) (h : l.foldlM f u = .ok v) :
    Kept t v := by
  induction l generalizing u with
  | nil =>
      cases h
      exact hu
  | cons a l ih =>
      rw [List.foldlM_cons] at h
      cases ha : f u a with
      | error e =>
          rw [ha] at h
          cases h
      | ok w =>
          rw [ha] at h
          exact ih (hu.trans (hf u a w hu List.mem_cons_self ha))
            (fun u b v hu hb => hf u b v hu (List.mem_cons_of_mem _ hb)) h

theorem addChild (h : t.WellFormed) (hp : p < t.size) (hc : c < t.size)
    (ho : t.addChild p (t.role c) c = .ok u) : Kept t u := by
  have hs := Tree.size_addChild ho
  refine ⟨h.addChild hp hc ho, Nat.le_of_eq hs.symm, fun _ => h.kind_addChild hp hc ho,
    fun {x} _ => ?_, fun hx hu => absurd (hs ▸ hu) (Nat.not_lt.mpr hx)⟩
  rw [h.role_addChild hp hc ho]
  split
  · rename_i hx
    rw [hx.1]
  · rfl

theorem addTokenNode {k : Kind} {rg : TextRange} (h : t.WellFormed) (hp : p < t.size)
    (hk : k = .token ∨ ∃ m, k = .modifier m) (ho : t.addTokenNode p k r rg = .ok u) : Kept t u := by
  have ha := h.alloc k
  have hlt : p < (t.alloc k).2.size := by
    rw [Tree.size_alloc]
    exact Nat.lt_succ_of_lt hp
  have hc : t.size < (t.alloc k).2.size := by
    rw [Tree.size_alloc]
    exact Nat.lt_succ_self _
  obtain ⟨w, hw, rfl⟩ := Tree.addTokenNode_eq_ok ho
  have hs := Tree.size_addChild hw
  rw [Tree.size_alloc] at hs
  have hkw (x : NodeId) := ha.kind_addChild (x := x) hlt hc hw
  have hrw (x : NodeId) := ha.role_addChild (x := x) hlt hc hw
  refine mapPlacements ⟨ha.addChild hlt hc hw, Nat.le_of_lt (hs ▸ Nat.lt_succ_self _),
    fun {x} hx => ?_, fun {x} hx => ?_, fun {x} hx hlt => ?_⟩
  · rw [hkw, Tree.kind_alloc, if_neg (Nat.ne_of_lt hx)]
  · rw [hrw, if_neg fun he => Nat.ne_of_lt hx he.1, Tree.role_alloc]
  · change x < w.size at hlt
    rw [hs] at hlt
    have hx : x = t.size := Nat.le_antisymm (Nat.le_of_lt_succ hlt) hx
    rw [Tree.isTokenNode, hkw, Tree.kind_alloc, if_pos hx]
    rcases hk with rfl | ⟨m, rfl⟩ <;> rfl

theorem reattach {l : List NodeId} (hu : Kept t u) (hp : p < t.size) (hl : ∀ c ∈ l, c < t.size)
    (ho : u.reattach p l = .ok v) : Kept t v :=
  hu.foldlM (fun _ c _ hu hc ho => .addChild hu.wellFormed (Nat.lt_of_lt_of_le hp hu.size_le)
    (Nat.lt_of_lt_of_le (hl c hc) hu.size_le) ho) ho

end Kept

namespace Tree

theorem mem_of_mem_runsBefore (f : NodeId → Bool) (acc l : List NodeId) :
    (∀ e ∈ (runsBefore f acc l).1, e.1 ∈ l ∧ ∀ x ∈ e.2, x ∈ acc ∨ x ∈ l) ∧
      ∀ x ∈ (runsBefore f acc l).2, x ∈ acc ∨ x ∈ l := by
  induction l generalizing acc with
  | nil => exact ⟨by simp [runsBefore], fun x hx => .inl (by simpa [runsBefore] using hx)⟩
  | cons i l ih =>
      rw [runsBefore]
      split
      · obtain ⟨hr, hl⟩ := ih []
        refine ⟨fun e he => ?_, fun x hx => .inr ?_⟩
        · rcases List.mem_cons.mp he with rfl | he
          · exact ⟨List.mem_cons_self, fun x hx => .inl (List.mem_reverse.mp hx)⟩
          · obtain ⟨h₁, h₂⟩ := hr e he
            refine ⟨List.mem_cons_of_mem _ h₁, fun x hx => .inr (List.mem_cons_of_mem _ ?_)⟩
            simpa using h₂ x hx
        · exact List.mem_cons_of_mem _ (by simpa using hl x hx)
      · obtain ⟨hr, hl⟩ := ih (i :: acc)
        have hm {x : NodeId} (hx : x ∈ i :: acc ∨ x ∈ l) : x ∈ acc ∨ x ∈ i :: l := by
          simp only [List.mem_cons] at hx ⊢
          tauto
        exact ⟨fun e he => ⟨List.mem_cons_of_mem _ (hr e he).1, fun x hx => hm ((hr e he).2 x hx)⟩,
          fun x hx => hm (hl x hx)⟩

end Tree

namespace Kept

theorem attachEntry {runs : List (NodeId × List NodeId)} {e : Entry} (hu : Kept t u)
    (hp : p < t.size) (hr : ∀ e ∈ runs, e.1 < t.size ∧ ∀ x ∈ e.2, x < t.size)
    (ho : Tree.attachEntry p runs u e = .ok v) : Kept u v := by
  have hpu := Nat.lt_of_lt_of_le hp hu.size_le
  unfold Tree.attachEntry at ho
  cases e with
  | node i =>
      simp only at ho
      cases hl : runs.lookup i with
      | none =>
          rw [hl] at ho
          cases ho
          exact .refl hu.wellFormed
      | some run =>
          rw [hl] at ho
          obtain ⟨l₁, l₂, rfl, -⟩ := List.lookup_eq_some_iff.mp hl
          obtain ⟨hi, hrun⟩ := hr (i, run) (by simp)
          simp only at ho
          split at ho
          · cases ho
            exact .refl hu.wellFormed
          · refine (Kept.refl hu.wellFormed).reattach hpu (fun c hc => ?_) ho
            rcases List.mem_append.mp hc with hc | hc
            · exact Nat.lt_of_lt_of_le (hrun c hc) hu.size_le
            · exact Nat.lt_of_lt_of_le (List.mem_singleton.mp hc ▸ hi) hu.size_le
  | token role rg => exact .addTokenNode hu.wellFormed hpu (.inl rfl) ho
  | modifier m rg => exact .addTokenNode hu.wellFormed hpu (.inr ⟨m, rfl⟩) ho

theorem arrange {entries : List Entry} (h : t.WellFormed) (hp : p < t.size)
    (ho : t.arrange p entries = .ok u) : Kept t u := by
  rw [Tree.arrange] at ho
  have h₁ := (Kept.refl h).foldl_detach ((t.children p).filter t.isTokenNode)
  generalize ((t.children p).filter t.isTokenNode).foldl Tree.detach t = t₁ at h₁ ho
  have hp₁ := Nat.lt_of_lt_of_le hp h₁.size_le
  have hc : ∀ x ∈ t₁.children p, x < t₁.size :=
    fun x hx => Tree.lt_of_parent (h₁.wellFormed.mem_children.mp hx)
  have h₂ := (Kept.refl h₁.wellFormed).foldl_detach (t₁.children p)
  obtain ⟨hr, hl⟩ := Tree.mem_of_mem_runsBefore (fun i => entries.contains (.node i))
    [] (t₁.children p)
  simp only [bind, Except.bind] at ho
  split at ho
  · cases ho
  · rename_i w hw
    refine h₁.trans
      (Kept.reattach (h₂.foldlM (fun v e w hv _ he => hv.attachEntry hp₁ (fun e he => ?_) he) hw)
      hp₁
      (fun x hx => hc x (by simpa using hl x hx)) ho)
    exact ⟨hc _ (hr e he).1, fun x hx => hc x (by simpa using (hr e he).2 x hx)⟩

/-- Applying a recording keeps the tree, if all nodes that it noted are in the tree. -/
theorem apply {W : Type} {w : Recording W} {inner : W} (h : t.WellFormed)
    (hw : w.Notes (· < t.size)) (ho : w.apply t = .ok (inner, u)) : Kept t u := by
  rw [Recording.apply] at ho
  simp only [bind, Except.bind, pure, Except.pure] at ho
  split at ho
  · cases ho
  · rename_i v hv
    cases ho
    have hk : Kept t v := (Kept.refl h).foldlM (fun u e v hu he ha =>
      .arrange hu.wellFormed (Nat.lt_of_lt_of_le (hw.plan e (List.mem_reverse.mp he)) hu.size_le)
        ha) hv
    generalize w.located.reverse = l
    clear hv
    induction l generalizing v with
    | nil => exact hk
    | cons e l ih => exact ih _ hk.mapPlacements

end Kept

namespace Tree

theorem notes_render (h : t.WellFormed) (p : Policy) (cancellation : Cancellation) (i : NodeId)
    (inner : W) : Recording.Notes (fun i => i < t.size ∧ i ≠ .null)
      (t.render p cancellation i (.new (Recording.new inner))).1.sink :=
  Progress.run_keeps (t := t) cancellation Recording.keeps_notes (Layout.opens_ofNode (p := p) h i)
    (p := .new (Recording.new inner)) Recording.notes_new

/-- Writing a tree with places keeps all nodes, and adds tokens only. -/
theorem writePlaced_kept {pol : Policy} {cancellation : Cancellation} {done : Rendering}
    (h : t.WellFormed) (ho : t.writePlaced pol cancellation i = .ok (done, u)) : Kept t u := by
  rw [writePlaced] at ho
  have hk := notes_render h pol cancellation i (Composed.new pol)
  split at ho
  · cases ho
  · rename_i s hs
    rw [hs] at hk
    split at ho
    · rename_i w v hw
      cases ho
      exact .apply h (hk.imp fun _ hi => hi.1) hw
    · cases ho

end Tree

end TreeScribe
