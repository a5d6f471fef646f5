import TreeScribe.Proofs.Layout.Balanced
import TreeScribe.Proofs.Render.Materialized
import TreeScribe.Proofs.Sink.Levels

namespace TreeScribe

def levelAfter (t : Tree) (p : Policy) (calls : List Call) : Nat :=
  (Sink.putAll t (Composed.new p) calls).inner.inner.level

variable {t : Tree} {p : Policy} {calls l l' : List Call}

theorem levelAfter_append : levelAfter t p (l ++ l') = l'.foldl Call.shift (levelAfter t p l) := by
  rw [levelAfter, Sink.putAll_append, levelAfter]
  generalize Sink.putAll t (Composed.new p) l = w
  induction l' generalizing w with
  | nil => rfl
  | cons c l' ih =>
      have hput : (Sink.put t w c).inner.inner.level = c.shift w.inner.inner.level :=
        Composed.level_put
      rw [Sink.putAll_cons, ih, List.foldl_cons, hput]

def Call.endsStray (t : Tree) : Call → Bool
  | .finish i => t.isStray i
  | _ => false

namespace Nesting

variable {s s' : Nesting} {c : Call} {n k : Nat} {x y : NodeId} {o : List (NodeId × Nat)}

theorem shift_of_read? (h : s.read? t c = some s') :
    c.shift (s.levels + k) = s'.levels + k + (c.endsStray t).toNat := by
  cases reads_of_read? h with
  | start b n o i =>
      simp only [Call.shift, Call.endsStray, levels, List.foldr_cons, Bool.toNat_false]
      omega
  | finish b m o i =>
      have hsplit : (t.handsOn i).toNat = (t.isExpected i).toNat + (t.isStray i).toNat := by
        rw [Tree.isExpected, Tree.isStray]
        cases t.handsOn i <;> cases t.isTarget i <;> rfl
      simp only [Call.shift, Call.endsStray, levels, List.foldr_cons, hsplit]
      omega
  | opening | closing => rfl
  | indent b n o | unindent b n o =>
      simp only [Call.shift, Call.endsStray, levels, Bool.toNat_false]
      omega
  | other _ hs hf hi =>
      cases c with
      | start i => exact absurd rfl (hs i)
      | finish i => exact absurd rfl (hf i)
      | indent => exact absurd rfl hi.1
      | unindent => exact absurd rfl hi.2
      | _ => rfl

/-- The text is further in than the nesting says, by one level for every stray link before. -/
theorem foldl_shift (h : s.readAll? t calls = some s') :
    calls.foldl Call.shift (s.levels + k) = s'.levels + k + calls.countP (Call.endsStray t) := by
  induction calls generalizing s k with
  | nil =>
      cases h
      rfl
  | cons c calls ih =>
      rw [readAll?_cons] at h
      obtain ⟨s₁, hc, hl⟩ := Option.bind_eq_some_iff.mp h
      have hcount : (c.endsStray t).toNat = if c.endsStray t = true then 1 else 0 := by
        cases c.endsStray t <;> rfl
      rw [List.foldl_cons, shift_of_read? hc, Nat.add_assoc, ih hl, List.countP_cons, hcount]
      omega

/-- A node that finishes is the one that was opened last, and its levels are those in front of
it. -/
theorem levels_of_finish {pre : List (NodeId × Nat)} {b : Nat} (h : s.read? t (.finish x) = some s')
    (ho : s.opened = pre ++ (x, n) :: o) (hx : x ∉ pre.map Prod.fst) :
    s.levels = levels ⟨b, n, o⟩ + (t.handsOn x).toNat := by
  cases reads_of_read? h with
  | finish =>
      cases pre with
      | nil =>
          cases ho
          simp only [levels, List.foldr_cons]
          omega
      | cons e pre =>
          cases ho
          exact absurd List.mem_cons_self hx
  | other _ _ hf => exact absurd rfl (hf x)

theorem opened_of_read? {pre : List (NodeId × Nat)} (h : s.read? t c = some s')
    (ho : s.opened = pre ++ (x, n) :: o) (hs : c ≠ .start x) (hf : c ≠ .finish x)
    (hx : x ∉ pre.map Prod.fst) :
    ∃ pre', s'.opened = pre' ++ (x, n) :: o ∧ x ∉ pre'.map Prod.fst ∧
      (∀ y ∈ pre'.map Prod.fst, y ∈ pre.map Prod.fst ∨ c = .start y) ∧ ∀ y, c = .finish y →
      y ∈ pre.map Prod.fst := by
  cases reads_of_read? h with
  | start b m o' i =>
      have hi : x ≠ i := fun he => hs (he ▸ rfl)
      refine ⟨(i, m) :: pre, congrArg _ ho, by simpa [hi] using hx, fun y hy => ?_, by simp⟩
      rcases List.mem_cons.mp hy with rfl | hy
      · exact .inr rfl
      · exact .inl hy
  | finish b m o' i =>
      have hi : x ≠ i := fun he => hf (he ▸ rfl)
      cases pre with
      | nil => exact absurd (congrArg Prod.fst (List.cons.inj ho).1).symm hi
      | cons e pre =>
          obtain ⟨rfl, hrest⟩ := List.cons.inj ho
          refine ⟨pre, hrest, fun hm => hx (List.mem_cons_of_mem _ hm),
            fun y hy => .inl (List.mem_cons_of_mem _ hy), fun y hy => ?_⟩
          cases hy
          exact List.mem_cons_self
  | indent | unindent | opening | closing => exact ⟨pre, ho, hx, fun _ => .inl, by simp⟩
  | other _ _ hn => exact ⟨pre, ho, hx, fun _ => .inl, fun y hy => absurd hy (hn y)⟩

/-- Between the start and the finish of a node, what was open before stays open, and what finishes
has started there. -/
theorem opened_of_readAll? (pre : List (NodeId × Nat)) (h : s.readAll? t calls = some s')
    (ho : s.opened = pre ++ (x, n) :: o) (hs : .start x ∉ calls) (hf : .finish x ∉ calls)
    (hx : x ∉ pre.map Prod.fst) :
    ∃ pre', s'.opened = pre' ++ (x, n) :: o ∧ x ∉ pre'.map Prod.fst ∧
      ∀ y, .finish y ∈ calls → y ∈ pre.map Prod.fst ∨ .start y ∈ calls := by
  induction calls generalizing s pre with
  | nil =>
      cases h
      exact ⟨pre, ho, hx, by simp⟩
  | cons c calls ih =>
      rw [readAll?_cons] at h
      obtain ⟨s₁, hc, hl⟩ := Option.bind_eq_some_iff.mp h
      rw [List.mem_cons, not_or] at hs hf
      obtain ⟨pre₁, ho₁, hx₁, hopen, hclose⟩ :=
        opened_of_read? hc ho (Ne.symm hs.1) (Ne.symm hf.1) hx
      obtain ⟨pre', ho', hx', hy⟩ := ih pre₁ hl ho₁ hs.2 hf.2 hx₁
      refine ⟨pre', ho', hx', fun y hm => ?_⟩
      rcases List.mem_cons.mp hm with he | hm
      · exact .inl (hclose y he.symm)
      · rcases hy y hm with hm | hm
        · exact (hopen y hm).imp_right fun he => List.mem_cons.mpr (.inl he.symm)
        · exact .inr (List.mem_cons_of_mem _ hm)

end Nesting

theorem levelAfter_of_readAll? {s : Nesting} (h : Nesting.start.readAll? t calls = some s) :
    levelAfter t p calls = s.levels + calls.countP (Call.endsStray t) :=
  (levelAfter_append (l := [])).trans (Nesting.foldl_shift (k := 0) h)

theorem Layout.readAll?_issued {s s' : Nesting} {b : Bool} {m : Layout}
    (h : m.nest? t s = some s') : s.readAll? t (m.issued b) = some s' := by
  have hcommand {c : Command} {s s' : Nesting} {b : Bool} (hc : c.nest? t s = some s') :
      s.readAll? t (c.issued b) = some s' := by
    have hsingle {d : Call} (hd : s.read? t d = some s') : s.readAll? t [d] = some s' := by
      rw [Nesting.readAll?_cons, hd]
      rfl
    cases c with
    | write d =>
        rw [Command.nest?] at hc
        split at hc
        · cases hc
        · exact hsingle hc
    | openBrace | closeBrace => exact hsingle hc
    | gap | freshLine => cases b <;> exact hc
    | reference | separator | tick | fail => exact hc
  induction m generalizing s b with
  | nil => exact h
  | cons c m ih =>
      rw [nest?_cons] at h
      obtain ⟨s₁, hc, hm⟩ := Option.bind_eq_some_iff.mp h
      rw [issued, Nesting.readAll?_append, hcommand hc]
      exact ih hm

namespace Tree

variable {c : Cancellation} {i x : NodeId} {done : Rendering} {before inner : List Call}

structure IsVisit (t : Tree) (p : Policy) (i : NodeId) (before : List Call) (x : NodeId)
    (inner : List Call) : Prop where
  sent : before ++ .start x :: inner ++ [.finish x] <+: t.callsSent p i
  start : .start x ∉ inner
  finish : .finish x ∉ inner

theorem exists_readAll? (ht : t.WellFormed) (hd : t.write p c i = .ok done) :
    ∃ s, Nesting.start.readAll? t (t.callsSent p i) = some s := by
  have hlayout := Layout.nest?_ofNodeWithin (p := p) ht t.size (i := i) (Nat.le_add_right _ _)
    (issued_of_write hd).1 0 0 []
  rw [callsSent_eq (issued_of_write hd).1]
  exact ⟨_, Layout.readAll?_issued hlayout⟩

end Tree

theorem exists_read?_of_prefix {s s' : Nesting} {c : Call} (h : s.readAll? t l = some s')
    (hl : l' ++ [c] <+: l) :
    ∃ s₁ s₂, s.readAll? t l' = some s₁ ∧ s₁.read? t c = some s₂ := by
  obtain ⟨rest, rfl⟩ := hl
  rw [List.append_assoc, Nesting.readAll?_append] at h
  obtain ⟨s₁, h₁, h⟩ := Option.bind_eq_some_iff.mp h
  rw [List.singleton_append, Nesting.readAll?_cons] at h
  obtain ⟨s₂, h₂, -⟩ := Option.bind_eq_some_iff.mp h
  exact ⟨s₁, s₂, h₁, h₂⟩

/-- Indentation is restored. A level is ended only where there is one, and what is written for a
node ends at the level at which it starts, if no link inside is stray. A link of a broken chain that
hands its level on ends one level further in. This is also said of a node that is a stray link
itself, whose level nobody ends: only the links inside it are asked not to be stray. -/
theorem write_restores_level (t : Tree) (p : Policy) (c : Cancellation) (i : NodeId)
    (done : Rendering) (ht : t.WellFormed) (hd : t.write p c i = .ok done) :
    (∀ before, before ++ [.unindent] <+: t.callsSent p i → 0 < levelAfter t p before) ∧
    ∀ before x inner, t.IsVisit p i before x inner → (∀ y, .start y ∈ inner → t.isStray y = false) →
      levelAfter t p (before ++ .start x :: inner ++ [.finish x]) = levelAfter t p before +
      (t.handsOn x).toNat := by
  obtain ⟨s, hs⟩ := Tree.exists_readAll? ht hd
  constructor
  · intro before hb
    obtain ⟨s₁, s₂, h₁, h₂⟩ := exists_read?_of_prefix hs hb
    rw [levelAfter_of_readAll? h₁]
    cases Nesting.reads_of_read? h₂ with
    | unindent b n o =>
        simp only [Nesting.levels]
        omega
    | other _ _ _ hi => exact absurd rfl hi.2
  · intro before x inner hv hn
    obtain ⟨s₂, s₃, h₂, hfinish⟩ := exists_read?_of_prefix hs hv.sent
    have hthrough := levelAfter_of_readAll? (p := p) h₂
    rw [Nesting.readAll?_append] at h₂
    obtain ⟨⟨b, n, o⟩, h₁, h₂⟩ := Option.bind_eq_some_iff.mp h₂
    rw [Nesting.readAll?_cons] at h₂
    obtain ⟨_, hstart, hinner⟩ := Option.bind_eq_some_iff.mp h₂
    cases hstart
    obtain ⟨pre, hopened, hx, hy⟩ :=
      Nesting.opened_of_readAll? [] hinner rfl hv.start hv.finish List.not_mem_nil
    have hend : s₂.levels = Nesting.levels ⟨b, n, o⟩ + (t.handsOn x).toNat :=
      Nesting.levels_of_finish hfinish hopened hx
    -- what finishes inside has started inside, and nothing that starts there is stray
    have hnone : inner.countP (Call.endsStray t) = 0 := by
      refine List.countP_eq_zero.mpr fun c hc => ?_
      cases c with
      | finish y => simpa [Call.endsStray] using hn y ((hy y hc).resolve_left List.not_mem_nil)
      | _ => simp [Call.endsStray]
    rw [levelAfter_append, hthrough, levelAfter_of_readAll? h₁, hend, List.countP_append,
      List.countP_cons, hnone]
    simp [Call.shift, Call.endsStray]
    omega

/-- `this.A().B().C().D();` -/
def linkedCalls : Tree :=
  .planted
    [.statement .expression, .expression .invocation, .expression .member, .expression .invocation,
      .expression .member,
      .expression .invocation, .expression .member, .expression .invocation, .expression .member,
      .expression .thisRef,
      .identifier "D" false, .identifier "C" false, .identifier "B" false, .identifier "A" false]
    [(1, .expression, 2), (2, .target, 3), (3, .target, 4), (4, .target, 5), (5, .target, 6),
      (6, .target, 7),
      (7, .target, 8), (8, .target, 9), (9, .target, 10), (3, .identifier, 11),
      (5, .identifier, 12),
      (7, .identifier, 13), (9, .identifier, 14)]

/-- The invocation ends the level that its target starts. -/
theorem write_restores_level_linked : linkedCalls.WellFormed ∧
    ∃ done, linkedCalls.write .allman .never 1 = .ok done ∧
    done.text = "this.A().B().C()\n\t.D();\n" ∧
      (∀ before, before ++ [.unindent] <+: linkedCalls.callsSent .allman 1 →
        0 < levelAfter linkedCalls .allman before) ∧
      ∀ before x inner, linkedCalls.IsVisit .allman 1 before x inner →
        (∀ y, .start y ∈ inner → linkedCalls.isStray y = false) →
        levelAfter linkedCalls .allman (before ++ .start x :: inner ++ [.finish x]) =
          levelAfter linkedCalls .allman before + (linkedCalls.handsOn x).toNat := by
  have hw : linkedCalls.WellFormed := Tree.wellFormed_planted _ _
  have htext : (linkedCalls.write .allman .never 1).map Rendering.text =
      .ok "this.A().B().C()\n\t.D();\n" := by decide +kernel
  cases hd : linkedCalls.write .allman .never 1 with
  | error e =>
      rw [hd] at htext
      cases htext
  | ok done =>
      rw [hd] at htext
      exact ⟨hw, done, rfl, Except.ok.inj htext,
        write_restores_level linkedCalls .allman .never 1 done hw hd⟩

/-- The target of the last call ends one level further in than it starts. -/
theorem write_leaves_level_of_link : linkedCalls.WellFormed ∧
    (linkedCalls.write .allman .never 1).map Rendering.text = .ok "this.A().B().C()\n\t.D();\n" ∧
    ¬ ∀ before x inner, linkedCalls.IsVisit .allman 1 before x inner →
      levelAfter linkedCalls .allman (before ++ .start x :: inner ++ [.finish x]) =
      levelAfter linkedCalls .allman before := by
  refine ⟨Tree.wellFormed_planted _ _, by decide +kernel, fun h => ?_⟩
  have hvisit : linkedCalls.IsVisit .allman 1 [.start 1, .start 2] 3
      (((linkedCalls.callsSent .allman 1).drop 3).takeWhile (· ≠ .finish 3)) :=
    ⟨by decide +kernel, by decide +kernel, by decide +kernel⟩
  exact absurd (h _ _ _ hvisit) (by decide +kernel)

end TreeScribe
