import TreeScribe.Proofs.Render.Untouched
import TreeScribe.Proofs.Sink.Standing
import TreeScribe.Proofs.Tree.Order

namespace TreeScribe

open Recording (rangeAt)

namespace Tree

/-- Nodes that stand for one word: new tokens, names, and nodes of one word that no block takes the
place of. -/
def IsPlaced (t : Tree) (i : NodeId) (calls : List Call) (x : NodeId) : Prop :=
  t.size ≤ x ∨ (∃ name verbatim, t.kind x = .identifier name verbatim) ∧ .identifier x ∈ calls ∨
    t.IsLeaf x ∧ .start x ∈ calls ∧ (x = i ∨ ¬ t.InPlaceOfBlock x)

def forest (u : Tree) (fuel : Nat) (nodes : List NodeId) : List NodeId :=
  nodes.flatMap fun c => c :: u.descendantsWithin fuel c

end Tree

/-- The places of those nodes of a list that `P` holds for follow one another from the offset `lo`
to `hi`. -/
inductive Lined (u : Tree) (P : NodeId → Prop) : Nat → Nat → List NodeId → Prop
  | nil {lo hi : Nat} (h : lo ≤ hi) : Lined u P lo hi []
  | skip {lo hi : Nat} {x : NodeId} {nodes : List NodeId} (hx : ¬ P x) (h : Lined u P lo hi nodes) :
      Lined u P lo hi (x :: nodes)
  | place {lo hi : Nat} {x : NodeId} {rg : TextRange} {nodes : List NodeId}
      (hx : u.placements.rangeOf x = some rg)
      (hlo : lo ≤ rg.start.offset) (h : Lined u P rg.stop.offset hi nodes) :
      Lined u P lo hi (x :: nodes)

variable {t u : Tree} {i j n x y : NodeId} {before l : List Call} {spots : List Spot} {plan : Plan}
  {p : Policy}
  {e : NodeId × List Spot} {s : Spot} {c : Call} {rg : TextRange} {fuel lo mid hi : Nat}
  {nodes nodes' piece : List NodeId} {P : NodeId → Prop}

namespace Lined

theorem le (h : Lined u P lo hi nodes) : lo ≤ hi := by
  induction h with
  | nil h => exact h
  | skip _ _ ih => exact ih
  | @place _ _ _ rg _ _ hlo _ ih => exact (hlo.trans rg.ordered).trans ih

theorem mono (h : Lined u P mid hi nodes) (hl : lo ≤ mid) : Lined u P lo hi nodes := by
  induction h with
  | nil h => exact .nil (hl.trans h)
  | skip hx _ ih => exact .skip hx (ih hl)
  | place hx hlo h _ => exact .place hx (hl.trans hlo) h

theorem append (h : Lined u P lo mid nodes) (h' : Lined u P mid hi nodes') :
    Lined u P lo hi (nodes ++ nodes') := by
  induction h with
  | nil hl => exact h'.mono hl
  | skip hx _ ih => exact .skip hx (ih h')
  | place hx hlo _ ih => exact .place hx hlo (ih h')

theorem skipAll (hl : lo ≤ hi) (h : ∀ x ∈ nodes, ¬ P x) : Lined u P lo hi nodes := by
  induction nodes with
  | nil => exact .nil hl
  | cons x nodes ih =>
      obtain ⟨hx, h⟩ := List.forall_mem_cons.mp h
      exact .skip hx (ih h)

theorem exists_range (h : Lined u P lo hi nodes) (hx : x ∈ nodes) (hP : P x) :
    ∃ rg, u.placements.rangeOf x = some rg ∧ lo ≤ rg.start.offset := by
  induction h with
  | nil => cases hx
  | skip hy _ ih =>
      rcases List.mem_cons.mp hx with rfl | hx
      · exact absurd hP hy
      · exact ih hx
  | @place _ _ _ rg _ hy hlo _ ih =>
      rcases List.mem_cons.mp hx with rfl | hx
      · exact ⟨rg, hy, hlo⟩
      · obtain ⟨rg', hr, hle⟩ := ih hx
        exact ⟨rg', hr, (hlo.trans rg.ordered).trans hle⟩

theorem pairwise (h : Lined u P lo hi nodes) : nodes.Pairwise fun x y => P x → P y →
    ∃ a b, u.placements.rangeOf x = some a ∧ u.placements.rangeOf y = some b ∧
    a.stop.offset ≤ b.start.offset := by
  induction h with
  | nil => exact .nil
  | skip hx _ ih => exact .cons (fun y _ hP => absurd hP hx) ih
  | @place _ _ _ rg _ hx _ h ih =>
      refine .cons (fun y hy _ hP => ?_) ih
      obtain ⟨rg', hr, hle⟩ := h.exists_range hy hP
      exact ⟨rg, rg', hx, hr, hle⟩

end Lined

def textEnd (t : Tree) (p : Policy) (calls : List Call) : Nat :=
  Position.bytes (textAfter t p calls)

theorem textEnd_le (l l' : List Call) : textEnd t p l ≤ textEnd t p (l ++ l') :=
  Position.bytes_le_of_prefix textAfter_prefix

theorem Recording.exists_rangeAt_between (hp : '\n' ∉ p.indentation.toList)
    (hc : s.call.writesWord t = true) :
    ∃ rg, rangeAt t (Composed.new p) s = some rg ∧ textEnd t p s.before ≤ rg.start.offset ∧
      rg.stop.offset = textEnd t p s.through := by
  obtain ⟨rg, before, hr, hstart, hstop, -, hle⟩ := exists_rangeAt hp hc
  have hfirst : Location.first.offset = 0 := rfl
  refine ⟨rg, hr, ?_, ?_⟩
  · rw [hstart, Position.offset_advance, hfirst, Nat.zero_add]
    exact Position.bytes_le_of_prefix hle
  · rw [hstop, Position.offset_advance, hfirst, Nat.zero_add]
    rfl

theorem Placements.rangeOf_eq {ps : Placements} (h : ps[x]? = some ⟨some rg.start, some rg.stop⟩) :
    ps.rangeOf x = some rg := by
  simp [rangeOf, startOf, stopOf, h, rg.ordered]

theorem Call.node?_cases (h : c.node? = some j) : c = .start j ∨ c = .identifier j := by
  cases c with
  | start | identifier =>
      cases h
      simp
  | _ => cases h

theorem Call.writesWord_of_tokenNode? {k : Kind} {kr : Kind × Role} (h : c.tokenNode? k = some kr) :
    c.writesWord t = true := by
  cases c with
  | keyword | token => rfl
  | _ => cases h

namespace Tree

@[simp] theorem forest_append :
    u.forest fuel (nodes ++ nodes') = u.forest fuel nodes ++ u.forest fuel nodes' :=
  List.flatMap_append

@[simp] theorem forest_singleton : u.forest fuel [x] = x :: u.descendantsWithin fuel x := by
  simp [forest]

theorem WellFormed.below_of_mem_descendantsWithin (hu : u.WellFormed)
    (hy : y ∈ u.descendantsWithin fuel x) : u.Below x y := by
  induction fuel generalizing x with
  | zero => cases hy
  | succ fuel ih =>
      simp only [descendantsWithin, List.mem_flatMap, List.mem_cons, hu.mem_children] at hy
      obtain ⟨c, hc, rfl | hy⟩ := hy
      · exact Below.self.child hc
      · exact (Below.self.child hc).trans (ih hy)

theorem IsPlaced.touched {calls : List Call} (h : t.IsPlaced i calls x) : t.Touched calls x := by
  rcases h with h | ⟨-, h⟩ | ⟨-, h, -⟩
  · exact .inl h
  · exact .inr ⟨_, h, rfl⟩
  · exact .inr ⟨_, h, rfl⟩

theorem lined_untouched {calls : List Call} (hu : u.WellFormed)
    (hn : ∀ x ∈ nodes, t.Untouched calls u x) (hl : lo ≤ hi) :
    Lined u (t.IsPlaced i calls) lo hi (u.forest fuel nodes) := by
  refine .skipAll hl fun y hy hP => ?_
  obtain ⟨x, hx, hy⟩ := List.mem_flatMap.mp hy
  refine hn x hx y ?_ hP.touched
  rcases List.mem_cons.mp hy with rfl | hy
  · exact .self
  · exact hu.below_of_mem_descendantsWithin hy

theorem lined_descendants {calls : List Call} (hu : u.WellFormed)
    (hn : ∀ x ∈ u.children j, t.Untouched calls u x) (hl : lo ≤ hi) :
    Lined u (t.IsPlaced i calls) lo hi (u.descendantsWithin fuel j) := by
  cases fuel with
  | zero => exact .nil hl
  | succ fuel => exact lined_untouched hu hn hl

end Tree

namespace Tree

variable {calls calls' : List Call}

theorem isPlaced_congr (h : ∀ c x, c.node? = some x → (c ∈ calls ↔ c ∈ calls')) :
    t.IsPlaced i calls x ↔ t.IsPlaced i calls' x := by
  rw [IsPlaced, IsPlaced, h (.identifier x) x rfl, h (.start x) x rfl]

theorem writesWord_of_isLeaf (hl : t.IsLeaf x) (hc : t.wordOf? x = some c) :
    c.writesWord t = true ∧ c.tokenNode? (t.kind x) = none := by
  obtain ⟨hk, hrt, hrm⟩ := hl
  have hself (word : String) : (Call.keyword (t.role x) word).tokenNode? (t.kind x) = none := by
    unfold Call.tokenNode?
    split <;> simp_all [Role.isToken]
  unfold wordOf? at hc
  rcases hk with hk | hk | hk | ⟨v, hk⟩ | ⟨word, hk⟩ <;> simp only [hk, Option.some.injEq] at hc
    <;> subst hc
  · exact ⟨rfl, rfl⟩
  · exact ⟨rfl, hself "this"⟩
  · exact ⟨rfl, hself "base"⟩
  · exact ⟨rfl, rfl⟩
  · exact ⟨rfl, rfl⟩

theorem exists_wordOf? (hl : t.IsLeaf x) : ∃ c, t.IsWord x c := by
  obtain ⟨hk, -⟩ := hl
  rcases hk with hk | hk | hk | ⟨v, hk⟩ | ⟨word, hk⟩
    <;> exact ⟨_, by rw [hk]; rfl, by rw [wordOf?, hk]⟩

end Tree

namespace Recast

variable (ht : t.WellFormed) (h : Body t i [.start i] spots plan l)
  (hr : Recast t (Composed.new p) i spots plan u)
  (hroot : t.IsLeaf i → ∃ s, spots = [s] ∧ t.IsWord i s.call) (he : e ∈ plan ++ [(i, spots)])

include ht h he

theorem isLeaf_of_isPlaced (hP : t.IsPlaced i (.start i :: l) e.1) :
    t.IsLeaf e.1 ∧ (e.1 = i ∨ ¬ t.InPlaceOfBlock e.1) := by
  rcases hP with hP | ⟨-, hP⟩ | ⟨hl, -, hb⟩
  · exact absurd ((h.below he).lt h.lt) (Nat.not_lt.mpr hP)
  · have hP : .identifier e.1 ∈ l := by simpa using hP
    obtain ⟨e', he', s, hs, hc⟩ := h.exists_spot hP rfl
    exact absurd rfl (h.ne_of_name ht he' hs hc he)
  · exact ⟨hl, hb⟩

include hroot

theorem exists_word (hl : t.IsLeaf e.1) (hb : e.1 = i ∨ ¬ t.InPlaceOfBlock e.1) :
    ∃ s, e.2 = [s] ∧ t.IsWord e.1 s.call := by
  rcases hb with hi | hb
  · have hlast : (i, spots) ∈ plan ++ [(i, spots)] := by simp
    cases h.eq_of_mem ht he hlast hi
    exact hroot hl
  · obtain ⟨_, _, _, hbody⟩ := h.body_of_mem he
    generalize e.2 = inner at hbody
    cases hbody with
    | word hc => exact ⟨_, rfl, hc⟩
    | composite hk _ _ =>
        obtain ⟨c, -, hc⟩ := Tree.exists_wordOf? hl
        rcases hk with hk | ⟨-, hk⟩
        · exact absurd hk hb
        · cases hk.symm.trans hc

theorem not_isPlaced_of_fills {m : List Call} {under : Plan} (hf : Fills t e.1 before e.2 under m) :
    ¬ t.IsPlaced i (.start i :: l) e.1 := by
  intro hP
  obtain ⟨hl, hb⟩ := isLeaf_of_isPlaced ht h he hP
  obtain ⟨s, hs, hc⟩ := exists_word ht h hroot he hl hb
  exact Recording.Recorded.not_isWord_of_fills hf hl (by simp [hs]) hc

omit hroot
include hr

theorem lined_children (hk : u.children e.1 = nodes ++
      trailing (nodesOf e.2).contains (t.lasting e.1))
    (hl : ∀ fuel, Lined u (t.IsPlaced i (.start i :: l)) lo hi (u.forest fuel nodes)) (fuel : Nat) :
    Lined u (t.IsPlaced i (.start i :: l)) lo hi (u.descendantsWithin fuel e.1) := by
  cases fuel with
  | zero => exact .nil (hl 0).le
  | succ fuel =>
      have hchildren : u.descendantsWithin (fuel + 1) e.1 = u.forest fuel (u.children e.1) := rfl
      rw [hchildren, hk, Tree.forest_append]
      exact (hl fuel).append (Tree.lined_untouched hr.kept.wellFormed
        (fun _ hx => hr.untouched_of_unwritten ht h he (mem_of_mem_trailing hx)) (Nat.le_refl _))

theorem lined_leading (hlo : lo ≤ hi) : Lined u (t.IsPlaced i (.start i :: l)) lo hi
    (u.forest fuel (leading (nodesOf e.2).contains (t.lasting e.1) j)) :=
  Tree.lined_untouched hr.kept.wellFormed
    (fun _ hx => hr.untouched_of_unwritten ht h he (mem_of_mem_leading hx)) hlo

theorem lined_start (hc : s.call = .start j)
    (hpiece : t.SpotPiece (Composed.new p) e.1 (nodesOf e.2) u s piece)
    (hl : Lined u (t.IsPlaced i (.start i :: l)) lo hi (j :: u.descendantsWithin fuel j)) :
    Lined u (t.IsPlaced i (.start i :: l)) lo hi (u.forest fuel piece) := by
  rw [Tree.SpotPiece, hc] at hpiece
  simp only [Call.node?] at hpiece
  split at hpiece
  · subst hpiece
    exact .nil hl.le
  · subst hpiece
    rw [Tree.forest_append, Tree.forest_singleton]
    exact (hr.lined_leading ht h he (Nat.le_refl _)).append hl

variable (hp : '\n' ∉ p.indentation.toList)

include hp

theorem lined_word (hs : s ∈ e.2) (hstart : ∀ j, s.call ≠ .start j)
    (hpiece : t.SpotPiece (Composed.new p) e.1 (nodesOf e.2) u s piece) (fuel : Nat) :
    Lined u (t.IsPlaced i (.start i :: l)) (textEnd t p s.before) (textEnd t p s.through)
      (u.forest fuel piece) := by
  have hu := hr.kept.wellFormed
  have hle : textEnd t p s.before ≤ textEnd t p s.through := textEnd_le _ _
  rw [Tree.SpotPiece] at hpiece
  cases hn : s.call.node? with
  | some j =>
      obtain hj := (Call.node?_cases hn).resolve_left (hstart j)
      simp only [hn] at hpiece
      split at hpiece
      · subst hpiece
        exact .nil hle
      · subst hpiece
        rw [Tree.forest_append, Tree.forest_singleton]
        refine (hr.lined_leading ht h he (Nat.le_refl _)).append ?_
        have hbelow {lo : Nat} (hl : lo ≤ textEnd t p s.through) :
            Lined u (t.IsPlaced i (.start i :: l)) lo
              (textEnd t p s.through) (u.descendantsWithin fuel j) :=
          Tree.lined_descendants hu (fun _ hx => hr.untouched_of_name ht h he hs hj hx) hl
        by_cases hw : s.call.writesWord t = true
        · obtain ⟨rg, hrange, hstart, hstop⟩ := Recording.exists_rangeAt_between hp hw
          exact .place (Placements.rangeOf_eq (hr.names he hs hj hrange))
            hstart (hbelow (Nat.le_of_eq hstop))
        · refine .skip (fun hP => ?_) (hbelow hle)
          rcases hP with hP | ⟨⟨name, verbatim, hk⟩, -⟩ | ⟨-, hP, -⟩
          · exact absurd (Tree.lt_of_parent (h.parent_of_spot he hs hn)) (Nat.not_lt.mpr hP)
          · exact hw (by simp [hj, Call.writesWord, TextSink.identifierText?, hk])
          · obtain ⟨e', he', hk⟩ := List.mem_map.mp (h.start_mem_iff.mp hP)
            exact h.ne_of_name ht he hs hj he' hk
  | none =>
      simp only [hn] at hpiece
      cases hk : s.call.tokenNode? (t.kind e.1) with
      | none =>
          simp only [hk] at hpiece
          subst hpiece
          exact .nil hle
      | some kr =>
          simp only [hk] at hpiece
          obtain ⟨x, rg, -, hat, hrange, rfl⟩ := hpiece
          obtain ⟨rg', hrange', hstart, hstop⟩ :=
            Recording.exists_rangeAt_between hp (Call.writesWord_of_tokenNode? (t := t) hk)
          cases hrange.symm.trans hrange'
          rw [Tree.forest_singleton]
          exact .place (Placements.rangeOf_eq hat.place) hstart
            (Tree.lined_descendants hu (by simp [hat.children]) (Nat.le_of_eq hstop))

theorem lined_leaf (hs : e.2 = [s]) (hc : t.IsWord e.1 s.call) (fuel : Nat) :
    Lined u (t.IsPlaced i (.start i :: l)) (textEnd t p s.before) (textEnd t p s.through)
      (e.1 :: u.descendantsWithin fuel e.1) := by
  have hmem : s ∈ e.2 := by simp [hs]
  have hnode := (Tree.of_wordOf? hc.2).1
  obtain ⟨pieces, hpieces, hk⟩ := h.pieces ht hr he
  generalize hwritten : nodesOf e.2 = written at hpieces hk
  rw [hs] at hpieces
  obtain ⟨piece, _, hpiece, hnil, rfl⟩ := List.forall₂_cons_left_iff.mp hpieces
  cases hnil
  subst hwritten
  simp only [List.flatten_cons, List.flatten_nil, List.append_nil] at hk
  by_cases hl : t.IsLeaf e.1
  · obtain ⟨hw, htoken⟩ := Tree.writesWord_of_isLeaf hl hc.2
    obtain ⟨rg, hrange, hstart, hstop⟩ := Recording.exists_rangeAt_between hp hw
    have hnone : piece = [] := by
      rw [Tree.SpotPiece, hnode, htoken] at hpiece
      exact hpiece
    refine .place (Placements.rangeOf_eq (hr.words he hl hmem hc hrange)) hstart ?_
    refine hr.lined_children ht h he hk (fun fuel => ?_) fuel
    rw [hnone]
    exact .nil (Nat.le_of_eq hstop)
  · refine .skip (fun hP => hl (isLeaf_of_isPlaced ht h he hP).1) ?_
    exact hr.lined_children ht h he hk
      (hr.lined_word ht h he hp hmem (Recording.wordOf?_ne hc.2).1 hpiece) fuel

omit he

theorem lined_fills (hroot : t.IsLeaf i → ∃ s, spots = [s] ∧ t.IsWord i s.call)
    {before m : List Call} {inner : List Spot} {under : Plan} {pieces : List (List NodeId)}
    (he : e ∈ plan ++ [(i, spots)]) (hf : Fills t n before inner under m) (hn : e.1 = n)
    (hinner : ∀ s ∈ inner, s ∈ e.2) (hunder : ∀ e ∈ under, e ∈ plan ++ [(i, spots)])
    (hpieces : List.Forall₂ (t.SpotPiece (Composed.new p) e.1 (nodesOf e.2) u) inner pieces)
    (fuel : Nat) :
    Lined u (t.IsPlaced i (.start i :: l)) (textEnd t p before) (textEnd t p (before ++ m))
      (u.forest fuel pieces.flatten) := by
  induction hf generalizing e pieces fuel with
  | nil =>
      cases hpieces
      exact .nil (textEnd_le _ _)
  | @blank n before m inner under c _ _ ih =>
      have hrest := ih he hn hinner hunder hpieces fuel
      rw [List.append_assoc] at hrest
      exact hrest.mono (textEnd_le _ _)
  | @word n before m inner under c hc _ ih =>
      obtain ⟨piece, pieces, hpiece, hothers, rfl⟩ := List.forall₂_cons_left_iff.mp hpieces
      obtain ⟨hs, hinner⟩ := List.forall_mem_cons.mp hinner
      have hrest := ih he hn hinner hunder hothers fuel
      rw [List.append_assoc] at hrest
      rw [List.flatten_cons, Tree.forest_append]
      exact (hr.lined_word ht h he hp hs (fun _ => hc.ne_start) hpiece fuel).append hrest
  | @leaf n j before m inner under c _ hc _ ih =>
      obtain ⟨piece, pieces, hpiece, hothers, rfl⟩ := List.forall₂_cons_left_iff.mp hpieces
      obtain ⟨hs, hinner⟩ := List.forall_mem_cons.mp hinner
      obtain ⟨hj, hunder⟩ := List.forall_mem_cons.mp hunder
      have hrest := ih he hn hinner hunder hothers fuel
      rw [List.append_assoc] at hrest
      have hword := hr.lined_leaf ht h hj hp rfl hc fuel
      have hstart : textEnd t p before ≤ textEnd t p (before ++ [.start j]) := textEnd_le _ _
      have hfinish : before ++ [.start j, c, .finish j] = before ++ [.start j] ++ [c] ++
          [.finish j] := by simp
      rw [hfinish] at hrest
      rw [List.flatten_cons, Tree.forest_append]
      exact (hr.lined_start ht h he rfl hpiece (hword.mono hstart)).append
        (hrest.mono (textEnd_le _ _))
  | @child n j before m rest inner spots' under plan' _ _ _ hm _ ihm ih =>
      obtain ⟨piece, pieces, hpiece, hothers, rfl⟩ := List.forall₂_cons_left_iff.mp hpieces
      obtain ⟨hs, hinner⟩ := List.forall_mem_cons.mp hinner
      obtain ⟨hunder, hplan⟩ := List.forall_mem_append.mp hunder
      obtain ⟨hj, hplan⟩ := List.forall_mem_cons.mp hplan
      have hrest := ih he hn hinner hplan hothers fuel
      obtain ⟨pieces', hpieces', hk⟩ := h.pieces ht hr hj
      have hbelow := hr.lined_children ht h hj hk (ihm hj rfl (fun _ hs => hs) hunder hpieces') fuel
      have hstart : textEnd t p before ≤ textEnd t p (before ++ [.start j]) := textEnd_le _ _
      have hfinish : before ++ .start j :: (m ++ [.finish j]) = before ++ [.start j] ++ m ++
          [.finish j] := by simp
      have hall : before ++ .start j :: (m ++ .finish j :: rest) =
          before ++ .start j :: (m ++ [.finish j]) ++ rest := by simp
      rw [← hall, hfinish] at hrest
      rw [List.flatten_cons, Tree.forest_append]
      exact (hr.lined_start ht h he rfl hpiece
        (.skip (not_isPlaced_of_fills ht h hroot hj hm) (hbelow.mono hstart))).append
        (hrest.mono (textEnd_le _ _))

/-- The node that was filled, and all below it. -/
theorem lined (hroot : t.IsLeaf i → ∃ s, spots = [s] ∧ t.IsWord i s.call) (fuel : Nat) :
    Lined u (t.IsPlaced i (.start i :: l)) (textEnd t p [.start i]) (textEnd t p (.start i :: l))
      (i :: u.descendantsWithin fuel i) := by
  have hi : (i, spots) ∈ plan ++ [(i, spots)] := by simp
  cases h with
  | word hc => exact hr.lined_leaf ht (.word hc) hi hp rfl hc fuel
  | composite hk hn hf =>
      have h : Body t i [.start i] spots plan l := .composite hk hn hf
      obtain ⟨pieces, hpieces, hk⟩ := h.pieces ht hr hi
      refine .skip (not_isPlaced_of_fills ht h hroot hi hf)
        (hr.lined_children ht h hi hk (fun fuel => ?_) fuel)
      exact hr.lined_fills ht h hp hroot hi hf rfl (fun _ hs => hs)
        (fun _ he => List.mem_append_left _ he) hpieces fuel

end Recast

end TreeScribe
