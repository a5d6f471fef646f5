import TreeScribe.Proofs.Render.Lined

namespace TreeScribe

open Recording (rangeAt)

namespace Tree

def Holds (u : Tree) (text : String) (x : NodeId) (word : String) : Prop :=
  ∃ rg, u.placements.rangeOf x = some rg ∧ Position.WordAt text rg word

/-- The words that `calls` wrote for `i` and the nodes below it stand in the text where the tree `u`
says: the new tokens of every node are, in their order, its calls that write one; names and nodes of
one word hold theirs; and all these places follow one another. -/
structure Located (t : Tree) (p : Policy) (i : NodeId) (calls : List Call) (text : String)
    (u : Tree) : Prop where
  tokens (n : NodeId) : List.Forall₂
    (fun c x => c.tokenNode? (t.kind n) = some (u.kind x, u.role x) ∧
      u.Holds text x (c.word t (p.stringLimit.map (·.toNat))))
    ((wrote n [] calls).filter fun c => (c.tokenNode? (t.kind n)).isSome)
    ((u.children n).filter (t.size ≤ ·))
  names {x : NodeId} {name : String} {verbatim : Bool} (hk : t.kind x = .identifier name verbatim)
    (hx : .identifier x ∈ calls) :
    u.Holds text x ((Call.identifier x).word t (p.stringLimit.map (·.toNat)))
  words {x : NodeId} (hl : t.IsLeaf x) (hx : .start x ∈ calls) (hb : x = i ∨ ¬ t.InPlaceOfBlock x) :
    ∃ c, t.wordOf? x = some c ∧ u.Holds text x (c.word t (p.stringLimit.map (·.toNat)))
  ordered : (i :: u.descendants i).Pairwise fun x y => t.IsPlaced i calls x → t.IsPlaced i calls y →
    ∃ a b, u.placements.rangeOf x = some a ∧ u.placements.rangeOf y = some b ∧
    a.stop.offset ≤ b.start.offset

end Tree

variable {t u : Tree} {i j n x y : NodeId} {before l : List Call} {spots : List Spot} {plan : Plan}
  {p : Policy}
  {e : NodeId × List Spot} {s : Spot} {c : Call}

theorem Recording.exists_wordAt {calls : List Call} {text : String}
    (hp : '\n' ∉ p.indentation.toList) (hc : s.call.writesWord t = true)
    (hpre : s.through <+: calls) (htext : text.toList = textAfter t p calls) :
    ∃ rg, rangeAt t (Composed.new p) s = some rg ∧
      Position.WordAt text rg (s.call.word t (p.stringLimit.map (·.toNat))) := by
  obtain ⟨rg, before, hr, hstart, hstop, hword, -⟩ := exists_rangeAt hp hc
  obtain ⟨rest, rfl⟩ := hpre
  have hgrows : textAfter t p s.through <+: textAfter t p (s.through ++ rest) := textAfter_prefix
  obtain ⟨more, hmore⟩ := hgrows
  exact ⟨rg, hr, Position.wordAt_of_append (by rw [htext, ← hmore, hword])
    hstart (by rw [hstop, hword])⟩

namespace Body

theorem exists_spot_of_word (h : Body t i before spots plan [c]) (hc : t.IsWord i c) :
    ∃ s, spots = [s] ∧ t.IsWord i s.call := by
  generalize hl : [c] = l at h
  cases h with
  | word hc => exact ⟨_, rfl, hc⟩
  | composite _ _ h =>
      cases h with
      | nil => cases hl
      | blank hb _ =>
          cases hl
          exact absurd hb (by simp [(Tree.of_wordOf? hc.2).2])
      | word _ h =>
          cases hl
          cases h
          exact ⟨_, rfl, hc⟩
      | leaf => cases hl
      | child => simp at hl

end Body

theorem Layout.issued_ofNode_leaf (hl : t.IsLeaf i) (hi : i < t.size) :
    ∃ c, t.IsWord i c ∧ (Layout.ofNode t p i).issued true = [.start i, c, .finish i] := by
  obtain ⟨c, hv, hc⟩ := Tree.exists_wordOf? hl
  obtain ⟨fuel, hfuel⟩ := Nat.exists_eq_add_one_of_ne_zero (Nat.ne_of_gt (Nat.zero_lt_of_lt hi))
  refine ⟨c, ⟨hv, hc⟩, ?_⟩
  have hnode : (Layout.ofNode t p i).issued true = (Layout.node i [.write c]).issued true := by
    rw [Layout.ofNode, hfuel, Layout.ofNodeWithin]
    unfold Tree.wordOf? at hc
    rcases hl.1 with hk | hk | hk | ⟨v, hk⟩ | ⟨word, hk⟩ <;> simp only [hk, Option.some.injEq] at hc
      <;> subst hc <;>
      rw [hk] <;> rfl
  rw [hnode, Layout.issued_node, Layout.issued_write]
  rfl

namespace Recast

variable {calls : List Call} {text : String} (ht : t.WellFormed)
  (h : Body t i [.start i] spots plan l)
  (hr : Recast t (Composed.new p) i spots plan u) (hp : '\n' ∉ p.indentation.toList)
  (hcalls : .start i :: l <+: calls) (htext : text.toList = textAfter t p calls)

include h hp hcalls htext

theorem exists_wordAt (he : e ∈ plan ++ [(i, spots)]) (hs : s ∈ e.2)
    (hc : s.call.writesWord t = true) :
    ∃ rg, rangeAt t (Composed.new p) s = some rg ∧
      Position.WordAt text rg (s.call.word t (p.stringLimit.map (·.toNat))) :=
  Recording.exists_wordAt hp hc ((h.through_prefix he hs).trans hcalls) htext

include ht

theorem tokens_of_pieces (he : e ∈ plan ++ [(i, spots)]) {inner : List Spot}
    {pieces : List (List NodeId)} (hinner : ∀ s ∈ inner, s ∈ e.2)
    (hpieces : List.Forall₂ (t.SpotPiece (Composed.new p) e.1 (nodesOf e.2) u) inner pieces) :
    List.Forall₂ (fun c x => c.tokenNode? (t.kind e.1) = some (u.kind x, u.role x) ∧
        u.Holds text x (c.word t (p.stringLimit.map (·.toNat))))
      ((inner.map (·.call)).filter fun c => (c.tokenNode? (t.kind e.1)).isSome)
      (pieces.flatten.filter (t.size ≤ ·)) := by
  induction hpieces with
  | nil => exact .nil
  | @cons s piece inner pieces hpiece _ ih =>
      obtain ⟨hs, hinner⟩ := List.forall_mem_cons.mp hinner
      have hrest := ih hinner
      rw [List.map_cons, List.filter_cons, List.flatten_cons, List.filter_append]
      rw [Tree.SpotPiece] at hpiece
      cases hn : s.call.node? with
      | some j =>
          have htoken : s.call.tokenNode? (t.kind e.1) = none := by
            rcases Call.node?_cases hn with hc | hc <;> rw [hc] <;> rfl
          have hj := h.parent_of_spot he hs hn
          have hold : piece.filter (t.size ≤ ·) = [] := by
            refine List.filter_eq_nil_iff.mpr fun x hx => ?_
            have hx : t.parent x = some e.1 := by
              simp only [hn] at hpiece
              split at hpiece
              · simp [hpiece] at hx
              · rcases List.mem_append.mp (hpiece ▸ hx) with hx | hx
                · exact ht.mem_children.mp (List.mem_of_mem_filter (mem_of_mem_leading hx).1)
                · exact List.mem_singleton.mp hx ▸ hj
            simpa using Tree.lt_of_parent hx
          simpa [htoken, hold] using hrest
      | none =>
          simp only [hn] at hpiece
          cases hk : s.call.tokenNode? (t.kind e.1) with
          | none =>
              simp only [hk] at hpiece
              simpa [hpiece] using hrest
          | some kr =>
              simp only [hk] at hpiece
              obtain ⟨x, rg, hx, hat, hrange, rfl⟩ := hpiece
              obtain ⟨rg', hrange', hword⟩ :=
                exists_wordAt h hp hcalls htext he hs (Call.writesWord_of_tokenNode? (t := t) hk)
              cases hrange.symm.trans hrange'
              have hfresh : [x].filter (t.size ≤ ·) = [x] := by simp [hx]
              rw [hfresh, if_pos (by simp)]
              have hkr : s.call.tokenNode? (t.kind e.1) = some (u.kind x, u.role x) := by
                rw [hk, hat.kind, hat.role]
              exact .cons ⟨hkr, rg, Placements.rangeOf_eq hat.place, hword⟩ hrest

include hr

theorem located {tail : List Call} (hall : calls = .start i :: (l ++ .finish i :: tail))
    (htail : ∀ c ∈ tail, c.isBlank = true)
    (hroot : t.IsLeaf i → ∃ s, spots = [s] ∧ t.IsWord i s.call) : t.Located p i calls text u := by
  have hmem (c : Call) (x : NodeId) (hx : c.node? = some x) : c ∈ calls ↔ c ∈ .start i :: l := by
    have hc : c ≠ .finish i ∧ c ∉ tail := by
      rcases Call.node?_cases hx with rfl | rfl <;> exact ⟨nofun, fun hc => by cases htail _ hc⟩
    simp [hall, hc]
  have hplaced (x : NodeId) : t.IsPlaced i calls x ↔ t.IsPlaced i (.start i :: l) x :=
    Tree.isPlaced_congr hmem
  refine ⟨fun n => ?_, fun {x name verbatim} hk hx => ?_, fun {x} hl hx hb => ?_, ?_⟩
  · have hold {q : NodeId} : ∀ x, t.parent x = some q → ¬ t.size ≤ x := fun _ hx =>
      Nat.not_le.mpr (Tree.lt_of_parent hx)
    by_cases hn : n ∈ (plan ++ [(i, spots)]).map (·.1)
    · obtain ⟨e, he, rfl⟩ := List.mem_map.mp hn
      obtain ⟨pieces, hpieces, hk⟩ := h.pieces ht hr he
      have htrailing :
          (trailing (nodesOf e.2).contains (t.lasting e.1)).filter (t.size ≤ ·) = [] := by
        refine List.filter_eq_nil_iff.mpr fun x hx => ?_
        simpa using hold x (ht.mem_children.mp (List.mem_of_mem_filter (mem_of_mem_trailing hx).1))
      rw [hall, h.wrote_of_mem ht htail he, hk, List.filter_append, htrailing, List.append_nil]
      exact tokens_of_pieces ht h hp hcalls htext he (fun _ hs => hs) hpieces
    · have hchildren : (t.children n).filter (t.size ≤ ·) = [] := by
        refine List.filter_eq_nil_iff.mpr fun x hx => ?_
        simpa using hold x (ht.mem_children.mp hx)
      rw [hall, h.wrote_of_notMem htail hn, hr.children hn, hchildren]
      exact .nil
  · have hx : .identifier x ∈ l := by simpa using (hmem _ x rfl).mp hx
    obtain ⟨e, he, s, hs, hc⟩ := h.exists_spot hx rfl
    have hw : s.call.writesWord t = true := by
      simp [hc, Call.writesWord, TextSink.identifierText?, hk]
    obtain ⟨rg, hrange, hword⟩ := exists_wordAt h hp hcalls htext he hs hw
    exact ⟨rg, Placements.rangeOf_eq (hr.names he hs hc hrange), hc ▸ hword⟩
  · obtain ⟨e, he, rfl⟩ := List.mem_map.mp (h.start_mem_iff.mp ((hmem _ x rfl).mp hx))
    obtain ⟨s, hs, hc⟩ := exists_word ht h hroot he hl hb
    have hs : s ∈ e.2 := by simp [hs]
    obtain ⟨rg, hrange, hword⟩ :=
      exists_wordAt h hp hcalls htext he hs (Tree.writesWord_of_isLeaf hl hc.2).1
    exact ⟨s.call, hc.2, rg, Placements.rangeOf_eq (hr.words he hl hs hc hrange), hword⟩
  · simp only [hplaced]
    rw [hr.kept.wellFormed.descendants_eq]
    exact (hr.lined ht h hp hroot u.size).pairwise

end Recast

theorem Tree.located_nil (ht : t.WellFormed) {text : String} : t.Located p i [] text t := by
  have hnone {x q : NodeId} (hx : t.parent x = some q) :
      ¬ t.size ≤ x := Nat.not_le.mpr (lt_of_parent hx)
  refine ⟨fun n => ?_, fun _ hx => absurd hx List.not_mem_nil,
    fun _ hx => absurd hx List.not_mem_nil, ?_⟩
  · have hchildren : (t.children n).filter (t.size ≤ ·) = [] := by
      refine List.filter_eq_nil_iff.mpr fun x hx => ?_
      simpa using hnone (ht.mem_children.mp hx)
    rw [hchildren]
    exact .nil
  · have hno : ∀ y ∈ t.descendants i, ¬ t.IsPlaced i [] y := by
      rintro y hy (hP | ⟨-, hP⟩ | ⟨-, hP, -⟩)
      · obtain ⟨q, hq, -⟩ := ht.mem_descendants.mp hy
        exact hnone hq hP
      · cases hP
      · cases hP
    exact .cons (fun y hy _ hP => absurd hP (hno y hy)) (Lined.skipAll (Nat.le_refl 0) hno).pairwise

/-- Places point at words. Unless indentation breaks lines, every new token, every name and every
node of one word has a place after writing with places, except below the node that is written where
a block is written in its place. The text has the word there, line and column of both ends are those
of their offsets, and in the order of the tree no place starts before the one before it stops. -/
theorem writePlaced_locates_words (t : Tree) (p : Policy) (c : Cancellation) (i : NodeId)
    (done : Rendering) (u : Tree) (ht : t.WellFormed) (hp : '\n' ∉ p.indentation.toList)
    (hd : t.writePlaced p c i = .ok (done, u)) : t.Located p i (t.callsSent p i) done.text u := by
  have hw := Tree.write_of_writePlaced ht hd
  obtain ⟨hfail, htext⟩ := Tree.issued_of_write hw
  obtain ⟨u', hu, hr⟩ := Tree.recast_of_write ht hw
  cases hd.symm.trans hu
  rw [Tree.callsSent_eq hfail]
  rcases hr with ⟨he, rfl⟩ | ⟨l, spots, plan, tail, he, htail, hb, hr⟩
  · rw [he]
    exact Tree.located_nil ht
  · rw [he] at htext ⊢
    refine hr.located ht hb hp ⟨.finish i :: tail, by simp⟩ (congrArg String.toList htext)
      rfl htail fun hl => ?_
    -- a leaf has a layout of three calls, so its word is all that it was filled with
    obtain ⟨word, hword, hissued⟩ := Layout.issued_ofNode_leaf (p := p) hl hb.lt
    have hl : l = [word] := by
      have hcalls := List.cons.inj (he.symm.trans hissued)
      cases l with
      | nil => exact absurd (List.cons.inj hcalls.2).1.symm ((Recording.wordOf?_ne hword.2).2.1 i)
      | cons c l =>
          obtain ⟨rfl, hrest⟩ := List.cons.inj hcalls.2
          cases l with
          | nil => rfl
          | cons => simp at hrest
    subst hl
    exact hb.exists_spot_of_word hword

/-- `public int x;` -/
def publicField : Tree :=
  .planted [.entity (.field (.single .publicAccess)), .type (.primitive "int"), .part .variable_,
      .identifier "x" false]
    [(1, .type, 2), (1, .variable_, 3), (3, .identifier, 4)]

/-- The two new tokens, the type and the name have places next to each other. -/
theorem writePlaced_locates_words_field :
    publicField.WellFormed ∧ '\n' ∉ Policy.allman.indentation.toList ∧
    ∃ done u, publicField.writePlaced .allman .never 1 = .ok (done, u) ∧
    done.text = "public int x;\n" ∧
      ([5, 2, 4, 6].map fun x => (u.placements.rangeOf x).map fun r =>
        (r.start.offset, r.stop.offset)) =
        [some (0, 6), some (7, 10), some (11, 12), some (12, 13)] ∧
      publicField.Located .allman 1 (publicField.callsSent .allman 1) done.text u := by
  have hw : publicField.WellFormed := Tree.wellFormed_planted _ _
  have hp : '\n' ∉ Policy.allman.indentation.toList := by decide
  have hplaced : ((publicField.writePlaced .allman .never 1).map fun (done, u) => (done.text,
      [5, 2, 4, 6].map fun x => (u.placements.rangeOf x).map fun r =>
      (r.start.offset, r.stop.offset))) =
      .ok ("public int x;\n", [some (0, 6), some (7, 10), some (11, 12), some (12, 13)]) := by
      decide +kernel
  cases hd : publicField.writePlaced .allman .never 1 with
  | error e =>
      rw [hd] at hplaced
      cases hplaced
  | ok out =>
      obtain ⟨done, u⟩ := out
      rw [hd] at hplaced
      obtain ⟨htext, hranges⟩ := Prod.mk.inj (Except.ok.inj hplaced)
      exact ⟨hw, hp, done, u, rfl, htext, hranges,
        writePlaced_locates_words publicField .allman .never 1 done u hw hp hd⟩

def checkedLiteral : Tree :=
  .planted [.statement .checked, .expression (.literal (.bool true))] [(1, .body, 2)]

/-- The literal is started and finished, but braces are written in its place, and it has no place
itself. -/
theorem writePlaced_skips_braced :
    checkedLiteral.WellFormed ∧ '\n' ∉ Policy.allman.indentation.toList ∧
    checkedLiteral.kind 2 = .expression (.literal (.bool true)) ∧ checkedLiteral.role 2 = .body ∧
    .start 2 ∈ checkedLiteral.callsSent .allman 1 ∧
    (checkedLiteral.writePlaced .allman .never 1).map
    (fun (done, u) => (done.text, u.placements.rangeOf 2)) =
      .ok ("checked\n\x7b\n\x7d\n", none) :=
  ⟨Tree.wellFormed_planted _ _, by decide, rfl, rfl, by decide +kernel, by decide +kernel⟩

end TreeScribe
