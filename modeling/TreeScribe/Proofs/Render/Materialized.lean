import TreeScribe.Proofs.Render.Recast
import TreeScribe.Proofs.Render.Specials

namespace TreeScribe

open Recording (record rangeAt)

/-- The words and children that the node `n` writes, among calls that are sent while the nodes
`opened` are open, innermost first. -/
def wrote (n : NodeId) : List NodeId → List Call → List Call
  | _, [] => []
  | opened, .start j :: l => if opened.head? = some n then .start j :: wrote n (j :: opened) l
      else wrote n (j :: opened) l
  | opened, .finish _ :: l => wrote n opened.tail l
  | opened, c :: l => if opened.head? = some n ∧ c.isBlank = false then c :: wrote n opened l
      else wrote n opened l

def Call.tokenNode? (k : Kind) : Call → Option (Kind × Role)
  | .keyword (.token word) _ => some (.token, .token word)
  | .keyword .modifier word => (Modifier.ofKeyword? word).map fun m =>
      (.modifier (.single m), .modifier)
  | .token r _ => if Extent.ofKind k = .empty ∨ r.isToken = false then none else some (.token, r)
  | _ => none

namespace Tree

def callsSent (t : Tree) (p : Policy) (i : NodeId) : List Call :=
  (t.render p .never i (.new CallLog.empty)).1.sink.calls

/-- What became in `u` of a call of the node `n` that wrote the children `written`: a child stands
behind the children before it that were not written; a fixed token or modifier is a new node; the
other words leave no trace. -/
def PieceOf (t : Tree) (n : NodeId) (written : List NodeId) (u : Tree) (c : Call)
    (piece : List NodeId) : Prop :=
  match c.node? with
  | some j => piece =
      if t.isTokenNode j then [] else leading written.contains (t.lasting n) j ++ [j]
  | none =>
    match c.tokenNode? (t.kind n) with
    | some (k, r) => ∃ x, t.size ≤ x ∧ x < u.size ∧ u.kind x = k ∧ u.role x = r ∧
        u.children x = [] ∧ piece = [x]
    | none => piece = []

/-- The tree `u` is `t` with nodes for the tokens that `calls` wrote for `i` and the nodes below
it. -/
structure Materialized (t : Tree) (i : NodeId) (calls : List Call) (u : Tree) : Prop where
  wellFormed : u.WellFormed
  kind_role {x : NodeId} (hx : x < t.size) : u.kind x = t.kind x ∧ u.role x = t.role x
  parent {x : NodeId} (hx : x < t.size) (hk : t.isTokenNode x = false) : u.parent x = t.parent x
  tokens {x : NodeId} (hx : t.size ≤ x) (hu : x < u.size) : u.isTokenNode x = true
  children {n : NodeId} (hn : n ∈ starts calls) :
    let written := (wrote n [] calls).filterMap Call.node?
    ∃ pieces, List.Forall₂ (t.PieceOf n written u) (wrote n [] calls) pieces ∧
      u.children n = pieces.flatten ++ trailing written.contains (t.lasting n)
  others {n : NodeId} (hn : n ∉ starts calls) : u.children n = t.children n
  outside {x : NodeId} (hx : x < t.size) (hb : ¬ t.Below i x) :
    u.node x = t.node x ∧ u.children x = t.children x ∧ u.placements[x]? = t.placements[x]?
  marks : u.marks = t.marks

end Tree

variable {t u : Tree} {i j n x : NodeId} {before l m rest : List Call} {spots : List Spot}
  {plan : Plan}
  {e : NodeId × List Spot} {c : Call} {outer : List NodeId}

theorem wrote_start : wrote n (i :: outer) (.start j :: l) =
    (if i = n then [.start j] else []) ++ wrote n (j :: i :: outer) l := by
  by_cases hi : i = n <;> simp [wrote, hi]

theorem wrote_finish : wrote n (j :: outer) (.finish j :: l) = wrote n outer l := rfl

theorem wrote_blank (hc : c.isBlank = true) : wrote n outer (c :: l) = wrote n outer l := by
  cases c with
  | space | indent | unindent | newLine => simp [wrote, Call.isBlank]
  | _ => cases hc

theorem wrote_blanks (h : ∀ c ∈ l, c.isBlank = true) : wrote n outer l = [] := by
  induction l with
  | nil => rfl
  | cons c l ih =>
      obtain ⟨hc, h⟩ := List.forall_mem_cons.mp h
      rw [wrote_blank hc, ih h]

theorem wrote_top : wrote n [] (.start i :: l) = wrote n [i] l := by simp [wrote]

theorem wrote_word (hs : ∀ j, c ≠ .start j) (hf : ∀ j, c ≠ .finish j) (hb : c.isBlank = false) :
    wrote n (i :: outer) (c :: l) = (if i = n then [c] else []) ++ wrote n (i :: outer) l := by
  by_cases hi : i = n
  · cases c with
    | start j => exact absurd rfl (hs j)
    | finish j => exact absurd rfl (hf j)
    | _ => simp [wrote, hi, hb]
  · cases c with
    | start j => exact absurd rfl (hs j)
    | finish j => exact absurd rfl (hf j)
    | _ => simp [wrote, hi]

theorem Tree.WellFormed.ne_of_parent (ht : t.WellFormed) (hj : t.parent j = some i) : j ≠ i := by
  rintro rfl
  exact ht.not_below_of_parent hj .self

theorem wrote_leaf (hc : t.IsWord j c) : wrote n (i :: outer) (.start j :: c :: .finish j :: l) =
    (if i = n then [.start j] else []) ++
    ((if j = n then [c] else []) ++ wrote n (i :: outer) l) := by
  obtain ⟨hs, hf, -⟩ := Recording.wordOf?_ne hc.2
  rw [wrote_start, wrote_word hs hf (Tree.of_wordOf? hc.2).2, wrote_finish]

namespace Fills

theorem wrote_of_ne (h : Fills t i before spots plan l) (hi : n ≠ i) (hn : n ∉ plan.map (·.1)) :
    wrote n (i :: outer) (l ++ rest) = wrote n (i :: outer) rest := by
  induction h generalizing outer rest with
  | nil => rfl
  | blank hc _ ih => rw [List.cons_append, wrote_blank hc, ih hi hn]
  | word hc _ ih =>
      rw [List.cons_append, wrote_word (fun _ => hc.ne_start) (fun _ => hc.ne_finish) hc.isBlank,
        if_neg hi.symm, ih hi hn]
      rfl
  | leaf hj hc _ ih =>
      rw [List.map_cons, List.mem_cons, not_or] at hn
      simp only [List.cons_append]
      rw [wrote_leaf hc, if_neg hi.symm, if_neg (Ne.symm hn.1), ih hi hn.2]
      rfl
  | child hj hk _ hm _ ihm ih =>
      rw [List.map_append, List.map_cons, List.mem_append, List.mem_cons, not_or, not_or] at hn
      simp only [List.cons_append, List.append_assoc]
      rw [wrote_start, if_neg hi.symm, ihm hn.2.1 hn.1, wrote_finish, ih hi hn.2.2]
      rfl

theorem wrote_self (ht : t.WellFormed) (h : Fills t i before spots plan l) :
    wrote i (i :: outer) (l ++ rest) = spots.map (·.call) ++ wrote i (i :: outer) rest := by
  induction h generalizing outer rest with
  | nil => rfl
  | blank hc _ ih => rw [List.cons_append, wrote_blank hc, ih]
  | word hc _ ih =>
      rw [List.cons_append, wrote_word (fun _ => hc.ne_start) (fun _ => hc.ne_finish) hc.isBlank,
        if_pos rfl, ih]
      rfl
  | leaf hj hc _ ih =>
      have hne := ht.ne_of_parent hj
      simp only [List.cons_append]
      rw [wrote_leaf hc, if_pos rfl, if_neg hne, ih]
      rfl
  | @child i j before m l inner spots under plan hj hk hn hm h _ ih =>
      have hne := ht.ne_of_parent hj
      have hnot : i ∉ under.map (·.1) := by
        intro hi
        obtain ⟨e, he, hei⟩ := List.mem_map.mp hi
        exact (Fills.child hj hk hn hm h).ne_of_mem ht (List.mem_append_left _ he) hei
      simp only [List.cons_append, List.append_assoc]
      rw [wrote_start, if_pos rfl, hm.wrote_of_ne hne.symm hnot, wrote_finish, ih]
      rfl

theorem wrote_of_mem (ht : t.WellFormed) (h : Fills t i before spots plan l)
    (hn : (nodesOf spots).Nodup) (he : e ∈ plan) :
    wrote e.1 (i :: outer) (l ++ rest) = e.2.map (·.call) ++ wrote e.1 (i :: outer) rest := by
  have hi := h.ne_of_mem ht he
  have hnodup := h.nodup_plan ht hn
  induction h generalizing outer rest with
  | nil => cases he
  | blank hc _ ih => rw [List.cons_append, wrote_blank hc, ih hn he hi hnodup]
  | word hc _ ih =>
      rw [List.cons_append, wrote_word (fun _ => hc.ne_start) (fun _ => hc.ne_finish) hc.isBlank,
        if_neg hi.symm, ih (List.nodup_append.mp (nodesOf_cons ▸ hn)).2.1 he hi hnodup]
      rfl
  | leaf hj hc h ih =>
      obtain ⟨hjn, hnodup⟩ := List.nodup_cons.mp hnodup
      simp only [List.cons_append]
      rw [wrote_leaf hc, if_neg hi.symm]
      rcases List.mem_cons.mp he with rfl | he
      · rw [if_pos rfl, h.wrote_of_ne hi hjn]
        rfl
      · have hne : e.1 ≠ _ := ne_of_mem_of_not_mem (List.mem_map_of_mem he) hjn
        rw [if_neg hne.symm, ih (List.nodup_append.mp (nodesOf_cons ▸ hn)).2.1 he hi hnodup]
        rfl
  | @child i j before m l inner spots under plan hj hk hinner hm h ihm ih =>
      rw [List.map_append, List.map_cons] at hnodup
      obtain ⟨hunder, hplan, hdisjoint⟩ := List.nodup_append.mp hnodup
      obtain ⟨hjn, hplan⟩ := List.nodup_cons.mp hplan
      have hrest := (List.nodup_append.mp (nodesOf_cons ▸ hn)).2.1
      simp only [List.cons_append, List.append_assoc]
      rw [wrote_start, if_neg hi.symm, List.nil_append]
      rcases List.mem_append.mp he with he | he
      · have hm' := List.mem_map_of_mem (f := (·.1)) he
        have hj : e.1 ≠ j := hdisjoint _ hm' _ List.mem_cons_self
        rw [ihm hinner he hj hunder, wrote_finish, h.wrote_of_ne hi]
        exact fun hp => hdisjoint _ hm' _ (List.mem_cons_of_mem _ hp) rfl
      · rcases List.mem_cons.mp he with rfl | he
        · rw [hm.wrote_self ht, wrote_finish, h.wrote_of_ne hi hjn]
        · have hm' := List.mem_map_of_mem (f := (·.1)) he
          have hj : e.1 ≠ j := ne_of_mem_of_not_mem hm' hjn
          rw [hm.wrote_of_ne hj fun hu => hdisjoint _ hu _ (List.mem_cons_of_mem _ hm') rfl,
            wrote_finish, ih hrest he hi hplan]

end Fills

namespace Body

/-- Every node that was started writes its spots, whatever blanks follow. -/
theorem wrote_of_mem {tail : List Call} (ht : t.WellFormed) (h : Body t i before spots plan l)
    (htail : ∀ c ∈ tail, c.isBlank = true) (he : e ∈ plan ++ [(i, spots)]) :
    wrote e.1 [] (.start i :: (l ++ .finish i :: tail)) = e.2.map (·.call) := by
  rw [wrote_top]
  cases h with
  | @word c hc =>
      cases List.mem_singleton.mp he
      obtain ⟨hs, hf, -⟩ := Recording.wordOf?_ne hc.2
      rw [List.singleton_append, wrote_word hs hf (Tree.of_wordOf? hc.2).2, if_pos rfl,
        wrote_finish, wrote_blanks htail]
      rfl
  | composite hk hn h =>
      rcases List.mem_append.mp he with he | he
      · rw [h.wrote_of_mem ht hn he, wrote_finish, wrote_blanks htail, List.append_nil]
      · cases List.mem_singleton.mp he
        rw [h.wrote_self ht, wrote_finish, wrote_blanks htail, List.append_nil]

theorem wrote_of_notMem {tail : List Call} (h : Body t i before spots plan l)
    (htail : ∀ c ∈ tail, c.isBlank = true) (hn : n ∉ (plan ++ [(i, spots)]).map (·.1)) :
    wrote n [] (.start i :: (l ++ .finish i :: tail)) = [] := by
  rw [List.map_append, List.mem_append, not_or] at hn
  have hi : n ≠ i := fun hi => hn.2 (by simp [hi])
  rw [wrote_top]
  cases h with
  | @word c hc =>
      obtain ⟨hs, hf, -⟩ := Recording.wordOf?_ne hc.2
      rw [List.singleton_append, wrote_word hs hf (Tree.of_wordOf? hc.2).2, if_neg hi.symm,
        wrote_finish, wrote_blanks htail]
      rfl
  | composite _ _ h => rw [h.wrote_of_ne hi hn.1, wrote_finish, wrote_blanks htail]

theorem mem_starts_iff {tail : List Call} (h : Body t i before spots plan l)
    (htail : ∀ c ∈ tail, c.isBlank = true) :
    x ∈ starts (.start i :: (l ++ .finish i :: tail)) ↔ x ∈ (plan ++ [(i, spots)]).map (·.1) := by
  have hnone : .start x ∉ tail := fun hx => by cases htail _ hx
  rw [← h.start_mem_iff, mem_starts]
  simp [hnone]

end Body

theorem Composed.exists_lastRange {w : Composed} {r : Role} {text : String}
    (hc : c = .keyword r text ∨ c = .token r text) :
    ∃ rg, Sink.lastRange (Sink.put t w c) = some rg := by
  rcases hc with rfl | rfl <;> exact ⟨_, rfl⟩

theorem Tree.WellFormed.mem_lasting (ht : t.WellFormed) (hj : t.parent j = some n) :
    j ∈ t.lasting n ↔ t.isTokenNode j = false := by
  simp [Tree.lasting, ht.mem_children.mpr hj]

def Tree.SpotPiece {W : Type} [Sink W] (t : Tree) (w : W) (n : NodeId) (written : List NodeId)
    (u : Tree) (s : Spot) (piece : List NodeId) : Prop :=
  match s.call.node? with
  | some j => piece =
      if t.isTokenNode j then [] else leading written.contains (t.lasting n) j ++ [j]
  | none =>
    match s.call.tokenNode? (t.kind n) with
    | some (k, r) => ∃ x rg, t.size ≤ x ∧ u.TokenAt k r rg x ∧ rangeAt t w s = some rg ∧ piece = [x]
    | none => piece = []

namespace Tree

variable {W : Type} [Sink W] {w : W} {written piece : List NodeId} {s : Spot} {a : Entry}

theorem SpotPiece.pieceOf (h : t.SpotPiece w n written u s piece) :
    t.PieceOf n written u s.call piece := by
  rw [SpotPiece] at h
  rw [PieceOf]
  cases hc : s.call.node? with
  | some j => simpa only [hc] using h
  | none =>
      cases hk : s.call.tokenNode? (t.kind n) with
      | none => simpa only [hc, hk] using h
      | some kr =>
          simp only [hc, hk] at h
          obtain ⟨x, rg, hx, hat, -, hp⟩ := h
          exact ⟨x, hx, hat.lt, hat.kind, hat.role, hat.children, hp⟩

theorem SpotPiece.token {k : Kind} {r : Role} {rg : TextRange} (hc : s.call.node? = none)
    (hk : s.call.tokenNode? (t.kind n) = some (k, r)) (hr : rangeAt t w s = some rg)
    (h : ∃ x, t.size ≤ x ∧ u.TokenAt k r rg x ∧ piece = [x]) :
    t.SpotPiece w n written u s piece := by
  obtain ⟨x, hx, hat, hp⟩ := h
  rw [SpotPiece, hc, hk]
  exact ⟨x, rg, hx, hat, hr, hp⟩

theorem Attached.spotPiece (ht : t.WellFormed)
    (hj : ∀ j, s.call.node? = some j → t.parent j = some n)
    (ha : Recording.entryOf (.ofKind (t.kind n)) (rangeAt t w s) s.call = some a)
    (h : t.Attached n written.contains u a piece) : t.SpotPiece w n written u s piece := by
  have hchild {j : NodeId} (hc : s.call.node? = some j)
    (h : t.Attached n written.contains u (.node j) piece) :
      t.SpotPiece w n written u s piece := by
    rw [SpotPiece, hc]
    simpa only [Attached, ht.mem_lasting (hj j hc), ← Bool.not_eq_true, ite_not] using h
  unfold Recording.entryOf at ha
  split at ha
  · rename_i hc
    cases ha
    exact hchild (hc ▸ rfl) h
  · rename_i hc
    cases ha
    exact hchild (hc ▸ rfl) h
  · rename_i hc
    obtain ⟨rg, hr, rfl⟩ := Option.map_eq_some_iff.mp ha
    exact .token (hc ▸ rfl) (hc ▸ rfl) hr h
  · rename_i word hc
    obtain ⟨m, hm, ha⟩ := Option.bind_eq_some_iff.mp ha
    obtain ⟨rg, hr, rfl⟩ := Option.map_eq_some_iff.mp ha
    exact .token (hc ▸ rfl) (by rw [hc, Call.tokenNode?, hm]; rfl) hr h
  · rename_i hc
    split at ha
    · cases ha
    · rename_i he
      obtain ⟨rg, hr, rfl⟩ := Option.map_eq_some_iff.mp ha
      exact .token (hc ▸ rfl) (by rw [hc, Call.tokenNode?, if_neg he]) hr h
  · cases ha

/-- What has no entry is no child and no token. -/
theorem spotPiece_nil (ho : ∀ r text, s.call = .keyword r text ∨ s.call = .token r text →
      ∃ rg, rangeAt t w s = some rg)
    (ha : Recording.entryOf (.ofKind (t.kind n)) (rangeAt t w s) s.call = none) :
    t.SpotPiece w n written u s [] := by
  have hnone (hc : s.call.node? = none) (hk : s.call.tokenNode? (t.kind n) = none) :
      t.SpotPiece w n written u s [] := by
    rw [SpotPiece, hc, hk]
  unfold Recording.entryOf at ha
  split at ha
  · cases ha
  · cases ha
  · rename_i hc
    obtain ⟨rg, hr⟩ := ho _ _ (.inl hc)
    simp [hr] at ha
  · rename_i word hc
    obtain ⟨rg, hr⟩ := ho _ _ (.inl hc)
    refine hnone (hc ▸ rfl) ?_
    rw [hc, Call.tokenNode?]
    cases hm : Modifier.ofKeyword? word with
    | none => rfl
    | some m => simp [hm, hr] at ha
  · rename_i hc
    obtain ⟨rg, hr⟩ := ho _ _ (.inr hc)
    split at ha
    · rename_i he
      exact hnone (hc ▸ rfl) (by rw [hc, Call.tokenNode?, if_pos he])
    · simp [hr] at ha
  · rename_i hs hi hk hm ht
    cases hc : s.call with
    | start j => exact absurd hc (hs j)
    | identifier j => exact absurd hc (hi j)
    | token r text => exact absurd hc (ht r text)
    | keyword r text =>
        refine hnone (hc ▸ rfl) ?_
        rw [hc]
        unfold Call.tokenNode?
        split <;> simp_all
    | _ => exact hnone (hc ▸ rfl) (hc ▸ rfl)

end Tree

theorem pieces_of_record {f : Spot → Option Entry} {A : Entry → List NodeId → Prop}
    {P : Spot → List NodeId → Prop} {pieces : List (List NodeId)}
    (h : List.Forall₂ A (spots.filterMap f) pieces)
    (hsome : ∀ s ∈ spots, ∀ a piece, f s = some a → A a piece → P s piece)
    (hnone : ∀ s ∈ spots, f s = none → P s []) :
    ∃ pieces', List.Forall₂ P spots pieces' ∧ pieces'.flatten = pieces.flatten := by
  induction spots generalizing pieces with
  | nil =>
      cases h
      exact ⟨[], .nil, rfl⟩
  | cons s spots ih =>
      have hsome' := fun s' hs' => hsome s' (List.mem_cons_of_mem _ hs')
      have hnone' := fun s' hs' => hnone s' (List.mem_cons_of_mem _ hs')
      rw [List.filterMap_cons] at h
      cases hf : f s with
      | none =>
          rw [hf] at h
          obtain ⟨pieces', hp, hflat⟩ := ih h hsome' hnone'
          exact ⟨[] :: pieces', .cons (hnone s List.mem_cons_self hf) hp, hflat⟩
      | some a =>
          rw [hf] at h
          obtain ⟨piece, pieces, ha, hrest, rfl⟩ := List.forall₂_cons_left_iff.mp h
          obtain ⟨pieces', hp, hflat⟩ := ih hrest hsome' hnone'
          exact ⟨piece :: pieces', .cons (hsome s List.mem_cons_self a piece hf ha) hp, by
            rw [List.flatten_cons, List.flatten_cons, hflat]⟩

/-- What became of the spots of a node, in their order, are its children up to the last that was
written. -/
theorem Body.pieces {p : Policy} (ht : t.WellFormed) (h : Body t i before spots plan l)
    (hr : Recast t (Composed.new p) i spots plan u) (he : e ∈ plan ++ [(i, spots)]) :
    ∃ pieces, List.Forall₂ (t.SpotPiece (Composed.new p) e.1 (nodesOf e.2) u) e.2 pieces ∧
      u.children e.1 = pieces.flatten ++ trailing (nodesOf e.2).contains (t.lasting e.1) := by
  have hcontains : (fun j => (record t (Composed.new p) e.1 e.2).contains (.node j)) =
      (nodesOf e.2).contains := by
    funext j
    simp only [List.contains_eq_mem, Recording.node_mem_record]
  obtain ⟨pieces, hpieces, hk⟩ := hr.rearranged he
  simp only [hcontains] at hpieces hk
  obtain ⟨pieces', hp, hflat⟩ := pieces_of_record hpieces
    (fun s hs a piece ha hat => hat.spotPiece ht (fun j hj => h.parent_of_spot he hs hj) ha)
    (fun s _ ha => Tree.spotPiece_nil (fun r text hc => by
      rw [Recording.rangeAt_eq]
      exact Composed.exists_lastRange hc) ha)
  exact ⟨pieces', hp, by rw [hflat, hk]⟩

theorem Body.materialized {p : Policy} {tail : List Call} (ht : t.WellFormed)
    (h : Body t i [.start i] spots plan l) (htail : ∀ c ∈ tail, c.isBlank = true)
    (hr : Recast t (Composed.new p) i spots plan u) :
    t.Materialized i (.start i :: (l ++ .finish i :: tail)) u := by
  have hbelow {n : NodeId} (hn : n ∈ (plan ++ [(i, spots)]).map (·.1)) : t.Below i n := by
    obtain ⟨e, he, rfl⟩ := List.mem_map.mp hn
    exact h.below he
  refine ⟨hr.kept.wellFormed, fun hx => ⟨hr.kept.kind_old hx, hr.kept.role_old hx⟩,
    fun hx hk => hr.parent hx (.inl hk),
    hr.kept.kind_new, fun {n} hn => ?_,
    fun hn => hr.children fun hm => hn ((h.mem_starts_iff htail).mpr hm),
    fun {x} hx hb => ?_, hr.marks⟩
  · obtain ⟨e, he, rfl⟩ := List.mem_map.mp ((h.mem_starts_iff htail).mp hn)
    have hwritten : (e.2.map (·.call)).filterMap Call.node? = nodesOf e.2 := List.filterMap_map
    obtain ⟨pieces, hpieces, hk⟩ := h.pieces ht hr he
    rw [h.wrote_of_mem ht htail he, hwritten, hk]
    exact ⟨pieces, List.forall₂_map_left_iff.mpr (hpieces.imp fun s piece hs => hs.pieceOf), rfl⟩
  · have hn {n : NodeId} (hn : n ∈ (plan ++ [(i, spots)]).map (·.1)) : n ≠ x := by
      rintro rfl
      exact hb (hbelow hn)
    have hp : ∀ q ∈ t.parent x, q ∉ (plan ++ [(i, spots)]).map (·.1) :=
      fun q hq hm => hb ((hbelow hm).child hq)
    have hc := hr.children fun hm => hn hm rfl
    refine ⟨ht.node_congr hr.kept.wellFormed (hr.kept.kind_old hx) (hr.kept.role_old hx)
      (hr.parent hx (.inr hp)) hc
      fun q hq => hr.children (hp q hq), hc, hr.placement_old hx hb⟩

namespace Tree

theorem materialized_nil (ht : t.WellFormed) : t.Materialized i [] t :=
  ⟨ht, fun _ => ⟨rfl, rfl⟩, fun _ _ => rfl, fun hx hu => absurd hu (Nat.not_lt.mpr hx),
      fun hn => by simp [starts] at hn,
    fun _ => rfl, fun _ _ => ⟨rfl, rfl, rfl⟩, rfl⟩

theorem callsSent_eq {p : Policy} (hf : (Layout.ofNode t p i).failure? = none) :
    t.callsSent p i = (Layout.ofNode t p i).issued true := by
  obtain ⟨s, hs⟩ := Progress.exists_run (t := t) (p := .new CallLog.empty) hf
  rw [callsSent, render, hs, (Progress.run_issued hs).1, CallLog.calls_putAll]
  rfl

end Tree

/-- Writing with places loses nothing. It fails where writing fails, with the same error and no
tree; else it gives a well-formed tree in which all nodes have their kinds and roles, all that are
no tokens have their parents, every node that was written has its children and new tokens in the
order of the text, with the children that were not written before those that they stood before, or
at the end, and everything outside is as it was. -/
theorem writePlaced_loses_nothing (t : Tree) (p : Policy) (c : Cancellation) (i : NodeId)
    (ht : t.WellFormed) :
    (∀ e, t.write p c i = .error e → t.writePlaced p c i = .error (.render e)) ∧
      ∀ done, t.write p c i = .ok done → ∃ u, t.writePlaced p c i = .ok (done, u) ∧
        t.Materialized i (t.callsSent p i) u := by
  refine ⟨fun e he => Tree.writePlaced_of_error ht he, fun done hd => ?_⟩
  obtain ⟨u, hu, hr⟩ := Tree.recast_of_write ht hd
  refine ⟨u, hu, ?_⟩
  rw [Tree.callsSent_eq (Tree.issued_of_write hd).1]
  rcases hr with ⟨he, rfl⟩ | ⟨l, spots, plan, tail, he, htail, hb, hr⟩
  · rw [he]
    exact Tree.materialized_nil ht
  · rw [he]
    exact hb.materialized ht htail hr

/-- `return /*a*/this;` with the node that an earlier text left for its keyword. -/
def retokenedReturn : Tree :=
  .planted [.statement .return_, .token, .special (.comment .block "a"), .expression .thisRef]
    [(1, .token "return", 2), (1, .comment, 3), (1, .expression, 4)]

/-- The old token gives way to new ones, and the comment stays before what it stood before. -/
theorem writePlaced_loses_nothing_return : retokenedReturn.WellFormed ∧
    ∃ done u, retokenedReturn.writePlaced .allman .never 1 = .ok (done, u) ∧
      done.text = "return /*a*/this;\n" ∧ u.children 1 = [5, 3, 4, 6] ∧ u.parent 2 = none ∧
      retokenedReturn.Materialized 1 (retokenedReturn.callsSent .allman 1) u := by
  have hw : retokenedReturn.WellFormed := Tree.wellFormed_planted _ _
  have hplaced : ((retokenedReturn.writePlaced .allman .never 1).map fun (done, u) =>
      (done.text, u.children 1, u.parent 2)) = .ok ("return /*a*/this;\n", [5, 3, 4, 6], none) := by
        decide +kernel
  obtain ⟨herror, hok⟩ := writePlaced_loses_nothing retokenedReturn .allman .never 1 hw
  cases hd : retokenedReturn.write .allman .never 1 with
  | error e =>
      rw [herror e hd] at hplaced
      cases hplaced
  | ok done =>
      obtain ⟨u, hu, hm⟩ := hok done hd
      rw [hu] at hplaced
      obtain ⟨htext, hchildren, hparent⟩ := by simpa [Except.map] using hplaced
      exact ⟨hw, done, u, hu, htext, hchildren, hparent, hm⟩

end TreeScribe
