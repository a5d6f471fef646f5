import TreeScribe.Proofs.Flow.Assignment.Laid
import TreeScribe.Proofs.Flow.Assignment.Walked

namespace TreeScribe.Flow.Assignment

open TreeScribe.Tree

def idAt (a : Assignment) (p : Nat) : PointId := a.graph.order.getD p 0

def Opens (a : Assignment) (q : Nat) (b : NodeId) : Prop :=
  a.tree.IsBody b ∧ enters b (a.pointAt q) = true

/-- What a point does with its status: what its outgoing edges carry and which functions it begins.
A point that is not reached carries nothing on. -/
def transfer (a : Assignment) (v : String) (x : Point) (σ : Status) : Walk (Edge → Status) :=
  if σ = .unreachable then pure fun _ => .unreachable else (View.full a v).carry x σ

structure Drawn (a : Assignment) (root : NodeId) : Prop where
  code : a.tree.Code root
  laid : a.graph.Laid a.tree root a.graph.order

/-- An analysis of code in which no function with a statement as body stands in the expression that
another function has as its body. -/
structure Known (a : Assignment) (root : NodeId) : Prop extends Drawn a root where
  unnested : a.tree.Unnested root

/-- A known analysis of code that has no finally blocks. -/
structure Plain (a : Assignment) (root : NodeId) : Prop extends Known a root where
  unguarded {i : NodeId} (hi : a.tree.Below root i) : a.tree.role i ≠ .finallyBlock

variable {a : Assignment} {v : String} {root b c i : NodeId} {p q : Nat} {e : EdgeId} {m : Mark}
  {x : Point}
  {σ σ' τ : Status}

theorem pointAt_eq : a.pointAt p = a.graph.point (a.idAt p) := rfl

theorem enters_iff : enters b x = true ↔ .enter b ∈ x.marks := by
  unfold enters Point.marks
  cases x.kind <;> simp [eq_comm]

theorem of_enters (h : enters b x = true) : (x.kind = .start ∨ x.kind = .between) ∧ x.next = b := by
  unfold enters at h
  split at h
  · exact ⟨.inl ‹_›, of_decide_eq_true h⟩
  · exact ⟨.inr ‹_›, of_decide_eq_true h⟩
  · cases h
  · cases h

theorem tests_iff : tests b x = true ↔ .test b ∈ x.marks := by
  unfold tests Point.marks
  cases x.kind <;> simp [eq_comm]

theorem Opens.next (h : a.Opens q b) : (a.pointAt q).next = b := (of_enters h.2).2

theorem enter_mem_marks (hx : x.kind = .start ∨ x.kind = .between) : .enter x.next ∈ x.marks := by
  rw [← enters_iff, enters]
  rcases hx with hx | hx <;> simp [hx]

theorem test_mem_marks (hx : x.kind = .condition) : .test x.next ∈ x.marks := by
  rw [Point.marks, hx]
  exact List.mem_singleton_self _

theorem leave_mem_marks (hx : x.kind = .stop) : .leave x.previous ∈ x.marks := by
  rw [Point.marks, hx]
  exact List.mem_singleton_self _

theorem laid_of_statement {t : Tree} {s : Setting} (hcode : t.Code root)
    (h : ofStatement t root s = .ok a) : a.tree = t ∧ a.graph.Laid t root a.graph.order := by
  unfold ofStatement at h
  cases hg : Graph.ofNested t root s with
  | error x =>
      rw [hg] at h
      cases h
  | ok g =>
      rw [hg] at h
      cases h
      exact ⟨rfl, ofNested_laid hcode hg⟩

theorem known_of_statement {t : Tree} {s : Setting} (hcode : t.Code root) (hflat : t.Unnested root)
    (h : ofStatement t root s = .ok a) : a.tree = t ∧ a.Known root := by
  obtain ⟨rfl, hl⟩ := laid_of_statement hcode h
  exact ⟨rfl, ⟨hcode, hl⟩, hflat⟩

theorem plain_of_statement {t : Tree} {s : Setting} (hcode : t.Code root) (hflat : t.Unnested root)
    (hplain : ∀ i, t.Below root i → t.role i ≠ .finallyBlock) (h : ofStatement t root s = .ok a) :
    a.tree = t ∧ a.Plain root := by
  obtain ⟨rfl, hk⟩ := known_of_statement hcode hflat h
  exact ⟨rfl, hk, fun hi => hplain _ hi⟩

theorem transfer_unreachable : a.transfer v x .unreachable = pure fun _ => .unreachable :=
  if_pos rfl

theorem transfer_of_ne (h : σ ≠ .unreachable) : a.transfer v x σ = (View.full a v).carry x σ :=
  if_neg h

theorem ne_unreachable_of_begun (h : (b, τ) ∈ (a.transfer v x σ).begun) : σ ≠ .unreachable := by
  rintro rfl
  rw [transfer_unreachable] at h
  simp at h

theorem rises_self (h : σ ≠ .unreachable) : Rises σ σ := ⟨le_refl σ, h⟩

/-- Functions are begun with a status that is reached. -/
theorem begun_ne_unreachable (h : (b, τ) ∈ (a.transfer v x σ).begun) : τ ≠ .unreachable := by
  have hσ := ne_unreachable_of_begun h
  rw [transfer_of_ne hσ] at h
  obtain ⟨_, _, hτ⟩ := (View.carry_rises (rises_self hσ)).2 b τ h
  exact hτ.2

theorem transfer_mono (h : σ ≤ τ) (edge : Edge) :
    (a.transfer v x σ).value edge ≤ (a.transfer v x τ).value edge := by
  by_cases hσ : σ = .unreachable
  · rw [hσ, transfer_unreachable]
    exact Status.unreachable_le
  · rw [transfer_of_ne hσ, transfer_of_ne (Status.ne_unreachable_of_le h hσ)]
    exact ((View.carry_rises ⟨h, hσ⟩).1 edge).1

theorem begun_mono (h : σ ≤ τ) (hb : (b, σ') ∈ (a.transfer v x σ).begun) :
    ∃ τ', (b, τ') ∈ (a.transfer v x τ).begun ∧ σ' ≤ τ' := by
  have hσ := ne_unreachable_of_begun hb
  rw [transfer_of_ne hσ] at hb
  obtain ⟨τ', hm, hr⟩ := (View.carry_rises ⟨h, hσ⟩).2 b σ' hb
  rw [transfer_of_ne (Status.ne_unreachable_of_le h hσ)]
  exact ⟨τ', hm, hr.1⟩

theorem clean_transfer {edge : Edge} :
    ((a.transfer v x σ).value edge).clean = (a.transfer v x σ).value edge := by
  unfold transfer
  split
  · rfl
  · exact View.clean_value

theorem idAt_eq_getElem (hp : p < a.graph.order.length) : a.idAt p = a.graph.order[p] := by
  rw [idAt, List.getD_eq_getElem?_getD, List.getElem?_eq_getElem hp]
  rfl

theorem getElem_points (hp : p < a.points.length) :
    p < a.graph.order.length ∧ a.points[p] = a.pointAt p := by
  unfold points at hp ⊢
  rw [List.length_map] at hp
  refine ⟨hp, ?_⟩
  rw [List.getElem_map, pointAt_eq, idAt_eq_getElem hp]

theorem of_lastPlace? {f : Point → Bool} (h : a.lastPlace? f = some p) :
    p < a.graph.order.length ∧ f (a.pointAt p) = true := by
  unfold lastPlace? at h
  obtain ⟨_, hm, rfl⟩ := List.exists_of_findSome?_eq_some h
  rw [List.mem_reverse, List.mem_mapIdx] at hm
  obtain ⟨n, hn, he⟩ := hm
  split at he
  · rename_i hf
    cases he
    exact ⟨(getElem_points hn).1, (getElem_points hn).2 ▸ hf⟩
  · cases he

theorem lastPlace?_eq {f : Point → Bool} (hq : q < a.graph.order.length)
    (hf : f (a.pointAt q) = true)
    (honce : ∀ n < a.graph.order.length, f (a.pointAt n) = true → n = q) :
    a.lastPlace? f = some q := by
  have hlen : q < a.points.length := by
    unfold points
    rwa [List.length_map]
  cases hl : a.lastPlace? f with
  | some n =>
      obtain ⟨hn, hfn⟩ := of_lastPlace? hl
      rw [honce n hn hfn]
  | none =>
      unfold lastPlace? at hl
      have hmem :
          some q ∈ (a.points.mapIdx fun n x => if f x = true then some n else none).reverse := by
        rw [List.mem_reverse, List.mem_mapIdx]
        exact ⟨q, hlen, by rw [(getElem_points hlen).2, if_pos hf]⟩
      cases List.findSome?_eq_none_iff.mp hl _ hmem

theorem mem_order_of_laid (h : a.graph.Laid a.tree root a.graph.order) :
    p ∈ a.graph.order ↔ p < a.graph.points.size := by
  rw [← List.count_pos_iff, h.count]
  split <;> simp [*]

theorem idAt_lt_of_laid (h : a.graph.Laid a.tree root a.graph.order)
    (hp : p < a.graph.order.length) : a.idAt p < a.graph.points.size := by
  rw [← mem_order_of_laid h, idAt_eq_getElem hp]
  exact List.getElem_mem hp

theorem below_of_mark_of_laid (h : a.graph.Laid a.tree root a.graph.order)
    (hp : p < a.graph.order.length) (hm : m ∈ (a.pointAt p).marks) : a.tree.Below root m.node :=
  h.below (idAt_lt_of_laid h hp) hm

namespace Drawn

theorem nodup_order (h : a.Drawn root) : a.graph.order.Nodup := by
  refine List.nodup_iff_count_le_one.mpr fun p => ?_
  rw [h.laid.count]
  split <;> omega

theorem mem_order (h : a.Drawn root) : p ∈ a.graph.order ↔ p < a.graph.points.size :=
  mem_order_of_laid h.laid

theorem idAt_lt (h : a.Drawn root) (hp : p < a.graph.order.length) :
    a.idAt p < a.graph.points.size :=
  idAt_lt_of_laid h.laid hp

theorem idAt_inj (h : a.Drawn root) (hp : p < a.graph.order.length) (hq : q < a.graph.order.length)
    (he : a.idAt p = a.idAt q) : p = q := by
  rw [idAt_eq_getElem hp, idAt_eq_getElem hq] at he
  exact h.nodup_order.getElem_inj_iff.mp he

theorem exists_idAt (h : a.Drawn root) {n : PointId} (hn : n < a.graph.points.size) :
    ∃ p < a.graph.order.length, a.idAt p = n := by
  obtain ⟨p, hp, he⟩ := List.getElem_of_mem (h.mem_order.mpr hn)
  exact ⟨p, hp, (idAt_eq_getElem hp).trans he⟩

theorem placeOf_idAt (h : a.Drawn root) (hp : p < a.graph.order.length) :
    a.placeOf (a.idAt p) = some p := by
  rw [placeOf, List.idxOf?, List.findIdx?_eq_some_iff_getElem]
  refine ⟨hp, by simp [idAt_eq_getElem hp], fun j hj => ?_⟩
  have hj' : j < a.graph.order.length := Nat.lt_trans hj hp
  rw [← idAt_eq_getElem hj']
  intro he
  exact Nat.ne_of_lt hj (h.idAt_inj hj' hp (eq_of_beq he))

theorem idAt_zero (h : a.Drawn root) : a.idAt 0 = 0 ∧ 0 < a.graph.order.length := by
  have hhead := h.laid.head
  unfold idAt
  cases ho : a.graph.order with
  | nil =>
      rw [ho] at hhead
      cases hhead
  | cons p rest =>
      rw [ho] at hhead
      cases hhead
      exact ⟨rfl, Nat.succ_pos _⟩

theorem eq_of_mark (h : a.Drawn root) (hp : p < a.graph.order.length)
    (hq : q < a.graph.order.length) (hm : m ∈ (a.pointAt p).marks) (hm' : m ∈ (a.pointAt q).marks) :
    p = q :=
  h.idAt_inj hp hq (h.laid.once (h.idAt_lt hp) (h.idAt_lt hq) hm hm')

theorem below_of_mark (h : a.Drawn root) (hp : p < a.graph.order.length)
    (hm : m ∈ (a.pointAt p).marks) : a.tree.Below root m.node :=
  below_of_mark_of_laid h.laid hp hm

theorem below_next (h : a.Drawn root) (hp : p < a.graph.order.length)
    (hm : .test (a.pointAt p).next ∈ (a.pointAt p).marks ∨
      .enter (a.pointAt p).next ∈ (a.pointAt p).marks) :
    a.tree.Below root (a.pointAt p).next := by
  rcases hm with hm | hm
  · exact h.below_of_mark hp hm
  · exact h.below_of_mark hp hm

theorem marks_zero (h : a.Drawn root) : (a.pointAt 0).marks = [.enter root] := by
  have hplace := h.laid.entry
  rw [pointAt_eq, h.idAt_zero.1, marks_congr (y := ⟨.null, root, .start, [], []⟩) hplace]
  rfl

theorem beginOf_eq (h : a.Drawn root) (hq : q < a.graph.order.length)
    (hb : enters b (a.pointAt q) = true) : a.beginOf b = some q :=
  lastPlace?_eq hq hb fun _ hn he => h.eq_of_mark hn hq (enters_iff.mp he) (enters_iff.mp hb)

theorem conditionOf_eq (h : a.Drawn root) (hq : q < a.graph.order.length)
    (hb : tests b (a.pointAt q) = true) : a.conditionOf b = some q :=
  lastPlace?_eq hq hb fun _ hn he => h.eq_of_mark hn hq (tests_iff.mp he) (tests_iff.mp hb)

theorem next_isStatement (h : a.Drawn root) (hp : p < a.graph.order.length)
    (hm : .test (a.pointAt p).next ∈ (a.pointAt p).marks ∨
      .enter (a.pointAt p).next ∈ (a.pointAt p).marks) :
    (a.tree.kind (a.pointAt p).next).isStatement = true := by
  rcases hm with hm | hm
  · obtain ⟨k, hk, -⟩ := h.laid.stated (h.idAt_lt hp) hm
    rw [hk]
    rfl
  · exact (h.laid.stated (h.idAt_lt hp) hm).resolve_right
      (h.code.kind_ne_null (h.below_next hp (.inr hm)))

theorem eq_of_opens (h : a.Drawn root) (hp : p < a.graph.order.length)
    (hq : q < a.graph.order.length) (hb : a.Opens p b) (hb' : a.Opens q b) : p = q :=
  h.eq_of_mark hp hq (enters_iff.mp hb.2) (enters_iff.mp hb'.2)

end Drawn

namespace Known

theorem started_of_begun (h : a.Known root) (hp : p < a.graph.order.length)
    (hb : (b, τ) ∈ (a.transfer v (a.pointAt p) σ).begun) :
    (∃ c, a.tree.parent c = some (a.pointAt p).next ∧ a.tree.Starts c b) ∧
      (.test (a.pointAt p).next ∈ (a.pointAt p).marks ∨
        .enter (a.pointAt p).next ∈ (a.pointAt p).marks ∧
        ∀ k, a.tree.kind (a.pointAt p).next = .statement k → k.isLoop = false) := by
  have hσ := ne_unreachable_of_begun hb
  rw [transfer_of_ne hσ] at hb
  have hmark : .test (a.pointAt p).next ∈ (a.pointAt p).marks ∨
    .enter (a.pointAt p).next ∈ (a.pointAt p).marks ∧
      ∀ k, a.tree.kind (a.pointAt p).next = .statement k → k.isLoop = false := by
    have hloop (hx : (a.pointAt p).kind = .start ∨ (a.pointAt p).kind = .between)
      (k : StatementKind)
        (hk : a.tree.kind (a.pointAt p).next = .statement k) : k.isLoop = false := by
      by_contra hl
      rw [View.carry_of_loop hk (Bool.not_eq_false _ ▸ hl) hx] at hb
      simp at hb
    cases hk : (a.pointAt p).kind with
    | start => exact .inr ⟨enter_mem_marks (.inl hk), hloop (.inl hk)⟩
    | between => exact .inr ⟨enter_mem_marks (.inr hk), hloop (.inr hk)⟩
    | stop =>
        rw [View.carry, hk] at hb
        simp at hb
    | condition => exact .inl (test_mem_marks hk)
  have hbelow := h.below_next hp (hmark.imp_right And.left)
  refine ⟨?_, hmark⟩
  obtain ⟨c, hc, -, hs⟩ :=
    (View.clean_carry (v := v) h.code h.unnested hbelow).mem
    (List.mem_map_of_mem (f := Prod.fst) hb)
  exact ⟨c, hc, hs⟩

/-- A function is begun at one place. -/
theorem eq_of_begun (h : a.Known root) (hp : p < a.graph.order.length)
    (hq : q < a.graph.order.length) (hb : (b, τ) ∈ (a.transfer v (a.pointAt p) σ).begun)
    {τ' : Status} (hb' : (b, τ') ∈ (a.transfer v (a.pointAt q) σ').begun) : p = q := by
  obtain ⟨⟨c, hc, hs⟩, hm⟩ := h.started_of_begun hp hb
  obtain ⟨⟨c', hc', hs'⟩, hm'⟩ := h.started_of_begun hq hb'
  have hi := h.next_isStatement hp (hm.imp_right And.left)
  have hi' := h.next_isStatement hq (hm'.imp_right And.left)
  have hnext : (a.pointAt p).next = (a.pointAt q).next :=
    hs.owner_eq h.code.wellFormed hs' hc hc' hi hi'
  have hnot {r : Nat} (hr : r < a.graph.order.length)
    (hm : .test (a.pointAt r).next ∈ (a.pointAt r).marks)
      (hl : ∀ k, a.tree.kind (a.pointAt r).next = .statement k → k.isLoop = false) : False := by
    obtain ⟨k, hk, hloop⟩ := h.laid.stated (h.idAt_lt hr) hm
    cases (hl k hk).symm.trans hloop
  rcases hm with hm | ⟨hm, hl⟩
  · rcases hm' with hm' | ⟨-, hl'⟩
    · exact h.eq_of_mark hp hq hm (hnext ▸ hm')
    · exact (hnot hp hm (hnext ▸ hl')).elim
  · rcases hm' with hm' | ⟨hm', -⟩
    · exact (hnot hq hm' (hnext ▸ hl)).elim
    · exact h.eq_of_mark hp hq hm (hnext ▸ hm')

/-- A point begins a function with one status. -/
theorem eq_of_begun_same (h : a.Known root) (hp : p < a.graph.order.length)
    (hb : (b, τ) ∈ (a.transfer v (a.pointAt p) σ).begun) {τ' : Status}
    (hb' : (b, τ') ∈ (a.transfer v (a.pointAt p) σ).begun) : τ = τ' := by
  obtain ⟨-, hm⟩ := h.started_of_begun hp hb
  have hbelow := h.below_next hp (hm.imp_right And.left)
  have hσ := ne_unreachable_of_begun hb
  rw [transfer_of_ne hσ] at hb hb'
  have hnodup := (View.clean_carry (v := v) (σ := σ) h.code h.unnested hbelow).nodup
  cases List.inj_on_of_nodup_map hnodup hb hb' rfl
  rfl

/-- The body of a function that is begun is deeper than what begins it. -/
theorem depth_of_begun (h : a.Known root) (hp : p < a.graph.order.length)
    (hb : (b, τ) ∈ (a.transfer v (a.pointAt p) σ).begun) :
    a.tree.depth (a.pointAt p).next < a.tree.depth b ∧ b < a.tree.size ∧ a.tree.IsBody b := by
  obtain ⟨⟨c, hc, hs⟩, -⟩ := h.started_of_begun hp hb
  have hw := h.code.wellFormed
  have hd := hw.depth_of_parent hc
  have hle := hw.depth_le_of_below (hs.to_below hw)
  obtain ⟨_, _, _, hstatement⟩ := hs.isBody
  exact ⟨by omega, lt_size_of_isStatement hstatement, hs.isBody⟩

theorem not_opens (h : a.Known root) (hp : p < a.graph.order.length)
    (hb : (b, τ) ∈ (a.transfer v (a.pointAt p) σ).begun) : ¬ a.Opens p b := by
  intro hopens
  have hdepth := (h.depth_of_begun hp hb).1
  rw [hopens.next] at hdepth
  exact Nat.lt_irrefl _ hdepth

theorem opens_of_begun (h : a.Known root) (hp : p < a.graph.order.length)
    (hb : (b, τ) ∈ (a.transfer v (a.pointAt p) σ).begun) :
    ∃ q, 0 < q ∧ q < a.graph.order.length ∧ a.Opens q b := by
  obtain ⟨hstarts, hm⟩ := h.started_of_begun hp hb
  obtain ⟨hdepth, -, hbody⟩ := h.depth_of_begun hp hb
  have hw := h.code.wellFormed
  have hentered : a.graph.Enters (a.pointAt p).next := by
    rcases hm with hm | ⟨hm, -⟩
    · exact h.laid.tested (h.idAt_lt hp) hm
    · exact ⟨a.idAt p, h.idAt_lt hp, hm⟩
  obtain ⟨n, hn, hin⟩ := hentered
  obtain ⟨n', hn', hb'⟩ := h.laid.filled hn
    (mem_bodiesAt.mpr ⟨_, hin, (mem_functionBodies hw).mpr hstarts⟩)
  obtain ⟨q, hq, rfl⟩ := h.exists_idAt hn'
  refine ⟨q, Nat.pos_of_ne_zero ?_, hq, hbody, enters_iff.mpr hb'⟩
  rintro rfl
  rw [← pointAt_eq, h.marks_zero] at hb'
  cases List.mem_singleton.mp hb'
  have hbelow := h.below_next hp (hm.imp_right And.left)
  exact absurd (hw.depth_le_of_below hbelow) (Nat.not_le.mpr hdepth)

end Known

end TreeScribe.Flow.Assignment
