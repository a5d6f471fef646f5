import Mathlib.Order.Bounds.Basic
import TreeScribe.Proofs.Flow.Assignment.Places

namespace TreeScribe.Flow.Assignment

structure Statuses where
  point : Nat → Status
  edge : EdgeId → Status

def State.statuses (s : State) : Statuses :=
  ⟨fun p => s.points.getD p .unreachable, fun e => s.edges.getD e .unreachable⟩

@[simp] theorem point_clear {a : Assignment} {s : State} {p : Nat} :
    (a.clear s).statuses.point p = .unreachable := by
  change (Array.replicate a.graph.order.length Status.unreachable).getD p .unreachable =
    .unreachable
  rw [Array.getD_eq_getD_getElem?, Array.getElem?_replicate]
  split <;> rfl

@[simp] theorem edge_clear {a : Assignment} {s : State} {e : EdgeId} :
    (a.clear s).statuses.edge e = .unreachable := by
  change (Array.replicate a.graph.edges.size Status.unreachable).getD e .unreachable = .unreachable
  rw [Array.getD_eq_getD_getElem?, Array.getElem?_replicate]
  split <;> rfl

namespace Statuses

variable {S S' : Statuses} {x : Point}

instance : PartialOrder Statuses :=
  .lift (fun S => (S.point, S.edge)) fun S S' h => by
    cases S
    cases S'
    cases h
    rfl

theorem le_def : S ≤ S' ↔ (∀ p, S.point p ≤ S'.point p) ∧ ∀ e, S.edge e ≤ S'.edge e := Iff.rfl

def incoming (S : Statuses) (x : Point) : Status :=
  x.incoming.foldl (fun status e => status.merge (S.edge e)) .unreachable

def Begin (S : Statuses) (a : Assignment) (v : String) (b : NodeId) (σ : Status) : Prop :=
  ∃ p < a.graph.order.length, (b, σ) ∈ (a.transfer v (a.pointAt p) (S.point p)).begun

theorem foldl_merge_mono {l : List EdgeId} (h : ∀ e ∈ l, S.edge e ≤ S'.edge e)
    (hc : ∀ e ∈ l, (S.edge e).clean = S.edge e ∧ (S'.edge e).clean = S'.edge e)
    {σ τ : Status} (hle : σ ≤ τ) (hσ : σ.clean = σ) (hτ : τ.clean = τ) :
    l.foldl (fun status e => status.merge (S.edge e)) σ ≤
      l.foldl (fun status e => status.merge (S'.edge e)) τ := by
  induction l generalizing σ τ with
  | nil => exact hle
  | cons e l ih =>
      obtain ⟨he, he'⟩ := hc e List.mem_cons_self
      have hclean := Status.clean_merge (a := σ) (b := S.edge e)
      have hclean' := Status.clean_merge (a := τ) (b := S'.edge e)
      have hmerge : σ.clean.merge (S.edge e).clean ≤ τ.clean.merge (S'.edge e).clean :=
        Status.merge_mono (Status.clean_mono hle) (Status.clean_mono (h e List.mem_cons_self))
      rw [hσ, he] at hclean hmerge
      rw [hτ, he'] at hclean' hmerge
      exact ih (fun e he => h e (List.mem_cons_of_mem _ he))
        (fun e he => hc e (List.mem_cons_of_mem _ he)) hmerge
        hclean hclean'

theorem incoming_mono (h : ∀ e ∈ x.incoming, S.edge e ≤ S'.edge e)
    (hc : ∀ e ∈ x.incoming, (S.edge e).clean = S.edge e ∧ (S'.edge e).clean = S'.edge e) :
    S.incoming x ≤ S'.incoming x :=
  foldl_merge_mono h hc (le_refl _) rfl rfl

theorem incoming_congr (h : ∀ e ∈ x.incoming, S'.edge e = S.edge e) :
    S'.incoming x = S.incoming x := by
  refine List.foldl_ext _ _ _ fun σ e he => ?_
  rw [h e he]

theorem incoming_eq_unreachable :
    S.incoming x = .unreachable ↔ ∀ e ∈ x.incoming, S.edge e = .unreachable := by
  have hfold (l : List EdgeId) (σ : Status) :
      l.foldl (fun status e => status.merge (S.edge e)) σ = .unreachable ↔
        σ = .unreachable ∧ ∀ e ∈ l, S.edge e = .unreachable := by
    induction l generalizing σ with
    | nil => simp
    | cons e l ih => simp [ih, Status.merge_eq_unreachable, and_assoc]
  simp [incoming, hfold]

end Statuses

structure Solves (a : Assignment) (v : String) (initial : Status) (S : Statuses) : Prop where
  entry : S.point 0 = initial
  merged {p : Nat} (h0 : 0 < p) (hp : p < a.graph.order.length) (hb : ∀ b, ¬ a.Opens p b) :
    S.point p = S.incoming (a.pointAt p)
  begun {q : Nat} {b : NodeId} {τ : Status} (h0 : 0 < q) (hq : q < a.graph.order.length)
    (hb : a.Opens q b) (hs : S.Begin a v b τ) : S.point q = τ
  not_begun {q : Nat} {b : NodeId} (h0 : 0 < q) (hq : q < a.graph.order.length) (hb : a.Opens q b)
    (hs : ∀ τ, ¬ S.Begin a v b τ) : S.point q = .unreachable
  carried {p : Nat} {e : EdgeId} (hp : p < a.graph.order.length) (he : e ∈ (a.pointAt p).outgoing) :
    S.edge e = (a.transfer v (a.pointAt p) (S.point p)).value (a.graph.edge e)

variable {a : Assignment} {v : String} {root : NodeId} {p q : Nat} {e : EdgeId} {initial : Status}
  {S : Statuses}

namespace Drawn

theorem lt_of_outgoing (h : a.Drawn root) (he : e ∈ (a.pointAt p).outgoing) :
    e < a.graph.edges.size :=
  (h.laid.adjacent.outgoing.mp he).1

theorem lt_of_incoming (h : a.Drawn root) (he : e ∈ (a.pointAt p).incoming) :
    e < a.graph.edges.size :=
  (h.laid.adjacent.incoming.mp he).1

theorem eq_of_outgoing (h : a.Drawn root) (hp : p < a.graph.order.length)
    (hq : q < a.graph.order.length) (he : e ∈ (a.pointAt p).outgoing)
    (he' : e ∈ (a.pointAt q).outgoing) : p = q :=
  h.idAt_inj hp hq ((h.laid.adjacent.outgoing.mp he).2.symm.trans
    (h.laid.adjacent.outgoing.mp he').2)

theorem exists_outgoing (h : a.Drawn root) (he : e < a.graph.edges.size) :
    ∃ p < a.graph.order.length, e ∈ (a.pointAt p).outgoing := by
  obtain ⟨p, hp, hid⟩ := h.exists_idAt (h.laid.adjacent.source_lt he)
  exact ⟨p, hp, h.laid.adjacent.outgoing.mpr ⟨he, hid.symm⟩⟩

/-- An edge leads to a place behind the first, where no function starts. -/
theorem exists_target (h : a.Drawn root) (he : e < a.graph.edges.size) :
    ∃ p, a.placeOf (a.graph.edge e).target = some p ∧ 0 < p ∧ p < a.graph.order.length ∧
      (∀ b, ¬ a.Opens p b) ∧
      ∀ q < a.graph.order.length, e ∈ (a.pointAt q).incoming ↔ q = p := by
  obtain ⟨p, hp, hid⟩ := h.exists_idAt (h.laid.adjacent.target_lt he)
  refine ⟨p, hid ▸ h.placeOf_idAt hp, Nat.pos_of_ne_zero ?_, hp, fun b hb => ?_,
    fun q hq => ⟨fun hin => ?_, ?_⟩⟩
  · rintro rfl
    have hbehind := h.laid.behind he
    rw [← hid, h.idAt_zero.1] at hbehind
    exact Nat.lt_irrefl 0 hbehind
  · exact h.laid.unentered (h.idAt_lt hp) hb.1 (enters_iff.mp hb.2) he hid.symm
  · exact h.idAt_inj hq hp ((h.laid.adjacent.incoming.mp hin).2.symm.trans hid.symm)
  · rintro rfl
    exact h.laid.adjacent.incoming.mpr ⟨he, hid.symm⟩

end Drawn

theorem Solves.clean_edge (hs : a.Solves v initial S) (h : a.Plain root)
    (he : e < a.graph.edges.size) : (S.edge e).clean = S.edge e := by
  obtain ⟨p, hp, hout⟩ := h.exists_outgoing he
  rw [hs.carried hp hout]
  exact clean_transfer

end TreeScribe.Flow.Assignment
