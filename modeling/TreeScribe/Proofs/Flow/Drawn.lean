import TreeScribe.Proofs.Flow.Consulted
import TreeScribe.Proofs.Flow.Marks

namespace TreeScribe

namespace Flow

structure Exits extends Targets where
  onCase : Option (NodeId × (NodeId → PointId))

namespace Exits

def none : Exits := ⟨⟨.none, .none⟩, .none⟩

def turning (Γ : Exits) (stop again : PointId) : Exits := ⟨⟨some stop, some again⟩, Γ.onCase⟩

theorem toTargets_turning (Γ : Exits) (stop again : PointId) :
    (Γ.turning stop again).toTargets = ⟨some stop, some again⟩ := rfl

def switching (Γ : Exits) (i : NodeId) (stop : PointId) (target : NodeId → PointId) : Exits :=
  ⟨⟨some stop, Γ.onContinue⟩, some (i, target)⟩

theorem toTargets_switching (Γ : Exits) (i : NodeId) (stop : PointId) (target : NodeId → PointId) :
    (Γ.switching i stop target).toTargets = { Γ.toTargets with onBreak := some stop } := rfl

end Exits

section

variable (c : Plan) (F : Graph) (L : List (String × PointId))

/-- The point `e` stands before some statements and follows `p`; if there are none, it is `p`. -/
def Enters (p e : PointId) (nodes : List NodeId) : Prop := F.Joined p e ∨ nodes = [] ∧ e = p

structure Ends (i : NodeId) (q : PointId) : Prop where
  leaves : (F.point q).place.Leaves i
  inside : c.tree.Inside c.root i

structure Stands (i : NodeId) (p q : PointId) : Prop extends Ends c F i q where
  next : (F.point p).next = i

mutual

/-- A statement in a finished graph, between the point where it is entered and the one where it is
left: which points stand for it, and which edges are there. The edges are read off the end, so that
those that are joined late are among them. -/
inductive Drawn : Exits → NodeId → PointId → PointId → Prop
  | plain {Γ i p q k} (hk : c.tree.kind i = .statement k) (h : k.isPlain = true)
      (hs : Stands c F i p q)
    (hj : F.Joined p q) : Drawn Γ i p q
  | final {Γ i p q k} (hk : c.tree.kind i = .statement k) (h : k.isFinal = true)
      (hs : Stands c F i p q) : Drawn Γ i p q
  | label {Γ i p q} (hk : c.tree.kind i = .statement .label) (hs : Stands c F i p q)
      (hj : F.Joined p q)
    (hl : (c.tree.name i, q) ∈ L) : Drawn Γ i p q
  | goto {Γ i p q} (hk : c.tree.kind i = .statement .goto) (hs : Stands c F i p q)
    (hj : ∀ x, L.lookup (c.tree.name i) = some x → F.Joined p x) : Drawn Γ i p q
  | caseJump {Γ i p q k} (hk : c.tree.kind i = .statement k) (h : k.isCaseJump = true)
      (hs : Stands c F i p q)
    (hj : ∀ s f, Γ.onCase = some (s, f) → F.Joined p (f i) ∧ c.tree.SwitchOf s i) : Drawn Γ i p q
  | break_ {Γ i p q} (hk : c.tree.kind i = .statement .break_) (hs : Stands c F i p q)
    (hj : ∀ x, Γ.onBreak = some x → F.Joined p x) : Drawn Γ i p q
  | continue_ {Γ i p q} (hk : c.tree.kind i = .statement .continue_) (hs : Stands c F i p q)
    (hj : ∀ x, Γ.onContinue = some x → F.Joined p x) : Drawn Γ i p q
  | block {Γ i p q e last} (hk : c.tree.kind i = .statement .block) (hs : Stands c F i p q)
    (he : Enters F p e (c.tree.childrenIn i .statement))
    (h : Chain Γ e (c.tree.childrenIn i .statement) last) (hl : F.Joined last q) : Drawn Γ i p q
  | wrapped {Γ i p q k r e last} (hk : c.tree.kind i = .statement k) (hr : k.bodyRole? = some r)
      (hs : Stands c F i p q)
    (he : Enters F p e (Tree.present (c.child i r)))
    (h : Chain Γ e (Tree.present (c.child i r)) last) (hl : F.Joined last q) : Drawn Γ i p q
  | usingResource {Γ i p q e mid e' last} (hk : c.tree.kind i = .statement .usingResource)
    (hr : (c.tree.kind (c.child i .resource)).isStatement = true) (hs : Stands c F i p q)
    (he : F.Joined p e) (h : Chain Γ e [c.child i .resource] mid)
    (he' : Enters F mid e' (Tree.present (c.child i .embeddedStatement)))
    (h' : Chain Γ e' (Tree.present (c.child i .embeddedStatement)) last) (hl : F.Joined last q) :
    Drawn Γ i p q
  | usingValue {Γ i p q e last} (hk : c.tree.kind i = .statement .usingResource)
    (hr : (c.tree.kind (c.child i .resource)).isStatement = false) (hs : Stands c F i p q)
    (he : Enters F p e (Tree.present (c.child i .embeddedStatement)))
    (h : Chain Γ e (Tree.present (c.child i .embeddedStatement)) last) (hl : F.Joined last q) :
    Drawn Γ i p q
  | branch {Γ i p q e last e' last'} (hk : c.tree.kind i = .statement .branch)
      (hs : Stands c F i p q)
    (he : c.condition (c.child i .condition) ≠ some false → F.Joined p e)
    (h : Chain Γ e [c.child i .trueStatement] last) (hl : F.Joined last q)
    (he' : c.condition (c.child i .condition) ≠ some true →
      Enters F p e' (Tree.present (c.child i .falseStatement)))
    (h' : Chain Γ e' (Tree.present (c.child i .falseStatement)) last')
    (hl' : c.condition (c.child i .condition) ≠ some true → F.Joined last' q) : Drawn Γ i p q
  | switch {Γ i p q f} {first last : NodeId → PointId} (hk : c.tree.kind i = .statement .switch)
      (hs : Stands c F i p q)
    (hpass : c.isPassed i = true → F.Joined p q)
    (h : ∀ s ∈ c.tree.childrenIn i .switchSection, Chain (Γ.switching i q f) (first s)
      (c.tree.childrenIn s .statement)
      (last s))
    (he : ∀ s ∈ c.tree.childrenIn i .switchSection, c.tree.childrenIn s .statement ≠ [] →
      c.entersSection i s = true →
      F.Joined p (first s))
    (hf : ∀ s ∈ c.tree.childrenIn i .switchSection, c.tree.childrenIn s .statement ≠ [] → ∀ j,
      c.jumpSection (c.tree.childrenIn i .switchSection) j = some s → f j = first s) : Drawn Γ i p q
  | loop {Γ i p q k e begun test first last again iterated} (hk : c.tree.kind i = .statement k)
    (hl : k.isLoop = true) (hs : Stands c F i p q) (he : Enters F p e (c.tree.initializers i k))
    (hi : Chain Γ e (c.tree.initializers i k) begun)
    (hb : F.Joined begun (if k = .doLoop then first else test))
    (h : Chain (Γ.turning q again) first [c.child i .embeddedStatement] last)
    (ha : F.Joined last again) (hr : Chain Γ again (c.tree.iterators i k) iterated)
    (ht : iterated = test ∨ F.Joined iterated test)
    (htrue : c.turns i k ≠ some false → F.Joined test first)
    (hfalse : c.turns i k ≠ some true → F.Joined test q) : Drawn Γ i p q
  | tryCatch {Γ i p q e' last'} {first last : NodeId → PointId}
      (hk : c.tree.kind i = .statement .tryCatch)
    (hs : Stands c F i p q) (he : ∀ b ∈ c.guarded i, Enters F p (first b) (Tree.present b))
    (h : ∀ b ∈ c.guarded i, Chain Γ (first b) (Tree.present b) (last b))
    (hl : ∀ b ∈ c.guarded i, F.Joined (last b) q)
    (he' : Enters F p e' (Tree.present (c.child i .finallyBlock)))
    (h' : Chain Γ e' (Tree.present (c.child i .finallyBlock)) last') : Drawn Γ i p q

inductive Chain : Exits → PointId → List NodeId → PointId → Prop
  | nil {Γ p} : Chain Γ p [] p
  | cons {Γ i p q rest r} (h : Drawn Γ i p q) (hr : Chain Γ q rest r) : Chain Γ p (i :: rest) r

end

end

section

variable (c : Plan) (F : Graph) (L : List (String × PointId))

/-- What the finished graph has of a draft, and what has become of the jumps that wait in it. -/
structure Settled (onCase : Option (NodeId × (NodeId → PointId))) (d : Draft) : Prop where
  graph : d.graph.Extends F
  labels : d.labels <:+ L
  gotos {p : PointId} (hp : p ∈ d.gotos)
    {x : PointId} (hx : L.lookup (c.tree.name (F.point p).next) = some x) : F.Joined p x
  cases {p : PointId} (hp : p ∈ d.caseJumps) {s : NodeId} {f : NodeId → PointId}
    (hf : onCase = some (s, f)) : F.Joined p (f (F.point p).next)

end

namespace Settled

variable {c : Plan} {F : Graph} {L : List (String × PointId)}
  {o : Option (NodeId × (NodeId → PointId))}
  {d d' : Draft} {b : Nat} {i : NodeId} {p q : PointId} {kind : EdgeKind}

theorem of_graph (h : Settled c F L o d') (hg : d.graph.Extends d'.graph)
    (hl : d.labels <:+ d'.labels) (hn : d.gotos <:+ d'.gotos) (hc : d.caseJumps <:+ d'.caseJumps) :
    Settled c F L o d :=
  ⟨hg.trans h.graph, hl.trans h.labels, fun hp => h.gotos (hn.subset hp),
    fun hp => h.cases (hc.subset hp)⟩

theorem of_grows (h : Settled c F L o d') (hg : Draft.Grows c.tree b d d') : Settled c F L o d :=
  h.of_graph hg.graph hg.labels.suffix hg.gotos.suffix hg.caseJumps.suffix

theorem of_addPoint {previous next : NodeId} {kind : PointKind}
    (h : Settled c F L o (d.addPoint previous next kind)) :
    Settled c F L o d ∧ (F.point d.size).place = ⟨previous, next, kind⟩ := by
  have hlt : d.size < (d.addPoint previous next kind).size := by simp
  refine ⟨h.of_graph Graph.extends_addPoint List.suffix_rfl List.suffix_rfl List.suffix_rfl, ?_⟩
  rw [h.graph.place hlt, Draft.place_addPoint]

theorem of_stop (h : Settled c F L o (d.stop c i)) :
    Settled c F L o d ∧ (F.point d.size).place.Leaves i ∧
      (F.point d.size).next = c.following i := by
  have hlt : d.size < (d.stop c i).size := by simp
  refine ⟨h.of_addPoint.1, ?_, congrArg Place.next h.of_addPoint.2⟩
  rw [h.graph.place hlt]
  exact Draft.leaves_stop

theorem of_list (h : Settled c F L o (d.list p)) : Settled c F L o d :=
  h.of_graph (.refl _) List.suffix_rfl List.suffix_rfl List.suffix_rfl

theorem of_start (hi : i ≠ .null) (h : Settled c F L o (d.start i)) :
    Settled c F L o d ∧ (F.point d.size).next = i := by
  rw [Draft.start, if_neg hi] at h
  exact ⟨h.of_list.of_addPoint.1, congrArg Place.next h.of_list.of_addPoint.2⟩

theorem of_join (h : Settled c F L o (d.join p q kind)) (hp : p < d.size) :
    Settled c F L o d ∧ F.Joined p q :=
  ⟨h.of_graph Graph.extends_connect List.suffix_rfl List.suffix_rfl List.suffix_rfl,
      h.graph.joined hp⟩

theorem of_joinIf {target : Option PointId} (h : Settled c F L o (d.joinIf (some p) target kind))
    (hp : p < d.size) : Settled c F L o d ∧ ∀ x, target = some x → F.Joined p x := by
  cases target with
  | none => exact ⟨h, nofun⟩
  | some q =>
      obtain ⟨h, hj⟩ := of_join h hp
      exact ⟨h, fun x hx => Option.some.inj hx ▸ hj⟩

theorem of_joinWhen {isTaken : Bool}
    (h : Settled c F L o (d.joinWhen isTaken (some p) (some q) kind)) (hp : p < d.size) :
    Settled c F L o d ∧ (isTaken = true → F.Joined p q) := by
  cases isTaken with
  | false => exact ⟨h, nofun⟩
  | true =>
      obtain ⟨h, hj⟩ := of_join h hp
      exact ⟨h, fun _ => hj⟩

theorem of_leave {condition : Option Bool} (h : Settled c F L o (d.leave condition p q))
    (hp : p < d.size) : Settled c F L o d ∧ (condition ≠ some true → F.Joined p q) := by
  obtain ⟨h, hj⟩ := of_joinWhen h hp
  exact ⟨h, fun hc => hj (bne_iff_ne.mpr hc)⟩

theorem of_joinGuarded {t : Tree} (h : Settled c F L o (d.joinGuarded t i (some p) q))
    (hp : p < d.size) : Settled c F L o d ∧ F.Joined p q := by
  unfold Draft.joinGuarded at h
  split at h
  · obtain ⟨rfl⟩ := ‹some p = some _›
    split at h
    · exact of_join (h.of_graph Graph.extends_leaving List.suffix_rfl List.suffix_rfl
        List.suffix_rfl) hp
    · exact of_join h hp
  · cases ‹some p = none›

theorem of_addLabel {name : String} (h : Settled c F L o (d.addLabel name p)) :
    Settled c F L o d ∧ (name, p) ∈ L :=
  ⟨h.of_graph (.refl _) (List.suffix_cons ..) List.suffix_rfl List.suffix_rfl,
    h.labels.subset List.mem_cons_self⟩

theorem of_addGoto (h : Settled c F L o (d.addGoto (some p))) :
    Settled c F L o d ∧ ∀ x, L.lookup (c.tree.name (F.point p).next) = some x → F.Joined p x :=
  ⟨h.of_graph (.refl _) List.suffix_rfl (List.suffix_cons ..) List.suffix_rfl,
    fun _ hx => h.gotos List.mem_cons_self hx⟩

theorem of_addCaseJump (h : Settled c F L o (d.addCaseJump (some p))) :
    Settled c F L o d ∧ ∀ s f, o = some (s, f) → F.Joined p (f (F.point p).next) :=
  ⟨h.of_graph (.refl _) List.suffix_rfl List.suffix_rfl (List.suffix_cons ..),
    fun _ _ hf => h.cases List.mem_cons_self hf⟩

theorem of_joinJumps {target : NodeId → PointId} {jumps : List PointId}
    (h : Settled c F L o (Draft.joinJumps target jumps d)) (hp : ∀ p ∈ jumps, p < d.size) :
    Settled c F L o d ∧ ∀ p ∈ jumps, F.Joined p (target (F.point p).next) := by
  induction jumps generalizing d with
  | nil => exact ⟨h, by simp⟩
  | cons p rest ih =>
      have hlt := hp p List.mem_cons_self
      obtain ⟨hjoin, hrest⟩ := ih h fun q hq => by
        rw [Draft.size_join]
        exact hp q (List.mem_cons_of_mem _ hq)
      obtain ⟨hd, hj⟩ := of_join hjoin hlt
      rw [← hd.graph.next_eq hlt] at hj
      exact ⟨hd, List.forall_mem_cons.mpr ⟨hj, hrest⟩⟩

/-- The steps with which a statement ends that control passes through. -/
theorem of_reachedEnd
    (h : Settled c F L o (((d.stop c i).list d.size).joinIf (some p) (some d.size) .normal))
    (hp : p < d.size) : Settled c F L o d ∧ F.Joined p d.size ∧ (F.point d.size).place.Leaves i ∧
      (F.point d.size).next = c.following i := by
  obtain ⟨h, hj⟩ := of_join h (Nat.lt_trans hp Draft.lt_size_listedEnd)
  obtain ⟨h, hprev, hnext⟩ := h.of_list.of_stop
  exact ⟨h, hj, hprev, hnext⟩

end Settled

end Flow

end TreeScribe
