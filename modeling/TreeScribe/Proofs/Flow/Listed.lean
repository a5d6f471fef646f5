import TreeScribe.Proofs.Flow.Marks

namespace TreeScribe.Flow

open TreeScribe.Tree

namespace Draft

variable {d d' d₀ d₁ d₂ : Draft} {c : Plan} {i : NodeId} {p q : Nat}
  {source target : Option PointId} {kind : EdgeKind}

def timesListed (d : Draft) (p : Nat) : Nat := d.listed.toList.count p

theorem timesListed_list : (d.list q).timesListed p = d.timesListed p + if q = p then 1 else 0 := by
  simp [timesListed, list, List.count_append, List.count_singleton]

theorem listed_joinIf : (d.joinIf source target kind).listed = d.listed := by
  unfold joinIf
  split <;> rfl

theorem listed_joinWhen {isTaken : Bool} :
    (d.joinWhen isTaken source target kind).listed = d.listed := by
  unfold joinWhen
  split
  · exact listed_joinIf
  · rfl

theorem listed_joinGuarded {t : Tree} {stop : PointId} :
    (d.joinGuarded t i source stop).listed = d.listed := by
  unfold joinGuarded
  repeat' split
  all_goals rfl

theorem listed_joinJumps {targetOf : NodeId → PointId} {jumps : List PointId} :
    (joinJumps targetOf jumps d).listed = d.listed := by
  induction jumps generalizing d with
  | nil => rfl
  | cons p rest ih =>
      rw [joinJumps, ih]
      rfl

structure Lists (d d' : Draft) : Prop where
  size_le : d.size ≤ d'.size
  times (p : Nat) : d'.timesListed p = d.timesListed p + if d.size ≤ p ∧ p < d'.size then 1 else 0

namespace Lists

theorem refl (d : Draft) : Lists d d := by
  refine ⟨Nat.le_refl _, fun p => ?_⟩
  rw [if_neg (by omega), Nat.add_zero]

theorem trans (h : Lists d d₁) (h' : Lists d₁ d₂) : Lists d d₂ := by
  have := h.size_le
  have := h'.size_le
  refine ⟨by omega, fun p => ?_⟩
  rw [h'.times, h.times]
  split_ifs <;> omega

theorem of_eq (hs : d'.size = d.size) (hl : d'.listed = d.listed) : Lists d d' := by
  refine ⟨Nat.le_of_eq hs.symm, fun p => ?_⟩
  rw [timesListed, hl, if_neg (by omega)]
  rfl

theorem close (h : Lists d₀ d₁) (hq : q = d.size) (hs : d.size < d₀.size)
    (ht : ∀ p, d₀.timesListed p = d.timesListed p + if d.size < p ∧ p < d₀.size then 1 else 0) :
    Lists d (d₁.list q) := by
  have := h.size_le
  subst hq
  refine ⟨by rw [size_list]; omega, fun p => ?_⟩
  rw [timesListed_list, size_list, h.times, ht]
  split_ifs <;> omega

end Lists

theorem lists_joinIf : Lists d (d.joinIf source target kind) :=
  .of_eq (size_joinIf ..) listed_joinIf

theorem lists_joinWhen {isTaken : Bool} : Lists d (d.joinWhen isTaken source target kind) :=
  .of_eq (size_joinWhen ..) listed_joinWhen

theorem lists_close_stop (h : Lists (d.stop c i) d₁) : Lists d (d₁.list d.size) := by
  refine h.close rfl (by simp) fun p => ?_
  rw [size_stop, if_neg (by omega)]
  rfl

theorem lists_close_loop (h : Lists (d.loop c i source) d₁) : Lists d (d₁.list d.size) := by
  refine h.close rfl (by simp) fun p => ?_
  rw [loop, timesListed, listed_joinIf, size_joinIf, size_list, size_test, size_stop]
  change (((d.stop c i).test i).list (d.size + 1)).timesListed p = _
  rw [timesListed_list]
  change d.timesListed p + _ = _
  split_ifs <;> omega

theorem lists_listedEnd : Lists d ((d.stop c i).list d.size) := lists_close_stop (.refl _)

theorem lists_reachedEnd : Lists d (((d.stop c i).list d.size).joinIf source target kind) :=
  lists_listedEnd.trans lists_joinIf

theorem lists_jump : Lists d (((d.joinIf source target kind).stop c i).list d.size) := by
  have h := lists_joinIf.trans
    (lists_listedEnd (d := d.joinIf source target kind) (c := c) (i := i))
  rwa [size_joinIf] at h

theorem lists_turned {isTaken : Bool} {last next test first : Option PointId}
    {condition : Option Bool} {at_ stop : PointId} (h : Lists d d₁) :
    Lists d (((d₁.joinIf last next .normal).joinWhen isTaken test first .whenTrue).leave condition
        at_ stop) :=
  h.trans ((lists_joinIf.trans lists_joinWhen).trans lists_joinWhen)

theorem lists_start : Lists d (d.start i) := by
  unfold start
  split
  · exact .refl d
  · refine (Lists.refl (d.addPoint .null i .start)).close rfl (by simp) fun p => ?_
    rw [size_addPoint, if_neg (by omega)]
    rfl

theorem lists_tick : Lists d d.tick := .of_eq rfl rfl

end Draft

open Draft

variable {c : Plan} {task : Task} {d d' : Draft} {a : Option PointId} {m : Mark}

theorem Draws.lists (h : Draws c task d a d') : Lists d d' := by
  induction h with
  | hole => exact .refl _
  | plain => exact lists_reachedEnd
  | final => exact lists_listedEnd
  | label => exact lists_reachedEnd.trans (.of_eq rfl rfl)
  | @goto τ i p d =>
      have hadd : Lists d (d.addGoto p) := .of_eq rfl rfl
      exact hadd.trans lists_listedEnd
  | @caseJump τ i p d =>
      have hadd : Lists d (d.addCaseJump p) := .of_eq rfl rfl
      exact hadd.trans lists_listedEnd
  | break_ | continue_ => exact lists_jump
  | block _ _ ih | wrapped _ _ _ ih | usingValue _ _ _ ih => exact ih.trans lists_reachedEnd
  | usingResource _ _ _ _ ih ih' => exact (ih.trans ih').trans lists_reachedEnd
  | branch _ _ _ ih ih' =>
      have ih := ih.trans ih'
      split
      · exact ih.trans (lists_reachedEnd.trans lists_joinIf)
      · exact ih.trans (lists_reachedEnd.trans lists_joinWhen)
  | @switch τ i p d starts a d₁ hk h ih =>
      have hbefore : Lists d (d.withCaseJumps []) := .of_eq rfl rfl
      refine hbefore.trans (lists_close_stop (ih.trans (.of_eq (by simp) ?_)))
      rw [listed_joinJumps]
      exact listed_joinWhen
  | whileLoop _ _ ih => exact lists_close_loop ((ih.trans lists_joinIf).trans lists_joinWhen)
  | foreachLoop _ _ ih =>
      exact lists_close_loop ((ih.trans lists_joinIf).trans (.of_eq (size_join ..) rfl))
  | @doLoop τ i p d body before last d₁ hk hbody hbefore h ih =>
      have hstart : Lists ((d.stop c i).test i) d₁ :=
        hbefore ▸ (lists_start.trans lists_joinIf).trans ih
      -- the point behind the loop waits while the one of its condition is listed
      refine lists_close_stop ((lists_turned hstart).close (d := d.stop c i)
        (size_stop ..).symm (by simp) fun p => ?_)
      rw [size_stop, size_test, size_stop, if_neg (by omega)]
      rfl
  | @forLoop τ i p d body first d₁ iterated d₂ ahead next last d₃ hk hbody hi hr hahead hnext h ih
      ihr ihb =>
      have hahead : Lists d₂ ahead := hahead ▸ lists_joinIf
      exact ih.trans
        (lists_close_loop (lists_turned (((ihr.trans hahead).trans lists_start).trans ihb)))
  | tryFinally _ _ _ _ ih ih' => exact lists_close_stop (ih.trans ih')
  | tryCatch _ _ _ ih => exact lists_close_stop ih
  | enter _ ih => exact (lists_start.trans lists_joinWhen).trans ih
  | absent => exact .refl _
  | embed _ _ ih => exact ((lists_tick.trans lists_start).trans lists_joinIf).trans ih
  | nil => exact .refl _
  | first _ _ ih ih' =>
      exact (((lists_tick.trans lists_start).trans lists_joinIf).trans ih).trans ih'
  | behind _ _ ih ih' => exact (lists_tick.trans ih).trans ih'
  | noSection => exact .refl _
  | section_ _ _ ih ih' => exact ih.trans ih'
  | unguarded => exact .refl _
  | guard _ _ ih ih' => exact (ih.trans (.of_eq (size_joinGuarded ..) listed_joinGuarded)).trans ih'

/-- What a mark stands for; a node without a kind is entered as well, and has no effect. -/
def Mark.Stated (t : Tree) : Mark → Prop
  | enter i => (t.kind i).isStatement = true ∨ t.kind i = .null
  | leave i => (t.kind i).isStatement = true
  | test i => ∃ k, t.kind i = .statement k ∧ k.isLoop = true

namespace Draft

variable {d₁ d₂ : Draft} {i : NodeId}

def States (t : Tree) (d d' : Draft) : Prop := ∀ m ∈ d'.marks, m ∈ d.marks ∨ m.Stated t

variable {t : Tree}

theorem States.trans (h : States t d d₁) (h' : States t d₁ d₂) : States t d d₂ :=
  fun m hm => (h' m hm).elim (h m) .inr

theorem states_of_eq (h : d'.marks = d.marks) : States t d d' := fun _ hm => .inl (h ▸ hm)

theorem states_of_append {M : List Mark} (h : d'.marks = d.marks ++ M) (hM : ∀ m ∈ M, m.Stated t) :
    States t d d' := by
  intro m hm
  rw [h] at hm
  exact (List.mem_append.mp hm).imp_right (hM m)

theorem stated_of_mem_ahead (hm : m ∈ ahead c i) : m.Stated c.tree := by
  unfold ahead at hm
  split at hm
  · simp at hm
  · cases List.mem_singleton.mp hm
    have hfollowing : c.following i = .null ∨ (c.tree.kind (c.following i)).isStatement = true := by
      unfold Plan.following
      split
      · exact .inl rfl
      · split
        · split
          · exact .inr ‹_›
          · exact .inl rfl
        · exact .inl rfl
    exact .inl (hfollowing.resolve_left ‹_›)

theorem states_stop (hi : (c.tree.kind i).isStatement = true) : States c.tree d (d.stop c i) := by
  refine states_of_append marks_stop fun m hm => ?_
  rcases List.mem_cons.mp hm with rfl | hm
  · exact hi
  · exact stated_of_mem_ahead hm

theorem states_test {k : StatementKind} (hk : t.kind i = .statement k) (hl : k.isLoop = true) :
    States t d (d.test i) := by
  refine states_of_append marks_test fun m hm => ?_
  cases List.mem_singleton.mp hm
  exact ⟨k, hk, hl⟩

theorem states_loop {k : StatementKind} {source : Option PointId}
    (hk : c.tree.kind i = .statement k) (hl : k.isLoop = true) :
    States c.tree d (d.loop c i source) := by
  have hstop : States c.tree d (d.stop c i) := states_stop (by rw [hk]; rfl)
  exact (hstop.trans (states_test hk hl)).trans (states_of_eq (by simp))

theorem states_start (hi : (c.tree.kind i).isStatement = true ∨ c.tree.kind i = .null) :
    States c.tree d (d.start i) := by
  refine states_of_append marks_start fun m hm => ?_
  split at hm
  · simp at hm
  · cases List.mem_singleton.mp hm
    exact hi

end Draft

/-- Only a node without a kind is drawn besides statements. -/
theorem Draws.isStatement_or {τ : Targets} {i : NodeId} {p : Option PointId}
    (h : Draws c (.node τ i p) d a d') :
    (c.tree.kind i).isStatement = true ∨ c.tree.kind i = .null := by
  cases h with
  | hole hk => exact .inr hk
  | plain hk | final hk | label hk | goto hk | caseJump hk | break_ hk | continue_ hk | block hk
  | wrapped hk
  | usingResource hk | usingValue hk | branch hk | switch hk | whileLoop hk | foreachLoop hk
  | doLoop hk | forLoop hk
  | tryFinally hk | tryCatch hk =>
      left
      rw [hk]
      rfl

theorem Draws.states (h : Draws c task d a d') : States c.tree d d' := by
  have hstatement {i : NodeId} {k : StatementKind} (hk : c.tree.kind i = .statement k) :
      (c.tree.kind i).isStatement = true := by rw [hk]; rfl
  induction h with
  | hole => exact states_of_eq rfl
  | plain hk | final hk | label hk | goto hk | caseJump hk | break_ hk | continue_ hk =>
      exact (states_stop (hstatement hk)).trans (states_of_eq (by simp))
  | block hk _ ih | wrapped hk _ _ ih | usingValue hk _ _ ih =>
      exact (ih.trans (states_stop (hstatement hk))).trans (states_of_eq (by simp))
  | usingResource hk _ _ _ ih ih' =>
      exact ((ih.trans ih').trans (states_stop (hstatement hk))).trans (states_of_eq (by simp))
  | branch hk _ _ ih ih' =>
      refine ((ih.trans ih').trans (states_stop (hstatement hk))).trans (states_of_eq ?_)
      split <;> simp
  | @switch τ i p d starts a d₁ hk h ih =>
      have hstop : States c.tree d ((d.withCaseJumps []).stop c i) :=
        states_stop (d := d.withCaseJumps []) (hstatement hk)
      exact (hstop.trans ih).trans (states_of_eq (by simp))
  | whileLoop hk _ ih => exact ((states_loop hk rfl).trans ih).trans (states_of_eq (by simp))
  | foreachLoop hk _ ih => exact ((states_loop hk rfl).trans ih).trans (states_of_eq (by simp))
  | @doLoop τ i p d body before last d₁ hk hbody hbefore h ih =>
      have hpoints : States c.tree d before :=
        hbefore ▸ (states_stop (hstatement hk)).trans (states_test hk rfl)
      have hstart := hpoints.trans (states_start h.isStatement_or)
      exact ((hstart.trans (states_of_eq (by simp))).trans ih).trans (states_of_eq (by simp))
  | @forLoop τ i p d body first d₁ iterated d₂ ahead next last d₃ hk hbody hi hr hahead hnext h ih
      ihr ihb =>
      have hloop := (ih.trans (states_loop hk rfl)).trans ihr
      have hturn : States c.tree d₂ ahead := states_of_eq (by simp [hahead])
      have hstart : States c.tree d₂ (ahead.start body) :=
        hturn.trans (states_start h.isStatement_or)
      exact ((hloop.trans hstart).trans ihb).trans (states_of_eq (by simp))
  | tryFinally hk _ _ _ ih ih' =>
      exact (((states_stop (hstatement hk)).trans ih).trans ih').trans (states_of_eq rfl)
  | tryCatch hk _ _ ih => exact ((states_stop (hstatement hk)).trans ih).trans (states_of_eq rfl)
  | enter h ih => exact ((states_start h.isStatement_or).trans (states_of_eq (by simp))).trans ih
  | absent => exact states_of_eq rfl
  | @embed τ i p d a d' hi h ih =>
      have hstart : States c.tree d (d.tick.start i) := states_start (d := d.tick) h.isStatement_or
      exact (hstart.trans (states_of_eq (by simp))).trans ih
  | nil => exact states_of_eq rfl
  | @first τ p i rest d next d₁ a d' h _ ih ih' =>
      have hstart : States c.tree d (d.tick.start i) := states_start (d := d.tick) h.isStatement_or
      exact ((hstart.trans (states_of_eq (by simp))).trans ih).trans ih'
  | @behind τ p q i rest d next d₁ a d' _ _ ih ih' =>
      have htick : States c.tree d d.tick := states_of_eq rfl
      exact (htick.trans ih).trans ih'
  | noSection => exact states_of_eq rfl
  | section_ _ _ ih ih' => exact ih.trans ih'
  | unguarded => exact states_of_eq rfl
  | guard _ _ ih ih' => exact (ih.trans (states_of_eq (by simp))).trans ih'

end TreeScribe.Flow
