import TreeScribe.Proofs.Flow.Drawn

namespace TreeScribe.Flow

open TreeScribe.Tree Draft

section

variable (c : Plan) (F : Graph) (L : List (String × PointId))

structure Placed (onCase : Option (NodeId × (NodeId → PointId))) (i : NodeId) : Prop where
  inside : c.tree.Inside c.root i
  isStatement : (c.tree.kind i).isStatement = true
  switchOf {s : NodeId} {f : NodeId → PointId} (hf : onCase = some (s, f)) : c.tree.SwitchOf s i

def Task.Shows (d : Draft) (a : Option PointId) (d' : Draft) (Γ : Exits) : Task → Prop
  | node _ i p => Placed c Γ.onCase i → ∀ p₀, p = some p₀ → (F.point p₀).next = i →
    ∃ q, a = some q ∧ Drawn c F L Γ i p₀ q ∧ (F.point q).next = c.following i
  | entered _ i p _ isTaken => i ≠ .null → Placed c Γ.onCase i →
    ∃ e q, a = some q ∧ Drawn c F L Γ i e q ∧ (isTaken = true → ∀ p₀, p = some p₀ → F.Joined p₀ e)
  | embedded _ i p => (i ≠ .null → Placed c Γ.onCase i) → ∀ p₀, p = some p₀ →
    ∃ e q, a = some q ∧ Enters F p₀ e (present i) ∧ Chain c F L Γ e (present i) q
  | list _ p current nodes => ∀ x r before, c.tree.childrenIn x r = before ++ nodes →
      c.tree.Below c.root x →
    (∀ j ∈ nodes, Placed c Γ.onCase j) → match current, nodes with
      | none, [] => a = p
      | none, i :: rest => ∃ e q, a = some q ∧ (∀ p₀, p = some p₀ → F.Joined p₀ e) ∧
        Chain c F L Γ e (i :: rest) q ∧ d'.listed[d.listed.size]? = some e
      | some p₀, nodes => (∀ i, nodes.head? = some i → (F.point p₀).next = i) →
        ∃ q, a = some q ∧ Chain c F L Γ p₀ nodes q
  | sections _ enter nodes starts => ∀ x, (∀ s ∈ nodes, c.tree.parent s = some x) →
      c.tree.Below c.root x →
    nodes.Nodup → (∀ s ∈ nodes, ∀ j ∈ c.tree.childrenIn s .statement, Placed c Γ.onCase j) →
    starts.map (·.1) = nodes ∧ ∀ s ∈ nodes, c.tree.childrenIn s .statement ≠ [] →
      ∃ e q, (∀ p₀, enter s = some p₀ → F.Joined p₀ e) ∧
      Chain c F L Γ e (c.tree.childrenIn s .statement) q ∧
        starts.lookup s = some (some e)
  | guarded _ _ p stop bodies => (∀ b ∈ bodies, b ≠ .null → Placed c Γ.onCase b) →
      ∀ p₀, p = some p₀ →
    ∀ b ∈ bodies, ∃ e q, Enters F p₀ e (present b) ∧ Chain c F L Γ e (present b) q ∧ F.Joined q stop

end

section

variable {c : Plan} {F : Graph} {L : List (String × PointId)} {Γ : Exits} {d d' : Draft}
  {a p : Option PointId}
  {i j : NodeId} {k : StatementKind} {r : Role} {τ : Targets}

theorem Placed.part (h : Placed c Γ.onCase i) (hk : c.tree.kind i = .statement k) (hs : k ≠ .switch)
    (hj : c.tree.Part i j) (hj' : (c.tree.kind j).isStatement = true) : Placed c Γ.onCase j :=
  ⟨h.inside.part h.isStatement hj, hj', fun hf => (h.switchOf hf).part hk hs hj⟩

theorem Placed.child (h : Placed c Γ.onCase i) (hprog : c.tree.Program c.root)
    (hk : c.tree.kind i = .statement k) (hs : k ≠ .switch) (hr : holdsStatement r = true)
    (hc : c.child i r ≠ .null) : Placed c Γ.onCase (c.child i r) := by
  have hmem := child_eq_null_or_mem.resolve_left hc
  have hpart := hprog.wellFormed.part_of_mem hmem
  rw [← (mem_childrenIn_iff.mp hmem).2] at hr
  exact h.part hk hs hpart (hprog.isStatement h.inside h.isStatement hpart hr)

theorem Placed.mem (h : Placed c Γ.onCase i) (hprog : c.tree.Program c.root)
    (hk : c.tree.kind i = .statement k) (hs : k ≠ .switch) (hr : holdsStatement r = true) :
    ∀ j ∈ c.tree.childrenIn i r, Placed c Γ.onCase j := by
  intro j hj
  have hpart := hprog.wellFormed.part_of_mem hj
  rw [← (mem_childrenIn_iff.mp hj).2] at hr
  exact h.part hk hs hpart (hprog.isStatement h.inside h.isStatement hpart hr)

theorem body_of_list {p₀ : PointId}
    (h : (Task.list τ (some p₀) none (c.tree.childrenIn i r)).Shows c F L d a d' Γ)
    (hi : c.tree.Below c.root i) (hm : ∀ j ∈ c.tree.childrenIn i r, Placed c Γ.onCase j) :
    ∃ e q, a = some q ∧ Enters F p₀ e (c.tree.childrenIn i r) ∧
      Chain c F L Γ e (c.tree.childrenIn i r) q := by
  have h := h i r [] rfl hi hm
  cases hl : c.tree.childrenIn i r with
  | nil =>
      rw [hl] at h
      exact ⟨p₀, p₀, h, .inr ⟨rfl, rfl⟩, .nil⟩
  | cons j rest =>
      rw [hl] at h
      obtain ⟨e, q, ha, hj, hc, -⟩ := h
      exact ⟨e, q, ha, .inl (hj p₀ rfl), hc⟩

/-- The bodies that a try statement guards stand in the same switch as it does. -/
theorem Placed.guarded (h : Placed c Γ.onCase i) (hprog : c.tree.Program c.root)
    (hk : c.tree.kind i = .statement .tryCatch) :
    ∀ b ∈ c.guarded i, b ≠ .null → Placed c Γ.onCase b := by
  intro b hb hne
  rcases List.mem_cons.mp hb with rfl | hb
  · exact h.child hprog hk (by decide) rfl hne
  · obtain ⟨s, hs, rfl⟩ := List.mem_map.mp hb
    have hmem := child_eq_null_or_mem.resolve_left hne
    have hpart := hprog.wellFormed.part_of_group hs rfl
      (hprog.wellFormed.parent_of_mem_childrenIn hmem)
    refine h.part hk (by decide) hpart (hprog.isStatement h.inside h.isStatement hpart ?_)
    exact congrArg holdsStatement (mem_childrenIn_iff.mp hmem).2

theorem drawn_tryCatch {p₀ q e' last' : PointId} (hk : c.tree.kind i = .statement .tryCatch)
    (hs : Stands c F i p₀ q) (h : ∀ b ∈ c.guarded i, ∃ e r, Enters F p₀ e (present b) ∧
      Chain c F L Γ e (present b) r ∧ F.Joined r q)
    (he' : Enters F p₀ e' (present (c.child i .finallyBlock)))
    (h' : Chain c F L Γ e' (present (c.child i .finallyBlock)) last') : Drawn c F L Γ i p₀ q := by
  have h (b : NodeId) : ∃ e r, b ∈ c.guarded i →
      Enters F p₀ e (present b) ∧ Chain c F L Γ e (present b) r ∧ F.Joined r q := by
    by_cases hb : b ∈ c.guarded i
    · obtain ⟨e, r, h⟩ := h b hb
      exact ⟨e, r, fun _ => h⟩
    · exact ⟨0, 0, fun h => absurd h hb⟩
  choose first last h using h
  exact .tryCatch hk hs (fun b hb => (h b hb).1) (fun b hb => (h b hb).2.1)
    (fun b hb => (h b hb).2.2) he' h'

/-- A loop goes on behind its body at its first iterator, and tests its condition behind the last
one. -/
theorem chain_iterators {test : PointId}
    (h : (Task.list τ none none (c.tree.childrenIn i r)).Shows c F L d a d' Γ)
    (hi : c.tree.Below c.root i) (hm : ∀ j ∈ c.tree.childrenIn i r, Placed c Γ.onCase j)
    (ha : d'.Has a) (hs : Settled c F L Γ.onCase (d'.joinIf a (some test) .normal)) :
    ∃ q, Chain c F L Γ (Plan.nextOf d.listed.size test a (d'.joinIf a (some test) .normal))
      (c.tree.childrenIn i r) q ∧ (q = test ∨ F.Joined q test) := by
  have h := h i r [] rfl hi hm
  cases hl : c.tree.childrenIn i r with
  | nil =>
      rw [hl] at h
      cases h
      exact ⟨test, .nil, .inl rfl⟩
  | cons j rest =>
      rw [hl] at h
      obtain ⟨e, q, rfl, -, hc, he⟩ := h
      have hnext : Plan.nextOf d.listed.size test (some q)
          (d'.joinIf (some q) (some test) .normal) = e := by
        show d'.listed.getD d.listed.size test = e
        rw [Array.getD_eq_getD_getElem?, he]
        rfl
      exact ⟨q, hnext ▸ hc, .inr (hs.of_join (ha q rfl)).2⟩

theorem Draws.eq_none_of_absent {kind : EdgeKind} {isTaken : Bool} {s : Option PointId}
    (h : Draws c (.entered τ i s kind isTaken) d a d') (hi : c.tree.kind i = .null) : a = none := by
  cases h with
  | enter h =>
      cases h with
      | hole => rfl
      | _ => cases hi.symm.trans ‹c.tree.kind i = _›

theorem Settled.of_loop {p₀ : PointId} {o : Option (NodeId × (NodeId → PointId))}
    (h : Settled c F L o (d.loop c i (some p₀))) (hp : p₀ < d.size) :
    Settled c F L o d ∧ F.Joined p₀ (d.size + 1) ∧ (F.point d.size).place.Leaves i ∧
      (F.point d.size).next = c.following i := by
  have hlt : p₀ < (((d.stop c i).test i).list (d.size + 1)).size := by
    rw [size_list, size_test, size_stop]
    exact Nat.lt_of_lt_of_le hp (by omega)
  obtain ⟨h, hj⟩ := of_join h hlt
  obtain ⟨h, -⟩ := h.of_list.of_addPoint
  obtain ⟨h, hprev, hnext⟩ := h.of_stop
  exact ⟨h, hj, hprev, hnext⟩

theorem next_of_rest {x : NodeId} {before rest : List NodeId} {q : PointId}
    (hprog : c.tree.Program c.root) (hx : c.tree.Below c.root x)
    (hl : c.tree.childrenIn x r = before ++ i :: rest) (hq : (F.point q).next = c.following i)
    (hrest : ∀ j ∈ rest, Placed c Γ.onCase j) (j : NodeId) (hj : rest.head? = some j) :
    (F.point q).next = j := by
  have hw := hprog.wellFormed
  have hroot : i ≠ c.root := by
    rintro rfl
    exact hw.not_below_of_parent (hw.parent_of_mem_childrenIn (r := r) (by simp [hl])) hx
  rw [hq, following_eq hw hl hroot]
  cases rest with
  | nil => cases hj
  | cons y rest =>
      cases hj
      exact if_pos (hrest j List.mem_cons_self).isStatement

end

/-- Where a task has been drawn, a finished graph that goes on from there has it. -/
def Task.Finishes (c : Plan) (F : Graph) (L : List (String × PointId)) (d : Draft)
    (a : Option PointId) (d' : Draft) (task : Task) : Prop :=
  ∀ {Γ : Exits}, Γ.toTargets = task.targets → task.Begins 0 d → Settled c F L Γ.onCase d' →
    task.Shows c F L d a d' Γ

section

variable {c : Plan} {F : Graph} {L : List (String × PointId)} {Γ : Exits}
  {o : Option (NodeId × (NodeId → PointId))}
  {d d₁ d₂ d₃ d' before ahead : Draft} {a p last : Option PointId}
    {p₀ next test stop begin_ : PointId}
  {i j x : NodeId} {k : StatementKind} {r : Role} {τ : Targets} {task : Task}

theorem Settled.of_branch {pos neg : Option PointId} {isPassed : Bool} (hpos : d.Has pos)
    (hneg : d.Has neg) (hp : d.Has p) (h : Settled c F L o (if neg.isSome
      then (((d.stop c i).list d.size).joinIf pos (some d.size) .normal).joinIf neg
        (some d.size) .normal
      else (((d.stop c i).list d.size).joinIf pos (some d.size) .normal).joinWhen isPassed p
        (some d.size)
        .whenFalse)) :
    Settled c F L o (((d.stop c i).list d.size).joinIf pos (some d.size) .normal) := by
  have hend : Grows c.tree 0 d (((d.stop c i).list d.size).joinIf pos (some d.size) .normal) :=
    grows_reachedEnd (Nat.zero_le _) hpos
  have hstop : Draft.HasFrom 0 (((d.stop c i).list d.size).joinIf pos (some d.size) .normal)
    (some d.size) :=
    hasFrom_some (Nat.zero_le _) lt_size_reachedEnd
  split at h
  · exact h.of_grows (grows_joinIf (hend.has hneg) hstop)
  · exact h.of_grows (grows_joinWhen (hend.has hp) hstop)

theorem Settled.of_turned {condition : Option Bool}
    (h : Settled c F L o (((d.joinIf last (some next) .normal).joinWhen
    (condition != some false) (some test) (some begin_) .whenTrue).leave condition test stop))
    (ht : test < d.size) :
    Settled c F L o (d.joinIf last (some next) .normal) ∧
      (condition ≠ some false → F.Joined test begin_) ∧
      (condition ≠ some true → F.Joined test stop) := by
  obtain ⟨h, hfalse⟩ := h.of_leave (by simpa using ht)
  obtain ⟨h, htrue⟩ := h.of_joinWhen (by simpa using ht)
  exact ⟨h, fun hne => htrue (bne_iff_ne.mpr hne), hfalse⟩

/-- The last steps of a switch: the jumps that waited in its sections have been joined. -/
theorem Settled.of_switch {starts : List (NodeId × Option PointId)} {isPassed : Bool}
    {jumps : List PointId}
    (h : Settled c F L o (joinJumps (c.caseTarget starts stop) d.caseJumps.reverse
      ((d.joinWhen isPassed (some p₀) (some stop) .normal).withCaseJumps jumps)))
    (hjumps : ∀ q ∈ d.caseJumps, q < d.size) (hp : p₀ < d.size) :
    Settled c F L (some (i, c.caseTarget starts stop)) d ∧
      (isPassed = true → F.Joined p₀ stop) := by
  obtain ⟨h, hcase⟩ := h.of_joinJumps fun q hq => by simpa using hjumps q (List.mem_reverse.mp hq)
  have hs : Settled c F L (some (i, c.caseTarget starts stop))
      (d.joinWhen isPassed (some p₀) (some stop) .normal) := by
    refine ⟨h.graph, h.labels, h.gotos, fun {q} hq {s f} hf => ?_⟩
    cases hf
    rw [caseJumps_joinWhen] at hq
    exact hcase q (List.mem_reverse.mpr hq)
  exact hs.of_joinWhen hp

theorem shows_block (hprog : c.tree.Program c.root) (hk : c.tree.kind i = .statement .block)
    (hd : Draws c (.list τ p none (c.tree.childrenIn i .statement)) d last d₁)
    (ih : (Task.list τ p none (c.tree.childrenIn i .statement)).Finishes c F L d last d₁) :
    (Task.node τ i p).Finishes c F L d (some d₁.size)
      (((d₁.stop c i).list d₁.size).joinIf last (some d₁.size) .normal) := by
  rintro Γ hΓ hb hs hi p₀ rfl hn
  have hb₁ : (Task.list τ (some p₀) none (c.tree.childrenIn i .statement)).Begins 0 d :=
    hb.also rfl ⟨hb.ready, has_none⟩
  have hdrew := hd.drew hb₁
  have hs₁ := hs.of_grows (grows_reachedEnd (Nat.zero_le _) hdrew.has)
  obtain ⟨e, q, rfl, he, hc⟩ :=
    body_of_list (ih hΓ hb₁ hs₁) hi.inside.to_below (hi.mem hprog hk (by decide) rfl)
  obtain ⟨-, hj, hprev, hnext⟩ := hs.of_reachedEnd (hdrew.has q rfl)
  exact ⟨_, rfl, .block hk ⟨⟨hprev, hi.inside⟩, hn⟩ he hc hj, hnext⟩

theorem ends_behind (hd : Draws c (.embedded τ j (some p₀)) d last d₁)
    (ih : (Task.embedded τ j (some p₀)).Finishes c F L d last d₁) (hΓ : Γ.toTargets = τ)
    (hb : (Task.embedded τ j (some p₀)).Begins 0 d)
    (hs : Settled c F L Γ.onCase (((d₁.stop c i).list d₁.size).joinIf last (some d₁.size) .normal))
    (hj : j ≠ .null → Placed c Γ.onCase j) :
    ∃ e q, Enters F p₀ e (present j) ∧ Chain c F L Γ e (present j) q ∧ F.Joined q d₁.size ∧
      (F.point d₁.size).place.Leaves i ∧ (F.point d₁.size).next = c.following i := by
  have hdrew := hd.drew hb
  have hs₁ := hs.of_grows (grows_reachedEnd (Nat.zero_le _) hdrew.has)
  obtain ⟨e, q, rfl, he, hc⟩ := ih hΓ hb hs₁ hj p₀ rfl
  obtain ⟨-, hj, hprev, hnext⟩ := hs.of_reachedEnd (hdrew.has q rfl)
  exact ⟨e, q, he, hc, hj, hprev, hnext⟩

theorem shows_wrapped (hprog : c.tree.Program c.root) (hk : c.tree.kind i = .statement k)
    (hr : k.bodyRole? = some r) (hd : Draws c (.embedded τ (c.child i r) p) d last d₁)
    (ih : (Task.embedded τ (c.child i r) p).Finishes c F L d last d₁) :
    (Task.node τ i p).Finishes c F L d (some d₁.size)
      (((d₁.stop c i).list d₁.size).joinIf last (some d₁.size) .normal) := by
  rintro Γ hΓ hb hs hi p₀ rfl hn
  have hsw : k ≠ .switch := by
    rintro rfl
    cases hr
  have hrole : holdsStatement r = true := by
    cases k <;> cases hr <;> rfl
  obtain ⟨e, q, he, hc, hj, hprev, hnext⟩ :=
    ends_behind hd ih hΓ (hb.also rfl hb.ready) hs (hi.child hprog hk hsw hrole)
  exact ⟨_, rfl, .wrapped hk hr ⟨⟨hprev, hi.inside⟩, hn⟩ he hc hj, hnext⟩

theorem shows_usingValue (hprog : c.tree.Program c.root)
    (hk : c.tree.kind i = .statement .usingResource)
    (hr : (c.tree.kind (c.child i .resource)).isStatement = false)
    (hd : Draws c (.embedded τ (c.child i .embeddedStatement) p) d last d₁)
    (ih : (Task.embedded τ (c.child i .embeddedStatement) p).Finishes c F L d last d₁) :
    (Task.node τ i p).Finishes c F L d (some d₁.size)
      (((d₁.stop c i).list d₁.size).joinIf last (some d₁.size) .normal) := by
  rintro Γ hΓ hb hs hi p₀ rfl hn
  obtain ⟨e, q, he, hc, hj, hprev, hnext⟩ :=
    ends_behind hd ih hΓ (hb.also rfl hb.ready) hs (hi.child hprog hk (by decide) rfl)
  exact ⟨_, rfl, .usingValue hk hr ⟨⟨hprev, hi.inside⟩, hn⟩ he hc hj, hnext⟩

theorem shows_usingResource (hprog : c.tree.Program c.root)
    (hk : c.tree.kind i = .statement .usingResource)
    (hr : (c.tree.kind (c.child i .resource)).isStatement = true)
    (hd : Draws c (.embedded τ (c.child i .resource) p) d a d₁)
    (hd' : Draws c (.embedded τ (c.child i .embeddedStatement) a) d₁ last d₂)
    (ih : (Task.embedded τ (c.child i .resource) p).Finishes c F L d a d₁)
    (ih' : (Task.embedded τ (c.child i .embeddedStatement) a).Finishes c F L d₁ last d₂) :
    (Task.node τ i p).Finishes c F L d (some d₂.size)
      (((d₂.stop c i).list d₂.size).joinIf last (some d₂.size) .normal) := by
  rintro Γ hΓ hb hs hi p₀ rfl hn
  have hw := hprog.wellFormed
  have hb₁ : (Task.embedded τ (c.child i .resource) (some p₀)).Begins 0 d := hb.also rfl hb.ready
  have hdrew := hd.drew hb₁
  have hb₂ : (Task.embedded τ (c.child i .embeddedStatement) a).Begins 0 d₁ :=
    hb.later hdrew.toGrows rfl hdrew.has
  have hdrew' := hd'.drew hb₂
  have hresource : c.child i .resource ≠ .null := by
    intro h0
    rw [h0, hw.null_kind] at hr
    cases hr
  have hs₁ := (hs.of_grows (grows_reachedEnd (Nat.zero_le _) hdrew'.has)).of_grows hdrew'.toGrows
  have hplaced (hne : c.child i .resource ≠ .null) : Placed c Γ.onCase (c.child i .resource) :=
    hi.part hk (by decide) (hw.part_of_mem (child_eq_null_or_mem.resolve_left hne)) hr
  obtain ⟨e, mid, rfl, he, hc⟩ := ih hΓ hb₁ hs₁ hplaced p₀ rfl
  obtain ⟨e', q, he', hc', hj, hprev, hnext⟩ :=
    ends_behind hd' ih' hΓ hb₂ hs (hi.child hprog hk (by decide) rfl)
  rw [present_of_ne hresource] at he hc
  exact ⟨_, rfl, .usingResource hk hr ⟨⟨hprev, hi.inside⟩, hn⟩
    (he.resolve_right fun h => by cases h.1) hc he' hc' hj, hnext⟩

theorem branch_otherwise {neg pos : Option PointId} {isPassed : Bool} (hw : c.tree.WellFormed)
    (hd : Draws c (.entered τ j (some p₀) .whenFalse isPassed) d₁ neg d)
    (ih : (Task.entered τ j (some p₀) .whenFalse isPassed).Finishes c F L d₁ neg d)
    (hΓ : Γ.toTargets = τ) (hb : (Task.entered τ j (some p₀) .whenFalse isPassed).Begins 0 d₁)
    (hpos : d.Has pos) (hs : Settled c F L Γ.onCase (if neg.isSome
      then (((d.stop c i).list d.size).joinIf pos (some d.size) .normal).joinIf neg
        (some d.size) .normal
      else (((d.stop c i).list d.size).joinIf pos (some d.size) .normal).joinWhen isPassed (some p₀)
        (some d.size)
        .whenFalse))
    (hs' : Settled c F L Γ.onCase d) (hj : j ≠ .null → Placed c Γ.onCase j) :
    ∃ e q, (isPassed = true → Enters F p₀ e (present j)) ∧ Chain c F L Γ e (present j) q ∧
      (isPassed = true → F.Joined q d.size) := by
  have hdrew := hd.drew hb
  have hend : Grows c.tree 0 d (((d.stop c i).list d.size).joinIf pos (some d.size) .normal) :=
    grows_reachedEnd (Nat.zero_le _) hpos
  by_cases hnull : j = .null
  · have hneg : neg = none := hd.eq_none_of_absent (hnull ▸ hw.null_kind)
    rw [hneg] at hs
    obtain ⟨-, hpass⟩ := hs.of_joinWhen ((hdrew.toGrows.trans hend).has hb.ready p₀ rfl)
    have hempty : present j = [] := if_pos hnull
    exact ⟨p₀, p₀, fun _ => .inr ⟨hempty, rfl⟩, hempty ▸ .nil, hpass⟩
  · obtain ⟨e, q, rfl, hc, he⟩ := ih hΓ hb hs' hnull (hj hnull)
    simp only [Option.isSome_some, if_true] at hs
    obtain ⟨-, hq⟩ := hs.of_join (hend.has hdrew.has q rfl)
    rw [present_of_ne hnull]
    exact ⟨e, q, fun h => .inl (he h p₀ rfl), .cons hc .nil, fun _ => hq⟩

theorem shows_branch {pos neg : Option PointId} (hprog : c.tree.Program c.root)
    (hk : c.tree.kind i = .statement .branch)
    (hd : Draws c (.entered τ (c.child i .trueStatement) p .whenTrue
      (c.condition (c.child i .condition) != some false)) d pos d₁)
    (hd' : Draws c (.entered τ (c.child i .falseStatement) p .whenFalse
      (c.condition (c.child i .condition) != some true)) d₁ neg d₂)
    (ih : (Task.entered τ (c.child i .trueStatement) p .whenTrue
      (c.condition (c.child i .condition) != some false)).Finishes c F L d pos d₁)
    (ih' : (Task.entered τ (c.child i .falseStatement) p .whenFalse
      (c.condition (c.child i .condition) != some true)).Finishes c F L d₁ neg d₂) :
    (Task.node τ i p).Finishes c F L d (some d₂.size) (if neg.isSome
      then (((d₂.stop c i).list d₂.size).joinIf pos (some d₂.size) .normal).joinIf neg
        (some d₂.size) .normal
      else (((d₂.stop c i).list d₂.size).joinIf pos (some d₂.size) .normal).joinWhen
        (c.condition (c.child i .condition) != some true) p (some d₂.size) .whenFalse) := by
  rintro Γ hΓ hb hs hi p₀ rfl hn
  have hb₁ : (Task.entered τ (c.child i .trueStatement) (some p₀) .whenTrue
      (c.condition (c.child i .condition) != some false)).Begins 0 d := hb.also rfl hb.ready
  have hdrew := hd.drew hb₁
  have hb₂ : (Task.entered τ (c.child i .falseStatement) (some p₀) .whenFalse
      (c.condition (c.child i .condition) != some true)).Begins 0 d₁ :=
    hb.later hdrew.toGrows rfl (hdrew.toGrows.has hb.ready)
  have hdrew' := hd'.drew hb₂
  have hpos := hdrew'.toGrows.has hdrew.has
  have hs₁ := hs.of_branch hpos hdrew'.has (hdrew'.toGrows.has hb₂.ready)
  have hs₂ := hs₁.of_grows (grows_reachedEnd (Nat.zero_le _) hpos)
  have htrue : c.child i .trueStatement ≠ .null := hprog.branch_body hi.inside hk
  obtain ⟨e, q, rfl, hc, he⟩ := ih hΓ hb₁ (hs₂.of_grows hdrew'.toGrows) htrue
    (hi.child hprog hk (by decide) rfl htrue)
  obtain ⟨-, hj, hprev, hnext⟩ := hs₁.of_reachedEnd (hpos q rfl)
  obtain ⟨e', q', he', hc', hj'⟩ := branch_otherwise hprog.wellFormed hd' ih' hΓ hb₂ hpos hs hs₂
    (hi.child hprog hk (by decide) rfl)
  exact ⟨_, rfl, .branch hk ⟨⟨hprev, hi.inside⟩, hn⟩ (fun hne => he (bne_iff_ne.mpr hne) p₀ rfl)
    (.cons hc .nil) hj
    (fun hne => he' (bne_iff_ne.mpr hne)) hc' fun hne => hj' (bne_iff_ne.mpr hne), hnext⟩

theorem Placed.section_ (hi : Placed c o i) (hprog : c.tree.Program c.root)
    (hk : c.tree.kind i = .statement .switch) {f : NodeId → PointId} {s : NodeId}
    (hs : s ∈ c.tree.childrenIn i .switchSection) (hj : j ∈ c.tree.childrenIn s .statement) :
    Placed c (some (i, f)) j := by
  have hw := hprog.wellFormed
  have hpart := hw.part_of_group hs rfl (hw.parent_of_mem_childrenIn hj)
  refine ⟨hi.inside.part hi.isStatement hpart, hprog.isStatement hi.inside hi.isStatement hpart ?_,
    fun hf => ?_⟩
  · exact congrArg holdsStatement (mem_childrenIn_iff.mp hj).2
  · cases hf
    exact .section_ hk hs hj

/-- Sections without statements are not drawn; for these any point serves. -/
theorem exists_sections {sections : List NodeId} {enter : NodeId → Option PointId}
    {starts : List (NodeId × Option PointId)}
    (h : ∀ s ∈ sections, c.tree.childrenIn s .statement ≠ [] →
      ∃ e q, (∀ p₀, enter s = some p₀ → F.Joined p₀ e) ∧
      Chain c F L Γ e (c.tree.childrenIn s .statement) q ∧
        starts.lookup s = some (some e)) :
    ∃ first last : NodeId → PointId, ∀ s ∈ sections,
      Chain c F L Γ (first s) (c.tree.childrenIn s .statement) (last s) ∧
      (c.tree.childrenIn s .statement ≠ [] →
        (∀ p₀, enter s = some p₀ → F.Joined p₀ (first s)) ∧
        starts.lookup s = some (some (first s))) := by
  have hsection (s : NodeId) :
      ∃ e q, s ∈ sections → Chain c F L Γ e (c.tree.childrenIn s .statement) q ∧
        (c.tree.childrenIn s .statement ≠ [] →
          (∀ p₀, enter s = some p₀ → F.Joined p₀ e) ∧ starts.lookup s = some (some e)) := by
    by_cases hempty : c.tree.childrenIn s .statement = []
    · exact ⟨0, 0, fun _ => ⟨hempty ▸ .nil, fun h => absurd hempty h⟩⟩
    · by_cases hmem : s ∈ sections
      · obtain ⟨e, q, he, hc, hl⟩ := h s hmem hempty
        exact ⟨e, q, fun _ => ⟨hc, fun _ => ⟨he, hl⟩⟩⟩
      · exact ⟨0, 0, fun h => absurd h hmem⟩
  choose first last hfirst using hsection
  exact ⟨first, last, hfirst⟩

theorem shows_switch {starts : List (NodeId × Option PointId)} (hprog : c.tree.Program c.root)
    (hk : c.tree.kind i = .statement .switch)
    (hd : Draws c (.sections { τ with onBreak := some d.size } (c.sectionSource i p)
      (c.tree.childrenIn i .switchSection) starts) ((d.withCaseJumps []).stop c i) a d₁)
    (ih : (Task.sections { τ with onBreak := some d.size } (c.sectionSource i p)
      (c.tree.childrenIn i .switchSection) starts).Finishes c F L
      ((d.withCaseJumps []).stop c i) a d₁) :
    (Task.node τ i p).Finishes c F L d (some d.size)
      ((joinJumps (c.caseTarget starts d.size) d₁.caseJumps.reverse
        ((d₁.joinWhen (c.isPassed i) p (some d.size) .normal).withCaseJumps d.caseJumps)).list
        d.size) := by
  rintro Γ hΓ hb hs hi p₀ rfl hn
  have hw := hprog.wellFormed
  have hdrew := hd.drew hb.in_switch
  have hle : d.size ≤ d₁.size := Nat.le_trans (by simp) hdrew.size_le
  have hjumps (q : PointId) (hq : q ∈ d₁.caseJumps) : q < d₁.size :=
    (hdrew.caseJumps.cases_mem hq).resolve_right (by simp [stop, addPoint, withCaseJumps])
  obtain ⟨hs₁, hpass⟩ := hs.of_list.of_switch (i := i) hjumps (hb.ready.mono hle p₀ rfl)
  have hΓ₁ : (Γ.switching i d.size (c.caseTarget starts d.size)).toTargets =
      { τ with onBreak := some d.size } := by
    rw [Exits.toTargets_switching, hΓ]
    rfl
  obtain ⟨hmap, hsections⟩ := ih hΓ₁ hb.in_switch hs₁ i (fun s hs => hw.parent_of_mem_childrenIn hs)
    hi.inside.to_below hw.nodup_childrenIn fun s hs j hj => hi.section_ hprog hk hs hj
  obtain ⟨first, last, hfirst⟩ := exists_sections hsections
  obtain ⟨-, hprev, hnext⟩ := (hs₁.of_grows hdrew.toGrows).of_stop
  refine ⟨_, rfl, .switch hk ⟨⟨hprev, hi.inside⟩, hn⟩ hpass (fun s hs => (hfirst s hs).1)
    (fun s hs hne he => ?_) (fun s hs hne j hj => ?_), hnext⟩
  · exact ((hfirst s hs).2 hne).1 p₀ (if_pos he)
  · rw [Plan.caseTarget, hmap, hj, Option.bind_some, ((hfirst s hs).2 hne).2]
    rfl

theorem shows_whileLoop (hprog : c.tree.Program c.root) (hk : c.tree.kind i = .statement .whileLoop)
    (hd : Draws c (.entered ⟨some d.size, some (d.size + 1)⟩ (c.child i .embeddedStatement)
      (some (d.size + 1))
      .whenTrue (c.condition (c.child i .condition) != some false)) (d.loop c i p) last d₁)
    (ih : (Task.entered ⟨some d.size, some (d.size + 1)⟩ (c.child i .embeddedStatement)
      (some (d.size + 1))
      .whenTrue (c.condition (c.child i .condition) != some false)).Finishes c F L (d.loop c i p)
        last d₁) :
    (Task.node τ i p).Finishes c F L d (some d.size)
    (((d₁.joinIf last (some (d.size + 1)) .normal).leave
      (c.condition (c.child i .condition)) (d.size + 1) d.size).list d.size) := by
  rintro Γ hΓ hb hs hi p₀ rfl hn
  have htest : d.size + 1 < (d.loop c i (some p₀)).size := by simp
  have hb₁ :
      (Task.entered ⟨some d.size, some (d.size + 1)⟩ (c.child i .embeddedStatement)
      (some (d.size + 1))
        .whenTrue (c.condition (c.child i .condition) != some false)).Begins 0
          (d.loop c i (some p₀)) :=
    hb.in_loop (t := c.tree) (.refl d) rfl (has_some htest)
  have hdrew := hd.drew hb₁
  have htest₁ := Nat.lt_of_lt_of_le htest hdrew.size_le
  have hback : Grows c.tree 0 d₁ (d₁.joinIf last (some (d.size + 1)) .normal) :=
    grows_joinIf hdrew.has (hasFrom_some (Nat.zero_le _) htest₁)
  obtain ⟨hs, hfalse⟩ := hs.of_list.of_leave (Nat.lt_of_lt_of_le htest₁ hback.size_le)
  have hbody : c.child i .embeddedStatement ≠ .null := hprog.loop_body hi.inside hk rfl
  obtain ⟨first, q, rfl, hc, he⟩ := ih (Γ.toTargets_turning _ _) hb₁ (hs.of_grows hback) hbody
    (hi.child hprog hk (by decide) rfl hbody)
  obtain ⟨hs₁, hj⟩ := hs.of_join (hdrew.has q rfl)
  obtain ⟨-, hj₀, hprev, hnext⟩ := (hs₁.of_grows hdrew.toGrows).of_loop (hb.ready p₀ rfl)
  exact ⟨_, rfl, .loop hk rfl ⟨⟨hprev, hi.inside⟩, hn⟩ (.inr ⟨rfl, rfl⟩) .nil hj₀ (.cons hc .nil)
    hj .nil (.inl rfl)
    (fun hne => he (bne_iff_ne.mpr hne) _ rfl) hfalse, hnext⟩

theorem shows_foreachLoop (hprog : c.tree.Program c.root)
    (hk : c.tree.kind i = .statement .foreachLoop)
    (hd : Draws c (.embedded ⟨some d.size, some (d.size + 1)⟩ (c.child i .embeddedStatement)
      (some (d.size + 1)))
      (d.loop c i p) last d₁)
    (ih : (Task.embedded ⟨some d.size, some (d.size + 1)⟩ (c.child i .embeddedStatement)
      (some (d.size + 1))).Finishes c F L (d.loop c i p) last d₁) :
    (Task.node τ i p).Finishes c F L d (some d.size)
      (((d₁.joinIf last (some (d.size + 1)) .normal).join (d.size + 1) d.size .normal).list
        d.size) := by
  rintro Γ hΓ hb hs hi p₀ rfl hn
  have htest : d.size + 1 < (d.loop c i (some p₀)).size := by simp
  have hb₁ : (Task.embedded ⟨some d.size, some (d.size + 1)⟩ (c.child i .embeddedStatement)
      (some (d.size + 1))).Begins 0 (d.loop c i (some p₀)) :=
    hb.in_loop (t := c.tree) (.refl d) rfl (has_some htest)
  have hdrew := hd.drew hb₁
  have htest₁ := Nat.lt_of_lt_of_le htest hdrew.size_le
  have hback : Grows c.tree 0 d₁ (d₁.joinIf last (some (d.size + 1)) .normal) :=
    grows_joinIf hdrew.has (hasFrom_some (Nat.zero_le _) htest₁)
  obtain ⟨hs, hleave⟩ := hs.of_list.of_join (Nat.lt_of_lt_of_le htest₁ hback.size_le)
  have hbody : c.child i .embeddedStatement ≠ .null := hprog.loop_body hi.inside hk rfl
  obtain ⟨first, q, rfl, he, hc⟩ := ih (Γ.toTargets_turning _ _) hb₁ (hs.of_grows hback)
    (hi.child hprog hk (by decide) rfl) _ rfl
  obtain ⟨hs₁, hj⟩ := hs.of_join (hdrew.has q rfl)
  obtain ⟨-, hj₀, hprev, hnext⟩ := (hs₁.of_grows hdrew.toGrows).of_loop (hb.ready p₀ rfl)
  rw [present_of_ne hbody] at he hc
  exact ⟨_, rfl, .loop hk rfl ⟨⟨hprev, hi.inside⟩, hn⟩ (.inr ⟨rfl, rfl⟩) .nil hj₀ hc hj .nil
    (.inl rfl) (fun _ => he.resolve_right fun h => by cases h.1) fun _ => hleave, hnext⟩

theorem shows_doLoop (hprog : c.tree.Program c.root) (hk : c.tree.kind i = .statement .doLoop)
    (hbody : j = c.child i .embeddedStatement) (hbefore : before = (d.stop c i).test i)
    (hd : Draws c (.node ⟨some d.size, some (d.size + 1)⟩ j (before.startOf j))
      ((before.start j).joinIf p (before.startOf j) .normal) last d₁)
    (ih : (Task.node ⟨some d.size, some (d.size + 1)⟩ j (before.startOf j)).Finishes c F L
      ((before.start j).joinIf p (before.startOf j) .normal) last d₁) :
    (Task.node τ i p).Finishes c F L d (some d.size)
    (((((d₁.joinIf last (some (d.size + 1)) .normal).joinWhen
      (c.condition (c.child i .condition) != some false) (some (d.size + 1))
      (before.startOf j) .whenTrue).leave
        (c.condition (c.child i .condition))
        (d.size + 1) d.size).list (d.size + 1)).list d.size) := by
  rintro Γ hΓ hb hs hi p₀ rfl hn
  have hne : j ≠ .null := hbody ▸ hprog.loop_body hi.inside hk rfl
  have hfirst : before.startOf j = some before.size := if_neg hne
  obtain ⟨hentered, hb₁⟩ := hb.in_doLoop (j := j) hbefore
  rw [hfirst] at hd ih hs hentered hb₁
  have hdrew := hd.drew hb₁
  have htest : d.size + 1 < d₁.size :=
    Nat.lt_of_lt_of_le (hb₁.targets.onContinue _ rfl).2 hdrew.size_le
  obtain ⟨hs, htrue, hfalse⟩ := hs.of_list.of_list.of_turned htest
  have hs₁ := hs.of_grows (grows_joinIf hdrew.has (hasFrom_some (Nat.zero_le _) htest))
  obtain ⟨hs₂, hj₀⟩ := (hs₁.of_grows hdrew.toGrows).of_join
    (by simpa using hentered.has hb.ready p₀ rfl)
  obtain ⟨hs₃, hnext⟩ := hs₂.of_start hne
  obtain ⟨q, rfl, hq, -⟩ := ih (Γ.toTargets_turning _ _) hb₁ hs₁
    (hbody ▸ hi.child hprog hk (by decide) rfl (hbody ▸ hne)) _ rfl hnext
  obtain ⟨-, hj⟩ := hs.of_join (hdrew.has q rfl)
  rw [hbefore] at hs₃
  obtain ⟨-, hprev, hnext⟩ := hs₃.of_addPoint.1.of_stop
  rw [hbody] at hq
  exact ⟨_, rfl, .loop hk rfl ⟨⟨hprev, hi.inside⟩, hn⟩ (.inr ⟨rfl, rfl⟩) .nil hj₀ (.cons hq .nil)
    hj .nil (.inl rfl)
    htrue hfalse, hnext⟩

theorem shows_forLoop {first iterated : Option PointId} (hprog : c.tree.Program c.root)
    (hk : c.tree.kind i = .statement .forLoop) (hbody : j = c.child i .embeddedStatement)
    (hd : Draws c (.list τ p none (c.tree.childrenIn i .forInitializer)) d first d₁)
    (hd' : Draws c (.list τ none none (c.tree.childrenIn i .forIterator))
      (d₁.loop c i first) iterated d₂)
    (hahead : ahead = d₂.joinIf iterated (some (d₁.size + 1)) .normal)
    (hnext : next = Plan.nextOf (d₁.loop c i first).listed.size (d₁.size + 1) iterated ahead)
    (hd'' : Draws c (.node ⟨some d₁.size, some next⟩ j (ahead.startOf j)) (ahead.start j) last d₃)
    (ih : (Task.list τ p none (c.tree.childrenIn i .forInitializer)).Finishes c F L d first d₁)
    (ih' : (Task.list τ none none (c.tree.childrenIn i .forIterator)).Finishes c F L
      (d₁.loop c i first) iterated d₂)
    (ih'' : (Task.node ⟨some d₁.size, some next⟩ j (ahead.startOf j)).Finishes c F L (ahead.start j)
      last d₃) :
    (Task.node τ i p).Finishes c F L d (some d₁.size)
    (((d₃.joinIf last (some next) .normal).joinWhen
      (c.loopCondition i != some false) (some (d₁.size + 1)) (ahead.startOf j) .whenTrue).leave
        (c.loopCondition i) (d₁.size + 1) d₁.size |>.list d₁.size) := by
  rintro Γ hΓ hb hs hi p₀ rfl hn
  have hne : j ≠ .null := hbody ▸ hprog.loop_body hi.inside hk rfl
  have hfirst : ahead.startOf j = some ahead.size := if_neg hne
  have hb₁ : (Task.list τ (some p₀) none (c.tree.childrenIn i .forInitializer)).Begins 0 d :=
    hb.also rfl ⟨hb.ready, has_none⟩
  have hdrew := hd.drew hb₁
  have hloop : Grows c.tree 0 d₁ (d₁.loop c i first) := grows_loop (Nat.zero_le _) hdrew.has
  have hb₂ : (Task.list τ none none (c.tree.childrenIn i .forIterator)).Begins 0
    (d₁.loop c i first) :=
    hb.later (hdrew.toGrows.trans hloop) rfl ⟨has_none, has_none⟩
  have hdrew' := hd'.drew hb₂
  obtain ⟨hjoin, hagain, hb₃⟩ := hb.in_forLoop (j := j) hdrew hdrew' hahead hnext
  have hdrew'' := hd''.drew hb₃
  have hgrows : Grows c.tree 0 ahead d₃ := (grows_start (Nat.zero_le _)).trans hdrew''.toGrows
  have htest : d₁.size + 1 < d₃.size := by
    have hsize : (d₁.loop c i first).size = d₁.size + 2 := size_loop ..
    have hle := ((hdrew'.toGrows.trans hjoin).trans hgrows).size_le
    omega
  rw [hfirst] at ih'' hs hb₃
  -- backwards through what is drawn: the turn, the body, the iterators, the two points, the
  -- initializers
  obtain ⟨hs, htrue, hfalse⟩ := hs.of_list.of_turned htest
  have hs₃ := hs.of_grows (grows_joinIf hdrew''.has
    (hasFrom_some (Nat.zero_le _) (Nat.lt_of_lt_of_le hagain.2 hgrows.size_le)))
  obtain ⟨hs₂, hbegin⟩ := (hs₃.of_grows hdrew''.toGrows).of_start hne
  have hs₁ := (hs₂.of_grows hjoin).of_grows hdrew'.toGrows
  obtain ⟨q, rfl, hq, -⟩ := ih'' (Γ.toTargets_turning _ _) hb₃ hs₃
    (hbody ▸ hi.child hprog hk (by decide) rfl (hbody ▸ hne)) _ rfl hbegin
  obtain ⟨-, hj⟩ := hs.of_join (hdrew''.has q rfl)
  obtain ⟨e, begun, rfl, he, hc⟩ := body_of_list (ih hΓ hb₁ (hs₁.of_grows hloop)) hi.inside.to_below
    (hi.mem hprog hk (by decide) rfl)
  obtain ⟨-, hj₀, hprev, hstop⟩ := hs₁.of_loop (hdrew.has begun rfl)
  obtain ⟨r, hr, ht⟩ := chain_iterators (ih' hΓ hb₂ (hs₂.of_grows hjoin)) hi.inside.to_below
    (hi.mem hprog hk (by decide) rfl) hdrew'.has (hahead ▸ hs₂)
  rw [← hahead, ← hnext] at hr
  rw [hbody] at hq
  exact ⟨_, rfl, .loop hk rfl ⟨⟨hprev, hi.inside⟩, hn⟩ he hc hj₀ (.cons hq .nil)
    hj hr ht htrue hfalse, hstop⟩

theorem shows_tryFinally (hprog : c.tree.Program c.root) (hk : c.tree.kind i = .statement .tryCatch)
    (hd : Draws c (.guarded τ i p d.size (c.guarded i)) (d.stop c i) a d₁)
    (hd' : Draws c (.embedded τ (c.child i .finallyBlock) p) d₁ last d₂)
    (ih : (Task.guarded τ i p d.size (c.guarded i)).Finishes c F L (d.stop c i) a d₁)
    (ih' : (Task.embedded τ (c.child i .finallyBlock) p).Finishes c F L d₁ last d₂) :
    (Task.node τ i p).Finishes c F L d (some d.size) (d₂.list d.size) := by
  rintro Γ hΓ hb hs hi p₀ rfl hn
  have hdrew := hd.drew hb.in_try
  have hgrows : Grows c.tree 0 d d₁ := grows_stop.trans hdrew.toGrows
  have hb₁ : (Task.embedded τ (c.child i .finallyBlock) (some p₀)).Begins 0 d₁ :=
    hb.later hgrows rfl (hgrows.has hb.ready)
  have hs₁ := hs.of_list.of_grows (hd'.drew hb₁).toGrows
  have hguarded := ih hΓ hb.in_try hs₁ (hi.guarded hprog hk) p₀ rfl
  obtain ⟨e, q, -, he, hc⟩ := ih' hΓ hb₁ hs.of_list (hi.child hprog hk (by decide) rfl) p₀ rfl
  obtain ⟨-, hprev, hnext⟩ := (hs₁.of_grows hdrew.toGrows).of_stop
  exact ⟨_, rfl, drawn_tryCatch hk ⟨⟨hprev, hi.inside⟩, hn⟩ hguarded he hc, hnext⟩

theorem shows_tryCatch (hprog : c.tree.Program c.root) (hk : c.tree.kind i = .statement .tryCatch)
    (hf : c.tree.hasChild i .finallyBlock = false)
    (hd : Draws c (.guarded τ i p d.size (c.guarded i)) (d.stop c i) a d₁)
    (ih : (Task.guarded τ i p d.size (c.guarded i)).Finishes c F L (d.stop c i) a d₁) :
    (Task.node τ i p).Finishes c F L d (some d.size) (d₁.list d.size) := by
  rintro Γ hΓ hb hs hi p₀ rfl hn
  have hguarded := ih hΓ hb.in_try hs.of_list (hi.guarded hprog hk) p₀ rfl
  have hempty : present (c.child i .finallyBlock) = [] := if_pos (bne_eq_false_iff_eq.mp hf)
  have hc : Chain c F L Γ p₀ (present (c.child i .finallyBlock)) p₀ := hempty ▸ .nil
  obtain ⟨-, hprev, hnext⟩ := (hs.of_list.of_grows (hd.drew hb.in_try).toGrows).of_stop
  exact ⟨_, rfl, drawn_tryCatch hk ⟨⟨hprev, hi.inside⟩, hn⟩ hguarded (.inr ⟨hempty, rfl⟩) hc, hnext⟩

theorem shows_entered {kind : EdgeKind} {isTaken : Bool}
    (hd : Draws c (.node τ i (d.startOf i))
      ((d.start i).joinWhen isTaken p (d.startOf i) kind) a d')
    (ih : (Task.node τ i (d.startOf i)).Finishes c F L
      ((d.start i).joinWhen isTaken p (d.startOf i) kind) a d') :
    (Task.entered τ i p kind isTaken).Finishes c F L d a d' := by
  intro Γ hΓ hb hs hne hi
  obtain ⟨-, hb₁⟩ := hb.entered (c := c)
  have hstart : Grows c.tree 0 d (d.start i) := grows_start (Nat.zero_le _)
  have hjoin : Grows c.tree 0 (d.start i) ((d.start i).joinWhen isTaken p (d.startOf i) kind) :=
    grows_joinWhen (hstart.has hb.ready) (hasFrom_startOf (Nat.zero_le _))
  have hs₁ := hs.of_grows (hd.drew hb₁).toGrows
  have hfirst : d.startOf i = some d.size := if_neg hne
  obtain ⟨-, hnext⟩ := (hs₁.of_grows hjoin).of_start hne
  obtain ⟨q, rfl, hq, -⟩ := ih hΓ hb₁ hs hi d.size hfirst hnext
  refine ⟨d.size, q, rfl, hq, ?_⟩
  rintro htaken p₀ rfl
  rw [hfirst] at hs₁
  exact (hs₁.of_joinWhen (hstart.has hb.ready p₀ rfl)).2 htaken

theorem shows_embedded (hne : i ≠ .null)
    (hd : Draws c (.node τ i (some d.size)) ((d.tick.start i).joinIf p (some d.size) .normal) a d')
    (ih : (Task.node τ i (some d.size)).Finishes c F L
      ((d.tick.start i).joinIf p (some d.size) .normal) a d') :
    (Task.embedded τ i p).Finishes c F L d a d' := by
  rintro Γ hΓ hb hs hi p₀ rfl
  have hfirst : d.startOf i = some d.size := if_neg hne
  obtain ⟨-, hb₁⟩ := hb.started (c := c) (i := i) hb.ready rfl
  rw [hfirst] at hb₁
  have hstart : Grows c.tree 0 d (d.tick.start i) := grows_tick.trans (grows_start (Nat.zero_le _))
  have hs₁ := hs.of_grows (hd.drew hb₁).toGrows
  obtain ⟨hs₂, hj⟩ := hs₁.of_join (hstart.has hb.ready p₀ rfl)
  obtain ⟨-, hnext⟩ := hs₂.of_start hne
  obtain ⟨q, rfl, hq, -⟩ := ih hΓ hb₁ hs (hi hne) d.size rfl hnext
  rw [present_of_ne hne]
  exact ⟨d.size, q, rfl, .inl hj, .cons hq .nil⟩

theorem shows_first {nodes : List NodeId} (hprog : c.tree.Program c.root)
    (hd : Draws c (.node τ i (d.startOf i))
      ((d.tick.start i).joinIf p (d.startOf i) .normal) last d₁)
    (hd' : Draws c (.list τ p last nodes) d₁ a d')
    (ih : (Task.node τ i (d.startOf i)).Finishes c F L
      ((d.tick.start i).joinIf p (d.startOf i) .normal) last d₁)
    (ih' : (Task.list τ p last nodes).Finishes c F L d₁ a d') :
    (Task.list τ p none (i :: nodes)).Finishes c F L d a d' := by
  intro Γ hΓ hb hs x r before hl hx hj
  have hw := hprog.wellFormed
  have hne : i ≠ .null := hw.ne_null (hw.parent_of_mem_childrenIn (p := x) (r := r) (by simp [hl]))
  have hfirst : d.startOf i = some d.size := if_neg hne
  have hrest (y : NodeId) (hy : y ∈ nodes) : Placed c Γ.onCase y := hj y (List.mem_cons_of_mem _ hy)
  obtain ⟨hentered, hb₁⟩ := hb.started (c := c) (i := i) hb.ready.1 rfl
  have hdrew := hd.drew hb₁
  have hgrows := hentered.trans hdrew.toGrows
  have hb₂ : (Task.list τ p last nodes).Begins 0 d₁ :=
    hb.later hgrows rfl ⟨hgrows.has hb.ready.1, hdrew.has⟩
  have hdrew' := hd'.drew hb₂
  have hstart : Grows c.tree 0 d (d.tick.start i) := grows_tick.trans (grows_start (Nat.zero_le _))
  have hjoin : Grows c.tree 0 (d.tick.start i) ((d.tick.start i).joinIf p (d.startOf i) .normal) :=
    grows_joinIf (hstart.has hb.ready.1) (hasFrom_startOf (d := d.tick) (Nat.zero_le _))
  have hs₁ := hs.of_grows hdrew'.toGrows
  have hs₂ := hs₁.of_grows hdrew.toGrows
  obtain ⟨-, hnext⟩ := (hs₂.of_grows hjoin).of_start hne
  obtain ⟨q, rfl, hq, hqn⟩ := ih hΓ hb₁ hs₁ (hj i List.mem_cons_self) d.size hfirst hnext
  obtain ⟨q', ha, hc⟩ := ih' hΓ hb₂ hs x r (before ++ [i])
    (by rw [hl, List.append_assoc]; rfl) hx hrest
    (next_of_rest hprog hx hl hqn hrest)
  refine ⟨d.size, q', ha, ?_, .cons hq hc, ?_⟩
  · rintro p₀ rfl
    rw [hfirst] at hs₂
    exact (hs₂.of_join (hstart.has hb.ready.1 p₀ rfl)).2
  · refine ((hjoin.trans hdrew.toGrows).trans hdrew'.toGrows).listed_mono ?_
    simp [Draft.start, hne, list, addPoint, tick, Draft.size]

theorem shows_behind {q : PointId} {nodes : List NodeId} (hprog : c.tree.Program c.root)
    (hd : Draws c (.node τ i (some q)) d.tick last d₁)
    (hd' : Draws c (.list τ p last nodes) d₁ a d')
    (ih : (Task.node τ i (some q)).Finishes c F L d.tick last d₁)
    (ih' : (Task.list τ p last nodes).Finishes c F L d₁ a d') :
    (Task.list τ p (some q) (i :: nodes)).Finishes c F L d a d' := by
  intro Γ hΓ hb hs x r before hl hx hj hnext
  have hrest (y : NodeId) (hy : y ∈ nodes) : Placed c Γ.onCase y := hj y (List.mem_cons_of_mem _ hy)
  have htick : Grows c.tree 0 d d.tick := grows_tick
  have hb₁ : (Task.node τ i (some q)).Begins 0 d.tick := hb.later htick rfl hb.ready.2
  have hdrew := hd.drew hb₁
  have hgrows := htick.trans hdrew.toGrows
  have hb₂ : (Task.list τ p last nodes).Begins 0 d₁ :=
    hb.later hgrows rfl ⟨hgrows.has hb.ready.1, hdrew.has⟩
  have hs₁ := hs.of_grows (hd'.drew hb₂).toGrows
  obtain ⟨q₁, rfl, hq, hqn⟩ := ih hΓ hb₁ hs₁ (hj i List.mem_cons_self) q rfl (hnext i rfl)
  obtain ⟨q', ha, hc⟩ := ih' hΓ hb₂ hs x r (before ++ [i])
    (by rw [hl, List.append_assoc]; rfl) hx hrest
    (next_of_rest hprog hx hl hqn hrest)
  exact ⟨q', ha, .cons hq hc⟩

theorem shows_section {enter : NodeId → Option PointId} {s : NodeId} {rest : List NodeId}
    {starts : List (NodeId × Option PointId)}
    (hd : Draws c (.list τ (enter s) none (c.tree.childrenIn s .statement)) d last d₁)
    (hd' : Draws c (.sections τ enter rest starts) d₁ a d')
    (ih : (Task.list τ (enter s) none (c.tree.childrenIn s .statement)).Finishes c F L d last d₁)
    (ih' : (Task.sections τ enter rest starts).Finishes c F L d₁ a d') :
    (Task.sections τ enter (s :: rest) ((s, d₁.listed[d.listed.size]?) :: starts)).Finishes c F L d
    a d' := by
  intro Γ hΓ hb hs x hx hbelow hnodup hj
  obtain ⟨hsr, hnodup⟩ := List.nodup_cons.mp hnodup
  have hb₁ : (Task.list τ (enter s) none (c.tree.childrenIn s .statement)).Begins 0 d :=
    hb.also rfl ⟨hb.ready s, has_none⟩
  have hdrew := hd.drew hb₁
  have hb₂ : (Task.sections τ enter rest starts).Begins 0 d₁ :=
    hb.later hdrew.toGrows rfl fun s => hdrew.toGrows.has (hb.ready s)
  have hs₁ := hs.of_grows (hd'.drew hb₂).toGrows
  have hlist := ih hΓ hb₁ hs₁ s .statement [] rfl (hbelow.child (hx s List.mem_cons_self))
    (hj s List.mem_cons_self)
  obtain ⟨hmap, hrest⟩ := ih' hΓ hb₂ hs x (fun s' hs' => hx s' (List.mem_cons_of_mem _ hs'))
    hbelow hnodup
    fun s' hs' => hj s' (List.mem_cons_of_mem _ hs')
  refine ⟨by rw [List.map_cons, hmap], fun s' hs' hne => ?_⟩
  rcases List.mem_cons.mp hs' with rfl | hs'
  · cases hstmts : c.tree.childrenIn s' .statement with
    | nil => exact absurd hstmts hne
    | cons j rest' =>
        rw [hstmts] at hlist
        obtain ⟨e, q, -, he, hc, hl⟩ := hlist
        exact ⟨e, q, he, hc, by rw [hl, List.lookup_cons_self]⟩
  · obtain ⟨e, q, he, hc, hl⟩ := hrest s' hs' hne
    have hss : (s' == s) = false := beq_eq_false_iff_ne.mpr fun h => hsr (h ▸ hs')
    exact ⟨e, q, he, hc, by rw [List.lookup_cons, hss, hl]⟩

theorem shows_guard {rest : List NodeId} (hd : Draws c (.embedded τ j p) d last d₁)
    (hd' : Draws c (.guarded τ i p stop rest) (d₁.joinGuarded c.tree i last stop) a d')
    (ih : (Task.embedded τ j p).Finishes c F L d last d₁)
    (ih' : (Task.guarded τ i p stop rest).Finishes c F L (d₁.joinGuarded c.tree i last stop) a d') :
    (Task.guarded τ i p stop (j :: rest)).Finishes c F L d a d' := by
  rintro Γ hΓ hb hs hplaced p₀ rfl
  have hb₁ : (Task.embedded τ j (some p₀)).Begins 0 d := hb.also rfl hb.ready.1
  have hdrew := hd.drew hb₁
  obtain ⟨hjoin, hb₂⟩ := hb.guarded hdrew
  have hs₁ := hs.of_grows (hd'.drew hb₂).toGrows
  obtain ⟨e, q, rfl, he, hc⟩ := ih hΓ hb₁ (hs₁.of_grows hjoin) (hplaced j List.mem_cons_self) p₀ rfl
  obtain ⟨-, hj⟩ := hs₁.of_joinGuarded (hdrew.has q rfl)
  refine List.forall_mem_cons.mpr ⟨⟨e, q, he, hc, hj⟩, ?_⟩
  exact ih' hΓ hb₂ hs (fun b hm => hplaced b (List.mem_cons_of_mem _ hm)) p₀ rfl

/-- The finished graph has every statement that was drawn. -/
theorem Draws.shows (hprog : c.tree.Program c.root) (h : Draws c task d a d') :
    task.Finishes c F L d a d' := by
  induction h with
  | hole hk =>
      rintro Γ - - - hi
      have hstmt := hi.isStatement
      rw [hk] at hstmt
      cases hstmt
  | plain hk h =>
      rintro Γ - hb hs hi p₀ rfl hn
      obtain ⟨-, hj, hprev, hnext⟩ := hs.of_reachedEnd (hb.ready p₀ rfl)
      exact ⟨_, rfl, .plain hk h ⟨⟨hprev, hi.inside⟩, hn⟩ hj, hnext⟩
  | final hk h =>
      rintro Γ - hb hs hi p₀ rfl hn
      obtain ⟨-, hprev, hnext⟩ := hs.of_list.of_stop
      exact ⟨_, rfl, .final hk h ⟨⟨hprev, hi.inside⟩, hn⟩, hnext⟩
  | label hk =>
      rintro Γ - hb hs hi p₀ rfl hn
      obtain ⟨hs, hl⟩ := hs.of_addLabel
      obtain ⟨-, hj, hprev, hnext⟩ := hs.of_reachedEnd (hb.ready p₀ rfl)
      exact ⟨_, rfl, .label hk ⟨⟨hprev, hi.inside⟩, hn⟩ hj hl, hnext⟩
  | goto hk =>
      rintro Γ - hb hs hi p₀ rfl hn
      obtain ⟨hs, hprev, hnext⟩ := hs.of_list.of_stop
      obtain ⟨-, hj⟩ := hs.of_addGoto
      rw [hn] at hj
      exact ⟨_, rfl, .goto hk ⟨⟨hprev, hi.inside⟩, hn⟩ hj, hnext⟩
  | caseJump hk h =>
      rintro Γ - hb hs hi p₀ rfl hn
      obtain ⟨hs, hprev, hnext⟩ := hs.of_list.of_stop
      obtain ⟨-, hj⟩ := hs.of_addCaseJump
      rw [hn] at hj
      exact ⟨_, rfl, .caseJump hk h ⟨⟨hprev, hi.inside⟩, hn⟩ fun s f hf =>
        ⟨hj s f hf, hi.switchOf hf⟩, hnext⟩
  | break_ hk =>
      rintro Γ hΓ hb hs hi p₀ rfl hn
      obtain ⟨hs, hprev, hnext⟩ := hs.of_list.of_stop
      rw [Draft.size_joinIf] at hprev hnext
      obtain ⟨-, hj⟩ := hs.of_joinIf (hb.ready p₀ rfl)
      exact ⟨_, rfl, .break_ hk ⟨⟨hprev, hi.inside⟩, hn⟩
        fun x hx => hj x ((congrArg Targets.onBreak hΓ).symm.trans hx), hnext⟩
  | continue_ hk =>
      rintro Γ hΓ hb hs hi p₀ rfl hn
      obtain ⟨hs, hprev, hnext⟩ := hs.of_list.of_stop
      rw [Draft.size_joinIf] at hprev hnext
      obtain ⟨-, hj⟩ := hs.of_joinIf (hb.ready p₀ rfl)
      exact ⟨_, rfl, .continue_ hk ⟨⟨hprev, hi.inside⟩, hn⟩
        fun x hx => hj x ((congrArg Targets.onContinue hΓ).symm.trans hx), hnext⟩
  | block hk hd ih => exact shows_block hprog hk hd ih
  | wrapped hk hr hd ih => exact shows_wrapped hprog hk hr hd ih
  | usingValue hk hr hd ih => exact shows_usingValue hprog hk hr hd ih
  | usingResource hk hr hd hd' ih ih' => exact shows_usingResource hprog hk hr hd hd' ih ih'
  | branch hk hd hd' ih ih' => exact shows_branch hprog hk hd hd' ih ih'
  | switch hk hd ih => exact shows_switch hprog hk hd ih
  | whileLoop hk hd ih => exact shows_whileLoop hprog hk hd ih
  | foreachLoop hk hd ih => exact shows_foreachLoop hprog hk hd ih
  | doLoop hk hbody hbefore hd ih => exact shows_doLoop hprog hk hbody hbefore hd ih
  | forLoop hk hbody hd hd' hahead hnext hd'' ih ih' ih'' =>
      exact shows_forLoop hprog hk hbody hd hd' hahead hnext hd'' ih ih' ih''
  | tryFinally hk _ hd hd' ih ih' => exact shows_tryFinally hprog hk hd hd' ih ih'
  | tryCatch hk hf hd ih => exact shows_tryCatch hprog hk hf hd ih
  | enter hd ih => exact shows_entered hd ih
  | absent =>
      rintro Γ - - - - p₀ rfl
      exact ⟨p₀, p₀, rfl, .inr ⟨rfl, rfl⟩, .nil⟩
  | embed hne hd ih => exact shows_embedded hne hd ih
  | @nil τ p current d =>
      intro Γ _ _ _ x r before hl hx hj
      cases current with
      | none => rfl
      | some p₀ => exact fun _ => ⟨p₀, rfl, .nil⟩
  | first hd hd' ih ih' => exact shows_first hprog hd hd' ih ih'
  | behind hd hd' ih ih' => exact shows_behind hprog hd hd' ih ih'
  | noSection =>
      intro Γ _ _ _ x hx hb hd hj
      exact ⟨rfl, fun s hs => by cases hs⟩
  | section_ hd hd' ih ih' => exact shows_section hd hd' ih ih'
  | unguarded =>
      intro Γ _ _ _ hb p₀ hp b hb
      cases hb
  | guard hd hd' ih ih' => exact shows_guard hd hd' ih ih'

end

end TreeScribe.Flow
