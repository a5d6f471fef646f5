import TreeScribe.Proofs.Flow.Grows

namespace TreeScribe.Flow

open TreeScribe.Tree

inductive Mark where
  | enter (i : NodeId)
  | leave (i : NodeId)
  | test (i : NodeId)
  deriving DecidableEq

def Mark.node : Mark → NodeId
  | enter i | leave i | test i => i

def Point.marks (x : Point) : List Mark :=
  match x.kind with
  | .start => [.enter x.next]
  | .between => [.leave x.previous, .enter x.next]
  | .stop => [.leave x.previous]
  | .condition => [.test x.next]

def Graph.marks (g : Graph) : List Mark := g.points.toList.flatMap Point.marks

theorem flatMap_modify {f : Point → Point} (hf : ∀ x, (f x).marks = x.marks) (l : List Point)
    (n : Nat) : (l.modify n f).flatMap Point.marks = l.flatMap Point.marks := by
  induction l generalizing n with
  | nil => rw [List.modify_nil]
  | cons x l ih =>
      cases n with
      | zero => rw [List.modify_zero_cons, List.flatMap_cons, List.flatMap_cons, hf]
      | succ n => rw [List.modify_succ_cons, List.flatMap_cons, List.flatMap_cons, ih]

theorem Graph.marks_connect {g : Graph} {source target : PointId} {kind : EdgeKind} :
    (g.connect source target kind).2.marks = g.marks := by
  rw [marks, connect, Array.toList_modify, Array.toList_modify]
  refine (flatMap_modify ?_ _ _).trans (flatMap_modify ?_ _ _)
  · exact fun _ => rfl
  · exact fun _ => rfl

namespace Draft

variable {d : Draft} {c : Plan} {i : NodeId} {source target : Option PointId} {kind : EdgeKind}

def marks (d : Draft) : List Mark := d.graph.marks

def ahead (c : Plan) (i : NodeId) : List Mark :=
  if c.following i = .null then [] else [.enter (c.following i)]

theorem marks_addPoint {previous next : NodeId} {kind : PointKind} :
    (d.addPoint previous next kind).marks = d.marks ++
    Point.marks ⟨previous, next, kind, [], []⟩ := by
  simp [marks, addPoint, Graph.addPoint, Graph.marks]

@[simp] theorem marks_stop : (d.stop c i).marks = d.marks ++ .leave i :: ahead c i := by
  rw [stop, marks_addPoint, ahead]
  split <;> rfl

@[simp] theorem marks_test : (d.test i).marks = d.marks ++ [.test i] := marks_addPoint

@[simp] theorem marks_list {p : PointId} : (d.list p).marks = d.marks := rfl

@[simp] theorem marks_tick : d.tick.marks = d.marks := rfl

@[simp] theorem marks_withCaseJumps {l : List PointId} : (d.withCaseJumps l).marks = d.marks := rfl

@[simp] theorem marks_addLabel {name : String} {p : PointId} :
    (d.addLabel name p).marks = d.marks := rfl

@[simp] theorem marks_addGoto : (d.addGoto source).marks = d.marks := rfl

@[simp] theorem marks_addCaseJump : (d.addCaseJump source).marks = d.marks := rfl

@[simp] theorem marks_join {source target : PointId} :
    (d.join source target kind).marks = d.marks :=
  Graph.marks_connect

@[simp] theorem marks_leaving {e : EdgeId} {tries : List NodeId} :
    (d.leaving e tries).marks = d.marks := rfl

@[simp] theorem marks_joinIf : (d.joinIf source target kind).marks = d.marks := by
  unfold joinIf
  split
  · exact marks_join
  · rfl

@[simp] theorem marks_joinWhen {isTaken : Bool} :
    (d.joinWhen isTaken source target kind).marks = d.marks := by
  unfold joinWhen
  split
  · exact marks_joinIf
  · rfl

@[simp] theorem marks_leave {condition : Option Bool} {at_ stop : PointId} :
    (d.leave condition at_ stop).marks = d.marks := marks_joinWhen

@[simp] theorem marks_start :
    (d.start i).marks = d.marks ++ if i = .null then [] else [.enter i] := by
  unfold start
  split
  · rw [List.append_nil]
  · rw [marks_list, marks_addPoint]
    rfl

@[simp] theorem marks_loop :
    (d.loop c i source).marks = d.marks ++ (.leave i :: ahead c i ++ [.test i]) := by
  simp [loop]

@[simp] theorem marks_joinGuarded {t : Tree} {last : Option PointId} {stop : PointId} :
    (d.joinGuarded t i last stop).marks = d.marks := by
  unfold joinGuarded
  repeat' split
  all_goals simp

@[simp] theorem marks_joinJumps {targetOf : NodeId → PointId} {jumps : List PointId} :
    (joinJumps targetOf jumps d).marks = d.marks := by
  induction jumps generalizing d with
  | nil => rfl
  | cons p rest ih => rw [joinJumps, ih, marks_join]

end Draft

structure Clean {α : Type} (P : α → Prop) (M : List α) : Prop where
  nodup : M.Nodup
  mem {m : α} (hm : m ∈ M) : P m

namespace Clean

variable {α : Type} {P Q : α → Prop} {M N : List α}

theorem nil : Clean P [] := ⟨List.nodup_nil, by simp⟩

theorem mono (h : Clean P M) (hPQ : ∀ m, P m → Q m) : Clean Q M :=
  ⟨h.nodup, fun hm => hPQ _ (h.mem hm)⟩

theorem append (h : Clean P M) (h' : Clean Q N) (hPQ : ∀ m, P m → ¬ Q m) :
    Clean (fun m => P m ∨ Q m) (M ++ N) := by
  refine ⟨List.nodup_append'.mpr ⟨h.nodup, h'.nodup, fun m hm hm' => hPQ m (h.mem hm) (h'.mem hm')⟩,
    fun hm => ?_⟩
  exact (List.mem_append.mp hm).imp h.mem h'.mem

end Clean

section

open Draft

variable {c : Plan} {t : Tree} {i j x y : NodeId} {r r' : Role} {m : Mark} {M N : List Mark}
  {τ : Targets}
  {p a : Option PointId}

def Region (t : Tree) (x : NodeId) (r : Role) (m : Mark) : Prop :=
  ∃ j ∈ t.childrenIn x r, t.Inside j m.node

def Beneath (t : Tree) (i : NodeId) (m : Mark) : Prop := ∃ j, t.Part i j ∧ t.Inside j m.node

def Around (c : Plan) (i : NodeId) (m : Mark) : Prop :=
  m ∈ ahead c i ∨ c.tree.Inside i m.node ∧ m ≠ .enter i

theorem Region.beneath (hw : t.WellFormed) (h : Region t i r m) : Beneath t i m := by
  obtain ⟨j, hj, hm⟩ := h
  exact ⟨j, hw.part_of_mem hj, hm⟩

theorem Region.beneath_group (hw : t.WellFormed) (hx : x ∈ t.childrenIn i r')
    (hr : groups r' = true) (h : Region t x r m) : Beneath t i m := by
  obtain ⟨j, hj, hm⟩ := h
  exact ⟨j, hw.part_of_group hx hr (hw.parent_of_mem_childrenIn hj), hm⟩

theorem Region.below (hw : t.WellFormed) (h : Region t x r m) : t.Below x m.node := by
  obtain ⟨j, hj, hm⟩ := h
  exact (Below.child .self (hw.parent_of_mem_childrenIn hj)).trans hm.to_below

theorem Beneath.inside (hk : (t.kind i).isStatement = true) (h : Beneath t i m) :
    t.Inside i m.node := by
  obtain ⟨j, hj, hm⟩ := h
  exact (Inside.part .self hk hj).trans hm

theorem Beneath.ne (hw : t.WellFormed) (h : Beneath t i m) : m.node ≠ i := by
  obtain ⟨j, hj, hm⟩ := h
  intro he
  rw [he] at hm
  exact hw.not_below_of_part hj hm.to_below

theorem Region.disjoint (hw : t.WellFormed) (hr : r ≠ r') (h : Region t x r m) :
    ¬ Region t x r' m := by
  rintro ⟨j', hj', hm'⟩
  obtain ⟨j, hj, hm⟩ := h
  have hjj : j = j' := hw.eq_of_below (hw.parent_of_mem_childrenIn hj)
    (hw.parent_of_mem_childrenIn hj') hm.to_below
    hm'.to_below
  rw [hjj] at hj
  exact hr ((mem_childrenIn_iff.mp hj).2.symm.trans (mem_childrenIn_iff.mp hj').2)

/-- What follows a statement of a list is the next one, if that is a statement. -/
theorem following_eq (hw : c.tree.WellFormed) {l₁ l₂ : List NodeId}
    (hl : c.tree.childrenIn x r = l₁ ++ i :: l₂) (hi : i ≠ c.root) : c.following i = match l₂ with
      | [] => .null
      | y :: _ => if (c.tree.kind y).isStatement then y else .null := by
  rw [Plan.following, if_neg hi, hw.siblingsAfter_split hl]
  cases l₂ <;> rfl

theorem mem_ahead (hw : c.tree.WellFormed) {l₁ l₂ : List NodeId}
    (hl : c.tree.childrenIn x r = l₁ ++ i :: l₂) (hm : m ∈ ahead c i) :
    ∃ y l, l₂ = y :: l ∧ m = .enter y := by
  unfold ahead at hm
  split at hm
  · simp at hm
  · rename_i hf
    have hi : i ≠ c.root := fun h => hf (if_pos h)
    rw [following_eq hw hl hi] at hm hf
    cases l₂ with
    | nil => exact absurd rfl hf
    | cons y l =>
        simp only at hm hf
        split at hm
        · exact ⟨y, l, rfl, List.mem_singleton.mp hm⟩
        · rw [if_neg ‹_›] at hf
          exact absurd rfl hf

theorem parent_of_mem_ahead (hw : c.tree.WellFormed) (hm : m ∈ ahead c i) :
    m.node ≠ i ∧ ∃ p, c.tree.parent i = some p ∧ c.tree.parent m.node = some p := by
  cases hp : c.tree.parent i with
  | none =>
      have hf : c.following i = .null := by
        rw [Plan.following, hw.siblingsAfter_of_parent_none hp]
        split <;> rfl
      simp [ahead, hf] at hm
  | some p =>
      have hi : i ∈ c.tree.childrenIn p (c.tree.role i) :=
        mem_childrenIn_iff.mpr ⟨hw.mem_children.mpr hp, rfl⟩
      obtain ⟨l₁, l₂, hl⟩ := List.append_of_mem hi
      obtain ⟨y, l, rfl, rfl⟩ := mem_ahead hw hl hm
      have hy : y ∈ c.tree.childrenIn p (c.tree.role i) := by simp [hl]
      refine ⟨?_, p, rfl, hw.parent_of_mem_childrenIn hy⟩
      intro he
      have hd : (c.tree.childrenIn p (c.tree.role i)).Nodup := hw.nodup_childrenIn
      rw [hl, show y = i from he] at hd
      simp [List.nodup_append'] at hd

theorem Beneath.notMem_ahead (hw : c.tree.WellFormed) (h : Beneath c.tree i m) : m ∉ ahead c i := by
  intro hm
  obtain ⟨hne, p, hp, hq⟩ := parent_of_mem_ahead hw hm
  obtain ⟨j, hj, hm⟩ := h
  exact hne (hw.eq_of_below hq hp .self (hj.to_below.trans hm.to_below))

theorem clean_stop : Clean (fun m => m = .leave i ∨ m ∈ ahead c i) (.leave i :: ahead c i) := by
  refine ⟨?_, by simp⟩
  unfold ahead
  split <;> simp

/-- A statement makes its own marks and those of its parts. -/
theorem clean_around (hw : c.tree.WellFormed)
    (hk : (c.tree.kind i).isStatement = true)
    {T : List Mark} (hM : M.Perm (T ++ (.leave i :: ahead c i) ++ N)) (hT : T = [] ∨ T = [.test i])
    (hN : Clean (Beneath c.tree i) N) :
    Clean (Around c i) M := by
  have hT' : Clean (fun m => m = .test i) T := by
    rcases hT with rfl | rfl <;> exact ⟨by simp, by simp⟩
  have hstop : Clean (fun m => m = .leave i ∨ m ∈ ahead c i) (.leave i :: ahead c i) := clean_stop
  have hown := (hT'.append hstop (by
    rintro m rfl (h | h)
    · cases h
    · unfold ahead at h
      split at h <;> simp at h)).append hN (by
    rintro m hm hb
    rcases hm with rfl | rfl | hm
    · exact hb.ne hw rfl
    · exact hb.ne hw rfl
    · exact hb.notMem_ahead hw hm)
  refine ⟨hM.nodup_iff.mpr hown.nodup, fun {m} hm => ?_⟩
  rcases hown.mem (hM.mem_iff.mp hm) with (rfl | rfl | hm) | hb
  · exact .inr ⟨.self, by simp⟩
  · exact .inr ⟨.self, by simp⟩
  · exact .inl hm
  · refine .inr ⟨hb.inside hk, ?_⟩
    rintro rfl
    exact hb.ne hw rfl

theorem clean_started (hw : c.tree.WellFormed) (hj : j = c.tree.child x r)
    (hM : Clean (Around c j) M) (h0 : a = none ∨ c.tree.kind j = .null → M = []) :
    Clean (Region c.tree x r) ((if j = .null then [] else [.enter j]) ++ M) := by
  by_cases hn : j = .null
  · rw [if_pos hn, h0 (.inr (hn ▸ hw.null_kind))]
    exact .nil
  · have hmem : j ∈ c.tree.childrenIn x r := by
      rw [hj] at hn ⊢
      exact child_eq_null_or_mem.resolve_left hn
    obtain ⟨l₁, l₂, hl⟩ := List.append_of_mem hmem
    rw [if_neg hn]
    refine ⟨List.nodup_cons.mpr ⟨fun hm => ?_, hM.nodup⟩, fun {m} hm => ?_⟩
    · rcases hM.mem hm with hm | hm
      · exact (parent_of_mem_ahead hw hm).1 rfl
      · exact hm.2 rfl
    · rcases List.mem_cons.mp hm with rfl | hm
      · exact ⟨j, hmem, .self⟩
      · rcases hM.mem hm with hm | hm
        · obtain ⟨y, l, rfl, rfl⟩ := mem_ahead hw hl hm
          exact ⟨y, by simp [hl], .self⟩
        · exact ⟨j, hmem, hm.1⟩

def Apart (t : Tree) (a b : NodeId × Role) : Prop := ∀ m, Region t a.1 a.2 m → ¬ Region t b.1 b.2 m

def Task.Marked (c : Plan) (a : Option PointId) (M : List Mark) : Task → Prop
  | node _ i _ => Clean (Around c i) M ∧ (a = none ∨ c.tree.kind i = .null → M = [])
  | entered _ i _ _ _ | embedded _ i _ => ∀ x r, i = c.tree.child x r → Clean (Region c.tree x r) M
  | list _ _ current nodes => ∀ x r before, c.tree.childrenIn x r = before ++ nodes →
    Clean (fun m => (∃ j ∈ nodes, c.tree.Inside j m.node) ∧
      (current.isSome = true → ∀ j, nodes.head? = some j → m ≠ .enter j)) M
  | sections _ _ nodes _ => ∀ x, (∀ s ∈ nodes, c.tree.parent s = some x) → nodes.Nodup →
    Clean (fun m => ∃ s ∈ nodes, Region c.tree s .statement m) M
  | guarded _ _ _ _ bodies => ∀ places : List (NodeId × Role),
      bodies = places.map (fun x => c.tree.child x.1 x.2) →
    places.Pairwise (Apart c.tree) → Clean (fun m => ∃ x ∈ places, Region c.tree x.1 x.2 m) M

theorem role_of_region (hw : t.WellFormed) (h : Region t i r m) (hx : x ∈ t.childrenIn i r')
    (hb : t.Below x m.node) : r = r' := by
  obtain ⟨j, hj, hm⟩ := h
  have hjx : j = x := hw.eq_of_below (hw.parent_of_mem_childrenIn hj)
    (hw.parent_of_mem_childrenIn hx) hm.to_below hb
  rw [hjx] at hj
  exact (mem_childrenIn_iff.mp hj).2.symm.trans (mem_childrenIn_iff.mp hx).2

theorem clean_list {current : Option PointId}
    (h : (Task.list τ p current (c.tree.childrenIn x r)).Marked c a M) :
    Clean (Region c.tree x r) M :=
  (h x r [] rfl).mono fun _ hm => hm.1

theorem clean_embedded (h : (Task.embedded τ (c.child x r) p).Marked c a M) :
    Clean (Region c.tree x r) M :=
  h x r rfl

theorem clean_entered {kind : EdgeKind} {isTaken : Bool}
    (h : (Task.entered τ (c.child x r) p kind isTaken).Marked c a M) :
    Clean (Region c.tree x r) M :=
  h x r rfl

theorem clean_regions (hw : t.WellFormed) (h : Clean (Region t i r) M)
    (h' : Clean (Region t i r') N) (hr : r ≠ r') : Clean (Beneath t i) (M ++ N) := by
  refine (h.append h' fun m hm => hm.disjoint hw hr).mono ?_
  rintro m (hm | hm)
  · exact hm.beneath hw
  · exact hm.beneath hw

theorem apart_guarded (hw : t.WellFormed) :
    ((i, Role.finallyBlock) :: (i, Role.tryBlock) ::
      (t.childrenIn i .catchClause).map (·, Role.body)).Pairwise
      (Apart t) := by
  have hclause {r : Role} (hr : r ≠ .catchClause) (a : NodeId × Role)
      (ha : a ∈ (t.childrenIn i .catchClause).map (·, Role.body)) : Apart t (i, r) a := by
    obtain ⟨s, hs, rfl⟩ := List.mem_map.mp ha
    exact fun m hm hm' => hr (role_of_region hw hm hs (hm'.below hw))
  refine .cons (fun a ha => ?_) (.cons (hclause (by decide)) ?_)
  · rcases List.mem_cons.mp ha with rfl | ha
    · exact fun m hm => Region.disjoint hw (by simp) hm
    · exact hclause (by decide) a ha
  · refine List.pairwise_map.mpr
      (List.Pairwise.imp_of_mem (fun {s s'} hs hs' hne m hm hm' => hne ?_)
      (List.nodup_iff_pairwise_ne.mp hw.nodup_childrenIn))
    exact hw.eq_of_below (hw.parent_of_mem_childrenIn hs) (hw.parent_of_mem_childrenIn hs')
      (hm.below hw) (hm'.below hw)

theorem guarded_eq : c.guarded i =
    ((i, Role.tryBlock) :: (c.tree.childrenIn i .catchClause).map (·, Role.body)).map
      (fun x => c.tree.child x.1 x.2) := by
  rw [List.map_cons, List.map_map]
  rfl

theorem beneath_guarded (hw : t.WellFormed) {x : NodeId × Role}
    (hx : x ∈ (i, Role.tryBlock) :: (t.childrenIn i .catchClause).map (·, Role.body))
    (hm : Region t x.1 x.2 m) : Beneath t i m := by
  rcases List.mem_cons.mp hx with rfl | hx
  · exact hm.beneath hw
  · obtain ⟨s, hs, rfl⟩ := List.mem_map.mp hx
    exact hm.beneath_group hw hs rfl

theorem notMem_rest (hw : t.WellFormed) {before rest : List NodeId}
    (hl : t.childrenIn x r = before ++ i :: rest) (hj : j ∈ rest) (hi : t.Inside i m.node) :
    ¬ t.Inside j m.node := by
  intro hm
  have hd : (t.childrenIn x r).Nodup := hw.nodup_childrenIn
  have hjx : j ∈ t.childrenIn x r := by simp [hl, hj]
  have hix : i ∈ t.childrenIn x r := by simp [hl]
  have hij : i = j := hw.eq_of_below (hw.parent_of_mem_childrenIn hix)
    (hw.parent_of_mem_childrenIn hjx) hi.to_below
    hm.to_below
  rw [hl, List.nodup_append'] at hd
  exact (List.nodup_cons.mp hd.2.1).1 (hij ▸ hj)

theorem clean_behind (hw : c.tree.WellFormed) {before rest : List NodeId} {next : Option PointId}
    (hl : c.tree.childrenIn x r = before ++ i :: rest) (hM : Clean (Around c i) M)
    (hn : next = none → M = []) (hN : Clean (fun m => (∃ j ∈ rest, c.tree.Inside j m.node) ∧
      (next.isSome = true → ∀ j, rest.head? = some j → m ≠ .enter j)) N) :
    Clean (fun m => (∃ j ∈ i :: rest, c.tree.Inside j m.node) ∧ m ≠ .enter i) (M ++ N) := by
  refine ⟨List.nodup_append'.mpr ⟨hM.nodup, hN.nodup, fun m hm hm' => ?_⟩, fun {m} hm => ?_⟩
  · obtain ⟨⟨j, hj, hin⟩, hne⟩ := hN.mem hm'
    rcases hM.mem hm with ha | ha
    · obtain ⟨y, l, rfl, rfl⟩ := mem_ahead hw hl ha
      cases next with
      | none => simp [hn rfl] at hm
      | some q => exact hne rfl y rfl rfl
    · exact notMem_rest hw hl hj ha.1 hin
  · rcases List.mem_append.mp hm with hm | hm
    · rcases hM.mem hm with ha | ha
      · obtain ⟨hne, -⟩ := parent_of_mem_ahead hw ha
        obtain ⟨y, l, rfl, rfl⟩ := mem_ahead hw hl ha
        exact ⟨⟨y, by simp, .self⟩, fun he => hne (congrArg Mark.node he)⟩
      · exact ⟨⟨i, List.mem_cons_self, ha.1⟩, ha.2⟩
    · obtain ⟨⟨j, hj, hin⟩, -⟩ := hN.mem hm
      refine ⟨⟨j, List.mem_cons_of_mem _ hj, hin⟩, ?_⟩
      rintro rfl
      exact notMem_rest hw hl hj .self hin

/-- Drawing a task marks what belongs to it, behind what was marked before. -/
def Task.Marks (c : Plan) (d : Draft) (a : Option PointId) (d' : Draft) (task : Task) : Prop :=
  ∃ M, d'.marks = d.marks ++ M ∧ task.Marked c a M

section Rules

variable {d d₁ d₂ d₃ d' before ahead : Draft} {k : StatementKind} {q next : PointId}
  {last : Option PointId}
  {nodes rest : List NodeId}

theorem marked_node {T : List Mark} (hw : c.tree.WellFormed) (hk : c.tree.kind i = .statement k)
    (hd : d'.marks = d.marks ++ M) (hM : M.Perm (T ++ (.leave i :: Draft.ahead c i) ++ N))
    (hT : T = [] ∨ T = [.test i]) (hN : Clean (Beneath c.tree i) N) :
    (Task.node τ i p).Marks c d (some q) d' := by
  refine ⟨M, hd, clean_around hw (by rw [hk]; rfl) hM hT hN, ?_⟩
  rintro (h | h)
  · cases h
  · cases hk.symm.trans h

theorem marked_own (hw : c.tree.WellFormed) (hk : c.tree.kind i = .statement k)
    (hd : d'.marks = d.marks ++ .leave i :: Draft.ahead c i) :
    (Task.node τ i p).Marks c d (some q) d' :=
  marked_node hw hk hd (.of_eq (by simp)) (.inl rfl) Clean.nil

theorem marked_end (hw : c.tree.WellFormed) (hk : c.tree.kind i = .statement k)
    (hd : d₁.marks = d.marks ++ N) (hN : Clean (Beneath c.tree i) N) :
    (Task.node τ i p).Marks c d (some d₁.size)
      (((d₁.stop c i).list d₁.size).joinIf last (some d₁.size) .normal) :=
  marked_node hw hk (by simp [hd]) List.perm_append_comm (.inl rfl) hN

theorem marked_usingResource (hw : c.tree.WellFormed)
    (hk : c.tree.kind i = .statement .usingResource)
    (ih : (Task.embedded τ (c.child i .resource) p).Marks c d a d₁)
    (ih' : (Task.embedded τ (c.child i .embeddedStatement) a).Marks c d₁ last d₂) :
    (Task.node τ i p).Marks c d (some d₂.size)
      (((d₂.stop c i).list d₂.size).joinIf last (some d₂.size) .normal) := by
  obtain ⟨N, hN, hclean⟩ := ih
  obtain ⟨N', hN', hclean'⟩ := ih'
  exact marked_end hw hk (N := N ++ N') (by simp [hN, hN'])
    (clean_regions hw (clean_embedded hclean) (clean_embedded hclean') (by decide))

theorem marked_branch {pos neg : Option PointId} {kind kind' : EdgeKind} {isTaken isTaken' : Bool}
    (hw : c.tree.WellFormed) (hk : c.tree.kind i = .statement .branch)
    (ih : (Task.entered τ (c.child i .trueStatement) p kind isTaken).Marks c d pos d₁)
    (ih' : (Task.entered τ (c.child i .falseStatement) p kind' isTaken').Marks c d₁ neg d₂) :
    (Task.node τ i p).Marks c d (some d₂.size) (if neg.isSome
      then (((d₂.stop c i).list d₂.size).joinIf pos (some d₂.size) .normal).joinIf neg
        (some d₂.size) .normal
      else (((d₂.stop c i).list d₂.size).joinIf pos (some d₂.size) .normal).joinWhen
        (c.condition (c.child i .condition) != some true) p (some d₂.size) .whenFalse) := by
  obtain ⟨N, hN, hclean⟩ := ih
  obtain ⟨N', hN', hclean'⟩ := ih'
  refine marked_node hw hk (M := (N ++ N') ++ .leave i :: Draft.ahead c i) ?_ List.perm_append_comm
    (.inl rfl) (clean_regions hw (clean_entered hclean) (clean_entered hclean') (by decide))
  split <;> simp [hN, hN']

theorem marked_switch {starts : List (NodeId × Option PointId)} (hw : c.tree.WellFormed)
    (hk : c.tree.kind i = .statement .switch)
    (ih : (Task.sections { τ with onBreak := some d.size } (c.sectionSource i p)
      (c.tree.childrenIn i .switchSection) starts).Marks c ((d.withCaseJumps []).stop c i) a d₁) :
    (Task.node τ i p).Marks c d (some d.size)
      ((joinJumps (c.caseTarget starts d.size) d₁.caseJumps.reverse
        ((d₁.joinWhen (c.isPassed i) p (some d.size) .normal).withCaseJumps d.caseJumps)).list
        d.size) := by
  obtain ⟨N, hN, hclean⟩ := ih
  have hsections := hclean i (fun s hs => hw.parent_of_mem_childrenIn hs) hw.nodup_childrenIn
  refine marked_node hw hk (M := (.leave i :: Draft.ahead c i) ++ N) (by simp [hN]) (.refl _)
    (.inl rfl) (hsections.mono ?_)
  rintro m ⟨s, hs, hm⟩
  exact hm.beneath_group hw hs rfl

/-- A loop that makes its two points first. -/
theorem marked_loop (hw : c.tree.WellFormed) (hk : c.tree.kind i = .statement k)
    (hd : d'.marks = (d.loop c i a).marks ++ N) (hN : Clean (Beneath c.tree i) N) :
    (Task.node τ i p).Marks c d (some q) d' :=
  marked_node hw hk (M := (.leave i :: Draft.ahead c i ++ [.test i]) ++ N) (by simp [hd])
    (.append_right _ List.perm_append_comm) (.inr rfl) hN

theorem marked_doLoop (hw : c.tree.WellFormed) (hk : c.tree.kind i = .statement .doLoop)
    (hbody : j = c.child i .embeddedStatement) (hbefore : before = (d.stop c i).test i)
    (ih : (Task.node ⟨some d.size, some (d.size + 1)⟩ j (before.startOf j)).Marks c
      ((before.start j).joinIf p (before.startOf j) .normal) last d₁) (condition : Option Bool) :
    (Task.node τ i p).Marks c d (some d.size)
    (((((d₁.joinIf last (some (d.size + 1)) .normal).joinWhen
      (condition != some false) (some (d.size + 1)) (before.startOf j) .whenTrue).leave
        condition (d.size + 1) d.size).list (d.size + 1)).list d.size) := by
  obtain ⟨N, hN, hclean, hnone⟩ := ih
  have hclean := clean_started hw hbody hclean hnone
  exact marked_node hw hk (M :=
    (.leave i :: Draft.ahead c i ++ [.test i]) ++ ((if j = .null then [] else [.enter j]) ++ N))
    (by simp [hN, hbefore]) (.append_right _ List.perm_append_comm) (.inr rfl)
    (hclean.mono fun m hm => hm.beneath hw)

theorem marked_forLoop {first iterated : Option PointId} (hw : c.tree.WellFormed)
    (hk : c.tree.kind i = .statement .forLoop) (hbody : j = c.child i .embeddedStatement)
    (ih : (Task.list τ p none (c.tree.childrenIn i .forInitializer)).Marks c d first d₁)
    (ih' : (Task.list τ none none (c.tree.childrenIn i .forIterator)).Marks c (d₁.loop c i first)
      iterated d₂)
    (hahead : ahead = d₂.joinIf iterated (some (d₁.size + 1)) .normal)
    (ih'' : (Task.node ⟨some d₁.size, some next⟩ j (ahead.startOf j)).Marks c
      (ahead.start j) last d₃)
    (condition : Option Bool) :
    (Task.node τ i p).Marks c d (some d₁.size) ((((d₃.joinIf last (some next) .normal).joinWhen
      (condition != some false) (some (d₁.size + 1)) (ahead.startOf j) .whenTrue).leave
        condition (d₁.size + 1) d₁.size).list d₁.size) := by
  obtain ⟨N₁, hN₁, hclean₁⟩ := ih
  obtain ⟨N₂, hN₂, hclean₂⟩ := ih'
  obtain ⟨N₃, hN₃, hclean₃, hnone⟩ := ih''
  have hclean₃ := clean_started hw hbody hclean₃ hnone
  have hall : Clean (Beneath c.tree i)
      ((N₁ ++ N₂) ++ ((if j = .null then [] else [.enter j]) ++ N₃)) := by
    have hfirst := (clean_list hclean₁).append (clean_list hclean₂) fun m hm =>
      Region.disjoint hw (by simp) hm
    refine (hfirst.append hclean₃ ?_).mono ?_
    · rintro m (hm | hm)
      · exact Region.disjoint hw (by simp) hm
      · exact Region.disjoint hw (by simp) hm
    · rintro m (hm | hm)
      · exact hm.elim (fun hm => hm.beneath hw) fun hm => hm.beneath hw
      · exact hm.beneath hw
  refine marked_node hw hk (M := N₁ ++ (.leave i :: Draft.ahead c i ++ [.test i]) ++ N₂ ++
    ((if j = .null then [] else [.enter j]) ++ N₃)) (by simp [hN₁, hN₂, hN₃, hahead])
    ?_ (.inr rfl) hall
  refine List.perm_iff_count.mpr fun m => ?_
  simp only [List.count_append]
  omega

theorem marked_tryFinally (hw : c.tree.WellFormed) (hk : c.tree.kind i = .statement .tryCatch)
    (ih : (Task.guarded τ i p d.size (c.guarded i)).Marks c (d.stop c i) a d₁)
    (ih' : (Task.embedded τ (c.child i .finallyBlock) p).Marks c d₁ last d₂) :
    (Task.node τ i p).Marks c d (some d.size) (d₂.list d.size) := by
  obtain ⟨N, hN, hclean⟩ := ih
  obtain ⟨N', hN', hclean'⟩ := ih'
  obtain ⟨hfinally, happart⟩ := List.pairwise_cons.mp (apart_guarded hw (i := i))
  have hall : Clean (Beneath c.tree i) (N' ++ N) := by
    refine ((clean_embedded hclean').append (hclean _ guarded_eq happart) ?_).mono ?_
    · rintro m hm ⟨x, hx, hm'⟩
      exact hfinally x hx m hm hm'
    · rintro m (hm | ⟨x, hx, hm⟩)
      · exact hm.beneath hw
      · exact beneath_guarded hw hx hm
  exact marked_node hw hk (M := (.leave i :: Draft.ahead c i) ++ (N ++ N')) (by simp [hN, hN'])
    (List.perm_append_comm.append_left _) (.inl rfl) hall

theorem marked_tryCatch (hw : c.tree.WellFormed) (hk : c.tree.kind i = .statement .tryCatch)
    (ih : (Task.guarded τ i p d.size (c.guarded i)).Marks c (d.stop c i) a d₁) :
    (Task.node τ i p).Marks c d (some d.size) (d₁.list d.size) := by
  obtain ⟨N, hN, hclean⟩ := ih
  obtain ⟨-, happart⟩ := List.pairwise_cons.mp (apart_guarded hw (i := i))
  refine marked_node hw hk (M := (.leave i :: Draft.ahead c i) ++ N) (by simp [hN]) (.refl _)
    (.inl rfl) ((hclean _ guarded_eq happart).mono ?_)
  rintro m ⟨x, hx, hm⟩
  exact beneath_guarded hw hx hm

theorem marked_first (hw : c.tree.WellFormed)
    (ih : (Task.node τ i (d.startOf i)).Marks c
      ((d.tick.start i).joinIf p (d.startOf i) .normal) last d₁)
    (ih' : (Task.list τ p last rest).Marks c d₁ a d') :
    (Task.list τ p none (i :: rest)).Marks c d a d' := by
  obtain ⟨N, hN, hclean, hnone⟩ := ih
  obtain ⟨N', hN', hclean'⟩ := ih'
  refine ⟨(if i = .null then [] else [.enter i]) ++
    (N ++ N'), by simp [hN, hN'], fun x r before hl => ?_⟩
  have hi : i ≠ .null := hw.ne_null (hw.parent_of_mem_childrenIn (p := x) (r := r) (by simp [hl]))
  have hclean' := hclean' x r (before ++ [i]) (by rw [hl, List.append_assoc]; rfl)
  have hall := clean_behind hw hl hclean (fun hn => hnone (.inl hn)) hclean'
  rw [if_neg hi]
  refine ⟨List.nodup_cons.mpr ⟨fun hm => (hall.mem hm).2 rfl, hall.nodup⟩,
    fun {m} hm => ⟨?_, nofun⟩⟩
  rcases List.mem_cons.mp hm with rfl | hm
  · exact ⟨i, List.mem_cons_self, .self⟩
  · exact (hall.mem hm).1

theorem marked_behind (hw : c.tree.WellFormed)
    (ih : (Task.node τ i (some q)).Marks c d.tick last d₁)
    (ih' : (Task.list τ p last rest).Marks c d₁ a d') :
    (Task.list τ p (some q) (i :: rest)).Marks c d a d' := by
  obtain ⟨N, hN, hclean, hnone⟩ := ih
  obtain ⟨N', hN', hclean'⟩ := ih'
  refine ⟨N ++ N', by simp [hN, hN'], fun x r before hl => ?_⟩
  have hclean' := hclean' x r (before ++ [i]) (by rw [hl, List.append_assoc]; rfl)
  refine (clean_behind hw hl hclean (fun hn => hnone (.inl hn)) hclean').mono fun m hm => ⟨hm.1, ?_⟩
  rintro - j hj
  cases hj
  exact hm.2

theorem marked_section {enter : NodeId → Option PointId} {s : NodeId}
    {starts : List (NodeId × Option PointId)} (hw : c.tree.WellFormed)
    (ih : (Task.list τ (enter s) none (c.tree.childrenIn s .statement)).Marks c d last d₁)
    (ih' : (Task.sections τ enter rest starts).Marks c d₁ a d') :
    (Task.sections τ enter (s :: rest) ((s, d₁.listed[d.listed.size]?) :: starts)).Marks c d
    a d' := by
  obtain ⟨N, hN, hclean⟩ := ih
  obtain ⟨N', hN', hclean'⟩ := ih'
  refine ⟨N ++ N', by simp [hN, hN'], fun x hs hd => ?_⟩
  obtain ⟨hsr, hd⟩ := List.nodup_cons.mp hd
  have hrest := hclean' x (fun s' hs' => hs s' (List.mem_cons_of_mem _ hs')) hd
  refine ((clean_list hclean).append hrest ?_).mono ?_
  · rintro m hm ⟨s', hs', hm'⟩
    have hss : s = s' := hw.eq_of_below (hs s List.mem_cons_self)
      (hs s' (List.mem_cons_of_mem _ hs'))
      (hm.below hw) (hm'.below hw)
    exact hsr (hss ▸ hs')
  · rintro m (hm | ⟨s', hs', hm⟩)
    · exact ⟨s, List.mem_cons_self, hm⟩
    · exact ⟨s', List.mem_cons_of_mem _ hs', hm⟩

theorem marked_guard (ih : (Task.embedded τ j p).Marks c d last d₁)
    (ih' : (Task.guarded τ i p q rest).Marks c (d₁.joinGuarded c.tree i last q) a d') :
    (Task.guarded τ i p q (j :: rest)).Marks c d a d' := by
  obtain ⟨N, hN, hclean⟩ := ih
  obtain ⟨N', hN', hclean'⟩ := ih'
  refine ⟨N ++ N', by simp [hN, hN'], fun places hplaces happart => ?_⟩
  obtain ⟨x, places, rfl⟩ : ∃ x l, places = x :: l := by
    cases places with
    | nil => cases hplaces
    | cons x l => exact ⟨x, l, rfl⟩
  obtain ⟨rfl, rfl⟩ := List.cons.inj hplaces
  obtain ⟨hx, happart⟩ := List.pairwise_cons.mp happart
  refine ((clean_embedded hclean).append (hclean' places rfl happart) ?_).mono ?_
  · rintro m hm ⟨y, hy, hm'⟩
    exact hx y hy m hm hm'
  · rintro m (hm | ⟨y, hy, hm⟩)
    · exact ⟨x, List.mem_cons_self, hm⟩
    · exact ⟨y, List.mem_cons_of_mem _ hy, hm⟩

/-- Drawing marks what is inside the statements that it draws, and each statement once. -/
theorem Draws.marked {task : Task} (hw : c.tree.WellFormed) (h : Draws c task d a d') :
    task.Marks c d a d' := by
  induction h with
  | hole hk => exact ⟨[], by simp, .nil, fun _ => rfl⟩
  | plain hk | final hk | label hk | goto hk | caseJump hk | break_ hk | continue_ hk =>
      exact marked_own hw hk (by simp)
  | block hk _ ih =>
      obtain ⟨N, hN, hclean⟩ := ih
      exact marked_end hw hk hN ((clean_list hclean).mono fun m hm => hm.beneath hw)
  | wrapped hk _ _ ih | usingValue hk _ _ ih =>
      obtain ⟨N, hN, hclean⟩ := ih
      exact marked_end hw hk hN ((clean_embedded hclean).mono fun m hm => hm.beneath hw)
  | usingResource hk _ _ _ ih ih' => exact marked_usingResource hw hk ih ih'
  | branch hk _ _ ih ih' => exact marked_branch hw hk ih ih'
  | switch hk _ ih => exact marked_switch hw hk ih
  | @whileLoop τ i p d last d₁ hk _ ih =>
      obtain ⟨N, hN, hclean⟩ := ih
      exact marked_loop (a := p) hw hk (by simpa using hN)
        ((clean_entered hclean).mono fun m hm => hm.beneath hw)
  | @foreachLoop τ i p d last d₁ hk _ ih =>
      obtain ⟨N, hN, hclean⟩ := ih
      exact marked_loop (a := p) hw hk (by simpa using hN)
        ((clean_embedded hclean).mono fun m hm => hm.beneath hw)
  | doLoop hk hbody hbefore _ ih => exact marked_doLoop hw hk hbody hbefore ih _
  | forLoop hk hbody _ _ hahead _ _ ih ih' ih'' =>
      exact marked_forLoop hw hk hbody ih ih' hahead ih'' _
  | tryFinally hk _ _ _ ih ih' => exact marked_tryFinally hw hk ih ih'
  | tryCatch hk _ _ ih => exact marked_tryCatch hw hk ih
  | enter _ ih =>
      obtain ⟨N, hN, hclean, hnone⟩ := ih
      exact ⟨_, by simp [hN], fun x r hi => clean_started hw hi hclean hnone⟩
  | absent => exact ⟨[], by simp, fun _ _ _ => .nil⟩
  | @embed τ i p d a d' _ _ ih =>
      obtain ⟨N, hN, hclean, hnone⟩ := ih
      exact ⟨(if i = .null then [] else [.enter i]) ++
        N, by simp [hN], fun x r hi => clean_started hw hi hclean hnone⟩
  | nil => exact ⟨[], by simp, fun _ _ _ _ => .nil⟩
  | first _ _ ih ih' => exact marked_first hw ih ih'
  | behind _ _ ih ih' => exact marked_behind hw ih ih'
  | noSection => exact ⟨[], by simp, fun _ _ _ => .nil⟩
  | section_ _ _ ih ih' => exact marked_section hw ih ih'
  | unguarded => exact ⟨[], by simp, fun _ _ _ => .nil⟩
  | guard _ _ ih ih' => exact marked_guard ih ih'

end Rules

end

end TreeScribe.Flow
