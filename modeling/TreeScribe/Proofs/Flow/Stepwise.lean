import TreeScribe.Proofs.Flow.Steps

namespace TreeScribe.Flow

open TreeScribe.Tree Execution Draft

section

variable (c : Plan) (d : Draft)

structure Aims (τ : Targets) (o : Option NodeId) (i : NodeId) : Prop where
  below : c.tree.Below c.root i
  hasBreak : d.Has τ.onBreak
  hasContinue : d.Has τ.onContinue
  onBreak {T : NodeId} (h : c.tree.BreaksOut c.root i T) :
    ∃ q, τ.onBreak = some q ∧ d.place q = c.stopPlace T
  onContinue {T : NodeId} (h : c.tree.Continues c.root i T) :
    ∃ q, τ.onContinue = some q ∧ d.place q = resumePlace c.tree T
  inSwitch {S : NodeId} (h : c.tree.SwitchAround c.root i S) : o = some S

def EntersAt (i : NodeId) (p : Option PointId) : Prop :=
  (c.tree.kind i).isStatement = true → ∃ q, p = some q ∧ (d.place q).Enters i ∧
    d.Reaches c.tree (some q) i

structure LeftAt (i : NodeId) (a : Option PointId) : Prop where
  isSome : a.isSome = (c.tree.kind i).isStatement
  leaves : ∀ q ∈ a, d.At q (c.stopPlace i)

def BeginsAt (nodes : List NodeId) (o : Option PointId) : Prop :=
  match nodes with
  | [] => o = none
  | j :: _ => ∃ q, o = some q ∧ d.At q (.start j)

def goesOn (t : Tree) (current : Option PointId) (nodes : List NodeId) : Bool :=
  match nodes.getLast? with
  | none => current.isSome
  | some j => (t.kind j).isStatement

/-- What a task is made of, and what it gives, if the points and targets that it begins with are in
place. -/
def Task.Stepped (o : Option NodeId) (a : Option PointId) (d' : Draft) : Task → Prop
  | node τ i p => ((c.tree.kind i).isStatement = true → Aims c d τ o i) → EntersAt c d i p →
    Steps c o d d' ∧ LeftAt c d' i a
  | entered τ i p kind _ => kind ≠ .jump → (i ≠ .null → Aims c d τ o i ∧ d.Reaches c.tree p i) →
    Steps c o d d' ∧ LeftAt c d' i a
  | embedded τ i p => (i ≠ .null → Aims c d τ o i ∧ d.Reaches c.tree p i) →
    Steps c o d d' ∧ (i ≠ .null → LeftAt c d' i a) ∧ (i = .null → a = p)
  | list τ p current nodes => ∀ x r before, c.tree.Below c.root x →
      c.tree.childrenIn x r = before ++ nodes →
    (∀ j ∈ nodes, Aims c d τ o j) → d.Reaches c.tree p x →
    (current.isSome = true → ∀ j, nodes.head? = some j → EntersAt c d j current) →
    Steps c o d d' ∧ (c.tree.hasFinally x = false → d.Reaches c.tree current x →
      d'.Reaches c.tree a x) ∧
      (p = none → a.isSome = goesOn c.tree current nodes) ∧
      (current = none → BeginsAt d' nodes (d'.listed[d.listed.size]?))
  | sections τ enter nodes starts => ∀ S, c.tree.Below c.root S →
      (∀ s ∈ nodes, s ∈ c.tree.childrenIn S .switchSection) →
    (∀ s ∈ nodes, ∀ j ∈ c.tree.childrenIn s .statement, Aims c d τ o j) →
    (∀ s, d.Reaches c.tree (enter s) S) →
    Steps c o d d' ∧ starts.map (·.1) = nodes ∧
      ∀ s ∈ nodes, ∃ q, starts.lookup s = some q ∧ BeginsAt d' (c.tree.childrenIn s .statement) q
  | guarded τ i p stop bodies => c.tree.Below c.root i → c.tree.kind i = .statement .tryCatch →
    d.At stop (c.stopPlace i) → d.Has p → (∀ b ∈ bodies, b ∈ c.guarded i) →
    (∀ b ∈ bodies, b ≠ .null → Aims c d τ o b ∧ d.Reaches c.tree p b) → Steps c o d d'

end

section

variable {c : Plan} {d d' d₁ d₂ : Draft} {τ : Targets} {o : Option NodeId} {i j x T : NodeId}
  {p q a : Option PointId}
  {k : StatementKind} {r : Role} {stop next : PointId} {nodes rest before : List NodeId}

namespace Aims

theorem mono (h : Aims c d τ o i) (hd : d.graph.Extends d'.graph) : Aims c d' τ o i where
  below := h.below
  hasBreak := h.hasBreak.mono hd.size_le
  hasContinue := h.hasContinue.mono hd.size_le
  onBreak hT := by
    obtain ⟨q, hq, hp⟩ := h.onBreak hT
    exact ⟨q, hq, (hd.place (h.hasBreak q hq)).trans hp⟩
  onContinue hT := by
    obtain ⟨q, hq, hp⟩ := h.onContinue hT
    exact ⟨q, hq, (hd.place (h.hasContinue q hq)).trans hp⟩
  inSwitch := h.inSwitch

end Aims

namespace Aims

variable (hw : c.tree.WellFormed) (h : Aims c d τ o i) (hk : c.tree.kind i = .statement k)
include hw h hk

theorem inSwitch_of_piece (hs : k ≠ .switch)
    (hj : c.tree.Piece i j) {S : NodeId} (hS : c.tree.SwitchAround c.root j S) : o = some S := by
  rcases hS.of_piece hw hj with rfl | hS
  · cases hk.symm.trans hS.inSection.isSwitch
    exact absurd rfl hs
  · exact h.inSwitch hS

/-- Inside a statement that is no loop and no switch, jumps go where they go outside. -/
theorem piece (hl : k.isLoop = false) (hs : k ≠ .switch) (hj : c.tree.Piece i j)
    (hb : c.tree.Below i j) : Aims c d τ o j where
  below := h.below.trans hb
  hasBreak := h.hasBreak
  hasContinue := h.hasContinue
  onBreak hT := by
    rcases hT.of_piece hw hk hj with ⟨-, hk | hk⟩ | ⟨-, hT⟩
    · cases hl.symm.trans hk
    · exact absurd hk hs
    · exact h.onBreak hT
  onContinue hT := by
    rcases hT.of_piece hw hk hj with ⟨-, hk⟩ | ⟨-, hT⟩
    · cases hl.symm.trans hk
    · exact h.onContinue hT
  inSwitch := h.inSwitch_of_piece hw hk hs hj

/-- In the body of a loop, jumps leave the loop or go on with it. -/
theorem turning (hl : k.isLoop = true) (hj : c.tree.parent j = some i)
    (hstop : d.At stop (c.stopPlace i)) (hnext : d.At next (resumePlace c.tree i)) :
    Aims c d ⟨some stop, some next⟩ o j where
  below := h.below.child hj
  hasBreak := has_some hstop.lt
  hasContinue := has_some hnext.lt
  onBreak hT := by
    rcases hT.of_piece hw hk (.child hj) with ⟨rfl, -⟩ | ⟨hk, -⟩
    · exact ⟨stop, rfl, hstop.place_eq⟩
    · exact absurd (.inl hl) hk
  onContinue hT := by
    rcases hT.of_piece hw hk (.child hj) with ⟨rfl, -⟩ | ⟨hk, -⟩
    · exact ⟨next, rfl, hnext.place_eq⟩
    · cases hl.symm.trans hk
  inSwitch := h.inSwitch_of_piece hw hk (by rintro rfl; cases hl) (.child hj)

/-- What stands in a loop beside its body is in the body of nothing that jumps from there could
leave. -/
theorem aside (hl : k.isLoop = true) (hj : c.tree.parent j = some i)
    (hr : c.tree.role j ≠ .embeddedStatement) (hr' : c.tree.role j ≠ .switchSection) :
    Aims c d τ o j where
  below := h.below.child hj
  hasBreak := h.hasBreak
  hasContinue := h.hasContinue
  onBreak hT := by
    rcases hT.of_piece hw hk (.child hj) with ⟨rfl, -⟩ | ⟨hk, -⟩
    · rcases hw.inBody_of_parent hj hT.inBody with ⟨-, hrole⟩ | hb
      · exact (hrole.elim hr hr').elim
      · exact absurd hb (hw.not_inBody_of_below .self)
    · exact absurd (.inl hl) hk
  onContinue hT := by
    rcases hT.of_piece hw hk (.child hj) with ⟨rfl, -⟩ | ⟨hk, -⟩
    · rcases hw.inBody_of_parent hj hT.inBody with ⟨-, hrole⟩ | hb
      · exact (hrole.elim hr hr').elim
      · exact absurd hb (hw.not_inBody_of_below .self)
    · cases hl.symm.trans hk
  inSwitch := h.inSwitch_of_piece hw hk (by rintro rfl; cases hl) (.child hj)

end Aims

/-- In a section of a switch, breaks leave the switch, and it is the one that jumps to cases belong
to. -/
theorem Aims.switching {s : NodeId} (hw : c.tree.WellFormed) (h : Aims c d τ o i)
    (hk : c.tree.kind i = .statement .switch) (hs : s ∈ c.tree.childrenIn i .switchSection)
    (hj : j ∈ c.tree.childrenIn s .statement) (hstop : d.At stop (c.stopPlace i)) :
    Aims c d { τ with onBreak := some stop } (some i) j := by
  have hsi := hw.parent_of_mem_childrenIn hs
  have hjs := hw.parent_of_mem_childrenIn hj
  have hpiece : c.tree.Piece i j := .grouped hsi hjs (.inl (mem_childrenIn_iff.mp hj).2)
  refine ⟨(h.below.child hsi).child hjs, has_some hstop.lt, h.hasContinue, fun hT => ?_,
    fun hT => ?_, fun hS => ?_⟩
  · rcases hT.of_piece hw hk hpiece with ⟨rfl, -⟩ | ⟨hk, -⟩
    · exact ⟨stop, rfl, hstop.place_eq⟩
    · exact absurd (.inr rfl) hk
  · rcases hT.of_piece hw hk hpiece with ⟨-, hk⟩ | ⟨-, hT⟩
    · cases hk
    · exact h.onContinue hT
  · exact congrArg some (hS.eq_of_inSection hw h.below hpiece ⟨hk, s, hs, .child .self hjs⟩).symm

theorem Aims.leads_break (h : Aims c d τ o i)
    (hk : c.tree.kind i = .statement .break_) {x : Place} (hx : c.Leads i x) :
    ∃ q, τ.onBreak = some q ∧ d.place q = x := by
  cases hx with
  | break_ _ hT => exact h.onBreak hT
  | continue_ hk' => cases hk.symm.trans hk'
  | case_ _ hs =>
      cases hs with
      | case_ hk' | default_ hk' => cases hk.symm.trans hk'

theorem Aims.leads_continue (h : Aims c d τ o i)
    (hk : c.tree.kind i = .statement .continue_) {x : Place} (hx : c.Leads i x) :
    ∃ q, τ.onContinue = some q ∧ d.place q = x := by
  cases hx with
  | break_ hk' => cases hk.symm.trans hk'
  | continue_ _ hT => exact h.onContinue hT
  | case_ _ hs =>
      cases hs with
      | case_ hk' | default_ hk' => cases hk.symm.trans hk'

theorem EntersAt.mono (h : EntersAt c d i p) (hd : d.graph.Extends d'.graph) :
    EntersAt c d' i p := by
  intro hi
  obtain ⟨q, hq, he, hc⟩ := h hi
  refine ⟨q, hq, ?_, hc.mono hd⟩
  rwa [place, hd.place (hc q rfl).1]

theorem entersAt_of_start {q : PointId} (h : d.At q (.start i)) : EntersAt c d i (some q) := by
  refine fun _ => ⟨q, rfl, ?_, h.reaches ?_⟩
  · rw [h.place_eq]
    exact Place.enters_start i
  · rw [Place.site_start]
    exact .refl ..

theorem LeftAt.entersAt (hw : c.tree.WellFormed) (h : LeftAt c d i a) (hx : c.tree.Below c.root x)
    (hl : c.tree.childrenIn x r = before ++ i :: rest) (ha : a.isSome = true)
    (hj : rest.head? = some j) : EntersAt c d j a := by
  intro hstmt
  obtain ⟨q, rfl⟩ := Option.isSome_iff_exists.mp ha
  obtain ⟨rest, rfl⟩ : ∃ l, rest = j :: l := by
    cases rest with
    | nil => cases hj
    | cons y l =>
        cases hj
        exact ⟨l, rfl⟩
  have hi : c.tree.parent i = some x := hw.parent_of_mem_childrenIn (r := r) (by simp [hl])
  have hjx : c.tree.parent j = some x := hw.parent_of_mem_childrenIn (r := r) (by simp [hl])
  have hroot : i ≠ c.root := by
    rintro rfl
    exact hw.not_below_of_parent hi hx
  have hfollowing : c.following i = j := by
    rw [following_eq hw hl hroot]
    exact if_pos hstmt
  have hat := h.leaves q rfl
  refine ⟨q, rfl, ?_, hat.reaches ?_⟩
  · rw [hat.place_eq, Plan.stopPlace, hfollowing, if_neg (hw.ne_null hjx)]
    exact ⟨rfl, .inr rfl⟩
  · rw [Plan.site_stopPlace (hw.ne_null hi)]
    exact hw.clear_of_sibling hi hjx

theorem LeftAt.reaches (hw : c.tree.WellFormed) (h : LeftAt c d j a) (hj : c.tree.parent j = some i)
    (hi : c.tree.hasFinally i = false) : d.Reaches c.tree a i := by
  intro q hq
  have hat := h.leaves q hq
  refine ⟨hat.lt, ?_⟩
  rw [hat.place_eq, Plan.site_stopPlace (hw.ne_null hj)]
  exact hw.clear_of_child hj hi

theorem LeftAt.eq_none (h : LeftAt c d i a) (hi : (c.tree.kind i).isStatement = false) :
    a = none := by
  cases a with
  | none => rfl
  | some q => cases h.isSome.trans hi

theorem caseTarget_at {starts : List (NodeId × Option PointId)} (hstop : d.At stop (c.stopPlace i))
    (hmap : starts.map (·.1) = c.tree.childrenIn i .switchSection)
    (hstarts : ∀ s ∈ c.tree.childrenIn i .switchSection, ∃ q, starts.lookup s = some q ∧
      BeginsAt d (c.tree.childrenIn s .statement) q) (j : NodeId) :
    c.caseTarget starts stop j < d.size ∧
      ∀ s, JumpsTo c.tree c.known i j s →
      d.place (c.caseTarget starts stop j) = c.sectionPlace i s := by
  have hjump {s : NodeId} (h : c.jumpSection (c.tree.childrenIn i .switchSection) j = some s)
      (hs : s ∈ c.tree.childrenIn i .switchSection) :
        d.At (c.caseTarget starts stop j) (c.sectionPlace i s) := by
    obtain ⟨q, hq, hbegin⟩ := hstarts s hs
    rw [Plan.caseTarget, hmap, h, Option.bind_some, hq, Option.join_some, Plan.sectionPlace]
    cases hl : c.tree.childrenIn s .statement with
    | nil =>
        rw [hl] at hbegin
        cases hbegin
        exact hstop
    | cons y l =>
        rw [hl] at hbegin
        obtain ⟨q', rfl, hat⟩ := hbegin
        exact hat
  have hmem {s : NodeId} {p : NodeId → Bool}
    (h : c.lastSection (c.tree.childrenIn i .switchSection) p = some s) :
      s ∈ c.tree.childrenIn i .switchSection := (List.mem_filter.mp (List.mem_of_getLast? h)).1
  refine ⟨?_, fun s h => (hjump ?_ h.mem).place_eq⟩
  · cases hj : c.jumpSection (c.tree.childrenIn i .switchSection) j with
    | none =>
        rw [Plan.caseTarget, hmap, hj]
        exact hstop.lt
    | some s =>
        refine (hjump hj ?_).lt
        unfold Plan.jumpSection at hj
        split at hj
        · obtain ⟨v, -, hv⟩ := Option.bind_eq_some_iff.mp hj
          exact hmem hv
        · exact hmem hj
  · cases h with
    | @case_ v s hk hv h =>
        rw [Plan.jumpSection, if_pos hk]
        refine (congrArg (Option.bind · _) hv).trans (Plan.lastSection_of_only h fun s _ => ?_)
        simp only [Plan.caseValues, Plan.isCaseOf, Plan.isDefault, Matches, Plan.known, Plan.child,
          List.any_map,
          List.any_eq_true, Function.comp, Bool.and_eq_true, Bool.not_eq_true',
          decide_eq_false_iff_not, Option.any_eq_true]
    | default_ hk h =>
        rw [Plan.jumpSection, if_neg (by simp [hk])]
        exact Plan.lastSection_of_only h fun _ _ => Plan.hasDefault_iff

theorem BeginsAt.mono {o : Option PointId} (h : BeginsAt d nodes o)
    (hd : d.graph.Extends d'.graph) : BeginsAt d' nodes o := by
  cases nodes with
  | nil => exact h
  | cons j rest =>
      obtain ⟨q, hq, hat⟩ := h
      exact ⟨q, hq, hat.mono hd⟩

theorem goesOn_cons {t : Tree} {current : Option PointId} (h : a.isSome = (t.kind i).isStatement) :
    goesOn t current (i :: nodes) = goesOn t a nodes := by
  cases nodes with
  | nil => exact h.symm
  | cons j rest => simp only [goesOn, List.getLast?_cons, Option.getD_some]

theorem leftAt_some {q : PointId} (hk : c.tree.kind i = .statement k) (h : d.At q (c.stopPlace i)) :
    LeftAt c d i (some q) := by
  refine ⟨by rw [hk]; rfl, ?_⟩
  rintro _ ⟨⟩
  exact h

theorem LeftAt.mono (h : LeftAt c d i a) (hd : d.graph.Extends d'.graph) : LeftAt c d' i a :=
  ⟨h.isSome, fun q hq => (h.leaves q hq).mono hd⟩

theorem LeftAt.reaches_child (hw : c.tree.WellFormed) (h : LeftAt c d (c.child i r) a)
    (hi : c.tree.hasFinally i = false) : d.Reaches c.tree a i := by
  rcases hw.child_cases (p := i) (r := r) with hn | hp
  · rw [h.eq_none (by rw [Plan.child, hn, hw.null_kind]; rfl)]
    exact reaches_none
  · exact h.reaches hw hp hi

theorem reaches_embedded (hw : c.tree.WellFormed)
    (h : c.child i r ≠ .null → LeftAt c d (c.child i r) a) (h0 : c.child i r = .null → a = p)
    (hp : d.Reaches c.tree p i) (hi : c.tree.hasFinally i = false) : d.Reaches c.tree a i := by
  by_cases hn : c.child i r = .null
  · rw [h0 hn]
    exact hp
  · exact (h hn).reaches_child hw hi

theorem hasFinally_eq_false {t : Tree} (hk : t.kind i = .statement k) (h : k ≠ .tryCatch) :
    t.hasFinally i = false := by
  simp [hasFinally, hk, h]

theorem entersAt_startOf {d₀ : Draft} (hw : c.tree.WellFormed)
    (h : ∀ q ∈ d₀.startOf i, d.At q (.start i)) : EntersAt c d i (d₀.startOf i) := by
  intro hi
  have hfirst : d₀.startOf i = some d₀.size := if_neg (hw.ne_null_of_isStatement hi)
  rw [hfirst] at h ⊢
  exact entersAt_of_start (h _ rfl) hi

theorem ne_null_of_startOf {q : PointId} (h : q ∈ d.startOf i) : i ≠ .null := by
  rintro rfl
  rw [startOf, if_pos rfl] at h
  cases h

theorem into_start {t : Tree} {d₀ : Draft} (h : ∀ q ∈ d₀.startOf i, d.At q (.start i))
    (hp : i ≠ .null → d.Reaches t p i) :
    ∀ q ∈ d₀.startOf i, d.At q (.start i) ∧ d.Reaches t p (Place.start i).site := by
  intro q hq
  rw [Place.site_start]
  exact ⟨h q hq, hp (ne_null_of_startOf hq)⟩

/-- The points of a loop that tests its condition first. -/
theorem stepped_loop (hk : c.tree.kind i = .statement k) (hj : k.isOrdinary = true)
    (hp : d.Reaches c.tree p i) :
    Steps c o d (d.loop c i p) ∧ (d.loop c i p).At d.size (c.stopPlace i) ∧
      (d.loop c i p).At (d.size + 1) (.test i) := by
  have hstop : Steps c o d (d.stop c i) := .stop hk hj
  have hpoints : Steps c o (d.stop c i) (((d.stop c i).test i).list (d.size + 1)) :=
    Steps.test.trans .list
  have htest : (((d.stop c i).test i).list (d.size + 1)).At (d.size + 1) (.test i) := by
    have h : ((d.stop c i).test i).At (d.stop c i).size (.test i) := at_test
    rw [size_stop] at h
    exact h.mono (.refl _)
  have hjoin : Steps c o (((d.stop c i).test i).list (d.size + 1)) (d.loop c i p) := by
    refine .joinIf nofun (Steps.into htest ?_)
    rw [Place.site_test]
    exact hp.mono (hstop.trans hpoints).graph
  exact ⟨(hstop.trans hpoints).trans hjoin, at_stop.mono (hpoints.trans hjoin).graph,
    htest.mono hjoin.graph⟩

theorem stepped_turned {x : Place} {test : PointId} (isTaken : Bool) (first : Option PointId)
    (condition : Option Bool) (hw : c.tree.WellFormed) (hk : c.tree.kind i = .statement k)
    (hp : d.Reaches c.tree p i) (hnext : d.At next x) (hx : c.tree.Clear i x.site)
    (htest : d.At test (.test i)) (hstop : d.At stop (c.stopPlace i))
    (hfirst : ∀ q ∈ first, d.At q (.start j) ∧ c.tree.parent j = some i) :
    Steps c o d
      (((d.joinIf p (some next) .normal).joinWhen isTaken (some test) first .whenTrue).leave
        condition test stop) := by
  have hback : Steps c o d (d.joinIf p (some next) .normal) :=
    .joinIf nofun (Steps.into hnext (hp.trans hx))
  have hturn : Steps c o (d.joinIf p (some next) .normal)
      ((d.joinIf p (some next) .normal).joinWhen isTaken (some test) first .whenTrue) := by
    refine .joinWhen (y := .start j) nofun fun q hq => ?_
    obtain ⟨hat, hj⟩ := hfirst q hq
    rw [Place.site_start]
    exact ⟨hat.mono hback.graph,
      (htest.mono hback.graph).reaches_test.trans (hw.clear_of_parent hj)⟩
  have hall := hback.trans hturn
  refine hall.trans (.joinWhen nofun (Steps.into (hstop.mono hall.graph) ?_))
  rw [Steps.site_stop hw hk]
  exact (htest.mono hall.graph).reaches_test

theorem nextOf_at {test : PointId} {iterated : Option PointId} {listed : Nat}
    (hk : c.tree.kind i = .statement .forLoop) (htest : d.At test (.test i))
    (hi : iterated.isSome = goesOn c.tree none (c.tree.childrenIn i .forIterator))
    (hbegin : BeginsAt d (c.tree.childrenIn i .forIterator) (d.listed[listed]?)) :
    d.At (Plan.nextOf listed test iterated d) (resumePlace c.tree i) := by
  have hiterates : iterates c.tree i = iterated.isSome := by
    rw [hi, iterates, hk, goesOn]
    cases (c.tree.childrenIn i .forIterator).getLast? <;> simp
  rw [resumePlace, hiterates, Plan.nextOf]
  split
  · cases hl : c.tree.childrenIn i .forIterator with
    | nil =>
        rw [hl] at hi
        exact absurd ‹iterated.isSome = true› (by rw [hi]; nofun)
    | cons j rest =>
        rw [hl] at hbegin
        obtain ⟨q, hq, hat⟩ := hbegin
        have hchild : c.tree.child i .forIterator = j := by
          rw [Tree.child, hl]
          rfl
        rw [Array.getD_eq_getD_getElem?, hq, hchild]
        exact hat
  · exact htest

theorem clear_resume (hw : c.tree.WellFormed) : c.tree.Clear i (resumePlace c.tree i).site := by
  rw [resumePlace]
  split
  · rw [Place.site_start]
    rcases hw.child_cases (p := i) (r := .forIterator) with hn | hp
    · have hempty : c.tree.childrenIn i .forIterator = [] := by
        cases hl : c.tree.childrenIn i .forIterator with
        | nil => rfl
        | cons j rest =>
            have hj : c.tree.parent j = some i :=
              hw.parent_of_mem_childrenIn (r := .forIterator) (by simp [hl])
            rw [Tree.child, hl] at hn
            exact absurd hn (hw.ne_null hj)
      simp [iterates, hempty] at *
    · exact hw.clear_of_parent hp
  · rw [Place.site_test]
    exact .refl ..

theorem resumePlace_of_ne (hk : c.tree.kind i = .statement k) (h : k ≠ .forLoop) :
    resumePlace c.tree i = .test i := by
  simp [resumePlace, iterates, hk, h]

theorem aims_guarded (hw : c.tree.WellFormed) (h : Aims c d τ o i)
    (hk : c.tree.kind i = .statement .tryCatch) (hp : d.Reaches c.tree p i) :
    ∀ b ∈ c.guarded i, b ≠ .null → Aims c d τ o b ∧ d.Reaches c.tree p b := by
  intro b hb hne
  rcases List.mem_cons.mp hb with rfl | hb
  · have hpar := (hw.child_cases (p := i) (r := .tryBlock)).resolve_left hne
    exact ⟨h.piece hw hk rfl (by decide) (.child hpar) (.child .self hpar),
      hp.trans (hw.clear_of_parent hpar)⟩
  · obtain ⟨s, hs, rfl⟩ := List.mem_map.mp hb
    have hmem : c.child s .body ∈ c.tree.childrenIn s .body := child_eq_null_or_mem.resolve_left hne
    have hsi := hw.parent_of_mem_childrenIn hs
    have hbs := hw.parent_of_mem_childrenIn hmem
    refine ⟨h.piece hw hk rfl (by decide) (.grouped hsi hbs (.inr (mem_childrenIn_iff.mp hmem).2))
      ((Below.child .self hsi).child hbs), ?_⟩
    exact (hp.trans (hw.clear_of_parent hsi)).trans (hw.clear_of_parent hbs)

/-- A statement is drawn alike wherever it is entered. -/
theorem stepped_node (hk : c.tree.kind i = .statement k)
    (h : Aims c d τ o i → d.Reaches c.tree p i → Steps c o d d' ∧ LeftAt c d' i a) :
    (Task.node τ i p).Stepped c d o a d' := by
  intro haims hentry
  have hi : (c.tree.kind i).isStatement = true := by rw [hk]; rfl
  obtain ⟨q, rfl, -, hreach⟩ := hentry hi
  exact h (haims hi) hreach

theorem parent_of_child (hw : c.tree.WellFormed) (hn : c.child i r ≠ .null) :
    c.tree.parent (c.child i r) = some i :=
  hw.child_cases.resolve_left hn

theorem Aims.body (hw : c.tree.WellFormed) (h : Aims c d τ o i) (hk : c.tree.kind i = .statement k)
    (hl : k.isLoop = false) (hs : k ≠ .switch) (hp : d.Reaches c.tree p i)
    (hn : c.child i r ≠ .null) : Aims c d τ o (c.child i r) ∧ d.Reaches c.tree p (c.child i r) := by
  have hpar := parent_of_child hw hn
  exact ⟨h.piece hw hk hl hs (.child hpar) (.child .self hpar), hp.trans (hw.clear_of_parent hpar)⟩

theorem Aims.turned {test : PointId} (hw : c.tree.WellFormed) (h : Aims c d τ o i)
    (hk : c.tree.kind i = .statement k) (hl : k.isLoop = true) (hstop : d.At stop (c.stopPlace i))
    (hnext : d.At next (resumePlace c.tree i)) (htest : d.At test (.test i))
    (hn : c.child i r ≠ .null) :
    Aims c d ⟨some stop, some next⟩ o (c.child i r) ∧
      d.Reaches c.tree (some test) (c.child i r) := by
  have hpar := parent_of_child hw hn
  exact ⟨h.turning hw hk hl hpar hstop hnext, htest.reaches_test.trans (hw.clear_of_parent hpar)⟩

theorem stepped_plain (hw : c.tree.WellFormed) (hk : c.tree.kind i = .statement k)
    (h : k.isPlain = true) : (Task.node τ i p).Stepped c d o (some d.size)
    (((d.stop c i).list d.size).joinIf p (some d.size) .normal) := by
  refine stepped_node hk fun _ hreach => ?_
  have hj : k.isOrdinary = true := by cases k <;> first | rfl | cases h
  obtain ⟨hsteps, hat⟩ := Steps.reachedEnd (o := o) hw hk hj hreach
  exact ⟨hsteps, leftAt_some hk hat⟩

theorem stepped_final (hk : c.tree.kind i = .statement k) (h : k.isFinal = true) :
    (Task.node τ i p).Stepped c d o (some d.size) ((d.stop c i).list d.size) := by
  refine stepped_node hk fun _ _ => ?_
  have hj : k.isOrdinary = true := by cases k <;> first | rfl | cases h
  exact ⟨(Steps.stop hk hj).trans .list, leftAt_some hk (at_stop.mono (.refl _))⟩

theorem stepped_label (hw : c.tree.WellFormed) (hk : c.tree.kind i = .statement .label) :
    (Task.node τ i p).Stepped c d o (some d.size)
      ((((d.stop c i).list d.size).joinIf p (some d.size) .normal).addLabel (c.tree.name i)
        d.size) := by
  intro _ hentry
  obtain ⟨q, rfl, -, hreach⟩ := hentry (by rw [hk]; rfl)
  obtain ⟨hsteps, hat⟩ := Steps.reached hw hk (.label (o := o) hk) (at_stop.mono (.refl _)) hreach
  exact ⟨hsteps, leftAt_some hk (hat.mono (.refl _))⟩

theorem stepped_goto (hk : c.tree.kind i = .statement .goto) :
    (Task.node τ i p).Stepped c d o (some d.size) (((d.addGoto p).stop c i).list d.size) := by
  intro _ hentry
  obtain ⟨q, rfl, he, hreach⟩ := hentry (by rw [hk]; rfl)
  have hat : ((d.addGoto (some q)).stop c i).At d.size (c.stopPlace i) := at_stop
  exact ⟨(Steps.goto hk (hreach q rfl).1 he).trans .list, leftAt_some hk (hat.mono (.refl _))⟩

theorem stepped_caseJump (hk : c.tree.kind i = .statement k) (h : k.isCaseJump = true) :
    (Task.node τ i p).Stepped c d o (some d.size) (((d.addCaseJump p).stop c i).list d.size) := by
  intro haims hentry
  have hi : (c.tree.kind i).isStatement = true := by rw [hk]; rfl
  obtain ⟨q, rfl, he, hreach⟩ := hentry hi
  have hat : ((d.addCaseJump (some q)).stop c i).At d.size (c.stopPlace i) := at_stop
  exact ⟨(Steps.caseJump hk h (hreach q rfl).1 he fun S => (haims hi).inSwitch).trans .list,
    leftAt_some hk (hat.mono (.refl _))⟩

theorem stepped_jump {target : Option PointId}
    (hk : c.tree.kind i = .statement .break_ ∨ c.tree.kind i = .statement .continue_)
    (htarget : Aims c d τ o i → d.Has target ∧ ∀ x, c.Leads i x →
      ∃ q, target = some q ∧ d.place q = x) :
    (Task.node τ i p).Stepped c d o (some d.size)
    (((d.joinIf p target .jump).stop c i).list d.size) := by
  intro haims hentry
  have hi : (c.tree.kind i).isStatement = true := by
    rcases hk with hk | hk <;> rw [hk] <;> rfl
  obtain ⟨q, rfl, he, hreach⟩ := hentry hi
  obtain ⟨hhas, hleads⟩ := htarget (haims hi)
  have hat : ((d.joinIf (some q) target .jump).stop c i).At d.size (c.stopPlace i) := by
    have h : ((d.joinIf (some q) target .jump).stop c i).At _ (c.stopPlace i) := at_stop
    rwa [size_joinIf] at h
  refine ⟨(Steps.jump hk (hreach q rfl).1 he hhas hleads).trans .list, ?_⟩
  rcases hk with hk | hk
  · exact leftAt_some hk (hat.mono (.refl _))
  · exact leftAt_some hk (hat.mono (.refl _))

theorem stepped_block (hw : c.tree.WellFormed) (hk : c.tree.kind i = .statement .block)
    (ih : (Task.list τ p none (c.tree.childrenIn i .statement)).Stepped c d o a d₁) :
    (Task.node τ i p).Stepped c d o (some d₁.size)
      (((d₁.stop c i).list d₁.size).joinIf a (some d₁.size) .normal) := by
  refine stepped_node hk fun haims hreach => ?_
  have hchildren (j : NodeId) (hj : j ∈ c.tree.childrenIn i .statement) : Aims c d τ o j := by
    have hpar := hw.parent_of_mem_childrenIn hj
    exact haims.piece hw hk rfl (by decide) (.child hpar) (.child .self hpar)
  obtain ⟨hsteps, hlast, -⟩ := ih i .statement [] haims.below rfl hchildren hreach (by simp)
  obtain ⟨hend, hat⟩ := Steps.reachedEnd (o := o) hw hk rfl
    (hlast (hasFinally_eq_false hk (by decide)) reaches_none)
  exact ⟨hsteps.trans hend, leftAt_some hk hat⟩

theorem stepped_wrapped (hw : c.tree.WellFormed) (hk : c.tree.kind i = .statement k)
    (hr : k.bodyRole? = some r) (ih : (Task.embedded τ (c.child i r) p).Stepped c d o a d₁) :
    (Task.node τ i p).Stepped c d o (some d₁.size)
      (((d₁.stop c i).list d₁.size).joinIf a (some d₁.size) .normal) := by
  refine stepped_node hk fun haims hreach => ?_
  have hsimple : k.isLoop = false ∧ k.isOrdinary = true ∧ k ≠ .switch ∧ k ≠ .tryCatch := by
    cases k <;> cases hr <;> exact ⟨rfl, rfl, by simp, by simp⟩
  obtain ⟨hl, hj, hs, ht⟩ := hsimple
  obtain ⟨hsteps, hleft, h0⟩ := ih fun hn => haims.body hw hk hl hs hreach hn
  obtain ⟨hend, hat⟩ := Steps.reachedEnd (o := o) hw hk hj
    (reaches_embedded hw hleft h0 (hreach.mono hsteps.graph) (hasFinally_eq_false hk ht))
  exact ⟨hsteps.trans hend, leftAt_some hk hat⟩

theorem stepped_usingValue (hw : c.tree.WellFormed) (hk : c.tree.kind i = .statement .usingResource)
    (ih : (Task.embedded τ (c.child i .embeddedStatement) p).Stepped c d o a d₁) :
    (Task.node τ i p).Stepped c d o (some d₁.size)
      (((d₁.stop c i).list d₁.size).joinIf a (some d₁.size) .normal) := by
  refine stepped_node hk fun haims hreach => ?_
  obtain ⟨hsteps, hleft, h0⟩ := ih fun hn => haims.body hw hk rfl (by decide) hreach hn
  obtain ⟨hend, hat⟩ := Steps.reachedEnd (o := o) hw hk rfl
    (reaches_embedded hw hleft h0 (hreach.mono hsteps.graph) (hasFinally_eq_false hk (by decide)))
  exact ⟨hsteps.trans hend, leftAt_some hk hat⟩

theorem stepped_usingResource {last : Option PointId} (hw : c.tree.WellFormed)
    (hk : c.tree.kind i = .statement .usingResource)
    (ih : (Task.embedded τ (c.child i .resource) p).Stepped c d o a d₁)
    (ih' : (Task.embedded τ (c.child i .embeddedStatement) a).Stepped c d₁ o last d₂) :
    (Task.node τ i p).Stepped c d o (some d₂.size)
      (((d₂.stop c i).list d₂.size).joinIf last (some d₂.size) .normal) := by
  refine stepped_node hk fun haims hreach => ?_
  have hfinally := hasFinally_eq_false hk (by decide)
  obtain ⟨hsteps, hleft, h0⟩ := ih fun hn => haims.body hw hk rfl (by decide) hreach hn
  have hentered := reaches_embedded hw hleft h0 (hreach.mono hsteps.graph) hfinally
  obtain ⟨hsteps', hleft', h0'⟩ :=
    ih' fun hn => (haims.mono hsteps.graph).body hw hk rfl (by decide) hentered hn
  obtain ⟨hend, hat⟩ := Steps.reachedEnd (o := o) hw hk rfl
    (reaches_embedded hw hleft' h0' (hentered.mono hsteps'.graph) hfinally)
  exact ⟨(hsteps.trans hsteps').trans hend, leftAt_some hk hat⟩

theorem stepped_branch {pos neg : Option PointId} {isTaken isTaken' : Bool} (hw : c.tree.WellFormed)
    (hk : c.tree.kind i = .statement .branch)
    (ih : (Task.entered τ (c.child i .trueStatement) p .whenTrue isTaken).Stepped c d o pos d₁)
    (ih' : (Task.entered τ (c.child i .falseStatement) p .whenFalse isTaken').Stepped c d₁
      o neg d₂) :
    (Task.node τ i p).Stepped c d o (some d₂.size) (if neg.isSome
      then (((d₂.stop c i).list d₂.size).joinIf pos (some d₂.size) .normal).joinIf neg
        (some d₂.size) .normal
      else (((d₂.stop c i).list d₂.size).joinIf pos (some d₂.size) .normal).joinWhen isTaken' p
        (some d₂.size)
        .whenFalse) := by
  refine stepped_node hk fun haims hreach => ?_
  have hfinally := hasFinally_eq_false hk (by decide)
  obtain ⟨hsteps, hpos⟩ := ih (by simp) fun hn => haims.body hw hk rfl (by decide) hreach hn
  have hreach := hreach.mono hsteps.graph
  obtain ⟨hsteps', hneg⟩ :=
    ih' (by simp) fun hn => (haims.mono hsteps.graph).body hw hk rfl (by decide) hreach hn
  obtain ⟨hend, hat⟩ := Steps.reachedEnd (o := o) hw hk rfl
    ((hpos.reaches_child hw hfinally).mono hsteps'.graph)
  have hall := (hsteps.trans hsteps').trans hend
  split
  · have hneg := (hneg.reaches_child hw hfinally).mono hend.graph
    have hjoin : Steps c o _ (Draft.joinIf _ neg (some d₂.size) .normal) :=
      .joinIf (by simp) (Steps.into hat (by rwa [Steps.site_stop hw hk]))
    exact ⟨hall.trans hjoin, leftAt_some hk (hat.mono hjoin.graph)⟩
  · have hpass := hreach.mono (hsteps'.trans hend).graph
    have hjoin : Steps c o _ (Draft.joinWhen _ isTaken' p (some d₂.size) .whenFalse) :=
      .joinWhen (by simp) (Steps.into hat (by rwa [Steps.site_stop hw hk]))
    exact ⟨hall.trans hjoin, leftAt_some hk (hat.mono hjoin.graph)⟩

theorem stepped_switch {starts : List (NodeId × Option PointId)} (hw : c.tree.WellFormed)
    (hk : c.tree.kind i = .statement .switch)
    (ih : (Task.sections { τ with onBreak := some d.size } (c.sectionSource i p)
      (c.tree.childrenIn i .switchSection) starts).Stepped c ((d.withCaseJumps []).stop c i)
      (some i) a d₁) :
    (Task.node τ i p).Stepped c d o (some d.size)
      ((joinJumps (c.caseTarget starts d.size) d₁.caseJumps.reverse
        ((d₁.joinWhen (c.isPassed i) p (some d.size) .normal).withCaseJumps d.caseJumps)).list
        d.size) := by
  refine stepped_node hk fun haims hreach => ?_
  have hstop : Steps c (some i) (d.withCaseJumps []) ((d.withCaseJumps []).stop c i) := .stop hk rfl
  have hat : ((d.withCaseJumps []).stop c i).At d.size (c.stopPlace i) := at_stop
  have haims : Aims c ((d.withCaseJumps []).stop c i) τ o i := haims.mono hstop.graph
  have hreach : ((d.withCaseJumps []).stop c i).Reaches c.tree p i := hreach.mono hstop.graph
  have hsource (s : NodeId) :
      ((d.withCaseJumps []).stop c i).Reaches c.tree (c.sectionSource i p s) i := by
    unfold Plan.sectionSource
    simp only
    split
    · exact hreach
    · exact reaches_none
  obtain ⟨hsteps, hmap, hstarts⟩ := ih i haims.below (fun s hs => hs)
    (fun s hs j hj => haims.switching hw hk hs hj hat) hsource
  have hat := hat.mono hsteps.graph
  have hreach := hreach.mono hsteps.graph
  have hpass : Steps c (some i) d₁ (d₁.joinWhen (c.isPassed i) p (some d.size) .normal) :=
    .joinWhen (by simp) (Steps.into hat (by rwa [Steps.site_stop hw hk]))
  have hat := hat.mono hpass.graph
  have htarget := caseTarget_at hat hmap fun s hs => by
    obtain ⟨q, hq, hbegin⟩ := hstarts s hs
    exact ⟨q, hq, hbegin.mono hpass.graph⟩
  have hswitch := Steps.switch (o := o) ((hstop.trans hsteps).trans hpass) (fun j => (htarget j).1)
    fun j => (htarget j).2
  rw [caseJumps_joinWhen] at hswitch
  refine ⟨hswitch.trans .list, leftAt_some hk (hat.mono ?_)⟩
  exact Steps.extends_joinJumps
    (d := (d₁.joinWhen (c.isPassed i) p (some d.size) .normal).withCaseJumps d.caseJumps)

theorem stepped_whileLoop {isTaken : Bool} (hw : c.tree.WellFormed)
    (hk : c.tree.kind i = .statement .whileLoop)
    (ih : (Task.entered ⟨some d.size, some (d.size + 1)⟩ (c.child i .embeddedStatement)
      (some (d.size + 1))
      .whenTrue isTaken).Stepped c (d.loop c i p) o a d₁) (condition : Option Bool) :
    (Task.node τ i p).Stepped c d o (some d.size)
      (((d₁.joinIf a (some (d.size + 1)) .normal).leave condition (d.size + 1) d.size).list
        d.size) := by
  refine stepped_node hk fun haims hreach => ?_
  obtain ⟨hloop, hstop, htest⟩ := stepped_loop (o := o) hk rfl hreach
  obtain ⟨hsteps, hlast⟩ := ih (by simp) fun hn => (haims.mono hloop.graph).turned hw hk rfl hstop
    (resumePlace_of_ne hk (by decide) ▸ htest) htest hn
  have hstop := hstop.mono hsteps.graph
  have htest := htest.mono hsteps.graph
  have hturn := stepped_turned (o := o) (j := .null) false none condition hw hk
    (hlast.reaches_child hw (hasFinally_eq_false hk (by decide)))
      htest (by rw [Place.site_test]; exact .refl ..)
    htest hstop (by simp)
  exact ⟨((hloop.trans hsteps).trans hturn).trans .list,
    leftAt_some hk (hstop.mono (hturn.trans .list).graph)⟩

theorem stepped_foreachLoop (hw : c.tree.WellFormed) (hk : c.tree.kind i = .statement .foreachLoop)
    (ih : (Task.embedded ⟨some d.size, some (d.size + 1)⟩ (c.child i .embeddedStatement)
      (some (d.size + 1))).Stepped c
      (d.loop c i p) o a d₁) :
    (Task.node τ i p).Stepped c d o (some d.size)
      (((d₁.joinIf a (some (d.size + 1)) .normal).join (d.size + 1) d.size .normal).list
        d.size) := by
  refine stepped_node hk fun haims hreach => ?_
  obtain ⟨hloop, hstop, htest⟩ := stepped_loop (o := o) hk rfl hreach
  obtain ⟨hsteps, hleft, h0⟩ := ih fun hn => (haims.mono hloop.graph).turned hw hk rfl hstop
    (resumePlace_of_ne hk (by decide) ▸ htest) htest hn
  have hstop := hstop.mono hsteps.graph
  have htest := htest.mono hsteps.graph
  have hlast := reaches_embedded hw hleft h0 htest.reaches_test (hasFinally_eq_false hk (by decide))
  have hback : Steps c o d₁ (d₁.joinIf a (some (d.size + 1)) .normal) :=
    .joinIf (by simp) (Steps.into htest (Place.site_test i ▸ hlast))
  have hend : Steps c o (d₁.joinIf a (some (d.size + 1)) .normal)
      ((d₁.joinIf a (some (d.size + 1)) .normal).join (d.size + 1) d.size .normal) := by
    refine .pass (by simp) (htest.mono hback.graph) (hstop.mono hback.graph) ?_
    rw [Place.site_test, Steps.site_stop hw hk]
    exact .refl ..
  exact ⟨(((hloop.trans hsteps).trans hback).trans hend).trans .list,
    leftAt_some hk (hstop.mono ((hback.trans hend).trans .list).graph)⟩

theorem stepped_doLoop {before : Draft} (hw : c.tree.WellFormed)
    (hk : c.tree.kind i = .statement .doLoop) (hbody : j = c.child i .embeddedStatement)
    (hbefore : before = (d.stop c i).test i)
    (ih : (Task.node ⟨some d.size, some (d.size + 1)⟩ j (before.startOf j)).Stepped c
      ((before.start j).joinIf p (before.startOf j) .normal) o a d₁) (condition : Option Bool) :
    (Task.node τ i p).Stepped c d o (some d.size)
    (((((d₁.joinIf a (some (d.size + 1)) .normal).joinWhen
      (condition != some false) (some (d.size + 1)) (before.startOf j) .whenTrue).leave
        condition (d.size + 1) d.size).list (d.size + 1)).list d.size) := by
  refine stepped_node hk fun haims hreach => ?_
  have hpoints : Steps c o d before := hbefore ▸ (Steps.stop hk rfl).trans .test
  have hstop : before.At d.size (c.stopPlace i) := hbefore ▸ at_stop.mono Graph.extends_addPoint
  have htest : before.At (d.size + 1) (.test i) := by
    have h : ((d.stop c i).test i).At (d.stop c i).size (.test i) := at_test
    rw [size_stop] at h
    exact hbefore ▸ h
  have hparent (hn : j ≠ .null) : c.tree.parent j = some i :=
    hbody ▸ parent_of_child hw (hbody ▸ hn)
  have hstart : Steps c o before (before.start j) := .enter
  have hjoin : Steps c o (before.start j) ((before.start j).joinIf p (before.startOf j) .normal) :=
    .joinIf (by simp) (into_start (fun q hq => at_startOf hq) fun hn =>
      (hreach.mono (hpoints.trans hstart).graph).trans (hw.clear_of_parent (hparent hn)))
  have hentered := hstart.trans hjoin
  have hfirst (q : PointId) (hq : q ∈ before.startOf j) :
      ((before.start j).joinIf p (before.startOf j) .normal).At q (.start j) :=
        (at_startOf hq).mono hjoin.graph
  obtain ⟨hsteps, hlast⟩ :=
    ih (fun hs => (haims.mono (hpoints.trans hentered).graph).turning hw hk rfl
    (hparent (hw.ne_null_of_isStatement hs)) (hstop.mono hentered.graph)
    (resumePlace_of_ne hk (by decide) ▸ htest.mono hentered.graph)) (entersAt_startOf hw hfirst)
  have hbehind := hentered.trans hsteps
  have hstop := hstop.mono hbehind.graph
  have htest := htest.mono hbehind.graph
  have hturn := stepped_turned (o := o) (condition != some false) (before.startOf j) condition hw hk
    ((hbody ▸ hlast).reaches_child hw (hasFinally_eq_false hk (by decide))) htest
    (by rw [Place.site_test]; exact .refl ..) htest hstop
    fun q hq => ⟨(hfirst q hq).mono hsteps.graph, hparent (ne_null_of_startOf hq)⟩
  exact ⟨((hpoints.trans hbehind).trans hturn).trans (Steps.list.trans .list),
    leftAt_some hk (hstop.mono (hturn.trans (Steps.list.trans .list)).graph)⟩

theorem Aims.aside_mem (hw : c.tree.WellFormed) (h : Aims c d τ o i)
    (hk : c.tree.kind i = .statement k) (hl : k.isLoop = true) (hr : r ≠ .embeddedStatement)
    (hr' : r ≠ .switchSection) :
    ∀ j ∈ c.tree.childrenIn i r, Aims c d τ o j := by
  intro j hj
  have hrole := (mem_childrenIn_iff.mp hj).2
  exact h.aside hw hk hl (hw.parent_of_mem_childrenIn hj) (hrole ▸ hr) (hrole ▸ hr')

theorem stepped_ahead {first iterated : Option PointId} {ahead : Draft} (hw : c.tree.WellFormed)
    (hk : c.tree.kind i = .statement .forLoop) (haims : Aims c d τ o i)
    (hreach : d.Reaches c.tree p i)
    (ih : (Task.list τ p none (c.tree.childrenIn i .forInitializer)).Stepped c d o first d₁)
    (ih' : (Task.list τ none none (c.tree.childrenIn i .forIterator)).Stepped c (d₁.loop c i first)
      o iterated d₂)
    (hahead : ahead = d₂.joinIf iterated (some (d₁.size + 1)) .normal)
    (hnext : next = Plan.nextOf (d₁.loop c i first).listed.size (d₁.size + 1) iterated ahead) :
    Steps c o d ahead ∧ ahead.At d₁.size (c.stopPlace i) ∧ ahead.At (d₁.size + 1) (.test i) ∧
      ahead.At next (resumePlace c.tree i) := by
  have hfinally := hasFinally_eq_false hk (by decide)
  obtain ⟨hinit, hbegun, -⟩ := ih i .forInitializer [] haims.below rfl
    (haims.aside_mem hw hk rfl (by simp) (by simp)) hreach (by simp)
  obtain ⟨hloop, hstop, htest⟩ := stepped_loop (o := o) hk rfl (hbegun hfinally reaches_none)
  have haims := haims.mono (hinit.trans hloop).graph
  obtain ⟨hiter, hiterated, hgoes, hbegin⟩ := ih' i .forIterator [] haims.below rfl
    (haims.aside_mem hw hk rfl (by simp) (by simp)) reaches_none (by simp)
  have htest := htest.mono hiter.graph
  have hjoin : Steps c o d₂ ahead := hahead ▸
    .joinIf (by simp) (Steps.into htest (Place.site_test i ▸ hiterated hfinally reaches_none))
  have htest := htest.mono hjoin.graph
  have hlisted : d₂.listed = ahead.listed := hahead ▸ listed_joinIf.symm
  have hnext : ahead.At next (resumePlace c.tree i) :=
    hnext ▸ nextOf_at hk htest (hgoes rfl) (hlisted ▸ (hbegin rfl).mono hjoin.graph)
  exact ⟨(hinit.trans hloop).trans (hiter.trans hjoin), hstop.mono (hiter.trans hjoin).graph,
    htest, hnext⟩

theorem stepped_forLoop {first iterated : Option PointId} {ahead : Draft} {d₃ : Draft}
    (hw : c.tree.WellFormed) (hk : c.tree.kind i = .statement .forLoop)
    (hbody : j = c.child i .embeddedStatement)
    (ih : (Task.list τ p none (c.tree.childrenIn i .forInitializer)).Stepped c d o first d₁)
    (ih' : (Task.list τ none none (c.tree.childrenIn i .forIterator)).Stepped c (d₁.loop c i first)
      o iterated d₂)
    (hahead : ahead = d₂.joinIf iterated (some (d₁.size + 1)) .normal)
    (hnext : next = Plan.nextOf (d₁.loop c i first).listed.size (d₁.size + 1) iterated ahead)
    (ih'' : (Task.node ⟨some d₁.size, some next⟩ j (ahead.startOf j)).Stepped c
      (ahead.start j) o a d₃)
    (condition : Option Bool) :
    (Task.node τ i p).Stepped c d o (some d₁.size) ((((d₃.joinIf a (some next) .normal).joinWhen
      (condition != some false) (some (d₁.size + 1)) (ahead.startOf j) .whenTrue).leave
        condition (d₁.size + 1) d₁.size).list d₁.size) := by
  refine stepped_node hk fun haims hreach => ?_
  have hparent (hn : j ≠ .null) : c.tree.parent j = some i :=
    hbody ▸ parent_of_child hw (hbody ▸ hn)
  obtain ⟨hbefore, hstop, htest, hagain⟩ := stepped_ahead hw hk haims hreach ih ih' hahead hnext
  have hstart : Steps c o ahead (ahead.start j) := .enter
  have hentered := hbefore.trans hstart
  obtain ⟨hsteps, hlast⟩ := ih'' (fun hs => (haims.mono hentered.graph).turning hw hk rfl
    (hparent (hw.ne_null_of_isStatement hs)) (hstop.mono hstart.graph) (hagain.mono hstart.graph))
    (entersAt_startOf hw fun q hq => at_startOf hq)
  have hbehind := hstart.trans hsteps
  have hstop := hstop.mono hbehind.graph
  have hturn := stepped_turned (o := o) (condition != some false) (ahead.startOf j) condition hw hk
    ((hbody ▸ hlast).reaches_child hw (hasFinally_eq_false hk (by decide)))
      (hagain.mono hbehind.graph)
    (clear_resume hw) (htest.mono hbehind.graph) hstop
    fun q hq => ⟨(at_startOf hq).mono hsteps.graph, hparent (ne_null_of_startOf hq)⟩
  exact ⟨((hentered.trans hsteps).trans hturn).trans .list,
    leftAt_some hk (hstop.mono (hturn.trans .list).graph)⟩

theorem stepped_tryFinally {last : Option PointId} (hw : c.tree.WellFormed)
    (hk : c.tree.kind i = .statement .tryCatch)
    (ih : (Task.guarded τ i p d.size (c.guarded i)).Stepped c (d.stop c i) o a d₁)
    (ih' : (Task.embedded τ (c.child i .finallyBlock) p).Stepped c d₁ o last d₂) :
    (Task.node τ i p).Stepped c d o (some d.size) (d₂.list d.size) := by
  refine stepped_node hk fun haims hreach => ?_
  have hstop : Steps c o d (d.stop c i) := .stop hk rfl
  have haims := haims.mono hstop.graph
  have hreach := hreach.mono hstop.graph
  have hguarded := ih haims.below hk at_stop (fun q hq => (hreach q hq).1) (fun b hb => hb)
    (aims_guarded hw haims hk hreach)
  obtain ⟨hfinally, -⟩ := ih' fun hn =>
    (haims.mono hguarded.graph).body hw hk rfl (by decide) (hreach.mono hguarded.graph) hn
  have hall := (hguarded.trans hfinally).trans (Steps.list (p := d.size))
  exact ⟨hstop.trans hall, leftAt_some hk (at_stop.mono hall.graph)⟩

theorem stepped_tryCatch (hw : c.tree.WellFormed) (hk : c.tree.kind i = .statement .tryCatch)
    (ih : (Task.guarded τ i p d.size (c.guarded i)).Stepped c (d.stop c i) o a d₁) :
    (Task.node τ i p).Stepped c d o (some d.size) (d₁.list d.size) := by
  refine stepped_node hk fun haims hreach => ?_
  have hstop : Steps c o d (d.stop c i) := .stop hk rfl
  have hreach := hreach.mono hstop.graph
  have haims := haims.mono hstop.graph
  have hguarded := ih haims.below hk at_stop (fun q hq => (hreach q hq).1) (fun b hb => hb)
    (aims_guarded hw haims hk hreach)
  have hall := hguarded.trans (Steps.list (p := d.size))
  exact ⟨hstop.trans hall, leftAt_some hk (at_stop.mono hall.graph)⟩

theorem stepped_entered {kind : EdgeKind} {isTaken : Bool} (hw : c.tree.WellFormed)
    (ih : (Task.node τ i (d.startOf i)).Stepped c
      ((d.start i).joinWhen isTaken p (d.startOf i) kind) o a d') :
    (Task.entered τ i p kind isTaken).Stepped c d o a d' := by
  intro hkind hi
  have hstart : Steps c o d (d.start i) := .enter
  have hjoin : Steps c o (d.start i) ((d.start i).joinWhen isTaken p (d.startOf i) kind) :=
    .joinWhen hkind (into_start (fun q hq => at_startOf hq) fun hn => (hi hn).2.mono hstart.graph)
  have hentered := hstart.trans hjoin
  obtain ⟨hsteps, hleft⟩ := ih (fun hs => (hi (hw.ne_null_of_isStatement hs)).1.mono hentered.graph)
    (entersAt_startOf hw fun q hq => (at_startOf hq).mono hjoin.graph)
  exact ⟨hentered.trans hsteps, hleft⟩

theorem stepped_embedded (hn : i ≠ .null)
    (ih : (Task.node τ i (some d.size)).Stepped c
      ((d.tick.start i).joinIf p (some d.size) .normal) o a d') :
    (Task.embedded τ i p).Stepped c d o a d' := by
  intro hi
  obtain ⟨haims, hreach⟩ := hi hn
  have hfirst : d.tick.startOf i = some d.size := if_neg hn
  have hstart : Steps c o d (d.tick.start i) := Steps.tick.trans .enter
  have hat : (d.tick.start i).At d.size (.start i) := at_startOf hfirst
  have hjoin : Steps c o (d.tick.start i) ((d.tick.start i).joinIf p (some d.size) .normal) :=
    .joinIf (by simp) (Steps.into hat (Place.site_start i ▸ hreach.mono hstart.graph))
  have hentered := hstart.trans hjoin
  obtain ⟨hsteps, hleft⟩ :=
    ih (fun _ => haims.mono hentered.graph) (entersAt_of_start (hat.mono hjoin.graph))
  exact ⟨hentered.trans hsteps, fun _ => hleft, fun h0 => absurd h0 hn⟩

theorem stepped_nil {current : Option PointId} :
    (Task.list τ p current []).Stepped c d o (current.or p) d := by
  intro x r before hx hl haims hreach _
  refine ⟨.refl, fun _ hcurrent => ?_, ?_, ?_⟩
  · cases current with
    | none => exact hreach
    | some q => exact hcurrent
  · rintro rfl
    cases current <;> rfl
  · exact fun _ => Array.getElem?_eq_none (Nat.le_refl _)

theorem stepped_first {last : Option PointId} (hw : c.tree.WellFormed)
    (ih : (Task.node τ i (d.startOf i)).Stepped c ((d.tick.start i).joinIf p (d.startOf i) .normal)
      o last d₁)
    (ih' : (Task.list τ p last rest).Stepped c d₁ o a d') :
    (Task.list τ p none (i :: rest)).Stepped c d o a d' := by
  intro x r before hx hl haims hreach _
  have hi : c.tree.parent i = some x := hw.parent_of_mem_childrenIn (r := r) (by simp [hl])
  have hn := hw.ne_null hi
  have hfirst : d.tick.startOf i = some d.size := if_neg hn
  have hstart : Steps c o d (d.tick.start i) := Steps.tick.trans .enter
  have hjoin : Steps c o (d.tick.start i) ((d.tick.start i).joinIf p (d.startOf i) .normal) :=
    .joinIf (by simp) (into_start (fun q hq => at_startOf (d := d.tick) hq) fun _ =>
      (hreach.mono hstart.graph).trans (hw.clear_of_parent hi))
  have hentered := hstart.trans hjoin
  obtain ⟨hsteps, hleft⟩ := ih (fun _ => (haims i List.mem_cons_self).mono hentered.graph)
    (entersAt_startOf hw fun q hq => (at_startOf (d := d.tick) hq).mono hjoin.graph)
  have hbehind := hentered.trans hsteps
  obtain ⟨hrest, hlast, hgoes, -⟩ := ih' x r (before ++ [i]) hx (by rw [hl, List.append_assoc]; rfl)
    (fun j hj => (haims j (List.mem_cons_of_mem _ hj)).mono hbehind.graph)
      (hreach.mono hbehind.graph)
    fun hnext j hj => hleft.entersAt hw hx hl hnext hj
  refine ⟨hbehind.trans hrest, fun hf _ => hlast hf (hleft.reaches hw hi hf),
    fun hp => (hgoes hp).trans (goesOn_cons hleft.isSome).symm, fun _ => ⟨d.size, ?_, ?_⟩⟩
  · refine ((hjoin.trans hsteps).trans hrest).listed_mono ?_
    simp [Draft.start, hn, Draft.list, addPoint, Draft.tick, Draft.size]
  · exact (at_startOf (d := d.tick) hfirst).mono ((hjoin.trans hsteps).trans hrest).graph

theorem stepped_behind {last : Option PointId} (hw : c.tree.WellFormed)
    (ih : (Task.node τ i (some next)).Stepped c d.tick o last d₁)
    (ih' : (Task.list τ p last rest).Stepped c d₁ o a d') :
    (Task.list τ p (some next) (i :: rest)).Stepped c d o a d' := by
  intro x r before hx hl haims hreach hcurrent
  have hi : c.tree.parent i = some x := hw.parent_of_mem_childrenIn (r := r) (by simp [hl])
  have htick : Steps c o d d.tick := .tick
  obtain ⟨hsteps, hleft⟩ := ih (fun _ => (haims i List.mem_cons_self).mono htick.graph)
    ((hcurrent rfl i rfl).mono htick.graph)
  have hbehind := htick.trans hsteps
  obtain ⟨hrest, hlast, hgoes, -⟩ := ih' x r (before ++ [i]) hx (by rw [hl, List.append_assoc]; rfl)
    (fun j hj => (haims j (List.mem_cons_of_mem _ hj)).mono hbehind.graph)
      (hreach.mono hbehind.graph)
    fun hnext j hj => hleft.entersAt hw hx hl hnext hj
  exact ⟨hbehind.trans hrest, fun hf _ => hlast hf (hleft.reaches hw hi hf),
    fun hp => (hgoes hp).trans (goesOn_cons hleft.isSome).symm, (by simp)⟩

theorem stepped_section {enter : NodeId → Option PointId} {s : NodeId} {last : Option PointId}
    {starts : List (NodeId × Option PointId)} (hw : c.tree.WellFormed)
    (ih : (Task.list τ (enter s) none (c.tree.childrenIn s .statement)).Stepped c d o last d₁)
    (ih' : (Task.sections τ enter rest starts).Stepped c d₁ o a d') :
    (Task.sections τ enter (s :: rest) ((s, d₁.listed[d.listed.size]?) :: starts)).Stepped c d o
    a d' := by
  intro S hS hnodes haims henter
  have hs := hw.parent_of_mem_childrenIn (hnodes s List.mem_cons_self)
  obtain ⟨hsteps, -, -, hbegin⟩ := ih s .statement [] (hS.child hs) rfl (haims s List.mem_cons_self)
    ((henter s).trans (hw.clear_of_parent hs)) (by simp)
  obtain ⟨hrest, hmap, hstarts⟩ := ih' S hS (fun s' hs' => hnodes s' (List.mem_cons_of_mem _ hs'))
    (fun s' hs' j hj => (haims s' (List.mem_cons_of_mem _ hs') j hj).mono hsteps.graph)
    fun s' => (henter s').mono hsteps.graph
  refine ⟨hsteps.trans hrest, by rw [List.map_cons, hmap], fun s' hs' => ?_⟩
  by_cases he : s' = s
  · subst he
    exact ⟨_, List.lookup_cons_self, (hbegin rfl).mono hrest.graph⟩
  · have hne : (s' == s) = false := beq_eq_false_iff_ne.mpr he
    rw [List.lookup_cons, hne]
    exact hstarts s' ((List.mem_cons.mp hs').resolve_left he)

theorem stepped_guard {last : Option PointId} (hw : c.tree.WellFormed)
    (ih : (Task.embedded τ j p).Stepped c d o last d₁)
    (ih' : (Task.guarded τ i p stop rest).Stepped c (d₁.joinGuarded c.tree i last stop) o a d') :
    (Task.guarded τ i p stop (j :: rest)).Stepped c d o a d' := by
  intro hi hk hstop hp hbodies haims
  obtain ⟨hsteps, hleft, h0⟩ := ih fun hn => haims j List.mem_cons_self hn
  have hjoin : Steps c o d₁ (d₁.joinGuarded c.tree i last stop) := by
    cases last with
    | none => exact .refl
    | some q =>
        have hq : q < d₁.size := by
          by_cases hn : j = .null
          · exact (hp.mono hsteps.graph.size_le) q (h0 hn).symm
          · exact ((hleft hn).leaves q rfl).lt
        refine .guard hi hk ⟨hq, rfl⟩ (hstop.mono hsteps.graph) (hbodies j List.mem_cons_self)
          (fun hn => ?_)
          (Steps.site_stop hw hk)
        rw [((hleft hn).leaves q rfl).place_eq, Plan.site_stopPlace hn]
  have hall := hsteps.trans hjoin
  have hrest (b : NodeId) (hb : b ∈ rest) (hn : b ≠ .null) :
      Aims c (d₁.joinGuarded c.tree i last stop) τ o b ∧
        (d₁.joinGuarded c.tree i last stop).Reaches c.tree p b := by
    obtain ⟨haims, hreach⟩ := haims b (List.mem_cons_of_mem _ hb) hn
    exact ⟨haims.mono hall.graph, hreach.mono hall.graph⟩
  exact hall.trans (ih' hi hk (hstop.mono hall.graph) (hp.mono hall.graph.size_le)
    (fun b hb => hbodies b (List.mem_cons_of_mem _ hb)) hrest)

/-- Every drawing is made of steps. -/
theorem Draws.stepped {task : Task} (hw : c.tree.WellFormed) (h : Draws c task d a d') :
    task.Stepped c d o a d' := by
  induction h generalizing o with
  | hole hk => exact fun _ _ => ⟨.refl, by rw [hk]; rfl, by simp⟩
  | plain hk h => exact stepped_plain hw hk h
  | final hk h => exact stepped_final hk h
  | label hk => exact stepped_label hw hk
  | goto hk => exact stepped_goto hk
  | caseJump hk h => exact stepped_caseJump hk h
  | break_ hk => exact stepped_jump (.inl hk) fun h => ⟨h.hasBreak, fun _ => h.leads_break hk⟩
  | continue_ hk =>
      exact stepped_jump (.inr hk) fun h => ⟨h.hasContinue, fun _ => h.leads_continue hk⟩
  | block hk _ ih => exact stepped_block hw hk ih
  | wrapped hk hr _ ih => exact stepped_wrapped hw hk hr ih
  | usingValue hk _ _ ih => exact stepped_usingValue hw hk ih
  | usingResource hk _ _ _ ih ih' => exact stepped_usingResource hw hk ih ih'
  | branch hk _ _ ih ih' => exact stepped_branch hw hk ih ih'
  | switch hk _ ih => exact stepped_switch hw hk ih
  | whileLoop hk _ ih => exact stepped_whileLoop hw hk ih _
  | foreachLoop hk _ ih => exact stepped_foreachLoop hw hk ih
  | doLoop hk hbody hbefore _ ih => exact stepped_doLoop hw hk hbody hbefore ih _
  | forLoop hk hbody _ _ hahead hnext _ ih ih' ih'' =>
      exact stepped_forLoop hw hk hbody ih ih' hahead hnext ih'' _
  | tryFinally hk _ _ _ ih ih' => exact stepped_tryFinally hw hk ih ih'
  | tryCatch hk _ _ ih => exact stepped_tryCatch hw hk ih
  | enter _ ih => exact stepped_entered hw ih
  | absent => exact fun _ => ⟨.refl, fun hn => absurd rfl hn, fun _ => rfl⟩
  | embed hn _ ih => exact stepped_embedded hn ih
  | nil => exact stepped_nil
  | first _ _ ih ih' => exact stepped_first hw ih ih'
  | behind _ _ ih ih' => exact stepped_behind hw ih ih'
  | noSection => exact fun _ _ _ _ _ => ⟨.refl, rfl, by simp⟩
  | section_ _ _ ih ih' => exact stepped_section hw ih ih'
  | unguarded => exact fun _ _ _ _ _ _ => .refl
  | guard _ _ ih ih' => exact stepped_guard hw ih ih'

end

end TreeScribe.Flow
