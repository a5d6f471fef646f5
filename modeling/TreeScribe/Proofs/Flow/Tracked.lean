import TreeScribe.Proofs.Flow.Drawn

namespace TreeScribe.Flow

open TreeScribe.Tree Execution

section

variable (c : Plan) (F : Graph) (L : List (String × PointId)) (R : PointId → Prop)

def Leads (Γ : Exits) : Abrupt → Prop
  | .break_ => ∀ x, Γ.onBreak = some x → R x
  | .continue_ => ∀ x, Γ.onContinue = some x → R x
  | .goto n => ∀ x, L.lookup n = some x → R x
  | .caseJump j => ∀ s f, Γ.onCase = some (s, f) → R (f j) ∧ c.tree.SwitchOf s j
  | .return_ | .throw => True

structure Looped (Γ : Exits) (i : NodeId) (k : StatementKind)
    (q first test again : PointId) : Prop where
  kind : c.tree.kind i = .statement k
  isLoop : k.isLoop = true
  ends : Ends c F i q
  body : ∃ last, Chain c F L (Γ.turning q again) first [c.child i .embeddedStatement] last ∧
    F.Joined last again
  iterators : ∃ iterated, Chain c F L Γ again (c.tree.iterators i k) iterated ∧
    (iterated = test ∨ F.Joined iterated test)
  whenTrue : c.turns i k ≠ some false → F.Joined test first
  whenFalse : c.turns i k ≠ some true → F.Joined test q

structure Switched (Γ : Exits) (i : NodeId) (p q : PointId)
    (f first : NodeId → PointId) : Prop where
  kind : c.tree.kind i = .statement .switch
  ends : Ends c F i q
  section_ : ∀ s ∈ c.tree.childrenIn i .switchSection,
    ∃ last, Chain c F L (Γ.switching i q f) (first s) (c.tree.childrenIn s .statement) last
  enter : ∀ s ∈ c.tree.childrenIn i .switchSection, c.tree.childrenIn s .statement ≠ [] →
    c.entersSection i s = true → F.Joined p (first s)
  jump : ∀ s ∈ c.tree.childrenIn i .switchSection, c.tree.childrenIn s .statement ≠ [] → ∀ j,
    c.jumpSection (c.tree.childrenIn i .switchSection) j = some s → f j = first s

structure Tried (Γ : Exits) (i : NodeId) (p q : PointId) : Prop where
  ends : Ends c F i q
  guarded : ∀ b ∈ c.guarded i, ∃ e last, Enters F p e (present b) ∧
    Chain c F L Γ e (present b) last ∧ F.Joined last q
  finally_ : ∃ e last, Enters F p e (present (c.child i .finallyBlock)) ∧
    Chain c F L Γ e (present (c.child i .finallyBlock)) last

/-- The statements of a phase, with their own exits, run up to `last` in a statement that ends at
`q`. -/
inductive Surrounds : Exits → NodeId → Phase → PointId → Exits → PointId → Prop
  | block {Γ i q first last} (hq : Ends c F i q)
    (h : Chain c F L Γ first (c.tree.childrenIn i .statement) last) (hl : F.Joined last q) :
    Surrounds Γ i .block last Γ q
  | part {Γ i q last} (hq : Ends c F i q) (hl : F.Joined last q) : Surrounds Γ i .part last Γ q
  | resource {Γ i q mid e last} (hq : Ends c F i q)
    (he : Enters F mid e (present (c.child i .embeddedStatement)))
    (h : Chain c F L Γ e (present (c.child i .embeddedStatement)) last) (hl : F.Joined last q) :
    Surrounds Γ i .resource mid Γ q
  | initializers {Γ i k q first test again begun} (h : Looped c F L Γ i k q first test again)
    (hb : F.Joined begun (if k = .doLoop then first else test)) :
    Surrounds Γ i .initializers begun Γ q
  | body {Γ i k q first test again last} (h : Looped c F L Γ i k q first test again)
      (hl : F.Joined last again) :
    Surrounds (Γ.turning q again) i .body last Γ q
  | iterators {Γ i k q first test again iterated} (h : Looped c F L Γ i k q first test again)
    (hl : iterated = test ∨ F.Joined iterated test) : Surrounds Γ i .iterators iterated Γ q
  | section_ {Γ i p q f first s last} (h : Switched c F L Γ i p q f first) (hp : R p) :
    Surrounds (Γ.switching i q f) i (.section_ s) last Γ q
  | guarded {Γ i p q phase last} (hg : phase.isGuarded = true) (h : Tried c F L Γ i p q) (hp : R p)
    (hl : F.Joined last q) : Surrounds Γ i phase last Γ q
  | finally_ {Γ i q last} (hq : Ends c F i q) (h : R q) : Surrounds Γ i (.finally_ none) last Γ q
  | resuming {Γ i q last a} (h : Leads c L R Γ a) : Surrounds Γ i (.finally_ (some a)) last Γ q

inductive Fits : Exits → PointId → List Frame → Prop
  | bottom {q} : Fits .none q []
  | frame {Γ q i phase rest last Γ' q' stack} (h : Chain c F L Γ q rest last)
    (hs : Surrounds c F L R Γ i phase last Γ' q') (hf : Fits Γ' q' stack) :
    Fits Γ q (⟨i, phase, rest⟩ :: stack)

/-- What runs is drawn from a point of a set that no edge leads out of, and each frame of the stack
is a statement drawn around the one above it. -/
inductive Tracked : Config → Prop
  | start {Γ i p q stack} (h : Drawn c F L Γ i p q)
      (hp : R p ∨ c.tree.kind i = .statement .label ∧ R q)
    (hf : Fits c F L R Γ q stack) : Tracked ⟨.start i, stack⟩
  | test {Γ i k q first test again stack} (h : Looped c F L Γ i k q first test again) (ht : R test)
    (hf : Fits c F L R Γ q stack) : Tracked ⟨.test i, stack⟩
  | go {Γ i phase nodes e last Γ' q stack} (h : Chain c F L Γ e nodes last) (he : R e)
    (hs : Surrounds c F L R Γ i phase last Γ' q) (hf : Fits c F L R Γ' q stack) :
    Tracked ⟨.go i phase nodes, stack⟩
  | done {Γ i q stack} (hl : Ends c F i q) (hq : R q) (hf : Fits c F L R Γ q stack) :
    Tracked ⟨.done i, stack⟩
  | ended {Γ a q stack} (h : Leads c L R Γ a) (hf : Fits c F L R Γ q stack) :
      Tracked ⟨.ended a, stack⟩

end

section

variable {c : Plan} {F : Graph} {L : List (String × PointId)} {R : PointId → Prop} {Γ Γ' : Exits}
  {i l : NodeId}
  {k : StatementKind} {p q e last : PointId} {a : Abrupt} {phase : Phase} {stack : List Frame}
    {E : Valuation}

namespace Drawn

theorem stands (h : Drawn c F L Γ i p q) : Stands c F i p q := by
  cases h <;> assumption

theorem of_pass (h : Drawn c F L Γ i p q) (hk : c.tree.kind i = .statement k)
    (hp : k.isPlain = true ∨ k = .label) : F.Joined p q := by
  cases h with
  | plain hk' h hs hj => exact hj
  | label hk' hs hj hl => exact hj
  | final hk' h | caseJump hk' h | loop hk' h =>
      cases hk.symm.trans hk'
      rcases hp with hp | rfl
      · cases k <;> cases hp <;> cases h
      · cases h
  | wrapped hk' h =>
      cases hk.symm.trans hk'
      rcases hp with hp | rfl
      · cases k <;> cases hp <;> cases h
      · cases h
  | _ =>
      cases hk.symm.trans ‹c.tree.kind i = _›
      rcases hp with hp | hp <;> cases hp

/-- A statement that is nothing but a jump leads where the jump goes. -/
theorem of_leave (h : Drawn c F L Γ i p q) (hk : c.tree.kind i = .statement k)
    (ha : leaves c.tree i k = some a) (hR : ∀ x, F.Joined p x → R x) : Leads c L R Γ a := by
  cases h with
  | final hk' h =>
      cases hk.symm.trans hk'
      cases k <;> cases h <;> cases ha <;> trivial
  | caseJump hk' h hs hj =>
      cases hk.symm.trans hk'
      cases k <;> cases h <;> cases ha <;> exact fun s f hf => ⟨hR _ (hj s f hf).1, (hj s f hf).2⟩
  | goto hk' hs hj =>
      cases hk.symm.trans hk'
      cases ha
      exact fun x hx => hR x (hj x hx)
  | break_ hk' hs hj =>
      cases hk.symm.trans hk'
      cases ha
      exact fun x hx => hR x (hj x hx)
  | continue_ hk' hs hj =>
      cases hk.symm.trans hk'
      cases ha
      exact fun x hx => hR x (hj x hx)
  | plain hk' h | loop hk' h =>
      cases hk.symm.trans hk'
      cases k <;> cases h <;> cases ha
  | wrapped hk' h =>
      cases hk.symm.trans hk'
      cases k <;> cases h <;> cases ha
  | _ =>
      cases hk.symm.trans ‹c.tree.kind i = _›
      cases ha

theorem of_label (h : Drawn c F L Γ i p q) (hk : c.tree.kind i = .statement .label) :
    (c.tree.name i, q) ∈ L := by
  cases h with
  | label hk' hs hj hl => exact hl
  | wrapped hk' hr =>
      cases hk.symm.trans hk'
      cases hr
  | _ =>
      cases hk.symm.trans ‹c.tree.kind i = _›
      all_goals cases ‹_ = true›

theorem of_block (h : Drawn c F L Γ i p q) (hk : c.tree.kind i = .statement .block) :
    ∃ e last, Enters F p e (c.tree.childrenIn i .statement) ∧
      Chain c F L Γ e (c.tree.childrenIn i .statement) last ∧
      F.Joined last q := by
  cases h with
  | block hk' hs he h hl => exact ⟨_, _, he, h, hl⟩
  | wrapped hk' hr =>
      cases hk.symm.trans hk'
      cases hr
  | _ =>
      cases hk.symm.trans ‹c.tree.kind i = _›
      all_goals cases ‹_ = true›

theorem of_wrapped {r : Role} (h : Drawn c F L Γ i p q) (hk : c.tree.kind i = .statement k)
    (hr : k.bodyRole? = some r) :
    ∃ e last, Enters F p e (present (c.child i r)) ∧ Chain c F L Γ e (present (c.child i r)) last ∧
      F.Joined last q := by
  cases h with
  | wrapped hk' hr' hs he h hl =>
      cases hk.symm.trans hk'
      cases hr.symm.trans hr'
      exact ⟨_, _, he, h, hl⟩
  | plain hk' h | final hk' h | caseJump hk' h | loop hk' h =>
      cases hk.symm.trans hk'
      cases k <;> cases h <;> cases hr
  | _ =>
      cases hk.symm.trans ‹c.tree.kind i = _›
      cases hr

theorem of_usingResource (h : Drawn c F L Γ i p q) (hk : c.tree.kind i = .statement .usingResource)
    (hr : (c.tree.kind (c.child i .resource)).isStatement = true) :
    ∃ e mid e' last, F.Joined p e ∧ Chain c F L Γ e [c.child i .resource] mid ∧
      Enters F mid e' (present (c.child i .embeddedStatement)) ∧
      Chain c F L Γ e' (present (c.child i .embeddedStatement)) last ∧ F.Joined last q := by
  cases h with
  | usingResource hk' hr' hs he h he' h' hl => exact ⟨_, _, _, _, he, h, he', h', hl⟩
  | usingValue hk' hr' => cases hr.symm.trans hr'
  | wrapped hk' hr =>
      cases hk.symm.trans hk'
      cases hr
  | _ =>
      cases hk.symm.trans ‹c.tree.kind i = _›
      all_goals cases ‹_ = true›

theorem of_usingValue (h : Drawn c F L Γ i p q) (hk : c.tree.kind i = .statement .usingResource)
    (hr : (c.tree.kind (c.child i .resource)).isStatement = false) :
    ∃ e last, Enters F p e (present (c.child i .embeddedStatement)) ∧
      Chain c F L Γ e (present (c.child i .embeddedStatement)) last ∧ F.Joined last q := by
  cases h with
  | usingValue hk' hr' hs he h hl => exact ⟨_, _, he, h, hl⟩
  | usingResource hk' hr' => cases hr.symm.trans hr'
  | wrapped hk' hr =>
      cases hk.symm.trans hk'
      cases hr
  | _ =>
      cases hk.symm.trans ‹c.tree.kind i = _›
      all_goals cases ‹_ = true›

theorem of_branch (h : Drawn c F L Γ i p q) (hk : c.tree.kind i = .statement .branch) :
    (∃ e last, (c.condition (c.child i .condition) ≠ some false → F.Joined p e) ∧
      Chain c F L Γ e [c.child i .trueStatement] last ∧ F.Joined last q) ∧
    ∃ e last, (c.condition (c.child i .condition) ≠ some true →
      Enters F p e (present (c.child i .falseStatement))) ∧
      Chain c F L Γ e (present (c.child i .falseStatement)) last ∧
      (c.condition (c.child i .condition) ≠ some true → F.Joined last q) := by
  cases h with
  | branch hk' hs he h hl he' h' hl' => exact ⟨⟨_, _, he, h, hl⟩, _, _, he', h', hl'⟩
  | wrapped hk' hr =>
      cases hk.symm.trans hk'
      cases hr
  | _ =>
      cases hk.symm.trans ‹c.tree.kind i = _›
      all_goals cases ‹_ = true›

theorem of_switch (h : Drawn c F L Γ i p q) (hk : c.tree.kind i = .statement .switch) :
    (c.isPassed i = true → F.Joined p q) ∧ ∃ f first, Switched c F L Γ i p q f first := by
  cases h with
  | switch hk' hs hpass h he hf =>
      exact ⟨hpass, _, _, hk', hs.toEnds, fun s hs => ⟨_, h s hs⟩, he, hf⟩
  | wrapped hk' hr =>
      cases hk.symm.trans hk'
      cases hr
  | _ =>
      cases hk.symm.trans ‹c.tree.kind i = _›
      all_goals cases ‹_ = true›

theorem of_loop (h : Drawn c F L Γ i p q) (hk : c.tree.kind i = .statement k)
    (hl : k.isLoop = true) :
    ∃ e begun first test again, Enters F p e (c.tree.initializers i k) ∧
      Chain c F L Γ e (c.tree.initializers i k) begun ∧
      F.Joined begun (if k = .doLoop then first else test) ∧
      Looped c F L Γ i k q first test again := by
  cases h with
  | loop hk' hl' hs he hi hb h ha hr ht htrue hfalse =>
      cases hk.symm.trans hk'
      exact ⟨_, _, _, _, _, he, hi, hb, hk', hl', hs.toEnds, ⟨_, h, ha⟩, ⟨_, hr, ht⟩, htrue, hfalse⟩
  | plain hk' h | final hk' h | caseJump hk' h =>
      cases hk.symm.trans hk'
      cases k <;> cases h <;> cases hl
  | wrapped hk' h =>
      cases hk.symm.trans hk'
      cases k <;> cases h <;> cases hl
  | _ =>
      cases hk.symm.trans ‹c.tree.kind i = _›
      cases hl

theorem of_tryCatch (h : Drawn c F L Γ i p q) (hk : c.tree.kind i = .statement .tryCatch) :
    Tried c F L Γ i p q := by
  cases h with
  | tryCatch hk' hs he h hl he' h' =>
      exact ⟨hs.toEnds, fun b hb => ⟨_, _, he b hb, h b hb, hl b hb⟩, _, _, he', h'⟩
  | wrapped hk' hr =>
      cases hk.symm.trans hk'
      cases hr
  | _ =>
      cases hk.symm.trans ‹c.tree.kind i = _›
      all_goals cases ‹_ = true›

end Drawn

theorem Chain.split {before after : List NodeId} (h : Chain c F L Γ e (before ++ l :: after) last) :
    ∃ p q, Drawn c F L Γ l p q ∧ Chain c F L Γ q after last := by
  induction before generalizing e with
  | nil =>
      cases h with
      | cons h hr => exact ⟨_, _, h, hr⟩
  | cons j before ih =>
      cases h with
      | cons _ hr => exact ih hr

theorem Enters.keeps {nodes : List NodeId} (h : Enters F p e nodes)
    (hR : ∀ p, R p → ∀ q, F.Joined p q → R q) (hp : R p) : R e := by
  rcases h with h | ⟨-, rfl⟩
  · exact hR p hp e h
  · exact hp

/-- What ends a statement leads where it did inside it, if the statement does not stop it. -/
theorem Surrounds.unwind (h : Surrounds c F L R Γ i phase last Γ' q) (hs : phase.stops a = false)
    (ha : Leads c L R Γ a) : Leads c L R Γ' a := by
  cases h with
  | body h hl =>
      cases a with
      | break_ | continue_ => cases hs
      | return_ | throw | goto | caseJump => exact ha
  | section_ h hp =>
      cases a with
      | break_ | caseJump => cases hs
      | continue_ | return_ | throw | goto => exact ha
  | _ => exact ha

theorem found (hp : R p ∨ c.tree.kind i = .statement .label ∧ R q)
    (hk : c.tree.kind i = .statement k) (h : k ≠ .label) : R p := by
  refine hp.resolve_right fun hl => h ?_
  cases hk.symm.trans hl.1
  rfl

theorem Switched.go {f first : NodeId → PointId} {s : NodeId} (h : Switched c F L Γ i p q f first)
    (hp : R p) (hs : s ∈ c.tree.childrenIn i .switchSection)
    (hfirst : c.tree.childrenIn s .statement ≠ [] → R (first s)) (hf : Fits c F L R Γ q stack) :
    Tracked c F L R ⟨.go i (.section_ s) (c.tree.childrenIn s .statement), stack⟩ := by
  by_cases hempty : c.tree.childrenIn s .statement = []
  · have hsection : Surrounds c F L R (Γ.switching i q f) i (.section_ s) p Γ q := .section_ h hp
    rw [hempty]
    exact .go .nil hp hsection hf
  · obtain ⟨last, hc⟩ := h.section_ s hs
    exact .go hc (hfirst hempty) (.section_ h hp) hf

variable (hprog : c.tree.Program c.root) (hE : c.setting.Correct c.tree E)
  (hD : c.setting.Decides c.tree c.root)
  (hL : ∀ n x, (n, x) ∈ L → L.lookup n = some x) (hR : ∀ p, R p → ∀ q, F.Joined p q → R q)

include hprog in
theorem Looped.go {first test again : PointId} (h : Looped c F L Γ i k q first test again)
    (hfirst : R first) (hf : Fits c F L R Γ q stack) :
    Tracked c F L R ⟨.go i .body (present (c.tree.child i .embeddedStatement)), stack⟩ := by
  obtain ⟨last, hc, hl⟩ := h.body
  rw [present_of_ne (hprog.loop_body h.ends.inside h.kind h.isLoop)]
  exact .go hc hfirst (.body h hl) hf

section Started

variable (h : Drawn c F L Γ i p q) (hp : R p ∨ c.tree.kind i = .statement .label ∧ R q)
  (hf : Fits c F L R Γ q stack)
include h hp hf

include hR in
theorem tracked_pass (hk : c.tree.kind i = .statement k) (hpass : k.isPlain = true ∨ k = .label) :
    Tracked c F L R ⟨.done i, stack⟩ := by
  refine .done h.stands.toEnds ?_ hf
  rcases hp with hp | hp
  · exact hR _ hp _ (h.of_pass hk hpass)
  · exact hp.2

include hR in
theorem tracked_leave (hk : c.tree.kind i = .statement k) (ha : leaves c.tree i k = some a) :
    Tracked c F L R ⟨.ended a, stack⟩ := by
  have hp := found hp hk (by rintro rfl; cases ha)
  exact .ended (h.of_leave hk ha (hR _ hp)) hf

include hR in
theorem tracked_block (hk : c.tree.kind i = .statement .block) :
    Tracked c F L R ⟨.go i .block (c.tree.childrenIn i .statement), stack⟩ := by
  obtain ⟨e, last, he, hc, hl⟩ := h.of_block hk
  exact .go hc (he.keeps hR (found hp hk nofun)) (.block h.stands.toEnds hc hl) hf

include hR in
theorem tracked_wrapped {r : Role} (hk : c.tree.kind i = .statement k) (hr : k.bodyRole? = some r) :
    Tracked c F L R ⟨.go i .part (present (c.tree.child i r)), stack⟩ := by
  obtain ⟨e, last, he, hc, hl⟩ := h.of_wrapped hk hr
  have hp := found hp hk (by rintro rfl; cases hr)
  exact .go hc (he.keeps hR hp) (.part h.stands.toEnds hl) hf

include hR in
theorem tracked_usingResource (hk : c.tree.kind i = .statement .usingResource)
    (hr : (c.tree.kind (c.tree.child i .resource)).isStatement = true) :
    Tracked c F L R ⟨.go i .resource [c.tree.child i .resource], stack⟩ := by
  obtain ⟨e, mid, e', last, he, hc, he', hc', hl⟩ := h.of_usingResource hk hr
  exact .go hc (hR _ (found hp hk nofun) _ he) (.resource h.stands.toEnds he' hc' hl) hf

include hR in
theorem tracked_usingValue (hk : c.tree.kind i = .statement .usingResource)
    (hr : (c.tree.kind (c.tree.child i .resource)).isStatement = false) :
    Tracked c F L R ⟨.go i .part (present (c.tree.child i .embeddedStatement)), stack⟩ := by
  obtain ⟨e, last, he, hc, hl⟩ := h.of_usingValue hk hr
  exact .go hc (he.keeps hR (found hp hk nofun)) (.part h.stands.toEnds hl) hf

include hprog hE hR in
theorem tracked_whenTrue (hk : c.tree.kind i = .statement .branch)
    (hv : E (c.tree.child i .condition) (some (.bool true))) :
    Tracked c F L R ⟨.go i .part (present (c.tree.child i .trueStatement)), stack⟩ := by
  obtain ⟨⟨e, last, he, hc, hl⟩, -⟩ := h.of_branch hk
  rw [present_of_ne (hprog.branch_body h.stands.inside hk)]
  exact .go hc (hR _ (found hp hk nofun) _ (he (Plan.condition_ne hE hv)))
    (.part h.stands.toEnds hl) hf

include hE hR in
theorem tracked_whenFalse (hk : c.tree.kind i = .statement .branch)
    (hv : E (c.tree.child i .condition) (some (.bool false))) :
    Tracked c F L R ⟨.go i .part (present (c.tree.child i .falseStatement)), stack⟩ := by
  obtain ⟨-, e, last, he, hc, hl⟩ := h.of_branch hk
  have hne := Plan.condition_ne hE hv
  exact .go hc ((he hne).keeps hR (found hp hk nofun)) (.part h.stands.toEnds (hl hne)) hf

include hE hD hR in
theorem tracked_enterSwitch {v : Option Constant} {s : NodeId}
    (hk : c.tree.kind i = .statement .switch) (hv : E (c.tree.child i .expression) v)
    (hsel : Selects c.tree E i v (some s)) :
    Tracked c F L R ⟨.go i (.section_ s) (c.tree.childrenIn s .statement), stack⟩ := by
  obtain ⟨-, f, first, hswitch⟩ := h.of_switch hk
  have hp := found hp hk nofun
  have henter := Plan.entersSection_of_selects hE hD h.stands.inside hk hv hsel
  exact hswitch.go hp hsel.mem (fun hne => hR _ hp _ (hswitch.enter _ hsel.mem hne henter)) hf

include hE hD hR in
theorem tracked_passSwitch {v : Option Constant} (hk : c.tree.kind i = .statement .switch)
    (hv : E (c.tree.child i .expression) v) (hsel : Selects c.tree E i v none) :
    Tracked c F L R ⟨.done i, stack⟩ := by
  obtain ⟨hpass, -⟩ := h.of_switch hk
  have hpassed := Plan.isPassed_of_selects hE hD h.stands.inside hk hv hsel
  exact .done h.stands.toEnds (hR _ (found hp hk nofun) _ (hpass hpassed)) hf

include hR in
theorem tracked_loop (hk : c.tree.kind i = .statement k) (hl : k.isLoop = true) :
    Tracked c F L R ⟨.go i .initializers (c.tree.initializers i k), stack⟩ := by
  obtain ⟨e, begun, first, test, again, he, hc, hb, hloop⟩ := h.of_loop hk hl
  have hp := found hp hk (by rintro rfl; cases hl)
  exact .go hc (he.keeps hR hp) (.initializers hloop hb) hf

include hR in
theorem tracked_tryCatch (hk : c.tree.kind i = .statement .tryCatch) :
    Tracked c F L R ⟨.go i .guarded (present (c.tree.child i .tryBlock)), stack⟩ := by
  have htry := h.of_tryCatch hk
  have hp := found hp hk nofun
  obtain ⟨e, last, he, hc, hl⟩ := htry.guarded _ List.mem_cons_self
  exact .go hc (he.keeps hR hp) (.guarded rfl htry hp hl) hf

end Started

theorem Tracked.at_end (h : Tracked c F L R ⟨.go i phase [], stack⟩) :
    ∃ Γ e Γ' q, R e ∧ Surrounds c F L R Γ i phase e Γ' q ∧ Fits c F L R Γ' q stack := by
  cases h with
  | go h he hs hf =>
      cases h with
      | nil => exact ⟨_, _, _, _, he, hs, hf⟩

theorem Tracked.at_abrupt {rest : List NodeId}
    (h : Tracked c F L R ⟨.ended a, ⟨i, phase, rest⟩ :: stack⟩) :
    ∃ Γ last Γ' q, Leads c L R Γ a ∧ Surrounds c F L R Γ i phase last Γ' q ∧
      Fits c F L R Γ' q stack := by
  cases h with
  | ended ha hf =>
      cases hf with
      | frame _ hs hf => exact ⟨_, _, _, _, ha, hs, hf⟩

include hR in
theorem tracked_endBlock (h : Tracked c F L R ⟨.go i .block [], stack⟩) :
    Tracked c F L R ⟨.done i, stack⟩ := by
  obtain ⟨Γ, e, Γ', q, he, hs, hf⟩ := h.at_end
  cases hs with
  | block hq h hl => exact .done hq (hR _ he _ hl) hf
  | guarded hg => cases hg

include hR in
theorem tracked_endPart (h : Tracked c F L R ⟨.go i .part [], stack⟩) :
    Tracked c F L R ⟨.done i, stack⟩ := by
  obtain ⟨Γ, e, Γ', q, he, hs, hf⟩ := h.at_end
  cases hs with
  | part hq hl => exact .done hq (hR _ he _ hl) hf
  | guarded hg => cases hg

include hR in
theorem tracked_endResource (h : Tracked c F L R ⟨.go i .resource [], stack⟩) :
    Tracked c F L R ⟨.go i .part (present (c.tree.child i .embeddedStatement)), stack⟩ := by
  obtain ⟨Γ, e, Γ', q, he, hs, hf⟩ := h.at_end
  cases hs with
  | resource hq he' h hl => exact .go h (he'.keeps hR he) (.part hq hl) hf
  | guarded hg => cases hg

include hprog hR in
theorem tracked_doFirst (h : Tracked c F L R ⟨.go i .initializers [], stack⟩)
    (hk : c.tree.kind i = .statement .doLoop) :
    Tracked c F L R ⟨.go i .body (present (c.tree.child i .embeddedStatement)), stack⟩ := by
  obtain ⟨Γ, e, Γ', q, he, hs, hf⟩ := h.at_end
  cases hs with
  | initializers h hb =>
      cases hk.symm.trans h.kind
      exact h.go hprog (hR _ he _ hb) hf
  | guarded hg => cases hg

include hR in
theorem tracked_testFirst (h : Tracked c F L R ⟨.go i .initializers [], stack⟩)
    (hk : c.tree.kind i = .statement k) (hne : k ≠ .doLoop) : Tracked c F L R ⟨.test i, stack⟩ := by
  obtain ⟨Γ, e, Γ', q, he, hs, hf⟩ := h.at_end
  cases hs with
  | initializers h hb =>
      cases hk.symm.trans h.kind
      rw [if_neg hne] at hb
      exact .test h (hR _ he _ hb) hf
  | guarded hg => cases hg

include hprog hE hR in
theorem tracked_turn (h : Tracked c F L R ⟨.test i, stack⟩) (hk : c.tree.kind i = .statement k)
    (hv : Turns c.tree E i true k) :
    Tracked c F L R ⟨.go i .body (present (c.tree.child i .embeddedStatement)), stack⟩ := by
  cases h with
  | test h ht hf =>
      cases hk.symm.trans h.kind
      exact h.go hprog (hR _ ht _ (h.whenTrue (Plan.turns_ne hE hv))) hf

include hE hR in
theorem tracked_stop (h : Tracked c F L R ⟨.test i, stack⟩) (hk : c.tree.kind i = .statement k)
    (hv : Turns c.tree E i false k) : Tracked c F L R ⟨.done i, stack⟩ := by
  cases h with
  | test h ht hf =>
      cases hk.symm.trans h.kind
      exact .done h.ends (hR _ ht _ (h.whenFalse (Plan.turns_ne hE hv))) hf

/-- A loop goes on with its iterators. -/
theorem Looped.iterate {first test again : PointId} (h : Looped c F L Γ i k q first test again)
    (ha : R again) (hf : Fits c F L R Γ q stack) :
    Tracked c F L R ⟨.go i .iterators (c.tree.iterators i k), stack⟩ := by
  obtain ⟨iterated, hc, ht⟩ := h.iterators
  exact .go hc ha (.iterators h ht) hf

include hR in
theorem tracked_endBody (h : Tracked c F L R ⟨.go i .body [], stack⟩)
    (hk : c.tree.kind i = .statement k) :
    Tracked c F L R ⟨.go i .iterators (c.tree.iterators i k), stack⟩ := by
  obtain ⟨Γ, e, Γ', q, he, hs, hf⟩ := h.at_end
  cases hs with
  | body h hl =>
      cases hk.symm.trans h.kind
      exact h.iterate (hR _ he _ hl) hf
  | guarded hg => cases hg

include hR in
theorem tracked_endIterators (h : Tracked c F L R ⟨.go i .iterators [], stack⟩) :
    Tracked c F L R ⟨.test i, stack⟩ := by
  obtain ⟨Γ, e, Γ', q, he, hs, hf⟩ := h.at_end
  cases hs with
  | iterators h hl =>
      refine .test h ?_ hf
      rcases hl with rfl | hl
      · exact he
      · exact hR _ he _ hl
  | guarded hg => cases hg

theorem Surrounds.tried (h : Surrounds c F L R Γ i phase e Γ' q) (hphase : phase.isGuarded = true) :
    Γ' = Γ ∧ (∃ p, Tried c F L Γ i p q ∧ R p) ∧ F.Joined e q := by
  cases h with
  | guarded _ h hp hl => exact ⟨rfl, ⟨_, h, hp⟩, hl⟩
  | _ => cases hphase

include hR in
theorem Tried.enterFinally {o : Option Abrupt} (h : Tried c F L Γ i p q) (hp : R p)
    (h0 : c.tree.child i .finallyBlock ≠ .null) (hf : Fits c F L R Γ q stack)
    (hs : ∀ last, Surrounds c F L R Γ i (.finally_ o) last Γ q) :
    Tracked c F L R ⟨.go i (.finally_ o) [c.tree.child i .finallyBlock], stack⟩ := by
  obtain ⟨e, last, hent, hc⟩ := h.finally_
  rw [Plan.child, present_of_ne h0] at hent hc
  exact .go hc (hent.keeps hR hp) (hs last) hf

include hR in
theorem tracked_endGuarded (h : Tracked c F L R ⟨.go i phase [], stack⟩)
    (hphase : phase.isGuarded = true) : Tracked c F L R ⟨.done i, stack⟩ := by
  obtain ⟨Γ, e, Γ', q, he, hs, hf⟩ := h.at_end
  obtain ⟨rfl, ⟨p, h, -⟩, hl⟩ := hs.tried hphase
  exact .done h.ends (hR _ he _ hl) hf

include hR in
theorem tracked_enterFinally (h : Tracked c F L R ⟨.go i phase [], stack⟩)
    (hphase : phase.isGuarded = true) (h0 : c.tree.child i .finallyBlock ≠ .null) :
    Tracked c F L R ⟨.go i (.finally_ none) [c.tree.child i .finallyBlock], stack⟩ := by
  obtain ⟨Γ, e, Γ', q, he, hs, hf⟩ := h.at_end
  obtain ⟨rfl, ⟨p, h, hp⟩, hl⟩ := hs.tried hphase
  exact h.enterFinally hR hp h0 hf fun _ => .finally_ h.ends (hR _ he _ hl)

include hR in
theorem tracked_throughFinally {rest : List NodeId}
    (h : Tracked c F L R ⟨.ended a, ⟨i, phase, rest⟩ :: stack⟩) (hphase : phase.isGuarded = true)
    (h0 : c.tree.child i .finallyBlock ≠ .null) :
    Tracked c F L R ⟨.go i (.finally_ (some a)) [c.tree.child i .finallyBlock], stack⟩ := by
  obtain ⟨Γ, e, Γ', q, ha, hs, hf⟩ := h.at_abrupt
  obtain ⟨rfl, ⟨p, h, hp⟩, -⟩ := hs.tried hphase
  exact h.enterFinally hR hp h0 hf fun _ => .resuming ha

theorem tracked_endFinally (h : Tracked c F L R ⟨.go i (.finally_ none) [], stack⟩) :
    Tracked c F L R ⟨.done i, stack⟩ := by
  obtain ⟨Γ, e, Γ', q, he, hs, hf⟩ := h.at_end
  cases hs with
  | finally_ hq h => exact .done hq h hf
  | guarded hg => cases hg

theorem tracked_resume (h : Tracked c F L R ⟨.go i (.finally_ (some a)) [], stack⟩) :
    Tracked c F L R ⟨.ended a, stack⟩ := by
  obtain ⟨Γ, e, Γ', q, he, hs, hf⟩ := h.at_end
  cases hs with
  | resuming h => exact .ended h hf
  | guarded hg => cases hg

include hR in
theorem tracked_catch {s : NodeId} {rest : List NodeId}
    (h : Tracked c F L R ⟨.ended .throw, ⟨i, .guarded, rest⟩ :: stack⟩)
    (hs : s ∈ c.tree.childrenIn i .catchClause) :
    Tracked c F L R ⟨.go i .clause (present (c.tree.child s .body)), stack⟩ := by
  obtain ⟨Γ, last, Γ', q, -, hsur, hf⟩ := h.at_abrupt
  obtain ⟨rfl, ⟨p, h, hp⟩, -⟩ := hsur.tried rfl
  obtain ⟨e, last, he, hc, hl⟩ := h.guarded _ (List.mem_cons_of_mem _ (List.mem_map_of_mem hs))
  exact .go hc (he.keeps hR hp) (.guarded rfl h hp hl) hf

theorem tracked_break {rest : List NodeId}
    (h : Tracked c F L R ⟨.ended .break_, ⟨i, phase, rest⟩ :: stack⟩)
    (hphase : phase.stops .break_ = true) : Tracked c F L R ⟨.done i, stack⟩ := by
  obtain ⟨Γ, last, Γ', q, ha, hs, hf⟩ := h.at_abrupt
  cases hs with
  | body h hl => exact .done h.ends (ha _ rfl) hf
  | section_ h hp => exact .done h.ends (ha _ rfl) hf
  | guarded hg => cases phase <;> cases hg <;> cases hphase
  | _ => cases hphase

theorem tracked_continue {rest : List NodeId}
    (h : Tracked c F L R ⟨.ended .continue_, ⟨i, .body, rest⟩ :: stack⟩)
    (hk : c.tree.kind i = .statement k) :
    Tracked c F L R ⟨.go i .iterators (c.tree.iterators i k), stack⟩ := by
  obtain ⟨Γ, last, Γ', q, ha, hs, hf⟩ := h.at_abrupt
  cases hs with
  | body h hl =>
      cases hk.symm.trans h.kind
      exact h.iterate (ha _ rfl) hf
  | guarded hg => cases hg

include hL in
theorem tracked_goto {n : String} {phase' : Phase} {nodes before after rest : List NodeId}
    (h : Tracked c F L R ⟨.ended (.goto n), ⟨i, phase, rest⟩ :: stack⟩)
    (hsees : Sees c.tree i phase phase' nodes) (hn : nodes = before ++ l :: after)
    (hlabel : IsLabel c.tree n l) : Tracked c F L R ⟨.start l, ⟨i, phase', after⟩ :: stack⟩ := by
  obtain ⟨Γ, last, Γ', q, ha, hs, hf⟩ := h.at_abrupt
  -- the label stands in a chain, and the jump leads to the point behind it
  have hlabelled {Γ e last} (h : Chain c F L Γ e nodes last) :
      ∃ p q, Drawn c F L Γ l p q ∧ R q ∧ Chain c F L Γ q after last := by
    obtain ⟨p, q, hd, hafter⟩ := (hn ▸ h).split
    have hlookup := hL _ _ (hd.of_label hlabel.kind)
    rw [hlabel.name] at hlookup
    exact ⟨p, q, hd, ha q hlookup, hafter⟩
  cases hsees with
  | block =>
      cases hs with
      | block hq h hl =>
          obtain ⟨p, q, hd, hq', hafter⟩ := hlabelled h
          exact .start hd (.inr ⟨hlabel.kind, hq'⟩) (.frame hafter (.block hq h hl) hf)
      | guarded hg => cases hg
  | section_ hmem =>
      cases hs with
      | section_ h hp =>
          obtain ⟨last, hc⟩ := h.section_ _ hmem
          obtain ⟨p, q, hd, hq', hafter⟩ := hlabelled hc
          exact .start hd (.inr ⟨hlabel.kind, hq'⟩) (.frame hafter (.section_ h hp) hf)
      | guarded hg => cases hg

include hE hD hR in
theorem tracked_caseJump {j s s' : NodeId} {rest : List NodeId}
    (h : Tracked c F L R ⟨.ended (.caseJump j), ⟨i, .section_ s, rest⟩ :: stack⟩)
    (hjump : JumpsTo c.tree E i j s') :
    Tracked c F L R ⟨.go i (.section_ s') (c.tree.childrenIn s' .statement), stack⟩ := by
  obtain ⟨Γ, last, Γ', q, ha, hs, hf⟩ := h.at_abrupt
  cases hs with
  | section_ h hp =>
      obtain ⟨htarget, hswitch⟩ := ha _ _ rfl
      refine h.go hp hjump.mem (fun hne => ?_) hf
      -- a switch with an unknown value may enter the section itself
      by_cases hv : c.constant (c.child i .expression) = none
      · exact hR _ hp _ (h.enter s' hjump.mem hne (by simp [Plan.entersSection, hv]))
      · have hjumped := Plan.jumpSection_of_jumpsTo hE hD h.ends.inside h.kind hswitch hjump hv
        rw [← h.jump s' hjump.mem hne j hjumped]
        exact htarget
  | guarded hg => cases hg

include hprog hE hD hL hR

/-- Each step of an execution stays on the points. -/
theorem Tracked.step {x y : Config} (h : Tracked c F L R x) (hs : Step c.tree E x y) :
    Tracked c F L R y := by
  cases hs with
  | pass hk hpass =>
      cases h with
      | start h hp hf => exact tracked_pass hR h hp hf hk hpass
  | leave hk ha =>
      cases h with
      | start h hp hf => exact tracked_leave hR h hp hf hk ha
  | block hk =>
      cases h with
      | start h hp hf => exact tracked_block hR h hp hf hk
  | wrapped hk hr =>
      cases h with
      | start h hp hf => exact tracked_wrapped hR h hp hf hk hr
  | usingResource hk hr =>
      cases h with
      | start h hp hf => exact tracked_usingResource hR h hp hf hk hr
  | usingValue hk hr =>
      cases h with
      | start h hp hf => exact tracked_usingValue hR h hp hf hk hr
  | whenTrue hk hv =>
      cases h with
      | start h hp hf => exact tracked_whenTrue hprog hE hR h hp hf hk hv
  | whenFalse hk hv =>
      cases h with
      | start h hp hf => exact tracked_whenFalse hE hR h hp hf hk hv
  | enterSwitch hk hv hsel =>
      cases h with
      | start h hp hf => exact tracked_enterSwitch hE hD hR h hp hf hk hv hsel
  | passSwitch hk hv hsel =>
      cases h with
      | start h hp hf => exact tracked_passSwitch hE hD hR h hp hf hk hv hsel
  | loop hk hl =>
      cases h with
      | start h hp hf => exact tracked_loop hR h hp hf hk hl
  | tryCatch hk =>
      cases h with
      | start h hp hf => exact tracked_tryCatch hR h hp hf hk
  | startThrows =>
      cases h with
      | start h hp hf => exact .ended trivial hf
  | testThrows =>
      cases h with
      | test h ht hf => exact .ended (a := .throw) trivial hf
  | next =>
      cases h with
      | go h he hs hf =>
          cases h with
          | cons h hr => exact .start h (.inl he) (.frame hr hs hf)
  | finish =>
      cases h with
      | done hl hq hf =>
          cases hf with
          | frame hrest hs hf => exact .go hrest hq hs hf
  | endBlock => exact tracked_endBlock hR h
  | endPart => exact tracked_endPart hR h
  | endResource => exact tracked_endResource hR h
  | doFirst hk => exact tracked_doFirst hprog hR h hk
  | testFirst hk hne => exact tracked_testFirst hR h hk hne
  | turn hk hv => exact tracked_turn hprog hE hR h hk hv
  | stop hk hv => exact tracked_stop hE hR h hk hv
  | endBody hk => exact tracked_endBody hR h hk
  | endIterators => exact tracked_endIterators hR h
  | endGuarded hphase h0 => exact tracked_endGuarded hR h hphase
  | enterFinally hphase h0 => exact tracked_enterFinally hR h hphase h0
  | endFinally => exact tracked_endFinally h
  | resume => exact tracked_resume h
  | break_ hphase => exact tracked_break h hphase
  | continue_ hk => exact tracked_continue h hk
  | goto hsees hn hlabel => exact tracked_goto hL h hsees hn hlabel
  | caseJump hjump => exact tracked_caseJump hE hD hR h hjump
  | catch_ hs => exact tracked_catch hR h hs
  | throughFinally hphase h0 => exact tracked_throughFinally hR h hphase h0
  | unwind hphase hg hl =>
      obtain ⟨Γ, last, Γ', q, ha, hs, hf⟩ := h.at_abrupt
      exact .ended (hs.unwind hphase ha) hf

theorem Tracked.runs {x : Config} (h : Tracked c F L R ⟨.start c.root, []⟩)
    (hx : Runs c.tree E c.root x) : Tracked c F L R x := by
  induction hx with
  | begin => exact h
  | step _ hs ih => exact ih.step hprog hE hD hL hR hs

end

end TreeScribe.Flow
