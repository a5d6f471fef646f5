import TreeScribe.Flow.Constant
import TreeScribe.Proofs.Tree.Statements

namespace TreeScribe.Execution

abbrev Valuation := NodeId → Option Constant → Prop

inductive Abrupt where
  | break_ | continue_ | return_ | throw
  | goto (label : String)
  | caseJump (jump : NodeId)
  deriving DecidableEq

inductive Phase where
  | block | part | resource
  | initializers | body | iterators
  | section_ (s : NodeId)
  | guarded | clause
  | finally_ (after : Option Abrupt)
  deriving DecidableEq

structure Frame where
  owner : NodeId
  phase : Phase
  rest : List NodeId

inductive Control where
  | start (i : NodeId)
  | test (i : NodeId)
  | go (i : NodeId) (phase : Phase) (nodes : List NodeId)
  | done (i : NodeId)
  | ended (a : Abrupt)

structure Config where
  control : Control
  stack : List Frame

namespace Phase

def stops : Phase → Abrupt → Bool
  | body, .break_ | body, .continue_ | section_ _, .break_ | section_ _, .caseJump _ => true
  | _, _ => false

def isGuarded : Phase → Bool
  | guarded | clause => true
  | _ => false

end Phase

section

variable (t : Tree) (E : Valuation)

def leaves (i : NodeId) : StatementKind → Option Abrupt
  | .break_ => some .break_
  | .continue_ => some .continue_
  | .return_ | .yieldBreak => some .return_
  | .throw => some .throw
  | .goto => some (.goto (t.name i))
  | .gotoCase | .gotoDefault => some (.caseJump i)
  | _ => none

/-- Whether a loop may make a turn, or end. A loop over a collection may do both. -/
def Turns (i : NodeId) (b : Bool) : StatementKind → Prop
  | .foreachLoop => True
  | .forLoop => if t.child i .condition = .null then b = true
      else E (t.child i .condition) (some (.bool b))
  | _ => E (t.child i .condition) (some (.bool b))

def Matches (v : Constant) (s : NodeId) : Prop :=
  ∃ l ∈ t.childrenIn s .caseLabel, t.child l .expression ≠ .null ∧
    ∃ w, E (t.child l .expression) (some w) ∧ v.agrees w = true

def HasDefault (s : NodeId) : Prop := ∃ l ∈ t.childrenIn s .caseLabel, t.child l .expression = .null

structure Only (i : NodeId) (P : NodeId → Prop) (s : NodeId) : Prop where
  mem : s ∈ t.childrenIn i .switchSection
  holds : P s
  eq {s' : NodeId} (hs : s' ∈ t.childrenIn i .switchSection) (h : P s') : s' = s

def Unmatched (i : NodeId) (v : Option Constant) : Prop :=
  ∀ w, v = some w → ∀ s ∈ t.childrenIn i .switchSection, ¬ Matches t E w s

inductive Selects (i : NodeId) : Option Constant → Option NodeId → Prop
  | case_ {v s} (h : Only t i (Matches t E v) s) : Selects i (some v) (some s)
  | default_ {v s} (hv : Unmatched t E i v) (h : Only t i (HasDefault t) s) : Selects i v (some s)
  | none_ {v} (hv : Unmatched t E i v) (h : ∀ s ∈ t.childrenIn i .switchSection, ¬ HasDefault t s) :
      Selects i v none

theorem Selects.mem {t : Tree} {E : Valuation} {i s : NodeId} {v : Option Constant}
    (h : Selects t E i v (some s)) :
    s ∈ t.childrenIn i .switchSection := by
  cases h with
  | case_ h | default_ _ h => exact h.mem

inductive JumpsTo (i j : NodeId) : NodeId → Prop
  | case_ {v s} (hk : t.kind j = .statement .gotoCase) (hv : E (t.child j .expression) (some v))
    (h : Only t i (Matches t E v) s) : JumpsTo i j s
  | default_ {s} (hk : t.kind j = .statement .gotoDefault) (h : Only t i (HasDefault t) s) :
      JumpsTo i j s

theorem JumpsTo.mem {t : Tree} {E : Valuation} {i j s : NodeId} (h : JumpsTo t E i j s) :
    s ∈ t.childrenIn i .switchSection := by
  cases h with
  | case_ _ _ h | default_ _ h => exact h.mem

/-- The lists whose labels can be jumped to from a phase: those of a block, and of all sections of a
switch. -/
inductive Sees (i : NodeId) : Phase → Phase → List NodeId → Prop
  | block : Sees i .block .block (t.childrenIn i .statement)
  | section_ {s s'} (hs : s' ∈ t.childrenIn i .switchSection) :
    Sees i (.section_ s) (.section_ s') (t.childrenIn s' .statement)

structure IsLabel (n : String) (i : NodeId) : Prop where
  kind : t.kind i = .statement .label
  name : t.name i = n

open TreeScribe.Tree

/-- Expressions are not run: an expression with several values is decided either way each time it is
reached, and evaluation may also throw. What jumps ends statements from inside to outside until one
of them catches, and runs the finally blocks on the way. -/
inductive Step : Config → Config → Prop
  -- entering statements
  | pass {i k stack} (hk : t.kind i = .statement k) (h : k.isPlain = true ∨ k = .label) :
    Step ⟨.start i, stack⟩ ⟨.done i, stack⟩
  | leave {i k a stack} (hk : t.kind i = .statement k) (h : leaves t i k = some a) :
    Step ⟨.start i, stack⟩ ⟨.ended a, stack⟩
  | block {i stack} (hk : t.kind i = .statement .block) :
    Step ⟨.start i, stack⟩ ⟨.go i .block (t.childrenIn i .statement), stack⟩
  | wrapped {i k r stack} (hk : t.kind i = .statement k) (h : k.bodyRole? = some r) :
    Step ⟨.start i, stack⟩ ⟨.go i .part (present (t.child i r)), stack⟩
  | usingResource {i stack} (hk : t.kind i = .statement .usingResource)
    (h : (t.kind (t.child i .resource)).isStatement = true) :
    Step ⟨.start i, stack⟩ ⟨.go i .resource [t.child i .resource], stack⟩
  | usingValue {i stack} (hk : t.kind i = .statement .usingResource)
    (h : (t.kind (t.child i .resource)).isStatement = false) :
    Step ⟨.start i, stack⟩ ⟨.go i .part (present (t.child i .embeddedStatement)), stack⟩
  | whenTrue {i stack} (hk : t.kind i = .statement .branch)
      (h : E (t.child i .condition) (some (.bool true))) :
    Step ⟨.start i, stack⟩ ⟨.go i .part (present (t.child i .trueStatement)), stack⟩
  | whenFalse {i stack} (hk : t.kind i = .statement .branch)
      (h : E (t.child i .condition) (some (.bool false))) :
    Step ⟨.start i, stack⟩ ⟨.go i .part (present (t.child i .falseStatement)), stack⟩
  | enterSwitch {i v s stack} (hk : t.kind i = .statement .switch)
      (hv : E (t.child i .expression) v)
    (h : Selects t E i v (some s)) :
    Step ⟨.start i, stack⟩ ⟨.go i (.section_ s) (t.childrenIn s .statement), stack⟩
  | passSwitch {i v stack} (hk : t.kind i = .statement .switch) (hv : E (t.child i .expression) v)
    (h : Selects t E i v none) : Step ⟨.start i, stack⟩ ⟨.done i, stack⟩
  | loop {i k stack} (hk : t.kind i = .statement k) (h : k.isLoop = true) :
    Step ⟨.start i, stack⟩ ⟨.go i .initializers (t.initializers i k), stack⟩
  | tryCatch {i stack} (hk : t.kind i = .statement .tryCatch) :
    Step ⟨.start i, stack⟩ ⟨.go i .guarded (present (t.child i .tryBlock)), stack⟩
  -- evaluation that throws
  | startThrows {i stack} : Step ⟨.start i, stack⟩ ⟨.ended .throw, stack⟩
  | testThrows {i stack} : Step ⟨.test i, stack⟩ ⟨.ended .throw, stack⟩
  -- lists
  | next {i phase j rest stack} :
    Step ⟨.go i phase (j :: rest), stack⟩ ⟨.start j, ⟨i, phase, rest⟩ :: stack⟩
  | finish {i phase j rest stack} :
    Step ⟨.done j, ⟨i, phase, rest⟩ :: stack⟩ ⟨.go i phase rest, stack⟩
  | endBlock {i stack} : Step ⟨.go i .block [], stack⟩ ⟨.done i, stack⟩
  | endPart {i stack} : Step ⟨.go i .part [], stack⟩ ⟨.done i, stack⟩
  | endResource {i stack} :
    Step ⟨.go i .resource [], stack⟩ ⟨.go i .part (present (t.child i .embeddedStatement)), stack⟩
  -- loops
  | doFirst {i stack} (hk : t.kind i = .statement .doLoop) :
    Step ⟨.go i .initializers [], stack⟩
      ⟨.go i .body (present (t.child i .embeddedStatement)), stack⟩
  | testFirst {i k stack} (hk : t.kind i = .statement k) (h : k ≠ .doLoop) :
    Step ⟨.go i .initializers [], stack⟩ ⟨.test i, stack⟩
  | turn {i k stack} (hk : t.kind i = .statement k) (h : Turns t E i true k) :
    Step ⟨.test i, stack⟩ ⟨.go i .body (present (t.child i .embeddedStatement)), stack⟩
  | stop {i k stack} (hk : t.kind i = .statement k) (h : Turns t E i false k) :
    Step ⟨.test i, stack⟩ ⟨.done i, stack⟩
  | endBody {i k stack} (hk : t.kind i = .statement k) :
    Step ⟨.go i .body [], stack⟩ ⟨.go i .iterators (t.iterators i k), stack⟩
  | endIterators {i stack} : Step ⟨.go i .iterators [], stack⟩ ⟨.test i, stack⟩
  -- try statements
  | endGuarded {i phase stack} (hp : phase.isGuarded = true) (h : t.child i .finallyBlock = .null) :
    Step ⟨.go i phase [], stack⟩ ⟨.done i, stack⟩
  | enterFinally {i phase stack} (hp : phase.isGuarded = true)
      (h : t.child i .finallyBlock ≠ .null) :
    Step ⟨.go i phase [], stack⟩ ⟨.go i (.finally_ none) [t.child i .finallyBlock], stack⟩
  | endFinally {i stack} : Step ⟨.go i (.finally_ none) [], stack⟩ ⟨.done i, stack⟩
  | resume {i a stack} : Step ⟨.go i (.finally_ (some a)) [], stack⟩ ⟨.ended a, stack⟩
  -- what jumps and throws end
  | break_ {i phase rest stack} (hp : phase.stops .break_ = true) :
    Step ⟨.ended .break_, ⟨i, phase, rest⟩ :: stack⟩ ⟨.done i, stack⟩
  | continue_ {i k rest stack} (hk : t.kind i = .statement k) :
    Step ⟨.ended .continue_, ⟨i, .body, rest⟩ :: stack⟩ ⟨.go i .iterators (t.iterators i k), stack⟩
  | goto {n i phase phase' nodes before l after rest stack} (hs : Sees t i phase phase' nodes)
    (hn : nodes = before ++ l :: after) (hl : IsLabel t n l) :
    Step ⟨.ended (.goto n), ⟨i, phase, rest⟩ :: stack⟩ ⟨.start l, ⟨i, phase', after⟩ :: stack⟩
  | caseJump {i j s s' rest stack} (h : JumpsTo t E i j s') :
    Step ⟨.ended (.caseJump j), ⟨i, .section_ s, rest⟩ :: stack⟩
      ⟨.go i (.section_ s') (t.childrenIn s' .statement), stack⟩
  | catch_ {i s rest stack} (hs : s ∈ t.childrenIn i .catchClause) :
    Step ⟨.ended .throw, ⟨i, .guarded, rest⟩ :: stack⟩
      ⟨.go i .clause (present (t.child s .body)), stack⟩
  | throughFinally {a i phase rest stack} (hp : phase.isGuarded = true)
      (h : t.child i .finallyBlock ≠ .null) :
    Step ⟨.ended a, ⟨i, phase, rest⟩ :: stack⟩
      ⟨.go i (.finally_ (some a)) [t.child i .finallyBlock], stack⟩
  | unwind {a i phase rest stack} (hp : phase.stops a = false)
    (hg : phase.isGuarded = true → t.child i .finallyBlock = .null)
    (hl : ∀ n, a = .goto n → ∀ phase' nodes, Sees t i phase phase' nodes →
      ∀ l ∈ nodes, ¬ IsLabel t n l) :
    Step ⟨.ended a, ⟨i, phase, rest⟩ :: stack⟩ ⟨.ended a, stack⟩

inductive Runs (root : NodeId) : Config → Prop
  | begin : Runs root ⟨.start root, []⟩
  | step {x y : Config} (h : Runs root x) (hs : Step t E x y) : Runs root y

def Starts (root i : NodeId) : Prop := ∃ stack, Runs t E root ⟨.start i, stack⟩

def Completes (root i : NodeId) : Prop := ∃ stack, Runs t E root ⟨.done i, stack⟩

end

end TreeScribe.Execution
