import Mathlib.Data.List.Forall2
import TreeScribe.Flow.Assignment.Run
import TreeScribe.Proofs.Flow.Assignment.Order

namespace TreeScribe.Flow.Assignment

structure Walk (α : Type) where
  value : α
  /-- the bodies of the functions begun, in order -/
  begun : List (NodeId × Status)

namespace Walk

instance : Monad Walk where
  pure a := ⟨a, []⟩
  bind w f := ⟨(f w.value).value, w.begun ++ (f w.value).begun⟩

def begin (body : NodeId) (status : Status) : Walk Unit := ⟨(), [(body, status)]⟩

variable {α β : Type} {a : α} {w : Walk α} {f : α → Walk β}

@[simp] theorem value_pure : (pure a : Walk α).value = a := rfl

@[simp] theorem begun_pure : (pure a : Walk α).begun = [] := rfl

@[simp] theorem value_bind : (w >>= f).value = (f w.value).value := rfl

@[simp] theorem begun_bind : (w >>= f).begun = w.begun ++ (f w.value).begun := rfl

@[simp] theorem begun_begin {body : NodeId} {status : Status} :
    (begin body status).begun = [(body, status)] := rfl

end Walk

/-- How the expressions inside an expression are walked: to the status behind them, with the
functions begun on the way. -/
structure View where
  analysis : Assignment
  variableName : String
  /-- the status after an expression, from the status before it -/
  walk : NodeId → Status → Walk Status

namespace View

def tree (u : View) : Tree := u.analysis.tree

def child (u : View) (i : NodeId) (r : Role) : NodeId := u.tree.child i r

def condition? (u : View) (i : NodeId) : Option Bool := u.analysis.resolver.condition? u.tree i

def isVariable (u : View) (i : NodeId) : Bool :=
  u.tree.kind i = .expression .identifier && u.tree.name i = u.variableName

def walkAll (u : View) : List NodeId → Status → Walk Status
  | [], status => return status
  | i :: rest, status => do u.walkAll rest (← u.walk i status)

def children (u : View) : List NodeId → Status → Walk Status
  | [], status => return status
  | i :: rest, status => do
    if (u.tree.kind i).isStatement then u.children rest status
    else u.children rest (← u.walk i status).clean

def assignment (u : View) (left right : NodeId) (status : Status) : Walk Status := do
  if u.isVariable left then
    let _ ← u.walk right status
    return .assigned
  let status ← u.walk left status
  if right = .null then return status.clean
  return (← u.walk right status.clean).clean

def logicalAnd (u : View) (left right : NodeId) (status : Status) : Walk Status := do
  match u.condition? left with
  | some true => u.walk right status
  | some false => return status
  | none =>
    let first ← u.walk left status
    return first.andThen (← u.walk right first.ifTrue)

def logicalOr (u : View) (left right : NodeId) (status : Status) : Walk Status := do
  match u.condition? left with
  | some false => u.walk right status
  | some true => return status
  | none =>
    let first ← u.walk left status
    return first.orElse (← u.walk right first.ifFalse)

def coalesce (u : View) (left right : NodeId) (status : Status) : Walk Status := do
  if u.analysis.resolver u.tree left = some .null then u.walk right status
  else
    let status := (← u.walk left status).clean
    let _ ← u.walk right status
    return status

def conditional (u : View) (i : NodeId) (status : Status) : Walk Status := do
  let condition := u.child i .condition
  let positive := u.child i .trueExpression
  let negative := u.child i .falseExpression
  match u.condition? condition with
  | some true => u.walk positive status
  | some false => u.walk negative status
  | none =>
    let status ← u.walk condition status
    let first := (← u.walk positive status.ifTrue).clean
    return first.merge (← u.walk negative status.ifFalse).clean

def function (u : View) (i : NodeId) (status : Status) : Walk Status := do
  let body := u.child i .body
  if (u.tree.kind body).isStatement then Walk.begin body status
  else
    let _ ← u.walk body status
  return status

def declared (u : View) (i : NodeId) (status : Status) : Walk Status := do
  if !u.tree.hasChild i .initializer then return status
  let status ← u.walk (u.child i .initializer) status
  return if u.tree.name i = u.variableName then .assigned else status

def expression (u : View) (i : NodeId) (status : Status) : Walk Status :=
  match u.tree.kind i with
  | .null | .expression .identifier => return status
  | .expression (.assignment .assign) => u.assignment (u.child i .left) (u.child i .right) status
  | .expression (.direction .out) => u.assignment (u.child i .expression) .null status
  | .expression .parenthesized | .expression .checked | .expression .unchecked =>
    u.walk (u.child i .expression) status
  | .expression (.binary .condAnd) => u.logicalAnd (u.child i .left) (u.child i .right) status
  | .expression (.binary .condOr) => u.logicalOr (u.child i .left) (u.child i .right) status
  | .expression (.binary .coalesce) => u.coalesce (u.child i .left) (u.child i .right) status
  | .expression (.unary .not) => do return (← u.walk (u.child i .expression) status).negate
  | .expression .conditional => u.conditional i status
  | .expression (.anonymousMethod ..) | .expression (.lambda _) => u.function i status
  | .part .variable_ => u.declared i status
  | _ => u.children (u.tree.children i) status

def statement (u : View) (i : NodeId) (status : Status) : Walk Status :=
  match u.tree.kind i with
  | .statement .expression | .statement .return_ | .statement .throw | .statement .yieldReturn
  | .statement .lock | .statement .switch => u.walk (u.child i .expression) status
  | .statement (.locals _) | .statement .fixed => u.walkAll (u.tree.childrenIn i .variable_) status
  | .statement .usingResource =>
    let resource := u.child i .resource
    if (u.tree.kind resource).isExpression then u.walk resource status else return status
  | _ => return status

def condition (u : View) (x : Point) (status : Status) : Walk (Edge → Status) := do
  return Scope.conditionEdge (← u.walk (u.child x.next .condition) status)

def iteration (u : View) (x : Point) (status : Status) : Walk (Edge → Status) := do
  let status ← u.walk (u.child x.next .inExpression) status
  return fun _ => if u.tree.name x.next = u.variableName then .assigned else status.clean

def entering (u : View) (x : Point) (status : Status) : Walk (Edge → Status) := do
  if status = .assigned then return fun _ => .assigned
  let status ← u.statement x.next status
  return fun _ => status.clean

def carry (u : View) (x : Point) (status : Status) : Walk (Edge → Status) :=
  match x.kind with
  | .start | .between =>
    if u.tree.kind x.next = .statement .branch then u.condition x status else u.entering x status
  | .stop => return fun _ => status.clean
  | .condition =>
    if u.tree.kind x.next = .statement .foreachLoop then u.iteration x status
    else u.condition x status

def within (a : Assignment) (variableName : String) : Nat → View
  | 0 => ⟨a, variableName, fun _ status => return status⟩
  | depth + 1 => ⟨a, variableName,
      fun i status => (within a variableName depth).expression i status⟩

def full (a : Assignment) (variableName : String) : View := within a variableName a.tree.size

def through (u : View) (walk : NodeId → Status → Walk Status) : View := { u with walk }

end View

structure Kept (S : Status → Status → Prop) : Prop where
  assigned : S .assigned .assigned
  clean {a b : Status} : S a b → S a.clean b.clean
  ifTrue {a b : Status} : S a b → S a.ifTrue b.ifTrue
  ifFalse {a b : Status} : S a b → S a.ifFalse b.ifFalse
  negate {a b : Status} : S a b → S a.negate b.negate
  andThen {a a' b b' : Status} : S a a' → S b b' → S (a.andThen b) (a'.andThen b')
  orElse {a a' b b' : Status} : S a a' → S b b' → S (a.orElse b) (a'.orElse b')
  merge {a a' b b' : Status} : S a a' → S b b' → S (a.clean.merge b.clean) (a'.clean.merge b'.clean)

theorem kept_eq : Kept Eq := by
  constructor <;> (intros; subst_vars; rfl)

theorem kept_assigned : Kept fun a b => a = .assigned ∧ b = .assigned := by
  constructor <;> (intros; simp_all only [and_self] <;> decide)

def Rises (a b : Status) : Prop := a ≤ b ∧ a ≠ .unreachable

theorem kept_rises : Kept Rises where
  assigned := ⟨le_refl _, nofun⟩
  clean h := ⟨Status.clean_mono h.1, Status.clean_ne_unreachable h.2⟩
  ifTrue h := ⟨Status.ifTrue_mono h.1, Status.ifTrue_ne_unreachable h.2⟩
  ifFalse h := ⟨Status.ifFalse_mono h.1, Status.ifFalse_ne_unreachable h.2⟩
  negate h := ⟨Status.negate_mono h.1, Status.negate_ne_unreachable h.2⟩
  andThen h h' := ⟨Status.andThen_mono h.1 h'.1 h.2 h'.2, Status.andThen_ne_unreachable⟩
  orElse h h' := ⟨Status.orElse_mono h.1 h'.1 h.2 h'.2, Status.orElse_ne_unreachable⟩
  merge h h' := ⟨Status.merge_mono (Status.clean_mono h.1) (Status.clean_mono h'.1),
    Status.merge_ne_unreachable (Status.clean_ne_unreachable h.2)⟩

structure Walk.Rel (S : Status → Status → Prop) {α : Type} (T : α → α → Prop)
    (w w' : Walk α) : Prop where
  value : T w.value w'.value
  begun : List.Forall₂ (fun x y => x.1 = y.1 ∧ S x.2 y.2) w.begun w'.begun

namespace Walk.Rel

variable {S : Status → Status → Prop} {α β : Type} {T : α → α → Prop} {T' : β → β → Prop}
  {w w' : Walk α}
  {f f' : α → Walk β} {a a' : α}

theorem pure (h : T a a') : Rel S T (Pure.pure a) (Pure.pure a') := ⟨h, .nil⟩

theorem bind (h : Rel S T w w') (hf : ∀ a a', T a a' → Rel S T' (f a) (f' a')) :
    Rel S T' (w >>= f) (w' >>= f') :=
  have hf := hf _ _ h.value
  ⟨hf.value, List.rel_append h.begun hf.begun⟩

theorem begin {body : NodeId} {a b : Status} (h : S a b) :
    Rel S (fun _ _ => True) (Walk.begin body a) (Walk.begin body b) :=
  ⟨trivial, .cons ⟨rfl, h⟩ .nil⟩

theorem eq (h : Rel Eq Eq w w') : w = w' := by
  obtain ⟨hv, hb⟩ := h
  obtain ⟨v, l⟩ := w
  obtain ⟨v', l'⟩ := w'
  cases hv
  congr
  refine List.forall₂_eq_eq_eq ▸ hb.imp ?_
  rintro ⟨b, a⟩ ⟨b', a'⟩ ⟨rfl, rfl⟩
  rfl

end Walk.Rel

namespace View

section

variable {S : Status → Status → Prop} {u : View} {walk : NodeId → Status → Walk Status}
  {i left right : NodeId}
  {a b : Status}

def Alike (S : Status → Status → Prop) (u : View) (walk : NodeId → Status → Walk Status)
    (i : NodeId) : Prop :=
  ∀ a b, S a b → Walk.Rel S S (u.walk i a) (walk i b)

theorem rel_walkAll {nodes : List NodeId} (hn : ∀ j ∈ nodes, Alike S u walk j) (h : S a b) :
    Walk.Rel S S (u.walkAll nodes a) ((u.through walk).walkAll nodes b) := by
  induction nodes generalizing a b with
  | nil => exact .pure h
  | cons j rest ih =>
      refine (hn j List.mem_cons_self a b h).bind fun a b h => ih ?_ h
      exact fun k hk => hn k (List.mem_cons_of_mem _ hk)

theorem rel_children (hK : Kept S) {nodes : List NodeId} (hn : ∀ j ∈ nodes, Alike S u walk j)
    (h : S a b) : Walk.Rel S S (u.children nodes a) ((u.through walk).children nodes b) := by
  induction nodes generalizing a b with
  | nil => exact .pure h
  | cons j rest ih =>
      have ih {a b : Status} (h : S a b) := ih (fun k hk => hn k (List.mem_cons_of_mem _ hk)) h
      have htree : (u.through walk).tree = u.tree := rfl
      rw [children, children, htree]
      split
      · exact ih h
      · exact (hn j List.mem_cons_self a b h).bind fun a b h => ih (hK.clean h)

theorem rel_assignment (hK : Kept S) (hl : Alike S u walk left) (hr : Alike S u walk right)
    (h : S a b) :
    Walk.Rel S S (u.assignment left right a) ((u.through walk).assignment left right b) := by
  have hvariable : (u.through walk).isVariable left = u.isVariable left := rfl
  rw [assignment, assignment, hvariable]
  split
  · exact (hr a b h).bind fun _ _ _ => .pure hK.assigned
  · refine (hl a b h).bind fun a b h => ?_
    split
    · exact .pure (hK.clean h)
    · exact (hr _ _ (hK.clean h)).bind fun a b h => .pure (hK.clean h)

theorem rel_logicalAnd (hK : Kept S) (hl : Alike S u walk left) (hr : Alike S u walk right)
    (h : S a b) :
    Walk.Rel S S (u.logicalAnd left right a) ((u.through walk).logicalAnd left right b) := by
  have hcondition : (u.through walk).condition? left = u.condition? left := rfl
  rw [logicalAnd, logicalAnd, hcondition]
  split
  · exact hr a b h
  · exact .pure h
  · exact (hl a b h).bind fun _ _ h => (hr _ _ (hK.ifTrue h)).bind fun _ _ h' =>
      .pure (hK.andThen h h')

theorem rel_logicalOr (hK : Kept S) (hl : Alike S u walk left) (hr : Alike S u walk right)
    (h : S a b) :
    Walk.Rel S S (u.logicalOr left right a) ((u.through walk).logicalOr left right b) := by
  have hcondition : (u.through walk).condition? left = u.condition? left := rfl
  rw [logicalOr, logicalOr, hcondition]
  split
  · exact hr a b h
  · exact .pure h
  · exact (hl a b h).bind fun _ _ h => (hr _ _ (hK.ifFalse h)).bind fun _ _ h' =>
      .pure (hK.orElse h h')

theorem rel_coalesce (hK : Kept S) (hl : Alike S u walk left) (hr : Alike S u walk right)
    (h : S a b) :
    Walk.Rel S S (u.coalesce left right a) ((u.through walk).coalesce left right b) := by
  have hresolver : (u.through walk).analysis.resolver (u.through walk).tree left =
      u.analysis.resolver u.tree left := rfl
  rw [coalesce, coalesce, hresolver]
  split
  · exact hr a b h
  · exact (hl a b h).bind fun _ _ h => (hr _ _ (hK.clean h)).bind fun _ _ _ => .pure (hK.clean h)

theorem rel_conditional (hK : Kept S) (hc : Alike S u walk (u.child i .condition))
    (ht : Alike S u walk (u.child i .trueExpression))
    (hf : Alike S u walk (u.child i .falseExpression)) (h : S a b) :
    Walk.Rel S S (u.conditional i a) ((u.through walk).conditional i b) := by
  have hcondition {j : NodeId} : (u.through walk).condition? j = u.condition? j := rfl
  have hchild {r : Role} : (u.through walk).child i r = u.child i r := rfl
  rw [conditional, conditional]
  simp only [hcondition, hchild]
  split
  · exact ht a b h
  · exact hf a b h
  · refine (hc a b h).bind fun _ _ h => (ht _ _ (hK.ifTrue h)).bind fun _ _ h' => ?_
    exact (hf _ _ (hK.ifFalse h)).bind fun _ _ h'' => .pure (hK.merge h' h'')

theorem rel_function (hb : Alike S u walk (u.child i .body)) (h : S a b) :
    Walk.Rel S S (u.function i a) ((u.through walk).function i b) := by
  have htree : (u.through walk).tree = u.tree := rfl
  have hchild : (u.through walk).child i .body = u.child i .body := rfl
  rw [function, function, htree, hchild]
  simp only
  split
  · exact (Walk.Rel.begin h).bind fun _ _ _ => .pure h
  · exact (hb a b h).bind fun _ _ _ => .pure h

theorem rel_declared (hK : Kept S) (hi : Alike S u walk (u.child i .initializer)) (h : S a b) :
    Walk.Rel S S (u.declared i a) ((u.through walk).declared i b) := by
  have htree : (u.through walk).tree = u.tree := rfl
  have hchild : (u.through walk).child i .initializer = u.child i .initializer := rfl
  have hname : (u.through walk).variableName = u.variableName := rfl
  rw [declared, declared, htree, hchild, hname]
  split
  · exact .pure h
  · refine (hi a b h).bind fun a b h => .pure ?_
    split
    · exact hK.assigned
    · exact h

/-- Walks through an expression are alike if those through its children are. -/
theorem rel_expression (hK : Kept S) (hc : ∀ r, Alike S u walk (u.child i r))
    (h0 : Alike S u walk .null) (hm : ∀ j ∈ u.tree.children i, Alike S u walk j) (h : S a b) :
    Walk.Rel S S (u.expression i a) ((u.through walk).expression i b) := by
  have htree : (u.through walk).tree = u.tree := rfl
  have hchild {r : Role} : (u.through walk).child i r = u.child i r := rfl
  rw [expression, expression, htree]
  simp only [hchild]
  split
  · exact .pure h
  · exact .pure h
  · exact rel_assignment hK (hc _) (hc _) h
  · exact rel_assignment hK (hc _) h0 h
  · exact hc _ a b h
  · exact hc _ a b h
  · exact hc _ a b h
  · exact rel_logicalAnd hK (hc _) (hc _) h
  · exact rel_logicalOr hK (hc _) (hc _) h
  · exact rel_coalesce hK (hc _) (hc _) h
  · exact (hc _ a b h).bind fun _ _ h => .pure (hK.negate h)
  · exact rel_conditional hK (hc _) (hc _) (hc _) h
  · exact rel_function (hc _) h
  · exact rel_function (hc _) h
  · exact rel_declared hK (hc _) h
  · exact rel_children hK hm h

end

end View

end TreeScribe.Flow.Assignment
