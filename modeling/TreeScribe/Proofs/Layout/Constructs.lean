import TreeScribe.Proofs.Layout.Pieces

namespace TreeScribe.Layout

variable {c d : Context} {q : Policy} {v : NodeId → Layout} {i j : NodeId} {r : Role}
  {R : List Role}
  {l m : Layout}

/-- What stands behind a demand for a child is laid out only where that is there. -/
theorem Laid.demand {js : List NodeId} (h : c.has i r = true → Laid c (c.recast q v) i js l m) :
    Laid c (c.recast q v) i js (c.need i r ++ l) ((c.recast q v).need i r ++ m) :=
  have hneed : Laid c (c.recast q v) i [] (c.need i r) ((c.recast q v).need i r) := .words (by simp)
  hneed.append fun hf => h (Context.failure?_need.mp hf)

theorem Laid.visitIn :
    Laid c (c.recast q v) i (c.tree.firstIn i r) (c.visitIn i r) ((c.recast q v).visitIn i r) := by
  unfold Context.visitIn
  rw [Context.recast_child]
  by_cases hn : c.child i r = .null
  · rw [hn]
    exact Laid.absent.fewer (List.nil_sublist _)
  · rw [Tree.firstIn_of_child hn]
    exact .visit (Tree.mem_childrenIn_iff.mpr (Tree.role_child hn))

theorem Laid.embedded {x y : KeywordPlacement} :
    Laid c (c.recast q v) i (c.tree.firstIn i r) (c.embedded (c.child i r) x)
      ((c.recast q v).embedded (c.child i r) y) := by
  unfold Context.embedded
  refine .ite (fun _ => .nothing (by simp)) fun hn => .ite (fun hk => ?_) fun _ => ?_
  · rw [Tree.firstIn_of_child hn]
    exact (Laid.block (bne_iff_ne.mpr hn) (.inr hk)).behind (by simp)
  · have hvisit : Laid c (c.recast q v) i (c.tree.firstIn i r) (c.visit (c.child i r))
        ((c.recast q v).visit (c.child i r)) := .visitIn
    simpa only [List.append_assoc]
      using hvisit.deeper.before (x := newLine) (y := newLine) (by simp)

namespace Pieces

theorem visitIn : Pieces c (c.recast q v) i [r] (c.visitIn i r) ((c.recast q v).visitIn i r) :=
  .ofFirst .visitIn

theorem required : Pieces c (c.recast q v) i [r] (c.required i r) ((c.recast q v).required i r) :=
  visitIn.before (by simp)

theorem name : Pieces c (c.recast q v) i [.identifier] (c.name i) ((c.recast q v).name i) := by
  refine ofFirst (Laid.demand fun hc => ?_)
  rw [Tree.firstIn_of_child (bne_iff_ne.mp hc)]
  exact .name hc

theorem separated {separator separator' : Nat → Layout}
    (hs : ∀ n, Words (separator n) (separator' n)) :
    Pieces c (c.recast q v) i [r] (c.separated separator (c.childrenIn i r))
      ((c.recast q v).separated separator' (c.childrenIn i r)) :=
  .ofAll (.mapIdx fun n _ hj => (Laid.visit hj).before ⟨by simp [(hs n).1], by simp [(hs n).2]⟩)

theorem commaSeparated : Pieces c (c.recast q v) i [r] (c.commaSeparated (c.childrenIn i r))
    ((c.recast q v).commaSeparated (c.childrenIn i r)) := separated fun _ => by simp

theorem run : Pieces c (c.recast q v) i [r] (c.run (c.childrenIn i r))
    ((c.recast q v).run (c.childrenIn i r)) :=
  .ofAll (.flatMap fun _ hj => (Laid.visit hj).before (x := [.tick]) (y := [.tick]) (by simp))

theorem flatMap_visit : Pieces c (c.recast q v) i [r] ((c.childrenIn i r).flatMap c.visit)
    ((c.childrenIn i r).flatMap v) := .ofAll (.flatMap fun _ hj => .visit hj)

theorem enclosedList {opening closing : String} {b b' : Bool} (ho : Flat (token opening))
    (hc : Flat (token closing)) :
    Pieces c (c.recast q v) i [r] (c.enclosedList opening closing b (c.childrenIn i r))
      ((c.recast q v).enclosedList opening closing b' (c.childrenIn i r)) :=
  ((Laid.when fun _ => commaSeparated.spaced).before ⟨ho, rfl⟩).behind ⟨hc, rfl⟩

theorem parenList {p p' : ParenSpacing} :
    Pieces c (c.recast q v) i [r] (c.parenList p (c.childrenIn i r))
    ((c.recast q v).parenList p' (c.childrenIn i r)) :=
  (enclosedList (by simp) (by simp)).before (by simp)

theorem arguments : Pieces c (c.recast q v) i [.argument] (c.arguments i)
    ((c.recast q v).arguments i) := parenList

theorem angleList : Pieces c (c.recast q v) i [r] (c.angleList (c.childrenIn i r))
    ((c.recast q v).angleList (c.childrenIn i r)) := .when fun _ => enclosedList (by simp) (by simp)

theorem typeArguments :
    Pieces c (c.recast q v) i [.typeArgument] (c.typeArguments i)
      ((c.recast q v).typeArguments i) := angleList

theorem typeParameters :
    Pieces c (c.recast q v) i [.typeParameter] (c.typeParameters i)
      ((c.recast q v).typeParameters i) := angleList

theorem attributes :
    Pieces c (c.recast q v) i [.attributeSection] (c.attributes i) ((c.recast q v).attributes i) :=
  flatMap_visit

theorem optionalValue : Pieces c (c.recast q v) i [r] (c.optionalValue i r)
    ((c.recast q v).optionalValue i r) :=
  .when fun _ => visitIn.before (by simp)

theorem binding :
    Pieces c (c.recast q v) i [.identifier, .expression] (c.binding i) ((c.recast q v).binding i) :=
  (name.behind (by simp)).next required

theorem braces {style style' : BraceStyle} (hb : (c.tree.kind i).bracesIn r = true)
    (hc : c.has i r = true) : Pieces c (c.recast q v) i [r] (c.block style (c.child i r))
      ((c.recast q v).block style' (c.child i r)) := by
  refine ofFirst ?_
  rw [Tree.firstIn_of_child (bne_iff_ne.mp hc)]
  exact .block hc (.inl hb)

theorem needBraces {x y : BraceStyle} (hb : (c.tree.kind i).bracesIn r = true) :
    Pieces c (c.recast q v) i [r] (c.need i r ++ c.block x (c.child i r))
      ((c.recast q v).need i r ++ (c.recast q v).block y (c.child i r)) := Laid.demand (braces hb)

theorem embedded {x y : KeywordPlacement} :
    Pieces c (c.recast q v) i [r] (c.embedded (c.child i r) x)
      ((c.recast q v).embedded (c.child i r) y) :=
  .ofFirst .embedded

theorem embeddedBody :
    Pieces c (c.recast q v) i [.embeddedStatement] (c.embeddedBody i)
      ((c.recast q v).embeddedBody i) := embedded

theorem joined {between between' : NodeId → NodeId → Layout}
    (hb : ∀ p j, Words (between p j) (between' p j)) :
    Pieces c (c.recast q v) i [r] (c.joined between none (c.childrenIn i r))
      ((c.recast q v).joined between' none (c.childrenIn i r)) := by
  have hrest (nodes : List NodeId) (previous : Option NodeId)
    (hn : ∀ j ∈ nodes, j ∈ c.childrenIn i r) :
      Laid c (c.recast q v) i nodes (c.joined between previous nodes)
        ((c.recast q v).joined between' previous nodes) := by
    induction nodes generalizing previous with
    | nil => exact .nil
    | cons j nodes ih =>
        have hwords : Words (.tick :: (previous.map fun p => between p j).getD [])
            (.tick :: (previous.map fun p => between' p j).getD []) := by
          cases previous with
          | none => simp
          | some p => simpa using hb p j
        have hj := (Laid.visit (d := c.recast q v) (hn j List.mem_cons_self)).before hwords
        exact hj.append fun _ => ih (some j) fun k hk => hn k (List.mem_cons_of_mem _ hk)
  exact .ofAll (hrest _ none fun _ hj => hj)

theorem topLevelMembers :
    Pieces c (c.recast q v) i [.member] (c.topLevelMembers i) ((c.recast q v).topLevelMembers i) :=
  joined fun _ _ => by simp

theorem declared {M : Modifiers} :
    Pieces c (c.recast q v) i [.attributeSection] (c.declared i M) ((c.recast q v).declared i M) :=
  attributes.behind (by simp)

theorem functionBody {style style' : BraceStyle} (hb : (c.tree.kind i).bracesIn .body = true) :
    Pieces c (c.recast q v) i [.body] (c.functionBody style i)
      ((c.recast q v).functionBody style' i) :=
  .ite (fun hc => (braces hb hc).behind (by simp)) fun _ => .nothing (by simp)

end Pieces

inductive Construct (c d : Context) (i : NodeId) : Layout → Layout → Prop
  | word {w : Call} (hw : c.tree.IsWord i w) :
      Construct c d i (node i [.write w]) (node i [.write w])
  | node {R : List Role} {l m : Layout} (hi : c.tree.IsComposite i) (hl : ¬ c.tree.IsLink i)
      (hn : R.Nodup)
      (hf : ∀ r ∈ R, (c.tree.kind i).encloses r = false) (h : Pieces c d i R l m) :
      Construct c d i (node i l) (node i m)
  | block (hk : c.tree.kind i = .statement .block) {style style' : BraceStyle} {b : Bool} :
      Construct c d i (c.block style i ++ when b newLine) (d.block style' i ++ when b newLine)
  | link {R : List Role} {l l' m m' x y : Layout} (hk : c.tree.IsLink i) (hn : (.target :: R).Nodup)
      (hf : ∀ r ∈ R, r.isFree = true) (ht : Pieces c d i [.target] l m) (h : Pieces c d i R l' m')
      (hx : code x = []) (hy : code y = []) :
      Construct c d i (node i (l ++ x ++ l' ++ y)) (node i (m ++ x ++ m' ++ y))
  | branch {l l' m m' : Layout} (hk : c.tree.kind i = .statement .branch)
      (hn : c.child i .falseStatement = .null)
      (hc : Laid c d i (c.tree.firstIn i .condition) l m)
      (ht : Laid c d i (c.tree.firstIn i .trueStatement) l' m') :
      Construct c d i (node i (keyword "if" ++ (l ++ l'))) (node i (keyword "if" ++ (m ++ m')))
  | branchElse {l l' l'' m m' m'' : Layout} (hk : c.tree.kind i = .statement .branch)
      (hn : c.child i .falseStatement ≠ .null) (hc : Laid c d i (c.tree.firstIn i .condition) l m)
      (ht : Laid c d i (c.tree.firstIn i .trueStatement) l' m')
      (hf : Laid c d i (c.tree.firstIn i .falseStatement) l'' m'') :
      Construct c d i (node i (keyword "if" ++ (l ++ l' ++ (keyword "else" ++ l''))))
        (node i (keyword "if" ++ (m ++ m' ++ (keyword "else" ++ m''))))
  | switch {k : BraceKind} {x y : BraceStyle} {b e : Bool} {l l' m m' : Layout}
      (hk : c.tree.kind i = .statement .switch) (h : Pieces c d i [.expression] l m)
      (hs : Pieces c d i [.switchSection] l' m') :
      Construct c d i
        (node i (l ++ (openBrace x k true ++ outdentedUnless b l' ++ closeBrace x true) ++ newLine))
        (node i (m ++ (openBrace y k true ++ outdentedUnless e m' ++ closeBrace y true) ++ newLine))
  | guarded {b : Bool} {e : Defect} {l m : Layout} (h : b = false → Construct c d i l m) :
      Construct c d i (when b (fail i e) ++ l) (when b (fail i e) ++ m)

namespace Construct

open Pieces
open Context (chainBreak elementBreak asyncMark sides yield)

theorem free (hi : c.tree.IsComposite i ∧ ¬ c.tree.IsLink i) (h : Pieces c d i R l m)
    (hrs : R.Nodup ∧ ∀ r ∈ R, r.isFree = true) :
    Construct c d i (Layout.node i l) (Layout.node i m) :=
  .node hi.1 hi.2 hrs.1 (fun r hr => Kind.encloses_of_isFree (hrs.2 r hr)) h

theorem lambdaParameters :
    Pieces c (c.recast q v) i [.parameter] (c.lambdaParameters i)
      ((c.recast q v).lambdaParameters i) := by
  have hlist : Pieces c (c.recast q v) i [.parameter]
      (c.enclosedList "(" ")" c.policy.methodDeclarationParens.within (c.childrenIn i .parameter))
      ((c.recast q v).enclosedList "(" ")" q.methodDeclarationParens.within
        (c.childrenIn i .parameter)) :=
    enclosedList (by simp) (by simp)
  unfold Context.lambdaParameters
  rw [Context.recast_childrenIn]
  split
  next p hp =>
    have hparameter : Pieces c (c.recast q v) i [.parameter] (c.visit p) (v p) := by
      refine .ofAll ?_
      rw [hp]
      exact .visit (r := .parameter) (hp ▸ List.mem_cons_self)
    exact .ite (fun _ => hparameter) fun _ => hp ▸ hlist
  next => exact hlist

theorem elements : Pieces c (c.recast q v)
    i [.expression] (c.elements i (c.childrenIn i .expression))
    ((c.recast q v).elements i (c.childrenIn i .expression)) := by
  have hlist (always always' : Bool) : Pieces c (c.recast q v) i [.expression]
      (c.separated (fun n => c.comma false ++ elementBreak always n) (c.childrenIn i .expression))
      ((c.recast q v).separated (fun n => (c.recast q v).comma false ++ elementBreak always' n)
        (c.childrenIn i .expression)) := separated fun n => by simp
  have hedge (wrapped wrapped' : Bool) :
      Words (if wrapped then newLine else space) (if wrapped' then newLine else space) := by
    cases wrapped <;> cases wrapped' <;> simp
  unfold Context.elements
  extract_lets always wrapped style edge always' wrapped' style' edge'
  have hinner :=
    (((hlist always always').before (x := when (!wrapped) space) (y := when (!wrapped') space)
    (by simp)).behind (x := c.trailingComma (c.childrenIn i .expression).getLast?)
    (y := (c.recast q v).trailingComma (c.childrenIn i .expression).getLast?)
      (by simp)).behind (hedge wrapped wrapped')
  have henclosed := hinner.enclosed (k := c.tree.braceKind i) (x := style) (y := style')
    (f := wrapped) (g := wrapped')
  simp only [List.append_assoc] at henclosed ⊢
  exact henclosed

theorem arrayInitializer (hi : c.tree.IsComposite i ∧ ¬ c.tree.IsLink i) :
    Construct c (c.recast q v) i (c.arrayInitializer i) ((c.recast q v).arrayInitializer i) := by
  refine free (R := [.expression]) hi ?_ (by decide)
  rw [Context.recast_childrenIn]
  split
  next j hj =>
    have helement : Pieces c (c.recast q v) i [.expression] (c.visit j) (v j) := by
      refine .ofAll ?_
      rw [hj]
      exact .visit (r := .expression) (hj ▸ List.mem_cons_self)
    exact .ite (fun _ => helement) fun _ => hj ▸ elements
  next => exact elements

theorem invocation (hk : c.tree.kind i = .expression .invocation) :
    Construct c (c.recast q v) i (c.invocation i) ((c.recast q v).invocation i) := by
  have h := link (R := [.argument]) (x := [])
    (y := when (!c.tree.hasParent i (· = .expression .member) &&
    c.tree.kind (c.child i .target) = .expression .member &&
      chainBreak ≤ c.tree.callChain (c.child i .target)) unindent) (.inr hk) (by decide) (by decide)
    (required (q := q) (v := v)) arguments rfl (by simp)
  rwa [List.append_nil, List.append_nil] at h

theorem member (hk : c.tree.kind i = .expression .member) :
    Construct c (c.recast q v) i (c.member i) ((c.recast q v).member i) := by
  have hname : Pieces c (c.recast q v) i [.identifier, .typeArgument]
      (token "." ++ (c.name i ++ c.typeArguments i))
      (token "." ++ ((c.recast q v).name i ++ (c.recast q v).typeArguments i)) :=
    (name.next typeArguments).before (by simp)
  have h := link (R := [.identifier, .typeArgument])
    (x := when (chainBreak ≤ c.tree.callChain i)
      (when (c.tree.callChain i = chainBreak) indent ++ newLine))
    (y := when
      (chainBreak ≤ c.tree.callChain i && !c.tree.hasParent i (· = .expression .invocation))
      unindent)
    (.inl hk) (by decide) (by decide) (required (q := q) (v := v)) hname (by simp) (by simp)
  simp only [← List.append_assoc] at h
  exact h

theorem expression {k : ExpressionKind} (hk : c.tree.kind i = .expression k) :
    Construct c (c.recast q v) i (c.expression i k) ((c.recast q v).expression i k) := by
  have hi (hw : c.tree.wordOf? i = none) (hl : k ≠ .member ∧ k ≠ .invocation) :
      c.tree.IsComposite i ∧ ¬ c.tree.IsLink i :=
    ⟨.inr ⟨by rw [hk]; rfl, hw⟩, by simp [Tree.IsLink, hk, hl.1, hl.2]⟩
  have hword {w : Call} (hw : c.tree.wordOf? i = some w) :
      Construct c (c.recast q v) i (Layout.node i [.write w]) (Layout.node i [.write w]) :=
        .word ⟨by rw [hk]; rfl, hw⟩
  cases k with
  | literal | nullRef | thisRef | baseRef | error => exact hword (by simp [Tree.wordOf?, hk])
  | identifier =>
      exact free (hi (by simp [Tree.wordOf?, hk]) (by simp)) (name.next typeArguments) (by decide)
  | binary | assignment =>
      exact free (hi (by simp [Tree.wordOf?, hk]) (by simp))
        (((visitIn.before (by simp)).behind (by simp)).next visitIn)
        (by decide)
  | unary op =>
      exact free (hi (by simp [Tree.wordOf?, hk]) (by simp))
        ((visitIn.before ⟨flat_append.mpr
          ⟨by simp, flat_ite (by cases op <;> simp [UnaryOperator.token]) (by simp)⟩,
          by simp⟩).behind (by simp)) (by decide)
  | conditional =>
      exact free (hi (by simp [Tree.wordOf?, hk]) (by simp))
        (((((visitIn.before (by simp)).behind (by simp [sides])).next visitIn).behind
          (by simp [sides])).next visitIn)
        (by decide)
  | cast =>
      exact free (hi (by simp [Tree.wordOf?, hk]) (by simp))
        (((visitIn.parens.before (by simp)).behind (by simp)).next visitIn) (by decide)
  | asType | isType =>
      exact free (hi (by simp [Tree.wordOf?, hk]) (by simp))
        (((((visitIn.before (by simp)).behind (by simp)).behind (by simp)).behind (by simp)).next
          visitIn) (by decide)
  | invocation => exact invocation hk
  | member => exact member hk
  | indexer =>
      exact free (hi (by simp [Tree.wordOf?, hk]) (by simp))
        ((required.behind (by simp)).next (enclosedList (by simp) (by simp))) (by decide)
  | parenthesized =>
      exact free (hi (by simp [Tree.wordOf?, hk]) (by simp)) (visitIn.parens.before (by simp))
        (by decide)
  | lambda isAsync =>
      exact free (hi (by simp [Tree.wordOf?, hk]) (by simp))
        (((lambdaParameters.before (by simp [asyncMark])).behind (by simp)).next required)
          (by decide)
  | anonymousMethod isAsync hasParameterList =>
      exact free (hi (by simp [Tree.wordOf?, hk]) (by simp))
        (((Laid.when fun _ => parenList).before (by simp [asyncMark])).next required) (by decide)
  | objectCreate =>
      exact free (hi (by simp [Tree.wordOf?, hk]) (by simp))
        (((required.before (by simp)).next (.when fun _ => arguments)).next visitIn) (by decide)
  | arrayCreate =>
      exact free (hi (by simp [Tree.wordOf?, hk]) (by simp))
        ((((visitIn.before (by simp)).next (.when fun _ => enclosedList (by simp) (by simp))).next
          flatMap_visit).next
          visitIn) (by decide)
  | arrayInitializer => exact arrayInitializer (hi (by simp [Tree.wordOf?, hk]) (by simp))
  | named => exact free (hi (by simp [Tree.wordOf?, hk]) (by simp)) binding (by decide)
  | typeOf | defaultValue | sizeOf | checked | unchecked =>
      exact free (hi (by simp [Tree.wordOf?, hk]) (by simp)) (visitIn.parens.before (by simp))
        (by decide)
  | typeReference => exact free (hi (by simp [Tree.wordOf?, hk]) (by simp)) required (by decide)
  | direction e =>
      cases e <;> exact free (hi (by simp [Tree.wordOf?, hk]) (by simp)) (visitIn.before (by simp))
        (by decide)
  | query =>
      exact free (hi (by simp [Tree.wordOf?, hk]) (by simp))
        (separated fun _ => by simp).deeper (by decide)

theorem type {k : TypeKind} (hk : c.tree.kind i = .type k) :
    Construct c (c.recast q v) i (c.type i k) ((c.recast q v).type i k) := by
  have hi (hw : c.tree.wordOf? i = none) : c.tree.IsComposite i ∧ ¬ c.tree.IsLink i :=
    ⟨.inr ⟨by rw [hk]; rfl, hw⟩, by simp [Tree.IsLink, hk]⟩
  cases k with
  | simple => exact free (hi (by simp [Tree.wordOf?, hk])) (name.next typeArguments) (by decide)
  | member doubleColon =>
      exact free (hi (by simp [Tree.wordOf?, hk]))
        (((required.behind (by cases doubleColon <;> simp)).next name).next typeArguments)
          (by decide)
  | primitive word => exact .word ⟨by rw [hk]; rfl, by simp [Tree.wordOf?, hk]⟩
  | composed nullable rank =>
      exact free (hi (by simp [Tree.wordOf?, hk]))
        (((required.behind (by simp)).behind ⟨flat_replicate (by simp), rfl⟩).next flatMap_visit)
          (by decide)

theorem forHeader : Pieces c (c.recast q v) i [.forInitializer, .condition, .forIterator]
    (c.forHeader i) ((c.recast q v).forHeader i) :=
  ((((commaSeparated.behind (by simp)).behind (by simp)).next visitIn).behind (by simp)).next
    (.when fun _ => commaSeparated.before (by simp))

theorem locals : Pieces c (c.recast q v) i [.type, .variable_] (c.locals i)
    ((c.recast q v).locals i) :=
  (required.behind (by simp)).next commaSeparated

theorem optionalOperand :
    Pieces c (c.recast q v) i [.expression] (c.optionalOperand i)
      ((c.recast q v).optionalOperand i) :=
  .when fun _ => visitIn.before (by simp)

theorem ifStatement (hk : c.tree.kind i = .statement .branch) :
    Construct c (c.recast q v) i (c.branch i) ((c.recast q v).branch i) := by
  have hcondition : Laid c (c.recast q v) i (c.tree.firstIn i .condition)
      (c.need i .condition ++ Context.parens c.policy.ifParens (c.visitIn i .condition))
      ((c.recast q v).need i .condition ++
        Context.parens q.ifParens ((c.recast q v).visitIn i .condition)) :=
    Laid.visitIn.parens.before (by simp)
  have hnegative : Laid c (c.recast q v) i (c.tree.firstIn i .falseStatement)
      (if c.tree.kind (c.child i .falseStatement) = .statement .branch
        then space ++ c.visit (c.child i .falseStatement)
        else c.embedded (c.child i .falseStatement) .newLine)
      (if c.tree.kind (c.child i .falseStatement) = .statement .branch
        then space ++ v (c.child i .falseStatement)
        else (c.recast q v).embedded (c.child i .falseStatement) .newLine) :=
    .ite (fun _ => Laid.visitIn.before (by simp)) fun _ => .embedded
  unfold Context.branch
  simp only [Context.recast_child, Context.recast_tree, Context.recast_visit]
  by_cases hn : c.child i .falseStatement = .null
  · have h := branch hk hn hcondition (Laid.embedded (x := .newLine) (y := .newLine))
    simp only [← List.append_assoc] at h
    simp only [hn, if_true]
    exact h
  · have h := branchElse hk hn hcondition (Laid.embedded (x := c.policy.elsePlacement)
      (y := q.elsePlacement)) hnegative
    simp only [← List.append_assoc] at h
    simp only [hn, if_false, ← List.append_assoc]
    exact h

theorem tryCatch (hk : c.tree.kind i = .statement .tryCatch) :
    Construct c (c.recast q v) i (c.tryCatch i) ((c.recast q v).tryCatch i) := by
  have htry : Pieces c (c.recast q v) i [.tryBlock] (keyword "try" ++ c.need i .tryBlock ++
      c.block c.policy.statementBrace (c.child i .tryBlock))
      (keyword "try" ++ (c.recast q v).need i .tryBlock ++
      (c.recast q v).block q.statementBrace (c.child i .tryBlock)) := by
    rw [List.append_assoc, List.append_assoc]
    exact (needBraces (by rw [hk]; rfl)).before (by simp)
  have hclauses : Pieces c (c.recast q v) i [.catchClause]
    ((c.childrenIn i .catchClause).flatMap fun clause =>
      keywordPlacement c.policy.catchPlacement ++
        c.visit clause) ((c.childrenIn i .catchClause).flatMap fun clause =>
      keywordPlacement q.catchPlacement ++ v clause) :=
    .ofAll (.flatMap fun _ hj => (Laid.visit hj).before (by simp))
  have hfinally : Pieces c (c.recast q v) i [.finallyBlock] (when (c.has i .finallyBlock)
      (keywordPlacement c.policy.finallyPlacement ++ keyword "finally" ++
        c.block c.policy.statementBrace (c.child i .finallyBlock)))
      (when (c.has i .finallyBlock) (keywordPlacement q.finallyPlacement ++ keyword "finally" ++
        (c.recast q v).block q.statementBrace (c.child i .finallyBlock))) :=
    .when fun hf => (braces (by rw [hk]; rfl) hf).before (by simp)
  exact free ⟨.inr ⟨by rw [hk]; rfl, by simp [Tree.wordOf?, hk]⟩, by simp [Tree.IsLink, hk]⟩
    (((htry.next hclauses).next hfinally).behind (by simp)) (by decide)

theorem markedBlock {word : String} (hi : c.tree.IsComposite i ∧ ¬ c.tree.IsLink i)
    (hb : (c.tree.kind i).bracesIn .body = true) (hw : Flat (keyword word)) :
    Construct c (c.recast q v) i (c.markedBlock i word) ((c.recast q v).markedBlock i word) := by
  have hbody : Pieces c (c.recast q v) i [.body] (keyword word ++ c.need i .body ++
      c.block c.policy.statementBrace (c.child i .body))
      (keyword word ++ (c.recast q v).need i .body ++
      (c.recast q v).block q.statementBrace (c.child i .body)) := by
    rw [List.append_assoc, List.append_assoc]
    exact (needBraces hb).before ⟨hw, rfl⟩
  exact free hi (hbody.behind (by simp)) (by decide)

theorem switchStatement (hk : c.tree.kind i = .statement .switch) :
    Construct c (c.recast q v) i (c.switch i) ((c.recast q v).switch i) := by
  have hvalue : Pieces c (c.recast q v) i [.expression]
      (keywordOf "switch" (some i) ++ c.need i .expression ++
        Context.parens c.policy.switchParens (c.visitIn i .expression))
      (keywordOf "switch" (some i) ++ (c.recast q v).need i .expression ++
        Context.parens q.switchParens ((c.recast q v).visitIn i .expression)) :=
        visitIn.parens.before (by simp)
  have h := switch (k := c.tree.braceKind i) (x := c.policy.statementBrace) (y := q.statementBrace)
    (b := c.policy.indentSwitch) (e := q.indentSwitch) hk hvalue run
  simp only [← List.append_assoc] at h
  exact h

theorem statement {k : StatementKind} (hk : c.tree.kind i = .statement k) :
    Construct c (c.recast q v) i (c.statement i k) ((c.recast q v).statement i k) := by
  have hi : c.tree.IsComposite i ∧ ¬ c.tree.IsLink i :=
    ⟨.inr ⟨by rw [hk]; rfl, by simp [Tree.wordOf?, hk]⟩, by simp [Tree.IsLink, hk]⟩
  cases k with
  | block => exact .block hk
  | branch => exact ifStatement hk
  | switch => exact switchStatement hk
  | tryCatch => exact tryCatch hk
  | checked | unchecked | unsafeBlock => exact markedBlock hi (by rw [hk]; rfl) (by simp)
  | expression => exact free hi (required.behind (by simp)) (by decide)
  | locals m => exact free hi ((locals.before (by simp)).behind (by simp)) (by decide)
  | empty => exact free (R := []) hi (.words (by simp)) (by decide)
  | whileLoop => exact free hi ((visitIn.parens.before (by simp)).next embeddedBody) (by decide)
  | doLoop =>
      have hbody : Pieces c (c.recast q v) i [.embeddedStatement] _ _ :=
        embedded (x := c.policy.whilePlacement)
        (y := q.whilePlacement)
      exact free hi
        (((((hbody.before (by simp)).behind (by simp)).behind (by simp)).next visitIn.parens).behind
        (by simp)) (by decide)
  | forLoop => exact free hi ((forHeader.parens.before (by simp)).next embeddedBody) (by decide)
  | foreachLoop =>
      have hheader :=
        ((((((required (c := c) (q := q) (v := v) (i := i) (r := .type)).behind
          (x := space) (y := space) (by simp)).next name).behind
          (x := space) (y := space) (by simp)).behind
          (x := keyword "in") (y := keyword "in") (by simp)).behind
          (x := space) (y := space) (by simp)).next (required (r := .inExpression))
      exact free hi ((hheader.parens.before (by simp)).next embeddedBody) (by decide)
  | lock | usingResource =>
      exact free hi ((visitIn.parens.before (by simp)).next embeddedBody) (by decide)
  | fixed => exact free hi ((locals.parens.before (by simp)).next embeddedBody) (by decide)
  | break_ | continue_ | gotoDefault | yieldBreak =>
      exact free (R := []) hi (.words (by simp [yield])) (by decide)
  | goto => exact free hi ((name.before (by simp)).behind (by simp)) (by decide)
  | gotoCase => exact free hi ((required.before (by simp)).behind (by simp)) (by decide)
  | return_ | throw =>
      exact free hi ((optionalOperand.before (by simp)).behind (by simp)) (by decide)
  | yieldReturn => exact free hi ((required.before (by simp [yield])).behind (by simp)) (by decide)
  | label =>
      exact free hi (((name.behind (by simp)).behind ⟨by simp, rfl⟩).behind (by simp)) (by decide)

theorem propertyBody :
    Pieces c (c.recast q v) i [.getter, .setter] (c.propertyBody i)
      ((c.recast q v).propertyBody i) := by
  have haccessors : Pieces c (c.recast q v) i [.getter, .setter] (c.accessors i)
    ((c.recast q v).accessors i) :=
    visitIn.next visitIn
  have hspaced : Pieces c (c.recast q v) i [.getter, .setter] (space ++ c.accessors i)
    ((c.recast q v).accessors i) :=
    haccessors.before (y := []) (by simp)
  have hspaced' : Pieces c (c.recast q v) i [.getter, .setter] (c.accessors i)
    (space ++ (c.recast q v).accessors i) :=
    haccessors.before (x := []) (by simp)
  have hboth : Pieces c (c.recast q v) i [.getter, .setter] (space ++ c.accessors i)
    (space ++ (c.recast q v).accessors i) := haccessors.before (by simp)
  unfold Context.propertyBody
  extract_lets kind
  split
  · simp only [List.append_assoc _ space]
    split
    · exact hboth.enclosed
    · exact hspaced.enclosed
  · split
    · simp only [List.append_assoc _ space]
      exact hspaced'.enclosed
    · exact haccessors.enclosed

theorem typeMembers {k : ClassType} : Pieces c (c.recast q v) i [.member]
    (if k = .enum then c.enumMembers (c.childrenIn i .member)
      else c.joined c.betweenMembers none (c.childrenIn i .member))
    (if k = .enum then (c.recast q v).enumMembers (c.childrenIn i .member)
      else (c.recast q v).joined (c.recast q v).betweenMembers none (c.childrenIn i .member)) :=
  .ite (fun _ => (separated fun _ => by simp).behind (by simp)) fun _ => joined fun _ _ => by simp

theorem typeDeclaration {classType : ClassType} {ms : Modifiers}
    (hi : c.tree.IsComposite i ∧ ¬ c.tree.IsLink i) :
    Construct c (c.recast q v) i (c.typeDeclaration i classType ms)
      ((c.recast q v).typeDeclaration i classType ms) := by
  have hword : Flat (keyword classType.keyword) := by cases classType <;> simp [ClassType.keyword]
  have hbases : Pieces c (c.recast q v) i [.baseType] (c.baseTypes i)
    ((c.recast q v).baseTypes i) :=
    .when fun _ => commaSeparated.before (by simp)
  have hhead :=
    (((((declared (c := c) (q := q) (v := v) (i := i) (M := ms)).behind ⟨hword, rfl⟩).behind
    (x := space) (y := space) (by simp)).next name).next typeParameters).next hbases
  have hbody := Laid.braces (k := c.tree.braceKind i) (x := c.policy.classTypeBrace classType)
    (y := q.classTypeBrace classType) (f := true) (g := true) (b := c.policy.indentClass)
    (e := q.indentClass) (fun _ => rfl)
      (typeMembers (c := c) (q := q) (v := v) (i := i) (k := classType))
  have h := free hi ((hhead.next hbody).behind (x := newLine) (y := newLine) (by simp)) (by decide)
  simp only [← List.append_assoc] at h
  exact h

theorem entity {k : EntityKind} (hk : c.tree.kind i = .entity k) :
    Construct c (c.recast q v) i (c.entity i k) ((c.recast q v).entity i k) := by
  have hi : c.tree.IsComposite i ∧ ¬ c.tree.IsLink i :=
    ⟨.inr ⟨by rw [hk]; rfl, by simp [Tree.wordOf?, hk]⟩, by simp [Tree.IsLink, hk]⟩
  cases k with
  | type classType ms => exact typeDeclaration hi
  | enumMember ms => exact free hi ((declared.next name).next optionalValue) (by decide)
  | field ms =>
      exact free hi
        ((((declared.next required).behind (by simp)).next commaSeparated).behind (by simp))
        (by decide)
  | property ms =>
      exact free hi
        (((((declared.next required).behind (by simp)).next name).next propertyBody).behind
        (by simp))
        (by decide)
  | accessor kind ms =>
      refine guarded fun _ => free hi ((declared.behind (by cases kind <;> simp)).next
        (functionBody (by rw [hk]; rfl))) (by decide)
  | method ms =>
      exact free hi
        (((((((declared.next required).behind (by simp)).next name).next typeParameters).next
        parenList).next
        (functionBody (by rw [hk]; rfl)))) (by decide)
  | constructor ms =>
      have hcall : Pieces c (c.recast q v) i [.initializer]
          (when (c.has i .initializer) (newLine ++ indent ++ c.visitIn i .initializer ++ unindent))
          (when (c.has i .initializer)
            (newLine ++ indent ++ (c.recast q v).visitIn i .initializer ++ unindent)) := by
        simp only [List.append_assoc newLine]
        exact .when fun _ => visitIn.deeper.before (by simp)
      exact free hi
        ((((declared.next name).next parenList).next hcall).next (functionBody (by rw [hk]; rfl)))
        (by decide)

theorem attributeSection {target : Option String} (hi : c.tree.IsComposite i ∧ ¬ c.tree.IsLink i) :
    Construct c (c.recast q v) i (c.attributeSection i target)
      ((c.recast q v).attributeSection i target) := by
  have hedge (b : Bool) : Flat (if b then space else newLine) := flat_ite (by simp) (by simp)
  cases target with
  | none =>
      exact free (R := [.attributeItem])
        hi (((commaSeparated.before (x := token "[" ++ []) (by simp)).behind
        (by simp)).behind ⟨hedge _, rfl⟩) (by decide)
  | some name =>
      -- a word that is no target fails in front, so that no target is the word of a branch
      refine guarded fun hb => ?_
      have hname : name ∈ attributeTargets := by simpa using hb
      have hword : name ≠ "if" ∧ name ≠ "else" := by
        constructor <;> rintro rfl <;> exact absurd hname (by decide)
      exact free hi
        (((commaSeparated.before (by simp [hword])).behind (by simp)).behind ⟨hedge _, rfl⟩)
        (by decide)

theorem part {k : PartKind} (hk : c.tree.kind i = .part k) :
    Construct c (c.recast q v) i (c.part i k) ((c.recast q v).part i k) := by
  have hi : c.tree.IsComposite i ∧ ¬ c.tree.IsLink i :=
    ⟨.inr ⟨by rw [hk]; rfl, by simp [Tree.wordOf?, hk]⟩, by simp [Tree.IsLink, hk]⟩
  cases k with
  | compilationUnit => exact free hi topLevelMembers (by decide)
  | usingDirective => exact free hi ((required.before (by simp)).behind (by simp)) (by decide)
  | namespaceBlock =>
      have hbody := Laid.braces (k := c.tree.braceKind i) (x := c.policy.namespaceBrace)
        (y := q.namespaceBrace) (f := true) (g := true) (b := c.policy.indentNamespace)
        (e := q.indentNamespace) (fun _ => rfl)
          (topLevelMembers (c := c) (q := q) (v := v) (i := i))
      have hname := (name (c := c) (q := q) (v := v) (i := i)).before (x :=
        keyword "namespace" ++ space)
        (y := keyword "namespace" ++ space) (by simp)
      have h := free hi ((hname.next hbody).behind (x := newLine) (y := newLine) (by simp))
        (by decide)
      simp only [← List.append_assoc] at h
      exact h
  | constructorCall kind => cases kind <;> exact free hi (arguments.before (by simp)) (by decide)
  | parameter m =>
      have hmodifier : Flat (Context.parameterModifier m) := by
        cases m <;> simp [Context.parameterModifier]
      exact free hi
        ((((attributes.behind ⟨hmodifier, rfl⟩).next (.when fun _ => visitIn.behind (by simp))).next
        name).next optionalValue) (by decide)
  | typeParameter => exact free hi (attributes.next name) (by decide)
  | attributeSection target => exact attributeSection hi
  | attributeItem => exact free hi (required.next (.when fun _ => arguments)) (by decide)
  | variable_ => exact free hi (name.next optionalValue) (by decide)
  | arraySpecifier dimensions =>
      have hcommas : Flat (List.replicate (dimensions - 1) (token ",")).flatten :=
        flat_replicate (by simp)
      exact free (R := []) hi (.words (by simp [hcommas])) (by decide)
  | switchSection =>
      have hlabels : Pieces c (c.recast q v) i [.caseLabel] (c.labels (c.childrenIn i .caseLabel))
          ((c.recast q v).labels (c.childrenIn i .caseLabel)) :=
        .ofAll (.mapIdx fun n _ hj => (Laid.visit hj).before (by simp))
      have hstatements (isBlock : Bool) := Laid.indented (b := c.policy.indentCase && !isBlock)
        (e := q.indentCase && !isBlock)
          ((run (c := c) (q := q) (v := v) (i := i) (r := .statement)).before
          (x := when (!isBlock) newLine) (y := when (!isBlock) newLine) (by simp))
      have h := hlabels.next (hstatements (c.isSingleBlock (c.childrenIn i .statement)))
      simp only [← List.append_assoc] at h
      exact guarded fun _ => .node hi.1 hi.2 (by decide) (by rw [hk]; decide) h
  | caseLabel =>
      exact guarded fun _ => free hi
        (Laid.behind (.ite (fun _ => visitIn.before (by simp)) fun _ => .nothing (by simp))
        (by simp)) (by decide)
  | catchClause =>
      have hname : Pieces c (c.recast q v)
        i [.identifier] (when (c.has i .identifier) (space ++ c.name i))
          (when (c.has i .identifier) (space ++ (c.recast q v).name i)) :=
            .when fun _ => name.before (by simp)
      have htype : Pieces c (c.recast q v) i [.type, .identifier]
        (when (c.has i .type) (c.caughtType i))
          (when (c.has i .type) ((c.recast q v).caughtType i)) :=
            .when fun _ => (visitIn.next hname).parens
      have hbody := (htype.before (x := keyword "catch") (y := keyword "catch") (by simp)).next
        (needBraces (x := c.policy.statementBrace) (y := q.statementBrace) (r := .body)
          (by rw [hk]; rfl))
      simp only [← List.append_assoc] at hbody
      exact guarded fun _ => free hi hbody (by decide)
  | fromClause =>
      exact free hi
        (((((((Laid.when fun _ => visitIn.behind (by simp)).before (by simp)).next name).behind
        (by simp)).behind (by simp)).behind (by simp)).next required) (by decide)
  | letClause => exact free hi (binding.before (by simp)) (by decide)
  | whereClause | selectClause => exact free hi (required.before (by simp)) (by decide)
  | orderClause => exact free hi (commaSeparated.before (by simp)) (by decide)
  | ordering descending => exact guarded fun _ => free hi (required.behind (by simp)) (by decide)

end Construct

/-- The layouts of a node under two policies are put together alike. -/
theorem construct_kind (hk : (c.tree.kind i).isVisited = true) :
    Construct c (c.recast q v) i (c.kind i (c.tree.kind i))
      ((c.recast q v).kind i (c.tree.kind i)) := by
  cases hi : c.tree.kind i with
  | null | identifier | token | modifier | special => simp [hi, Kind.isVisited] at hk
  | entity k => exact .entity hi
  | part k => exact .part hi
  | type k => exact .type hi
  | statement k => exact .statement hi
  | expression k => exact .expression hi

end TreeScribe.Layout
