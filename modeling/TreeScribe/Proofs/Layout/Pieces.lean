import TreeScribe.Proofs.Layout.Code
import TreeScribe.Proofs.Tree.Parts

namespace TreeScribe

def Call.node? : Call → Option NodeId
  | .start i | .identifier i => some i
  | _ => none

namespace Role

/-- Whether no parent writes statements in a role between braces. -/
def isFree : Role → Bool
  | .statement | .switchSection => false
  | _ => true

end Role

namespace Kind

/-- Whether a parent of this kind writes braces for its child in a role, whatever the child is. -/
def bracesIn : Kind → Role → Bool
  | .entity (.method _), .body | .entity (.constructor _), .body
  | .entity (.accessor ..), .body => true
  | .part .catchClause, .body => true
  | .statement .checked, .body | .statement .unchecked, .body
  | .statement .unsafeBlock, .body => true
  | .statement .tryCatch, .tryBlock | .statement .tryCatch, .finallyBlock => true
  | _, _ => false

def isVisited : Kind → Bool
  | .null | .identifier .. | .token | .modifier _ | .special _ => false
  | _ => true

/-- Roles in which a node of this kind writes statements between its braces. -/
def encloses : Kind → Role → Bool
  | .part .switchSection, _ => false
  | .statement .switch, .switchSection => true
  | _, .statement => true
  | _, _ => false

theorem encloses_of_isFree {k : Kind} {r : Role} (hr : r.isFree = true) : k.encloses r = false := by
  unfold encloses
  split
  · rfl
  · cases hr
  · cases hr
  · rfl

end Kind

namespace Tree

def wordOf? (t : Tree) (i : NodeId) : Option Call :=
  match t.kind i with
  | .expression (.literal v) => some (.literal v)
  | .expression .nullRef => some (.literal .null)
  | .expression .thisRef => some (.keyword (t.role i) "this")
  | .expression .baseRef => some (.keyword (t.role i) "base")
  | .expression .error => some (.special (.comment .block " error "))
  | .type (.primitive word) => some (.primitiveType word)
  | _ => none

/-- Whether a node stands where its parent writes a block. -/
def InPlaceOfBlock (t : Tree) (i : NodeId) : Prop :=
  ∃ p, t.parent i = some p ∧ (t.kind p).bracesIn (t.role i) = true

def IsWord (t : Tree) (i : NodeId) (c : Call) : Prop :=
  (t.kind i).isVisited = true ∧ t.wordOf? i = some c

/-- A node of words and children: braces, where a block is expected, and else what its kind asks
for. -/
def IsComposite (t : Tree) (i : NodeId) : Prop :=
  t.InPlaceOfBlock i ∨ (t.kind i).isVisited = true ∧ t.wordOf? i = none

theorem isComposite_of_statement {t : Tree} {i : NodeId} {k : StatementKind}
    (hk : t.kind i = .statement k) :
    t.IsComposite i := .inr ⟨by rw [hk]; rfl, by simp [wordOf?, hk]⟩

def IsLink (t : Tree) (i : NodeId) : Prop :=
  t.kind i = .expression .member ∨ t.kind i = .expression .invocation

theorem of_wordOf? {t : Tree} {i : NodeId} {c : Call} (h : t.wordOf? i = some c) :
    c.node? = none ∧ c.isBlank = false := by
  unfold wordOf? at h
  split at h <;> cases h <;> exact ⟨rfl, rfl⟩

def firstIn (t : Tree) (i : NodeId) (r : Role) : List NodeId := (t.childrenIn i r).take 1

variable {t : Tree} {i j : NodeId} {r : Role}

theorem firstIn_sublist : (t.firstIn i r).Sublist (t.childrenIn i r) := List.take_sublist ..

theorem eq_child_of_mem_firstIn (h : j ∈ t.firstIn i r) : j = t.child i r := by
  unfold firstIn at h
  unfold child
  cases hl : t.childrenIn i r with
  | nil => simp [hl] at h
  | cons c l => simpa [hl] using h

theorem firstIn_of_child (h : t.child i r ≠ .null) : t.firstIn i r = [t.child i r] := by
  unfold firstIn child at *
  cases hl : t.childrenIn i r with
  | nil => simp [hl] at h
  | cons c l => rfl

end Tree

@[simp] theorem BinaryOperator.token_ne {op : BinaryOperator} :
    op.token ≠ "\x7b" ∧ op.token ≠ "\x7d" := by
  cases op <;> decide

@[simp] theorem AssignmentOperator.token_ne {op : AssignmentOperator} :
    op.token ≠ "\x7b" ∧ op.token ≠ "\x7d" := by
  cases op <;> decide

@[simp] theorem UnaryOperator.token_ne {op : UnaryOperator} :
    op.token ≠ "\x7b" ∧ op.token ≠ "\x7d" := by
  cases op <;> decide

/-- Commands that write no node, neither open nor close anything, and are no words of a branch. -/
@[simp] def Command.isFlat : Command → Bool
  | .write (.token (.token text) text') => text = text' && text' ≠ "\x7b" && text' ≠ "\x7d"
  | .write (.keyword (.token text) text') => text = text' && text' ≠ "if" && text' ≠ "else"
  | .write (.keyword .modifier word) => Modifier.all.any fun m => m.keyword = word
  | .write .space | .write .newLine => true
  | .write _ | .openBrace _ | .closeBrace => false
  | _ => true

namespace Layout

def Flat (l : Layout) : Prop := ∀ c ∈ l, c.isFlat = true

@[simp] def Words (l m : Layout) : Prop := Flat l ∧ code m = code l

variable {l l' m m' : Layout} {i : NodeId} {b b' : Bool}

@[simp] theorem flat_nil : Flat [] := by simp [Flat]

@[simp] theorem flat_cons {c : Command} : Flat (c :: l) ↔ c.isFlat = true ∧ Flat l :=
  List.forall_mem_cons

@[simp] theorem flat_append : Flat (l ++ m) ↔ Flat l ∧ Flat m := List.forall_mem_append

@[simp] theorem flat_when : Flat (when b l) ↔ (b = true → Flat l) := by
  cases b <;> simp [when]

theorem flat_ite {p : Prop} [Decidable p] (hl : Flat l) (hm : Flat m) :
    Flat (if p then l else m) := by
  split <;> assumption

@[simp] theorem flat_keyword {word : String} :
    Flat (keyword word) ↔ word ≠ "if" ∧ word ≠ "else" := by
  simp [keyword]

@[simp] theorem flat_token {text : String} : Flat (token text) ↔ text ≠ "\x7b" ∧ text ≠ "\x7d" := by
  simp [token]

@[simp] theorem flat_space : Flat space := by simp [space]

@[simp] theorem flat_newLine : Flat newLine := by simp [newLine]

@[simp] theorem flat_fail {d : Defect} : Flat (fail i d) := by simp [fail]

@[simp] theorem flat_spaceIf : Flat (spaceIf b) := by simp [spaceIf]

@[simp] theorem flat_spaced : Flat (spaced b l) ↔ Flat l := by simp [spaced]

theorem flat_replicate {n : Nat} (h : Flat l) : Flat (List.replicate n l).flatten := by
  intro c hc
  obtain ⟨l', hl, hc⟩ := List.mem_flatten.mp hc
  exact h c (List.eq_of_mem_replicate hl ▸ hc)

@[simp] theorem flat_newLines {n : Nat} : Flat (newLines n) := flat_replicate flat_newLine

@[simp] theorem flat_keywordOf {word : String} {o : Option NodeId} :
    Flat (keywordOf word o) ↔ word ≠ "if" ∧ word ≠ "else" := by
  cases o <;> simp [keywordOf]

@[simp] theorem flat_keywordPlacement {p : KeywordPlacement} : Flat (keywordPlacement p) := by
  cases p <;> simp [keywordPlacement]

namespace Context

variable {c : Context} {r : Role}

def recast (c : Context) (q : Policy) (v : NodeId → Layout) : Context := ⟨c.tree, q, v⟩

@[simp] theorem flat_modifiers {m : Modifiers} : Flat (modifiers m) := by
  intro c hc
  obtain ⟨m, -, hc⟩ := List.mem_flatMap.mp hc
  rcases List.mem_cons.mp hc with rfl | hc
  · exact List.any_eq_true.mpr ⟨m, by cases m <;> decide, by simp⟩
  · exact flat_space c hc

@[simp] theorem flat_need : Flat (c.need i r) := by simp [need]

@[simp] theorem failure?_need : failure? (c.need i r) = none ↔ c.has i r = true := by
  unfold need
  cases c.has i r with
  | false => simp [when, fail, failure?, Command.failure?]
  | true => simp [when, failure?]

@[simp] theorem flat_comma : Flat (c.comma b) := by simp [comma]

@[simp] theorem flat_trailingComma {last : Option NodeId} : Flat (c.trailingComma last) := by
  unfold trailingComma
  split
  · simp
  · split <;> simp

@[simp] theorem flat_equals : Flat c.equals := by simp [equals]

@[simp] theorem flat_semicolon : Flat (c.semicolon i) := by
  unfold semicolon
  split
  · simp
  · simp
  · simp
  · exact flat_append.mpr ⟨by simp, flat_ite flat_space flat_newLine⟩

@[simp] theorem flat_betweenMembers {p : NodeId} : Flat (c.betweenMembers p i) := by
  simp [betweenMembers]

@[simp] theorem flat_elementBreak {n : Nat} : Flat (elementBreak b n) :=
  flat_ite flat_newLine flat_space

variable {q : Policy} {v : NodeId → Layout}

@[simp] theorem recast_tree : (c.recast q v).tree = c.tree := rfl

@[simp] theorem recast_visit : (c.recast q v).visit = v := rfl

@[simp] theorem recast_child : (c.recast q v).child i r = c.child i r := rfl

@[simp] theorem recast_has : (c.recast q v).has i r = c.has i r := rfl

@[simp] theorem recast_childrenIn : (c.recast q v).childrenIn i r = c.childrenIn i r := rfl

@[simp] theorem recast_need : (c.recast q v).need i r = c.need i r := rfl

@[simp] theorem recast_needParent {place : String} {p : Kind → Bool} :
    (c.recast q v).needParent i place p = c.needParent i place p := rfl

@[simp] theorem recast_name : (c.recast q v).name i = c.name i := rfl

@[simp] theorem code_trailingComma_recast {last : Option NodeId} :
    code ((c.recast q v).trailingComma last) = code (c.trailingComma last) := by
  unfold trailingComma
  rw [recast_tree]
  split
  · rfl
  · split
    · rfl
    · simp

@[simp] theorem code_semicolon_recast :
    code ((c.recast q v).semicolon i) = code (c.semicolon i) := by
  unfold semicolon
  rw [recast_tree]
  split
  · rfl
  · rfl
  · rfl
  · simp [code_ite]

@[simp] theorem code_betweenMembers_recast {p : NodeId} :
    code ((c.recast q v).betweenMembers p i) = code (c.betweenMembers p i) := by
  simp only [betweenMembers, code_append, code_newLines]
  rfl

end Context

/-- Layouts that are put together alike. Of what stands behind a failure nothing is said. -/
inductive Laid (c d : Context) (i : NodeId) : List NodeId → Layout → Layout → Prop
  | words {l m : Layout} (h : Words l m) : Laid c d i [] l m
  | absent : Laid c d i [] (c.visit .null) (d.visit .null)
  | visit {j : NodeId} {r : Role} (hj : j ∈ c.childrenIn i r) :
      Laid c d i [j] (c.visit j) (d.visit j)
  | name (hc : c.has i .identifier = true) :
      Laid c d i [c.child i .identifier] [.write (.identifier (c.child i .identifier))]
        [.write (.identifier (c.child i .identifier))]
  | block {r : Role} {style style' : BraceStyle} (hc : c.has i r = true)
      (hb : (c.tree.kind i).bracesIn r = true ∨ c.tree.kind (c.child i r) = .statement .block) :
      Laid c d i [c.child i r] (c.block style (c.child i r)) (d.block style' (c.child i r))
  | append {js js' : List NodeId} {l l' m m' : Layout} (hl : Laid c d i js l m)
      (hr : failure? l = none → Laid c d i js' l' m') : Laid c d i (js ++ js') (l ++ l') (m ++ m')
  | fewer {js js' : List NodeId} {l m : Layout} (h : Laid c d i js l m) (hs : js.Sublist js') :
      Laid c d i js' l m
  | indented {b e : Bool} {js : List NodeId} {l m : Layout} (h : Laid c d i js l m) :
      Laid c d i js (when b indent ++ l ++ when b unindent) (when e indent ++ m ++ when e unindent)
  | braces {k : BraceKind} {x y : BraceStyle} {f g b e : Bool} {js : List NodeId} {l m : Layout}
      (hb : b = false → f = true) (h : Laid c d i js l m) :
      Laid c d i js (openBrace x k f ++ outdentedUnless b l ++ closeBrace x f)
        (openBrace y k g ++ outdentedUnless e m ++ closeBrace y g)

namespace Laid

variable {c d : Context} {js js' : List NodeId} {r : Role}

theorem nil : Laid c d i [] [] [] := .words (by simp)

theorem before {x y : Layout} (hw : Words x y) (h : Laid c d i js l m) :
    Laid c d i js (x ++ l) (y ++ m) :=
  .append (.words hw) fun _ => h

theorem behind {x y : Layout} (h : Laid c d i js l m) (hw : Words x y) :
    Laid c d i js (l ++ x) (m ++ y) := by
  simpa using h.append fun _ => .words hw

theorem nothing (hw : Words l m) : Laid c d i js l m := .fewer (.words hw) (List.nil_sublist _)

theorem when (h : b = true → Laid c d i js l m) :
    Laid c d i js (Layout.when b l) (Layout.when b m) := by
  cases b with
  | false => exact nothing (by simp [Layout.when])
  | true => exact h rfl

theorem ite {p : Prop} [Decidable p] (hl : p → Laid c d i js l m) (hm : ¬p → Laid c d i js l' m') :
    Laid c d i js (if p then l else l') (if p then m else m') := by
  split
  · exact hl ‹_›
  · exact hm ‹_›

theorem spaced (h : Laid c d i js l m) : Laid c d i js (Layout.spaced b l) (Layout.spaced b' m) :=
  (h.before (by simp)).behind (by simp)

theorem parens {p p' : ParenSpacing} (h : Laid c d i js l m) :
    Laid c d i js (Context.parens p l) (Context.parens p' m) :=
  (h.spaced.before (by simp)).behind (by simp)

theorem enclosed {k : BraceKind} {x y : BraceStyle} {f g : Bool} (h : Laid c d i js l m) :
    Laid c d i js (openBrace x k f ++ l ++ closeBrace x f)
      (openBrace y k g ++ m ++ closeBrace y g) := by
  simpa [outdentedUnless, Layout.when]
    using Laid.braces (b := true) (e := true) (f := f) (g := g) (by simp) h

theorem deeper (h : Laid c d i js l m) :
    Laid c d i js (indent ++ l ++ unindent) (indent ++ m ++ unindent) :=
  .indented (b := true) (e := true) h

theorem mapIdx {nodes : List NodeId} {f g : Nat → NodeId → Layout}
    (h : ∀ n, ∀ j ∈ nodes, Laid c d i [j] (f n j) (g n j)) :
    Laid c d i nodes (nodes.mapIdx f).flatten (nodes.mapIdx g).flatten := by
  induction nodes generalizing f g with
  | nil => exact nil
  | cons j nodes ih =>
      rw [List.mapIdx_cons, List.mapIdx_cons]
      exact .append (h 0 j List.mem_cons_self) fun _ => ih fun n k hk =>
        h (n + 1) k (List.mem_cons_of_mem _ hk)

theorem flatMap {nodes : List NodeId} {f g : NodeId → Layout}
    (h : ∀ j ∈ nodes, Laid c d i [j] (f j) (g j)) :
    Laid c d i nodes (nodes.flatMap f) (nodes.flatMap g) := by
  induction nodes with
  | nil => exact nil
  | cons j nodes ih =>
      exact .append (h j List.mem_cons_self) fun _ => ih fun k hk => h k (List.mem_cons_of_mem _ hk)

end Laid

abbrev Pieces (c d : Context) (i : NodeId) (rs : List Role) (l m : Layout) : Prop :=
  Laid c d i (rs.flatMap (c.childrenIn i)) l m

theorem Laid.next {c d : Context} {rs rs' : List Role} (hl : Pieces c d i rs l m)
    (hr : Pieces c d i rs' l' m') : Pieces c d i (rs ++ rs') (l ++ l') (m ++ m') := by
  rw [Pieces, List.flatMap_append]
  exact hl.append fun _ => hr

namespace Pieces

variable {c d : Context} {r : Role}

theorem ofAll (h : Laid c d i (c.childrenIn i r) l m) : Pieces c d i [r] l m := by
  rwa [Pieces, List.flatMap_singleton]

theorem ofFirst (h : Laid c d i (c.tree.firstIn i r) l m) : Pieces c d i [r] l m :=
  ofAll (h.fewer Tree.firstIn_sublist)

end Pieces

end Layout

end TreeScribe
