import TreeScribe.Proofs.Expression.Term
import TreeScribe.Proofs.Render.Progress
import TreeScribe.Proofs.Tree.Below
import TreeScribe.Render.Text
import TreeScribe.Sink.Log

namespace TreeScribe

namespace Tree

def lexeme? (t : Tree) : Call → Option Lexeme
  | .identifier i =>
    match t.kind i with
    | .identifier text verbatim => some (.name text verbatim)
    | _ => none
  | .keyword _ word | .primitiveType word => some (.word word)
  | .token _ text => some (.mark text)
  | .literal value => some (.literal value)
  | _ => none

/-- The lexemes of a list of calls that begins `depth` nodes inside a type. -/
def lexemes (t : Tree) : Nat → List Call → List Lexeme
  | _, [] => []
  | 0, .start i :: calls =>
    if (t.kind i).isType then .type (t.typeLexeme i) :: t.lexemes 1 calls else t.lexemes 0 calls
  | 0, c :: calls => (t.lexeme? c).toList ++ t.lexemes 0 calls
  | depth + 1, .start _ :: calls => t.lexemes (depth + 2) calls
  | depth + 1, .finish _ :: calls => t.lexemes depth calls
  | depth + 1, _ :: calls => t.lexemes (depth + 1) calls

end Tree

namespace Layout

def calls (l : Layout) : List Call :=
  l.filterMap fun
    | .write c => some c
    | _ => none

def IsPlain (l : Layout) : Prop := ∀ c ∈ l, c = .tick ∨ ∃ call, c = .write call

structure Writes (t : Tree) (l : Layout) (s : List Lexeme) : Prop where
  plain : IsPlain l
  lexemes (calls : List Call) : t.lexemes 0 (l.calls ++ calls) = s ++ t.lexemes 0 calls

structure Skipped (t : Tree) (l : Layout) : Prop where
  plain : IsPlain l
  lexemes (depth : Nat) (calls : List Call) :
    t.lexemes (depth + 1) (l.calls ++ calls) = t.lexemes (depth + 1) calls

variable {t : Tree} {l m : Layout} {s s' : List Lexeme} {i : NodeId} {c : Call} {text : String}
  {b : Bool}

theorem IsPlain.append (hl : IsPlain l) (hm : IsPlain m) : IsPlain (l ++ m) := by
  intro c hc
  rcases List.mem_append.mp hc with hc | hc
  · exact hl c hc
  · exact hm c hc

theorem isPlain_write : IsPlain [.write c] := by
  intro d hd
  exact .inr ⟨c, List.mem_singleton.mp hd⟩

theorem calls_append : calls (l ++ m) = calls l ++ calls m := List.filterMap_append

namespace Writes

theorem nil : Writes t [] [] := ⟨by simp [IsPlain], fun _ => rfl⟩

theorem append (hl : Writes t l s) (hm : Writes t m s') : Writes t (l ++ m) (s ++ s') := by
  refine ⟨hl.plain.append hm.plain, fun calls => ?_⟩
  rw [calls_append, List.append_assoc, hl.lexemes, hm.lexemes, List.append_assoc]

theorem of_eq (hl : Writes t l s) (he : s = s') : Writes t l s' := he ▸ hl

theorem blank_append (hl : Writes t l []) (hm : Writes t m s) : Writes t (l ++ m) s := hl.append hm

theorem append_blank (hl : Writes t l s) (hm : Writes t m []) : Writes t (l ++ m) s := by
  have h := hl.append hm
  rwa [List.append_nil] at h

theorem tick (hl : Writes t l s) : Writes t (.tick :: l) s := by
  refine ⟨?_, hl.lexemes⟩
  intro c hc
  rcases List.mem_cons.mp hc with rfl | hc
  · exact .inl rfl
  · exact hl.plain c hc

theorem token : Writes t (token text) [.mark text] := ⟨isPlain_write, fun _ => rfl⟩

theorem keyword : Writes t (keyword text) [.word text] := ⟨isPlain_write, fun _ => rfl⟩

theorem literal {value : Literal} : Writes t [.write (.literal value)] [.literal value] :=
  ⟨isPlain_write, fun _ => rfl⟩

theorem space : Writes t space [] := ⟨isPlain_write, fun _ => rfl⟩

theorem newLine : Writes t newLine [] := ⟨isPlain_write, fun _ => rfl⟩

theorem indent : Writes t indent [] := ⟨isPlain_write, fun _ => rfl⟩

theorem unindent : Writes t unindent [] := ⟨isPlain_write, fun _ => rfl⟩

theorem when (hl : Writes t l []) : Writes t (when b l) [] := by
  cases b with
  | false => exact nil
  | true => exact hl

theorem spaceIf : Writes t (spaceIf b) [] := .when space

theorem spaced (hl : Writes t l s) : Writes t (spaced b l) s :=
  (spaceIf.blank_append hl).append_blank spaceIf

theorem node (hk : (t.kind i).isType = false) (hl : Writes t l s) : Writes t (node i l) s := by
  have hs : Writes t [.write (.start i)] [] := by
    refine ⟨isPlain_write, fun calls => ?_⟩
    simp [Layout.calls, Tree.lexemes, hk]
  have hf : Writes t [.write (.finish i)] [] := ⟨isPlain_write, fun _ => rfl⟩
  exact (hs.blank_append hl).append_blank hf

end Writes

namespace Skipped

theorem nil : Skipped t [] := ⟨by simp [IsPlain], fun _ _ => rfl⟩

theorem append (hl : Skipped t l) (hm : Skipped t m) : Skipped t (l ++ m) := by
  refine ⟨hl.plain.append hm.plain, fun depth calls => ?_⟩
  rw [calls_append, List.append_assoc, hl.lexemes, hm.lexemes]

theorem tick (hl : Skipped t l) : Skipped t (.tick :: l) := by
  refine ⟨?_, hl.lexemes⟩
  intro c hc
  rcases List.mem_cons.mp hc with rfl | hc
  · exact .inl rfl
  · exact hl.plain c hc

theorem write (hs : ∀ i, c ≠ .start i) (hf : ∀ i, c ≠ .finish i) : Skipped t [.write c] := by
  refine ⟨isPlain_write, fun depth calls => ?_⟩
  cases c with
  | start i => exact absurd rfl (hs i)
  | finish i => exact absurd rfl (hf i)
  | _ => rfl

theorem token : Skipped t (token text) := write nofun nofun

theorem identifier : Skipped t [.write (.identifier i)] := write nofun nofun

theorem primitiveType : Skipped t [.write (.primitiveType text)] := write nofun nofun

theorem when (hl : Skipped t l) : Skipped t (when b l) := by
  cases b with
  | false => exact nil
  | true => exact hl

theorem spaceIf : Skipped t (spaceIf b) := .when (write nofun nofun)

theorem flatten {ls : List Layout} (h : ∀ l ∈ ls, Skipped t l) : Skipped t ls.flatten := by
  induction ls with
  | nil => exact nil
  | cons l ls ih =>
      exact (h l List.mem_cons_self).append (ih fun m hm => h m (List.mem_cons_of_mem _ hm))

theorem node (hl : Skipped t l) : Skipped t (node i l) := by
  refine ⟨(isPlain_write.append hl.plain).append isPlain_write, fun depth calls => ?_⟩
  have hn : Layout.calls (Layout.node i l) ++ calls = .start i ::
      (l.calls ++ .finish i :: calls) := by
    simp [Layout.node, Layout.calls]
  rw [hn, Tree.lexemes, hl.lexemes, Tree.lexemes]

theorem writes (hk : (t.kind i).isType = true) (hl : Skipped t l) :
    Writes t (Layout.node i l) [.type (t.typeLexeme i)] := by
  refine ⟨(isPlain_write.append hl.plain).append isPlain_write, fun calls => ?_⟩
  have hn : Layout.calls (Layout.node i l) ++ calls = .start i ::
      (l.calls ++ .finish i :: calls) := by
    simp [Layout.node, Layout.calls]
  rw [hn, Tree.lexemes, if_pos hk, hl.lexemes 0, Tree.lexemes]
  rfl

end Skipped

namespace Context

variable {x : Context} {r : Role} {nodes : List NodeId}

theorem need_eq (hc : x.tree.child i r ≠ .null) : x.need i r = [] := by
  simp [need, has, Tree.hasChild, hc, Layout.when]

theorem writes_comma : Writes t (x.comma b) [.mark ","] :=
  (Writes.spaceIf.blank_append .token).append_blank .spaceIf

theorem skipped_comma : Skipped t (x.comma b) := (Skipped.spaceIf.append .token).append .spaceIf

theorem skipped_required (hc : x.tree.child i r ≠ .null) (h : Skipped t (x.visitIn i r)) :
    Skipped t (x.required i r) := by
  rw [required, need_eq hc]
  exact h

theorem skipped_name (hc : x.tree.child i .identifier ≠ .null) : Skipped t (x.name i) := by
  rw [name, need_eq hc]
  exact .identifier

theorem skipped_separated {separator : Nat → Layout} (hs : ∀ n, Skipped t (separator n))
    (h : ∀ c ∈ nodes, Skipped t (x.visit c)) : Skipped t (x.separated separator nodes) := by
  refine .flatten fun l hl => ?_
  obtain ⟨n, hn, rfl⟩ := List.mem_mapIdx.mp hl
  exact (Skipped.when (hs n)).tick.append (h _ (List.getElem_mem hn))

theorem skipped_typeArguments (h : ∀ c ∈ x.childrenIn i .typeArgument, Skipped t (x.visit c)) :
    Skipped t (x.typeArguments i) := by
  have hs : Skipped t (x.commaSeparated (x.childrenIn i .typeArgument)) :=
    skipped_separated (fun _ => skipped_comma) h
  exact .when
    ((Skipped.token.append (.when ((Skipped.spaceIf.append hs).append .spaceIf))).append .token)

theorem skipped_arraySpecifier {dimensions : Nat} : Skipped t (arraySpecifier i dimensions) := by
  refine .node ((Skipped.token.append (.flatten fun l hl => ?_)).append .token)
  rw [List.eq_of_mem_replicate hl]
  exact .token

structure Shows (t : Tree) (x : Context) (i : NodeId) (r : Role) (s : List Lexeme) : Prop where
  present : x.tree.child i r ≠ .null
  writes : Writes t (x.visitIn i r) s

namespace Shows

theorem need (h : Shows t x i r s) : Writes t (x.need i r) [] := by
  rw [need_eq h.present]
  exact .nil

theorem required (h : Shows t x i r s) : Writes t (x.required i r) s := h.need.blank_append h.writes

end Shows

theorem writes_typeArguments (ha : x.childrenIn i .typeArgument = []) :
    Writes t (x.typeArguments i) [] := by
  rw [typeArguments, ha]
  exact .nil

theorem writes_sides {spacing : SideSpacing} : Writes t (sides spacing (token text)) [.mark text] :=
  (Writes.spaceIf.blank_append .token).append_blank .spaceIf

theorem writes_parens {spacing : ParenSpacing} (h : Writes t l s) :
    Writes t (parens spacing l) (.mark "(" :: s ++ [.mark ")"]) := by
  have ho : Writes t (spaceIf spacing.before ++ token "(") [.mark "("] :=
    Writes.spaceIf.blank_append .token
  exact (ho.append (.spaced h)).append .token

theorem writes_enclosedList {opening closing : String} (h : Writes t (x.commaSeparated nodes) s) :
    Writes t (x.enclosedList opening closing b nodes) (.mark opening :: s ++ [.mark closing]) := by
  refine Writes.append (Writes.append .token ?_) .token
  cases nodes with
  | nil => exact h
  | cons c nodes => exact .spaced h

section

variable {e : Lexeme} {op : UnaryOperator} (hk : (t.kind i).isType = false)

include hk

theorem writes_identifier (hn : Writes t (x.name i) [e]) (ha : x.childrenIn i .typeArgument = []) :
    Writes t (x.identifier i) [e] := .node hk (hn.append_blank (writes_typeArguments ha))

theorem writes_parenthesized (h : Shows t x i .expression s) :
    Writes t (x.parenthesized i) (.mark "(" :: s ++ [.mark ")"]) := by
  have hp : Writes t (parens ⟨false, x.policy.withinParens⟩ (x.visitIn i .expression)) _ :=
    writes_parens h.writes
  exact .node hk (h.need.blank_append hp)

theorem writes_member (h : Shows t x i .target s) (hn : Writes t (x.name i) [e])
    (ha : x.childrenIn i .typeArgument = []) : Writes t (x.member i) (s ++ [.mark ".", e]) := by
  have hb {b b' : Bool} : Writes t (Layout.when b (Layout.when b' indent ++ newLine)) [] :=
    .when (.append (.when .indent) .newLine)
  have hd : Writes t (token ".") [.mark "."] := .token
  refine .node hk (.of_eq (((((h.required.append_blank hb).append hd).append hn).append_blank
    (writes_typeArguments ha)).append_blank (.when .unindent)) ?_)
  rw [List.append_assoc, List.singleton_append]

theorem writes_invocation (h : Shows t x i .target s)
    (ha : Writes t (x.commaSeparated (x.childrenIn i .argument)) s') :
    Writes t (x.invocation i) (s ++ .mark "(" :: s' ++ [.mark ")"]) := by
  have hl : Writes t (x.arguments i) (.mark "(" :: s' ++ [.mark ")"]) :=
    Writes.spaceIf.blank_append (writes_enclosedList ha)
  refine .node hk (.of_eq ((h.required.append hl).append_blank (.when .unindent)) ?_)
  rw [List.append_assoc]

theorem writes_indexer (h : Shows t x i .target s)
    (ha : Writes t (x.commaSeparated (x.childrenIn i .argument)) s') :
    Writes t (x.indexer i) (s ++ .mark "[" :: s' ++ [.mark "]"]) := by
  have hs : Writes t (x.required i .target ++ spaceIf x.policy.brackets.before) s :=
    h.required.append_blank .spaceIf
  refine .node hk (.of_eq (hs.append (writes_enclosedList ha)) ?_)
  rw [List.append_assoc]

theorem writes_unary (ho : op.isPrefix = true) (h : Shows t x i .expression s) :
    Writes t (x.unary i op) (op.lexeme :: s) := by
  have hp : op.isPostfix = false := by
    rw [UnaryOperator.isPrefix, Bool.and_eq_true, Bool.not_eq_true'] at ho
    exact ho.1
  have hl : Writes t (if op = .await then keyword op.token ++ space
      else when (!op.isPostfix && op.token ≠ "") (token op.token)) [op.lexeme] := by
    split
    · rename_i he
      rw [he]
      exact .append_blank .keyword .space
    · rename_i hne
      have ht : (!op.isPostfix && decide (op.token ≠ "")) = true := by
        cases op <;> first | rfl | cases ho
      rw [ht, UnaryOperator.lexeme, if_neg hne]
      exact .token
  have hb : Writes t (Layout.when op.isPostfix (token op.token)) [] := by
    rw [hp]
    exact .nil
  exact .node hk (((h.need.blank_append hl).append h.writes).append_blank hb)

theorem writes_cast (ht : Shows t x i .type [e]) (h : Shows t x i .expression s) :
    Writes t (x.cast i) (.mark "(" :: e :: .mark ")" :: s) := by
  have hn : Writes t (x.need i .type ++ x.need i .expression) [] := ht.need.append h.need
  have hp : Writes t (parens ⟨false, x.policy.withinCast⟩ (x.visitIn i .type))
    [.mark "(", e, .mark ")"] :=
    writes_parens ht.writes
  exact .node hk (((hn.blank_append hp).append_blank .spaceIf).append h.writes)

theorem writes_infixPair (ha : Shows t x i .left s) (hb : Shows t x i .right s') :
    Writes t (x.infixPair i b text) (s ++ .mark text :: s') := by
  have hn : Writes t (x.need i .left ++ x.need i .right) [] := ha.need.append hb.need
  have ho : Writes t (spaced b (token text)) [.mark text] := .spaced .token
  refine .node hk (.of_eq (((hn.blank_append ha.writes).append ho).append hb.writes) ?_)
  rw [List.append_assoc, List.singleton_append]

theorem writes_typeTest (h : Shows t x i .expression s) (ht : Shows t x i .type [e]) :
    Writes t (x.typeTest i text) (s ++ [.word text, e]) := by
  have hn : Writes t (x.need i .expression ++ x.need i .type) [] := h.need.append ht.need
  have hw : Writes t (keyword text) [.word text] := .keyword
  have hl := (((hn.blank_append h.writes).append_blank .space).append hw).append_blank .space
  refine .node hk (.of_eq (hl.append ht.writes) ?_)
  rw [List.append_assoc, List.singleton_append]

theorem writes_conditional {c w f : List Lexeme} (hc : Shows t x i .condition c)
    (hw : Shows t x i .trueExpression w) (hf : Shows t x i .falseExpression f) :
    Writes t (x.conditional i) (c ++ .mark "?" :: w ++ .mark ":" :: f) := by
  have hn :
      Writes t (x.need i .condition ++ x.need i .trueExpression ++ x.need i .falseExpression) [] :=
    (hc.need.append hw.need).append hf.need
  refine .node hk
    (.of_eq (((((hn.blank_append hc.writes).append writes_sides).append hw.writes).append
    writes_sides).append hf.writes) ?_)
  simp only [List.append_assoc, List.cons_append, List.nil_append]

end

theorem expression_typeTest (how : TypeTest) : x.expression i how.kind = x.typeTest i how.word := by
  cases how <;> rfl

end Context

end Layout

open Layout

namespace Tree

variable {t : Tree} {p : Policy} {fuel : Nat} {i c : NodeId} {r : Role} {nodes : List NodeId}

namespace WellFormed

variable (h : t.WellFormed)

include h

theorem ofNodeWithin_eq (p : Policy) (hk : t.kind i ≠ .null) (hf : t.size ≤ fuel + t.depth i) :
    ∃ n, t.size ≤ n + 1 + t.depth i ∧
      ofNodeWithin t p fuel i = Context.kind ⟨t, p, ofNodeWithin t p n⟩ i (t.kind i) := by
  obtain ⟨n, rfl⟩ := h.exists_fuel hk hf
  exact ⟨n, hf, rfl⟩

theorem ofNodeWithin_expression (p : Policy) {k : ExpressionKind} (hk : t.kind i = .expression k)
    (hf : t.size ≤ fuel + t.depth i) : ∃ n, t.size ≤ n + 1 + t.depth i ∧ (t.kind i).isType = false ∧
      ofNodeWithin t p fuel i = Context.expression ⟨t, p, ofNodeWithin t p n⟩ i k := by
  obtain ⟨n, hn, he⟩ := h.ofNodeWithin_eq p (by rw [hk]; nofun) hf
  rw [hk] at he
  refine ⟨n, hn, ?_, he⟩
  rw [hk]
  rfl

end WellFormed

theorem writes_name (h : t.WellFormed) {text : String} {verbatim : Bool} {visit : NodeId → Layout}
    (hn : t.kind (t.child i .identifier) = .identifier text verbatim) :
    Writes t (Context.name ⟨t, p, visit⟩ i) [.name text verbatim] := by
  rw [Context.name, Context.need_eq (h.ne_null_of_kind (by rw [hn]; exact Kind.noConfusion))]
  refine ⟨isPlain_write, fun calls => ?_⟩
  simp [Layout.calls, lexemes, lexeme?, Context.child, hn]

namespace IsType

theorem isType_kind (ht : t.IsType i) : (t.kind i).isType = true := by
  cases ht with
  | simple hk | member hk | primitive hk | composed hk =>
      rw [hk]
      rfl

theorem kind_ne_null (ht : t.IsType i) : t.kind i ≠ .null := by
  intro hk
  have hi := ht.isType_kind
  rw [hk] at hi
  cases hi

theorem skipped (h : t.WellFormed) (p : Policy) (ht : t.IsType i) (hf : t.size ≤ fuel + t.depth i) :
    ∃ l, ofNodeWithin t p fuel i = Layout.node i l ∧ Skipped t l := by
  have hv {c : NodeId} {n : Nat} (hs : ∃ l, ofNodeWithin t p n c = Layout.node c l ∧ Skipped t l) :
      Skipped t (ofNodeWithin t p n c) := by
    obtain ⟨l, hl, hs⟩ := hs
    rw [hl]
    exact hs.node
  induction ht generalizing fuel with
  | simple hk hn ha ih =>
      obtain ⟨n, hf, he⟩ := h.ofNodeWithin_eq p (by rw [hk]; nofun) hf
      have hc := h.ne_null_of_kind (by rw [hn]; exact Kind.noConfusion)
      rw [he, hk]
      refine ⟨_, rfl, (Context.skipped_name hc).append
        (Context.skipped_typeArguments fun a hm => hv (ih a hm ?_))⟩
      exact h.fuel_child hf (h.parent_childrenIn hm)
  | member hk ht hn ha iht ih =>
      obtain ⟨n, hf, he⟩ := h.ofNodeWithin_eq p (by rw [hk]; nofun) hf
      have hp := h.parent_child ht.kind_ne_null
      have hr : Skipped t (Context.required ⟨t, p, ofNodeWithin t p n⟩ _ .target) :=
        Context.skipped_required (h.ne_null hp) (hv (iht (h.fuel_child hf hp)))
      have hc := h.ne_null_of_kind (by rw [hn]; exact Kind.noConfusion)
      rw [he, hk]
      refine ⟨_, rfl, ((hr.append .token).append (Context.skipped_name hc)).append
        (Context.skipped_typeArguments fun a hm => hv (ih a hm ?_))⟩
      exact h.fuel_child hf (h.parent_childrenIn hm)
  | primitive hk =>
      obtain ⟨n, hf, he⟩ := h.ofNodeWithin_eq p (by rw [hk]; nofun) hf
      rw [he, hk]
      exact ⟨_, rfl, .primitiveType⟩
  | composed hk ht hs iht =>
      obtain ⟨n, hf, he⟩ := h.ofNodeWithin_eq p (by rw [hk]; nofun) hf
      have hp := h.parent_child ht.kind_ne_null
      have hr : Skipped t (Context.required ⟨t, p, ofNodeWithin t p n⟩ _ .type) :=
        Context.skipped_required (h.ne_null hp) (hv (iht (h.fuel_child hf hp)))
      rw [he, hk]
      refine ⟨_, rfl, ((hr.append (.when .token)).append (.flatten fun l hl => ?_)).append
        (.flatten fun l hl => ?_)⟩
      · rw [List.eq_of_mem_replicate hl]
        exact .token
      · obtain ⟨s, hm, rfl⟩ := List.mem_map.mp hl
        obtain ⟨dimensions, hks⟩ := hs s hm
        obtain ⟨n', -, he'⟩ := h.ofNodeWithin_eq p (by rw [hks]; nofun)
          (h.fuel_child hf (h.parent_childrenIn hm))
        rw [show Context.visit _ s = _ from he', hks]
        exact Context.skipped_arraySpecifier

theorem written (h : t.WellFormed) (p : Policy) (ht : t.IsType i) (hf : t.size ≤ fuel + t.depth i) :
    Writes t (ofNodeWithin t p fuel i) [.type (t.typeLexeme i)] := by
  obtain ⟨l, hl, hs⟩ := ht.skipped h p hf
  rw [hl]
  exact hs.writes ht.isType_kind

end IsType

theorem Denotes.kind_ne_null {e : Term} (hd : t.Denotes i e) : t.kind i ≠ .null := by
  obtain ⟨k, hk, -⟩ := hd.exists_kind
  rw [hk]
  nofun

theorem Denotes.child {e : Term} (h : t.WellFormed) (hd : t.Denotes (t.child i r) e)
    (hf : t.size ≤ fuel + 1 + t.depth i) :
    t.child i r ≠ .null ∧ t.size ≤ fuel + t.depth (t.child i r) :=
  ⟨h.ne_null_of_kind hd.kind_ne_null, h.fuel_child hf (h.parent_child hd.kind_ne_null)⟩

mutual

theorem Denotes.written {i : NodeId} {e : Term} {fuel : Nat} (h : t.WellFormed) (p : Policy) :
    t.Denotes i e → t.size ≤ fuel + t.depth i → Writes t (ofNodeWithin t p fuel i) e.lexemes
  | .name hk hn ha, hf => by
      obtain ⟨n, hf, hi, he⟩ := h.ofNodeWithin_expression p hk hf
      rw [he]
      exact Context.writes_identifier hi (writes_name h hn) ha
  | .literal hk _, hf => by
      obtain ⟨n, hf, hi, he⟩ := h.ofNodeWithin_expression p hk hf
      rw [he]
      exact .node hi .literal
  | .group hk hd, hf => by
      obtain ⟨n, hf, hi, he⟩ := h.ofNodeWithin_expression p hk hf
      obtain ⟨hc, hf⟩ := hd.child h hf
      rw [he]
      exact Context.writes_parenthesized hi ⟨hc, hd.written h p hf⟩
  | .member hk hd hn ha, hf => by
      obtain ⟨n, hf, hi, he⟩ := h.ofNodeWithin_expression p hk hf
      obtain ⟨hc, hf⟩ := hd.child h hf
      rw [he]
      have hw := hd.written h p hf
      exact Context.writes_member (x := ⟨t, p, ofNodeWithin t p n⟩) hi ⟨hc, hw⟩
        (writes_name h hn) ha
  | .call hk hd ha, hf => by
      obtain ⟨n, hf, hi, he⟩ := h.ofNodeWithin_expression p hk hf
      obtain ⟨hc, hf'⟩ := hd.child h hf
      rw [he]
      exact Context.writes_invocation hi ⟨hc, hd.written h p hf'⟩
        (ha.written h p (fun c hc => h.fuel_child hf (h.parent_childrenIn hc)) 0)
  | .index hk hd ha, hf => by
      obtain ⟨n, hf, hi, he⟩ := h.ofNodeWithin_expression p hk hf
      obtain ⟨hc, hf'⟩ := hd.child h hf
      rw [he]
      exact Context.writes_indexer hi ⟨hc, hd.written h p hf'⟩
        (ha.written h p (fun c hc => h.fuel_child hf (h.parent_childrenIn hc)) 0)
  | .unary hk ho hd, hf => by
      obtain ⟨n, hf, hi, he⟩ := h.ofNodeWithin_expression p hk hf
      obtain ⟨hc, hf⟩ := hd.child h hf
      rw [he]
      exact Context.writes_unary hi ho ⟨hc, hd.written h p hf⟩
  | .cast hk ht hd, hf => by
      obtain ⟨n, hf, hi, he⟩ := h.ofNodeWithin_expression p hk hf
      obtain ⟨hc, hf'⟩ := hd.child h hf
      have hp := h.parent_child ht.kind_ne_null
      rw [he]
      exact Context.writes_cast hi ⟨h.ne_null hp, ht.written h p (h.fuel_child hf hp)⟩
        ⟨hc, hd.written h p hf'⟩
  | .binary hk ha hb, hf => by
      obtain ⟨n, hf, hi, he⟩ := h.ofNodeWithin_expression p hk hf
      obtain ⟨hca, hfa⟩ := ha.child h hf
      obtain ⟨hcb, hfb⟩ := hb.child h hf
      rw [he]
      exact Context.writes_infixPair hi ⟨hca, ha.written h p hfa⟩ ⟨hcb, hb.written h p hfb⟩
  | .test hk hd ht, hf => by
      obtain ⟨n, hf, hi, he⟩ := h.ofNodeWithin_expression p hk hf
      obtain ⟨hc, hf'⟩ := hd.child h hf
      have hp := h.parent_child ht.kind_ne_null
      rw [he, Context.expression_typeTest]
      exact Context.writes_typeTest hi ⟨hc, hd.written h p hf'⟩
        ⟨h.ne_null hp, ht.written h p (h.fuel_child hf hp)⟩
  | .conditional hk hd ha hb, hf => by
      obtain ⟨n, hf, hi, he⟩ := h.ofNodeWithin_expression p hk hf
      obtain ⟨hcd, hfd⟩ := hd.child h hf
      obtain ⟨hca, hfa⟩ := ha.child h hf
      obtain ⟨hcb, hfb⟩ := hb.child h hf
      rw [he]
      exact Context.writes_conditional hi ⟨hcd, hd.written h p hfd⟩ ⟨hca, ha.written h p hfa⟩
        ⟨hcb, hb.written h p hfb⟩
  | .assign hk _ ha hb, hf => by
      obtain ⟨n, hf, hi, he⟩ := h.ofNodeWithin_expression p hk hf
      obtain ⟨hca, hfa⟩ := ha.child h hf
      obtain ⟨hcb, hfb⟩ := hb.child h hf
      rw [he]
      exact Context.writes_infixPair hi ⟨hca, ha.written h p hfa⟩ ⟨hcb, hb.written h p hfb⟩

theorem DenotesAll.written {nodes : List NodeId} {es : List Term} {fuel : Nat} (h : t.WellFormed)
    (p : Policy) :
    t.DenotesAll nodes es → (∀ c ∈ nodes, t.size ≤ fuel + t.depth c) → ∀ k : Nat,
      Writes t ((nodes.mapIdx fun n i => .tick :: when (n + k ≠ 0)
        (Context.comma ⟨t, p, ofNodeWithin t p fuel⟩ true) ++ ofNodeWithin t p fuel i).flatten)
        (Term.listed (k == 0) es)
  | .nil, _, _ => .nil
  | .cons hd hs, hf, k => by
      have hw := hd.written h p (hf _ List.mem_cons_self)
      have hws := hs.written h p (fun c hc => hf c (List.mem_cons_of_mem _ hc)) (k + 1)
      have hsep : Writes t (when (0 + k ≠ 0) (Context.comma ⟨t, p, ofNodeWithin t p fuel⟩ true))
          (Term.separator (k == 0)) := by
        cases k with
        | zero => exact .nil
        | succ k => exact Context.writes_comma
      rw [List.mapIdx_cons, List.flatten_cons]
      simp only [Nat.add_right_comm _ 1 k]
      exact (hsep.tick.append hw).append hws

end

end Tree

theorem Progress.run_plain {W : Type} [Sink W] {l : Layout} (hl : IsPlain l) (t : Tree)
    (s : Progress W) :
    ∃ s', s.run t .never l = (s', none) ∧ s'.sink = Sink.putAll t s.sink l.calls := by
  induction l generalizing s with
  | nil => exact ⟨s, rfl, rfl⟩
  | cons c l ih =>
      have ih := ih fun d hd => hl d (List.mem_cons_of_mem _ hd)
      rcases hl c List.mem_cons_self with rfl | ⟨call, rfl⟩
      · obtain ⟨s', hr, hs⟩ := ih { s with poll := s.poll.tick.2 }
        refine ⟨s', ?_, hs⟩
        rw [run, step]
        simp only [Cancellation.isSet, Bool.and_false, Bool.false_eq_true, if_false]
        exact hr
      · obtain ⟨s', hr, hs⟩ := ih (s.write t call)
        rw [sink_write] at hs
        exact ⟨s', hr, hs⟩

/-- Writing an expression succeeds, and a log hears the lexemes of the term that it denotes. -/
theorem Tree.Denotes.render {t : Tree} {i : NodeId} {e : Term} (h : t.WellFormed)
    (hd : t.Denotes i e) (p : Policy) : ∃ s, t.render p .never i (.new CallLog.empty) = (s, none) ∧
      t.lexemes 0 s.sink.calls = e.lexemes := by
  have hw := hd.written h p (Nat.le_add_right t.size _)
  obtain ⟨s, hr, hs⟩ := Progress.run_plain hw.plain t (.new CallLog.empty)
  refine ⟨s, hr, ?_⟩
  have hl := hw.lexemes []
  rw [List.append_nil] at hl
  rw [hs, CallLog.calls_putAll]
  exact hl.trans (List.append_nil _)

end TreeScribe
