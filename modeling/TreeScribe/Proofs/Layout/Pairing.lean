import TreeScribe.Proofs.Layout.Filled

namespace TreeScribe

namespace Tree

/-- `x` is `i`, or stands in it outside of all braces in it. -/
inductive Outside (t : Tree) : NodeId → NodeId → Prop
  | self {i : NodeId} : Outside t i i
  | child {i j x : NodeId} (hj : t.parent j = some i) (hr : (t.kind i).encloses (t.role j) = false)
      (h : Outside t j x) : Outside t i x

structure Hangs (t : Tree) (i x : NodeId) : Prop where
  outside : t.Outside i x
  kind_eq : t.kind x = .statement .branch
  no_else : t.child x .falseStatement = .null

/-- No branch with an `else` has, in what it writes before that, a branch without one outside of
braces. -/
def Paired (t : Tree) (root : NodeId) : Prop :=
  ∀ i x, t.Below root i → t.kind i = .statement .branch → t.child i .falseStatement ≠ .null →
    ¬ t.Hangs (t.child i .condition) x ∧ ¬ t.Hangs (t.child i .trueStatement) x

end Tree

/-- Reads calls, and each `else` with the nearest `if` before it between the same braces that has no
`else` yet. -/
structure Pairing where
  /-- the open nodes, innermost first -/
  nodes : List NodeId
  /-- for each open pair of braces, innermost first, what wrote an `if` that has no `else` yet,
  nearest first -/
  blocks : List (List NodeId)
  /-- what wrote each `else`, with what wrote the `if` that it is read with -/
  found : List (NodeId × Option NodeId)

namespace Pairing

def writer (s : Pairing) : NodeId := s.nodes.headD .null

def openIf (s : Pairing) : Pairing :=
  { s with blocks := (s.writer :: s.blocks.headD []) :: s.blocks.tail }

def takeElse (s : Pairing) : Pairing :=
  { s with
    blocks := (s.blocks.headD []).tail :: s.blocks.tail
    found := (s.writer, (s.blocks.headD []).head?) :: s.found }

def read (s : Pairing) : Call → Pairing
  | .start i => { s with nodes := i :: s.nodes }
  | .finish _ => { s with nodes := s.nodes.tail }
  | .token _ text =>
    if text = "\x7b" then { s with blocks := [] :: s.blocks }
    else if text = "\x7d" then { s with blocks := s.blocks.tail }
    else s
  | .keyword _ word => if word = "if" then s.openIf else if word = "else" then s.takeElse else s
  | _ => s

def start : Pairing := ⟨[], [[]], []⟩

/-- Each `else` is read with the `if` of the same node. -/
def Right (s : Pairing) : Prop := ∀ x ∈ s.found, x.2 = some x.1

def readAll (s : Pairing) (calls : List Call) : Pairing := calls.foldl read s

variable {s : Pairing} {c : Call} {l m : List Call}

theorem readAll_cons : s.readAll (c :: l) = (s.read c).readAll l := rfl

theorem readAll_append : s.readAll (l ++ m) = (s.readAll l).readAll m := List.foldl_append

end Pairing

namespace Layout

def said (l : Layout) : List Call := l.filterMap Command.call?

/-- The layout has each `else` read right, and leaves of its own only ifs that `E` holds for. -/
def Pairs (E : NodeId → Prop) (l : Layout) : Prop :=
  failure? l = none → ∀ nodes block outer found, (⟨nodes, block :: outer, found⟩ : Pairing).Right →
    ∃ left found', (∀ x ∈ left, E x) ∧ (⟨nodes, (left ++ block) :: outer, found'⟩ : Pairing).Right ∧
      Pairing.readAll ⟨nodes, block :: outer, found⟩ (said l) =
      ⟨nodes, (left ++ block) :: outer, found'⟩

end Layout

theorem Pairing.readAll_of_forall {s : Pairing} {l : List Call}
    (h : ∀ c ∈ l, ∀ s : Pairing, s.read c = s) : s.readAll l = s := by
  induction l with
  | nil => rfl
  | cons c l ih =>
      rw [readAll_cons, h c List.mem_cons_self, ih fun d hd => h d (List.mem_cons_of_mem _ hd)]

namespace Layout

def Silent (l : Layout) : Prop := ∀ c ∈ said l, ∀ s : Pairing, s.read c = s

variable {E E' : NodeId → Prop} {l m : Layout} {i : NodeId} {b : Bool}

theorem said_append : said (l ++ m) = said l ++ said m := List.filterMap_append

theorem said_cons {c : Command} : said (c :: l) = c.call?.toList ++ said l := by
  rw [said, List.filterMap_cons]
  cases c.call? <;> rfl

theorem said_eq_filter : (issued b l).filter (fun c => !c.isBlank) = said l := by
  induction l generalizing b with
  | nil => rfl
  | cons c l ih => rw [issued, List.filter_append, filter_issued, ih, said_cons]

theorem said_node : said (node i l) = .start i :: said l ++ [.finish i] := by
  rw [node, said, List.cons_append, List.filterMap_cons, List.filterMap_append]
  rfl

theorem silent_of_flat (h : Flat l) : Silent l := by
  intro d hd s
  obtain ⟨c, hc, hcd⟩ := List.mem_filterMap.mp hd
  replace hc := h c hc
  cases c with
  | write e =>
      unfold Command.call? at hcd
      simp only at hcd
      split at hcd
      · cases hcd
      · cases hcd
        cases d with
        | token role text =>
            cases role with
            | token text' =>
                obtain ⟨⟨-, hl⟩, hr⟩ : (_ ∧ text ≠ "\x7b") ∧ text ≠ "\x7d" := by simpa using hc
                rw [Pairing.read, if_neg hl, if_neg hr]
            | _ => simp at hc
        | keyword role word =>
            cases role with
            | token text' =>
                obtain ⟨⟨-, hif⟩, helse⟩ : (_ ∧ word ≠ "if") ∧ word ≠ "else" := by simpa using hc
                rw [Pairing.read, if_neg hif, if_neg helse]
            | modifier =>
                obtain ⟨m, -, hm⟩ := List.any_eq_true.mp hc
                obtain rfl : m.keyword = word := by simpa using hm
                cases m <;> rfl
            | _ => simp at hc
        | space | newLine => rfl
        | _ => simp at hc
  | openBrace | closeBrace => simp at hc
  | _ => cases hcd

theorem silent_of_code (h : code l = []) : Silent l := by
  intro d hd
  obtain ⟨c, hc, hcd⟩ := List.mem_filterMap.mp hd
  have hblank : c.isBlank = true := by simpa using List.filter_eq_nil_iff.mp h c hc
  rw [(Command.of_isBlank hblank).1] at hcd
  cases hcd

theorem silent_word {t : Tree} {c : Call} (h : t.wordOf? i = some c) : Silent [.write c] := by
  intro d hd s
  unfold Tree.wordOf? at h
  split at h <;> cases h <;> cases List.mem_singleton.mp hd <;> rfl

theorem said_openBrace {style : BraceStyle} {kind : BraceKind} {body : Bool} :
    said (openBrace style kind body) = [.token (.token "\x7b") "\x7b"] := by
  cases style <;> cases body <;> rfl

theorem said_closeBrace {style : BraceStyle} {body : Bool} :
    said (closeBrace style body) = [.token (.token "\x7d") "\x7d"] := by
  cases style <;> cases body <;> rfl

namespace Pairs

theorem mono (h : Pairs E l) (hE : ∀ x, E x → E' x) : Pairs E' l := by
  intro hf nodes block outer found hr
  obtain ⟨left, found', hl, hr', he⟩ := h hf nodes block outer found hr
  exact ⟨left, found', fun x hx => hE x (hl x hx), hr', he⟩

theorem nil : Pairs E [] := fun _ _ _ _ found hr => ⟨[], found, by simp, hr, rfl⟩

/-- What the second part leaves is nearer than what the first one does. -/
theorem append (hl : Pairs E l) (hm : Pairs E m) : Pairs E (l ++ m) := by
  intro hf nodes block outer found hr
  obtain ⟨hfl, hfm⟩ := failure?_append_eq_none.mp hf
  obtain ⟨left, found', hleft, hr', he⟩ := hl hfl nodes block outer found hr
  obtain ⟨left', found'', hleft', hr'', he'⟩ := hm hfm nodes (left ++ block) outer found' hr'
  refine ⟨left' ++ left, found'', List.forall_mem_append.mpr ⟨hleft', hleft⟩, hr'', ?_⟩
  rw [said_append, Pairing.readAll_append, he, he', List.append_assoc]

theorem silent (h : Silent l) : Pairs E l :=
  fun _ _ _ _ found hr => ⟨[], found, by simp, hr, Pairing.readAll_of_forall h⟩

theorem before (hm : Pairs E m) (hl : Silent l) : Pairs E (l ++ m) := (silent hl).append hm

theorem behind (hl : Pairs E l) (hm : Silent m) : Pairs E (l ++ m) := hl.append (silent hm)

theorem outdentedUnless (h : Pairs E l) : Pairs E (Layout.outdentedUnless b l) :=
  (h.before (silent_of_code (by simp))).behind (silent_of_code (by simp))

theorem node (h : Pairs E l) : Pairs E (Layout.node i l) := by
  intro hf nodes block outer found hr
  obtain ⟨left, found', hl, hr', he⟩ := h (failure?_node.mp hf) (i :: nodes) block outer found hr
  refine ⟨left, found', hl, hr', ?_⟩
  have hstart : Pairing.read ⟨nodes, block :: outer, found⟩ (.start i) =
      ⟨i :: nodes, block :: outer, found⟩ := rfl
  rw [said_node, List.cons_append, Pairing.readAll_cons, hstart, Pairing.readAll_append, he]
  rfl

theorem braces {style style' : BraceStyle} {kind : BraceKind} {body body' : Bool} (h : Pairs E' l) :
    Pairs E (openBrace style kind body ++ l ++ closeBrace style' body') := by
  intro hf nodes block outer found hr
  obtain ⟨left, found', -, hr', he⟩ :=
    h (failure?_append_eq_none.mp (failure?_append_eq_none.mp hf).1).2 nodes []
      (block :: outer) found hr
  refine ⟨[], found', by simp, hr', ?_⟩
  have hopen : Pairing.read ⟨nodes, block :: outer, found⟩ (.token (.token "\x7b") "\x7b") =
      ⟨nodes, [] :: block :: outer, found⟩ := rfl
  rw [said_append, said_append, said_openBrace, said_closeBrace, List.singleton_append,
    List.cons_append, Pairing.readAll_cons, hopen, Pairing.readAll_append, he]
  rfl

theorem readAll_if {nodes block : List NodeId} {outer : List (List NodeId)}
    {found : List (NodeId × Option NodeId)} :
    Pairing.readAll ⟨nodes, block :: outer, found⟩ (said (Layout.node i (keyword "if" ++ l))) =
      (Pairing.readAll ⟨i :: nodes, (i :: block) :: outer, found⟩ (said l)).read (.finish i) := by
  rw [said_node, said_append, List.cons_append, Pairing.readAll_cons, Pairing.readAll_append,
    Pairing.readAll_append]
  rfl

theorem unpaired (h : Pairs E l) (hi : E i) : Pairs E (Layout.node i (keyword "if" ++ l)) := by
  intro hf nodes block outer found hr
  obtain ⟨left, found', hl, hr', he⟩ :=
    h (failure?_append_eq_none.mp (failure?_node.mp hf)).2 (i :: nodes) (i :: block) outer found hr
  refine ⟨left ++ [i], found', List.forall_mem_append.mpr ⟨hl, by simpa using hi⟩, hr', ?_⟩
  rw [readAll_if, he, List.append_assoc]
  rfl

/-- An `if` takes the `else` behind it if nothing is left before that. -/
theorem paired (hl : Pairs (fun _ => False) l) (hm : Pairs E m) :
    Pairs E (Layout.node i (keyword "if" ++ (l ++ (keyword "else" ++ m)))) := by
  intro hf nodes block outer found hr
  obtain ⟨hfl, hfm⟩ := failure?_append_eq_none.mp
    (failure?_append_eq_none.mp (failure?_node.mp hf)).2
  obtain ⟨left, found', hnone, hr', he⟩ := hl hfl (i :: nodes) (i :: block) outer found hr
  obtain rfl : left = [] := List.eq_nil_iff_forall_not_mem.mpr hnone
  have hright : (⟨i :: nodes, block :: outer, (i, some i) :: found'⟩ : Pairing).Right :=
    List.forall_mem_cons.mpr ⟨rfl, hr'⟩
  obtain ⟨left', found'', hleft', hr'', he'⟩ :=
    hm (failure?_append_eq_none.mp hfm).2 (i :: nodes) block outer _ hright
  refine ⟨left', found'', hleft', hr'', ?_⟩
  have helse : Pairing.readAll ⟨i :: nodes, ([] ++ i :: block) :: outer, found'⟩
    (said (keyword "else")) =
      ⟨i :: nodes, block :: outer, (i, some i) :: found'⟩ := rfl
  rw [readAll_if, said_append, said_append, Pairing.readAll_append, he, Pairing.readAll_append,
    helse, he']
  rfl

end Pairs

end Layout

end TreeScribe
