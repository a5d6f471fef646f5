import TreeScribe.Proofs.Layout.Issued
import TreeScribe.Proofs.Layout.Pieces
import TreeScribe.Proofs.Tree.Below

namespace TreeScribe

open Layout.Context (chainBreak)

namespace Tree

def breaksChain (t : Tree) (i : NodeId) : Bool :=
  t.kind i = .expression .member && chainBreak ≤ t.callChain i

/-- Whether a node leaves it to the node around it to end the indentation of a chain. -/
def handsOn (t : Tree) (i : NodeId) : Bool :=
  match t.kind i with
  | .expression .member => t.breaksChain i && t.hasParent i (· = .expression .invocation)
  | .expression .invocation => t.breaksChain (t.child i .target) &&
      t.hasParent i (· = .expression .member)
  | _ => false

def isTarget (t : Tree) (i : NodeId) : Bool := (t.parent i).any fun p => t.child p .target = i

/-- A link whose indentation the node around it ends, which it does for its target only. -/
def isExpected (t : Tree) (i : NodeId) : Bool := t.handsOn i && t.isTarget i

/-- A link whose indentation nobody ends. -/
def isStray (t : Tree) (i : NodeId) : Bool := t.handsOn i && !t.isTarget i

end Tree

/-- The braces that are open and, for every open node, the levels of indentation that it has
started. A node has to end all of these, except for the links of a broken call chain, each of which
hands one level on to the node around it. -/
structure Nesting where
  /-- open braces -/
  braces : Nat
  /-- levels of the innermost open node -/
  level : Nat
  /-- open nodes, innermost first, each with the levels of what is around it -/
  opened : List (NodeId × Nat)

namespace Nesting

def start : Nesting := ⟨0, 0, []⟩

def levels (s : Nesting) : Nat := s.level + s.opened.foldr (fun e n => e.2 + n) 0

def read? (t : Tree) : Nesting → Call → Option Nesting
  | ⟨b, n, o⟩, .start i => some ⟨b, 0, (i, n) :: o⟩
  | ⟨_, _, []⟩, .finish _ => none
  | ⟨b, n, (j, m) :: o⟩, .finish i =>
    if i = j ∧ n = (t.handsOn i).toNat then some ⟨b, m + (t.isExpected i).toNat, o⟩ else none
  | ⟨b, n, o⟩, .indent => some ⟨b, n + 1, o⟩
  | ⟨_, 0, _⟩, .unindent => none
  | ⟨b, n + 1, o⟩, .unindent => some ⟨b, n, o⟩
  | ⟨b, n, o⟩, .token _ "\x7b" => some ⟨b + 1, n, o⟩
  | ⟨0, _, _⟩, .token _ "\x7d" => none
  | ⟨b + 1, n, o⟩, .token _ "\x7d" => some ⟨b, n, o⟩
  | s, _ => some s

def readAll? (t : Tree) (s : Nesting) (calls : List Call) : Option Nesting :=
  calls.foldlM (read? t) s

variable {t : Tree} {s s' : Nesting} {c : Call} {calls calls' : List Call}

theorem read?_token {role : Role} {text : String} (ho : text ≠ "\x7b") (hc : text ≠ "\x7d") :
    s.read? t (.token role text) = some s := by simp [read?, ho, hc]

inductive Reads (t : Tree) : Nesting → Call → Nesting → Prop
  | start (b n : Nat) (o : List (NodeId × Nat)) (i : NodeId) :
      Reads t ⟨b, n, o⟩ (.start i) ⟨b, 0, (i, n) :: o⟩
  | finish (b m : Nat) (o : List (NodeId × Nat)) (i : NodeId) :
      Reads t ⟨b, (t.handsOn i).toNat, (i, m) :: o⟩ (.finish i) ⟨b, m + (t.isExpected i).toNat, o⟩
  | indent (b n : Nat) (o : List (NodeId × Nat)) : Reads t ⟨b, n, o⟩ .indent ⟨b, n + 1, o⟩
  | unindent (b n : Nat) (o : List (NodeId × Nat)) : Reads t ⟨b, n + 1, o⟩ .unindent ⟨b, n, o⟩
  | opening (b n : Nat) (o : List (NodeId × Nat)) (r : Role) :
      Reads t ⟨b, n, o⟩ (.token r "\x7b") ⟨b + 1, n, o⟩
  | closing (b n : Nat) (o : List (NodeId × Nat)) (r : Role) :
      Reads t ⟨b + 1, n, o⟩ (.token r "\x7d") ⟨b, n, o⟩
  | other (s : Nesting) {c : Call} (hs : ∀ i, c ≠ .start i) (hf : ∀ i, c ≠ .finish i)
      (hi : c ≠ .indent ∧ c ≠ .unindent) : Reads t s c s

theorem reads_of_read? (h : s.read? t c = some s') : Reads t s c s' := by
  obtain ⟨b, n, o⟩ := s
  cases c with
  | start i =>
      cases h
      exact .start b n o i
  | finish i =>
      cases o with
      | nil => cases h
      | cons e o =>
          obtain ⟨j, m⟩ := e
          rw [read?] at h
          split at h
          · rename_i he
            obtain ⟨rfl, rfl⟩ := he
            cases h
            exact .finish b m o i
          · cases h
  | indent =>
      cases h
      exact .indent b n o
  | unindent =>
      cases n <;> cases h
      exact .unindent ..
  | token r text =>
      by_cases ho : text = "\x7b"
      · subst ho
        cases h
        exact .opening b n o r
      · by_cases hc : text = "\x7d"
        · subst hc
          cases b <;> cases h
          exact .closing ..
        · rw [read?_token ho hc] at h
          cases h
          exact .other _ (by simp) (by simp) (by simp)
  | _ =>
      cases h
      exact .other _ (by simp) (by simp) (by simp)

theorem readAll?_cons : s.readAll? t (c :: calls) = (s.read? t c).bind fun s =>
    s.readAll? t calls := List.foldlM_cons

theorem readAll?_append :
    s.readAll? t (calls ++ calls') = (s.readAll? t calls).bind fun s => s.readAll? t calls' :=
  List.foldlM_append

end Nesting

def Command.nest? (t : Tree) (s : Nesting) : Command → Option Nesting
  | .openBrace _ => s.read? t (.token (.token "\x7b") "\x7b")
  | .closeBrace => s.read? t (.token (.token "\x7d") "\x7d")
  | .write c => if c.isTokenOf "\x7b" || c.isTokenOf "\x7d" then none else s.read? t c
  | _ => some s

def BraceStyle.levels (style : BraceStyle) (body : Bool) : Nat :=
  match style with
  | .nextLineShifted => 1
  | .nextLineShifted2 => body.toNat + 1
  | _ => body.toNat

namespace Layout

def nest? (t : Tree) (s : Nesting) (l : Layout) : Option Nesting := l.foldlM (Command.nest? t) s

abbrev Balanced (t : Tree) (l : Layout) : Prop := ∀ s, nest? t s l = some s

variable {t : Tree} {s : Nesting} {b n : Nat} {o : List (NodeId × Nat)} {l m : Layout} {i : NodeId}
  {p : Bool}

@[simp] theorem nest?_nil : nest? t s [] = some s := rfl

theorem nest?_cons {c : Command} : nest? t s (c :: l) = (c.nest? t s).bind fun s => nest? t s l :=
  List.foldlM_cons

@[simp] theorem nest?_append : nest? t s (l ++ m) = (nest? t s l).bind fun s => nest? t s m :=
  List.foldlM_append

theorem balanced_append (hl : Balanced t l) (hm : Balanced t m) : Balanced t (l ++ m) := by
  intro s
  rw [nest?_append, hl, Option.bind_some, hm]

@[simp] theorem nest?_when : nest? t s (when p l) = if p then nest? t s l else some s := by
  cases p <;> rfl

theorem balanced_of_flat (h : Flat l) : Balanced t l := by
  induction l with
  | nil => exact fun _ => rfl
  | cons c l ih =>
      obtain ⟨hc, hl⟩ := flat_cons.mp h
      intro s
      suffices hcommand : c.nest? t s = some s by rw [nest?_cons, hcommand, Option.bind_some, ih hl]
      cases c with
      | write c =>
          cases c with
          | token role text =>
              cases role with
              | token text' =>
                  obtain ⟨⟨-, ho⟩, hc⟩ : (_ ∧ text ≠ "\x7b") ∧ text ≠ "\x7d" := by simpa using hc
                  simp [Command.nest?, Call.isTokenOf, Nesting.read?_token, ho, hc]
              | _ => simp at hc
          | keyword | space | newLine => rfl
          | _ => simp at hc
      | openBrace | closeBrace => simp at hc
      | _ => rfl

@[simp] theorem nest?_indent : nest? t ⟨b, n, o⟩ indent = some ⟨b, n + 1, o⟩ := rfl

@[simp] theorem nest?_unindent : nest? t ⟨b, n + 1, o⟩ unindent = some ⟨b, n, o⟩ := rfl

@[simp] theorem nest?_newLine : nest? t s newLine = some s := rfl

@[simp] theorem nest?_openBrace {style : BraceStyle} {kind : BraceKind} :
    nest? t ⟨b, n, o⟩ (openBrace style kind p) = some ⟨b + 1, n + style.levels p, o⟩ := by
  cases style <;> cases p <;> rfl

@[simp] theorem nest?_closeBrace {style : BraceStyle} :
    nest? t ⟨b + 1, n + style.levels p, o⟩ (closeBrace style p) = some ⟨b, n, o⟩ := by
  cases style <;> cases p <;> rfl

theorem nest?_outdentedUnless (style : BraceStyle) (h : Balanced t l) :
    nest? t ⟨b, n + style.levels true, o⟩ (outdentedUnless p l) =
      some ⟨b, n + style.levels true, o⟩ := by
  have hlevel : ∃ k, n + style.levels true = k + 1 := by
    cases style with
    | nextLineShifted2 => exact ⟨n + 1, rfl⟩
    | _ => exact ⟨n, rfl⟩
  obtain ⟨k, hk⟩ := hlevel
  cases p <;> simp [outdentedUnless, hk, h]

/-- A node ends all its levels, or hands one on. -/
theorem nest?_node
    (h : nest? t ⟨b, 0, (i, n) :: o⟩ l = some ⟨b, (t.handsOn i).toNat, (i, n) :: o⟩) :
    nest? t ⟨b, n, o⟩ (node i l) = some ⟨b, n + (t.isExpected i).toNat, o⟩ := by
  have hstart : (Command.write (.start i)).nest? t ⟨b, n, o⟩ = some ⟨b, 0, (i, n) :: o⟩ := rfl
  have hfinish : (Command.write (.finish i)).nest? t ⟨b, (t.handsOn i).toNat, (i, n) :: o⟩ =
      some ⟨b, n + (t.isExpected i).toNat, o⟩ := if_pos ⟨rfl, rfl⟩
  rw [node, nest?_append, nest?_cons, hstart, Option.bind_some, h, Option.bind_some,
    nest?_cons, hfinish]
  rfl

theorem balanced_node (hi : t.handsOn i = false) (h : Balanced t l) : Balanced t (node i l) := by
  intro ⟨b, n, o⟩
  have hnode := nest?_node (n := n) (o := o) (by rw [hi]; exact h ⟨b, 0, (i, n) :: o⟩)
  rwa [Tree.isExpected, hi] at hnode

end Layout

end TreeScribe
