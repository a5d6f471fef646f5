import TreeScribe.Proofs.Layout.Constructs

namespace TreeScribe.Layout

def Agree (l m : Layout) : Prop := failure? m = failure? l ∧ codeCalls m = codeCalls l

variable {c d : Context} {i : NodeId} {js : List NodeId} {l l' m m' : Layout}

namespace Agree

theorem of_code (h : code m = code l) : Agree l m := by
  rw [Agree, ← failure?_code (l := m), ← codeCalls_code (l := m), h, failure?_code, codeCalls_code]
  exact ⟨rfl, rfl⟩

theorem refl : Agree l l := ⟨rfl, rfl⟩

theorem append (hl : Agree l m) (hr : failure? l = none → Agree l' m') :
    Agree (l ++ l') (m ++ m') := by
  rw [Agree, failure?_append, failure?_append, codeCalls_append, codeCalls_append, hl.1, hl.2]
  cases hf : failure? l with
  | some f => simp
  | none => simp [hr hf |>.1, hr hf |>.2]

theorem before {x y : Layout} (hw : code y = code x) (h : Agree l m) : Agree (x ++ l) (y ++ m) :=
  (of_code hw).append fun _ => h

theorem behind {x y : Layout} (h : Agree l m) (hw : code y = code x) : Agree (l ++ x) (m ++ y) :=
  h.append fun _ => of_code hw

theorem node (h : Agree l m) : Agree (Layout.node i l) (Layout.node i m) :=
  (h.before (x := [.write (.start i)]) (y := [.write (.start i)]) rfl).behind rfl

theorem braces {kind : BraceKind} {style style' : BraceStyle} {body body' b b' : Bool}
    (h : Agree l m) :
    Agree (openBrace style kind body ++ outdentedUnless b l ++ closeBrace style body)
      (openBrace style' kind body' ++ outdentedUnless b' m ++ closeBrace style' body') := by
  have hinner : Agree (outdentedUnless b l) (outdentedUnless b' m) :=
    (h.before (by simp)).behind (by simp)
  exact (hinner.before (by simp)).behind (by simp)

theorem run (hv : ∀ j, Agree (c.visit j) (d.visit j)) : Agree (c.run js) (d.run js) := by
  induction js with
  | nil => exact refl
  | cons j js ih => exact ((hv j).before (x := [.tick]) (y := [.tick]) rfl).append fun _ => ih

theorem block (ht : d.tree = c.tree)
    (hv : ∀ j, Agree (c.visit j) (d.visit j)) {style style' : BraceStyle} :
    Agree (c.block style i) (d.block style' i) := by
  rw [Context.block, Context.block, Context.childrenIn, Context.childrenIn, ht]
  exact (((run hv).before (by simp)).behind (by simp)).node

end Agree

theorem Laid.agree (h : Laid c d i js l m) (ht : d.tree = c.tree)
    (hv : ∀ j, Agree (c.visit j) (d.visit j)) : Agree l m := by
  induction h with
  | words hw => exact .of_code hw.2
  | absent => exact hv .null
  | visit => exact hv _
  | name => exact .refl
  | block => exact .block ht hv
  | append _ _ ihl ihr => exact ihl.append ihr
  | fewer _ _ ih => exact ih
  | indented _ ih => exact (ih.before (by simp [when_nil])).behind (by simp [when_nil])
  | braces _ _ ih => exact ih.braces

theorem Construct.agree (h : Construct c d i l m) (ht : d.tree = c.tree)
    (hv : ∀ j, Agree (c.visit j) (d.visit j)) : Agree l m := by
  induction h with
  | word => exact .refl
  | node _ _ _ _ h => exact (h.agree ht hv).node
  | block => exact (Agree.block ht hv).behind rfl
  | link _ _ _ h h' =>
      exact (((h.agree ht hv).behind rfl).append fun _ => h'.agree ht hv).behind rfl |>.node
  | branch _ _ h h' => exact (((h.agree ht hv).append fun _ => h'.agree ht hv).before rfl).node
  | branchElse _ _ h h' h'' =>
      have helse := (h''.agree ht hv).before (x := keyword "else") (y := keyword "else") rfl
      exact ((((h.agree ht hv).append fun _ => h'.agree ht hv).append fun _ =>
        helse).before rfl).node
  | switch _ h hs =>
      exact (((h.agree ht hv).append fun _ => (hs.agree ht hv).braces).behind rfl).node
  | @guarded b _ _ _ _ ih =>
      cases b with
      | false => exact ih rfl
      | true => exact Agree.refl.append fun hf => by cases hf

/-- Policies change blanks only. -/
theorem agree_ofNode (t : Tree) (p q : Policy) (i : NodeId) :
    Agree (ofNode t p i) (ofNode t q i) := by
  suffices h : ∀ fuel i, Agree (ofNodeWithin t p fuel i) (ofNodeWithin t q fuel i) from h t.size i
  intro fuel
  induction fuel with
  | zero => exact fun _ => .refl
  | succ fuel ih =>
      intro i
      rw [ofNodeWithin, ofNodeWithin]
      cases hk : (t.kind i).isVisited with
      | true =>
          have h := construct_kind (c := ⟨t, p, ofNodeWithin t p fuel⟩) (q := q)
            (v := ofNodeWithin t q fuel) hk
          exact h.agree rfl ih
      | false =>
          cases hi : t.kind i with
          | null | identifier | token | modifier | special => exact .refl
          | _ => simp [hi, Kind.isVisited] at hk

end TreeScribe.Layout
