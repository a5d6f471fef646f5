import TreeScribe.Grouping.Ambiguity
import TreeScribe.Proofs.Tree.Below

namespace TreeScribe.Ambiguity

variable {t u : Tree} {i p s v x y : NodeId} {r : Role} {op : BinaryOperator} {level fuel : Nat}

theorem readWithin_of_size_le (hi : t.size ≤ i) : readWithin t fuel level i = .decided false := by
  cases fuel with
  | zero => rfl
  | succ fuel =>
      have hk : t.kind i = .null := by
        rw [Tree.kind, Tree.node_of_size_le hi]
        rfl
      rw [readWithin, hk]

theorem readWithin_null (h : t.WellFormed) : readWithin t fuel level .null = .decided false := by
  cases fuel with
  | zero => rfl
  | succ fuel => rw [readWithin, h.null_kind]

theorem readWithin_child {fuel' : Nat} (h : t.WellFormed)
    (hc : ∀ c, t.parent c = some i → readWithin t fuel level c = readWithin t fuel' level c)
    (r : Role) :
    readWithin t fuel level (t.child i r) = readWithin t fuel' level (t.child i r) := by
  by_cases hn : t.child i r = .null
  · rw [hn, readWithin_null h, readWithin_null h]
  · exact hc _ (h.mem_children.mp (Tree.role_child hn).1)

theorem readWithin_congr (h : t.WellFormed) {fuel' : Nat} (hf : t.size ≤ fuel + t.depth i)
    (hf' : t.size ≤ fuel' + t.depth i) :
    readWithin t fuel level i = readWithin t fuel' level i := by
  induction fuel generalizing fuel' level i with
  | zero =>
      have hi : t.size ≤ i := Nat.not_lt.mp fun hi => absurd (h.depth_lt hi) (by omega)
      rw [readWithin_of_size_le hi, readWithin_of_size_le hi]
  | succ fuel ih =>
      cases fuel' with
      | zero =>
          have hi : t.size ≤ i := Nat.not_lt.mp fun hi => absurd (h.depth_lt hi) (by omega)
          rw [readWithin_of_size_le hi, readWithin_of_size_le hi]
      | succ fuel' =>
          have hc (level : Nat) (r : Role) :
              readWithin t fuel level (t.child i r) = readWithin t fuel' level (t.child i r) := by
            refine readWithin_child h (fun c hp => ?_) r
            exact ih (by rw [h.depth_of_parent hp]; omega) (by rw [h.depth_of_parent hp]; omega)
          have ho (level : Nat) (op : BinaryOperator) :
              readOperator t (readWithin t fuel) level op (t.child i .right) =
                readOperator t (readWithin t fuel') level op (t.child i .right) := by
            unfold readOperator
            split
            · rfl
            · rfl
            · exact hc _ _
          simp only [readWithin, hc, ho]

theorem read_eq (h : t.WellFormed) (fuel : Nat) (hf : t.size ≤ fuel) :
    readWithin t fuel level i = read t level i :=
  readWithin_congr h (Nat.le_trans hf (Nat.le_add_right _ _)) (Nat.le_add_right _ _)

/-- A reading that says no more than another one: the same, or that nothing is ambiguous. -/
def Weaker (a b : Reading) : Prop := a = b ∨ a = .decided false

/-- What reads in `u` as in `t`, where `f x` stands in the place of `x`. -/
structure Echo (t u : Tree) (f : NodeId → NodeId) : Prop where
  size_le : t.size ≤ u.size
  kind {x : NodeId} (hx : x < t.size) :
    u.kind (f x) = .expression .parenthesized ∨ f x = x ∧ u.kind x = t.kind x
  child {x : NodeId} {r : Role} (hx : x < t.size) (hr : r = .target ∨ r = .left ∨ r = .right) :
    u.child x r = f (t.child x r)
  /-- no new parentheses behind a closing angle -/
  closing {x : NodeId} {op : BinaryOperator} (hx : x < t.size)
    (hk : t.kind x = .expression (.binary op)) (ho : op = .greater ∨ op = .shiftRight)
    (hp : u.kind (f (t.child x .right)) = .expression .parenthesized) :
    t.kind (t.child x .right) = .expression .parenthesized

theorem closing_of_levelAfter? (h : levelAfter? level op = some 0) :
    op = .greater ∨ op = .shiftRight := by
  cases op with
  | greater => exact .inl rfl
  | shiftRight => exact .inr rfl
  | less => exact absurd (Option.some.inj h) (Nat.succ_ne_zero _)
  | _ => cases h

theorem readOperator_weaker {operand operand' : Nat → NodeId → Reading} {a b : NodeId}
    (ho : ∀ level, Weaker (operand level a) (operand' level b))
    (hc : op = .greater ∨ op = .shiftRight → u.kind a = .expression .parenthesized →
      t.kind b = .expression .parenthesized) :
    Weaker (readOperator u operand level op a) (readOperator t operand' level op b) := by
  unfold readOperator
  cases hl : levelAfter? level op with
  | none => exact .inl rfl
  | some n =>
      cases n with
      | zero =>
          by_cases hp : u.kind a = .expression .parenthesized
          · left
            simp only [hp, hc (closing_of_levelAfter? hl) hp]
          · right
            simp only [hp, decide_false]
      | succ n => exact ho _

theorem readWithin_weaker {f : NodeId → NodeId} (h : t.WellFormed) (he : Echo t u f)
    (fuel level : Nat) (hx : x < t.size) :
    Weaker (readWithin u fuel level (f x)) (readWithin t fuel level x) := by
  induction fuel generalizing level x with
  | zero => exact .inl rfl
  | succ fuel ih =>
      rcases he.kind hx with hp | ⟨hfx, hk⟩
      · right
        rw [readWithin, hp]
      · rw [hfx, readWithin, readWithin, hk]
        split
        · exact .inl rfl
        · exact .inl rfl
        · rw [he.child hx (.inl rfl)]
          exact ih level h.child_lt
        · rename_i op hop
          rw [he.child hx (.inr (.inl rfl)), he.child hx (.inr (.inr rfl))]
          rcases ih level (h.child_lt (i := x) (r := .left)) with hl | hl
          · rw [hl]
            split
            · exact readOperator_weaker (fun level => ih level h.child_lt) (he.closing hx hop)
            · exact .inl rfl
          · right
            rw [hl]
        · exact .inl rfl

theorem read_weaker {f : NodeId → NodeId} (h : t.WellFormed) (he : Echo t u f) (level : Nat)
    (hx : x < t.size) : Weaker (read u level (f x)) (read t level x) := by
  rw [← read_eq h u.size he.size_le]
  exact readWithin_weaker h he u.size level hx

/-- Where one comes from a node in document order, its subtree left out: to the next sibling, or the
parent. -/
def later (t : Tree) (i : NodeId) : Option NodeId := (t.nextSibling i).or (t.parent i)

theorem lt_of_later (h : t.WellFormed) (hl : later t x = some y) : y < t.size := by
  rw [later] at hl
  cases hn : t.nextSibling x with
  | some s =>
      rw [hn, Option.some_or] at hl
      cases hl
      have hf := (h.follows_siblingsAfter x).1
      rw [hn] at hf
      exact h.lt_of_mem_siblingsAfter (List.mem_of_head? hf.head?_eq)
  | none =>
      rw [hn, Option.none_or] at hl
      exact h.lt_parent hl

/-- Going on from a node comes to all siblings behind it, and to its parent. -/
theorem follows_later_siblings {l m : List NodeId} (hm : Follows t.nextSibling (t.nextSibling x) m)
    (hp : ∀ s ∈ m, t.parent s = t.parent x) (hl : Follows (later t) (later t x) l) :
    (∀ s ∈ m, s ∈ l) ∧ ∀ p, t.parent x = some p → p ∈ l := by
  induction m generalizing x l with
  | nil =>
      refine ⟨by simp, fun p hx => ?_⟩
      rw [later, ← hm.head?_eq, List.head?_nil, Option.none_or, hx] at hl
      cases hl
      exact List.mem_cons_self
  | cons a m ih =>
      have ha := hm.head?_eq
      rw [List.head?_cons] at ha
      rw [later, ← ha, Option.some_or] at hl
      rw [← ha] at hm
      have hpa := hp a List.mem_cons_self
      cases hm with
      | go hm =>
          cases hl with
          | go hl =>
              obtain ⟨hs, hq⟩ :=
                ih hm (fun s hs => (hp s (List.mem_cons_of_mem _ hs)).trans hpa.symm) hl
              refine ⟨fun s hs' => ?_, fun p hx => List.mem_cons_of_mem _ (hq p (hpa.trans hx))⟩
              rcases List.mem_cons.mp hs' with rfl | hs'
              · exact List.mem_cons_self
              · exact List.mem_cons_of_mem _ (hs s hs')

theorem exists_follows_later (h : t.WellFormed) (x : NodeId) :
    ∃ l, Follows (later t) (some x) l := by
  generalize hd : t.depth x = n
  induction n generalizing x with
  | zero =>
      cases hp : t.parent x with
      | none =>
          refine ⟨[x], .go ?_⟩
          rw [later, (h.single x hp).1, hp]
          exact .stop
      | some p =>
          rw [h.depth_of_parent hp] at hd
          cases hd
  | succ n ih =>
      cases hp : t.parent x with
      | none => simp [Tree.depth, h.ancestors_of_parent_none hp] at hd
      | some p =>
          rw [h.depth_of_parent hp] at hd
          obtain ⟨lp, hlp⟩ := ih p (Nat.succ.inj hd)
          obtain ⟨hf, hs⟩ := h.follows_siblingsAfter x
          generalize t.siblingsAfter x = m at hf hs
          clear hd
          induction m generalizing x with
          | nil =>
              refine ⟨x :: lp, .go ?_⟩
              rwa [later, ← hf.head?_eq, List.head?_nil, Option.none_or, hp]
          | cons a m ihm =>
              have ha := hf.head?_eq
              rw [List.head?_cons] at ha
              rw [← ha] at hf
              have hpa := hs a List.mem_cons_self
              cases hf with
              | go hf =>
                  obtain ⟨l, hl⟩ := ihm a (hpa.trans hp) hf fun s hs' =>
                    (hs s (List.mem_cons_of_mem _ hs')).trans hpa.symm
                  refine ⟨x :: l, .go ?_⟩
                  rwa [later, ← ha, Option.some_or]

theorem follows_later (h : t.WellFormed) (hx : x < t.size) :
    ∃ l, Follows (later t) (some x) l ∧ l.length ≤ t.size := by
  obtain ⟨l, hl⟩ := exists_follows_later h x
  refine ⟨l, hl, length_le_of_nodup hl.nodup fun y hy => ?_⟩
  rcases hl.linked_of_mem hy with hy | ⟨z, hy⟩
  · cases hy
    exact hx
  · exact lt_of_later h hy

/-- From where reading goes on, there are fewer nodes to come. -/
theorem follows_later_onward (h : t.WellFormed) {l : List NodeId}
    (hl : Follows (later t) (some x) l) (hy : t.parent x = some y ∨ nextOperand t x = some y) :
    ∃ l', Follows (later t) (some y) l' ∧ l'.length < l.length := by
  cases hl with
  | go hl =>
      rename_i l
      obtain ⟨hf, hs⟩ := h.follows_siblingsAfter x
      obtain ⟨hm, hp⟩ := follows_later_siblings hf hs hl
      have hyl : y ∈ l := by
        rcases hy with hy | hy
        · exact hp y hy
        · exact hm y (List.mem_of_find?_eq_some hy)
      obtain ⟨l₁, l₂, rfl⟩ := List.append_of_mem hyl
      refine ⟨y :: l₂, hl.suffix, ?_⟩
      rw [List.length_cons (a := x), List.length_append]
      exact Nat.lt_succ_of_le (Nat.le_add_left _ _)

theorem binaryOperator?_eq_some_iff :
    binaryOperator? t p = some op ↔ t.kind p = .expression (.binary op) := by
  unfold binaryOperator?
  split
  · rename_i op' hk
    rw [hk]
    simp
  · rename_i hk
    exact ⟨nofun, fun he => absurd he (hk op)⟩

theorem onward_of_left (hp : t.parent x = some p) (hk : t.kind p = .expression (.binary op))
    (hr : t.role x = .left) : onward t x = .operator op p := by
  unfold onward
  rw [hp, Option.bind_some, binaryOperator?_eq_some_iff.mpr hk, Option.map_some]
  exact if_pos hr

theorem onward_of_not_left
    (h : ∀ p op, t.parent x = some p → t.kind p = .expression (.binary op) → t.role x ≠ .left) :
    onward t x = onward.outward t x := by
  unfold onward
  cases hb : (t.parent x).bind fun p => (binaryOperator? t p).map fun op => (op, p) with
  | none => rfl
  | some a =>
      obtain ⟨p, hp, hb⟩ := Option.bind_eq_some_iff.mp hb
      obtain ⟨op, hop, rfl⟩ := Option.map_eq_some_iff.mp hb
      exact if_neg (h p op hp (binaryOperator?_eq_some_iff.mp hop))

theorem onward_imp : match onward t x with
    | .operator op p => t.parent x = some p ∧ t.kind p = .expression (.binary op)
    | .sibling s => nextOperand t x = some s
    | .parent p => t.parent x = some p
    | .nowhere => True := by
  by_cases hl : ∃ p op, t.parent x = some p ∧ t.kind p = .expression (.binary op) ∧ t.role x = .left
  · obtain ⟨p, op, hp, hk, hr⟩ := hl
    rw [onward_of_left hp hk hr]
    exact ⟨hp, hk⟩
  · rw [onward_of_not_left fun p op hp hk hr => hl ⟨p, op, hp, hk, hr⟩]
    unfold onward.outward
    cases hn : nextOperand t x with
    | some s => rfl
    | none =>
        cases hp : t.parent x with
        | some p => rfl
        | none => trivial

/-- Reading goes on from `y` in `u` as from `x` in `t`, between places that `R` relates, or it
leaves new parentheses around `x`. -/
inductive Moves (t u : Tree) (f : NodeId → NodeId) (R : NodeId → NodeId → Prop)
    (y x : NodeId) : Prop
  | stop (hu : onward u y = .nowhere)
  | operator {op : BinaryOperator} {p : NodeId} (hu : onward u y = .operator op p)
      (ht : onward t x = .operator op p) (hr : R p p)
  | sibling {s : NodeId} (hu : onward u y = .sibling (f s)) (ht : onward t x = .sibling s)
      (hr : R (f s) s)
  | parent {p : NodeId} (hu : onward u y = .parent p) (ht : onward t x = .parent p) (hr : R p p)
  | leave {p : NodeId} (hu : onward u y = .parent p) (hr : R p x)

theorem isAmbiguousFrom_of_echo {f : NodeId → NodeId} {R : NodeId → NodeId → Prop}
    (h : t.WellFormed) (he : Echo t u f) (hR : ∀ y x, R y x → x < t.size)
    (hM : ∀ y x, R y x → Moves t u f R y x) {n m level : Nat} {l : List NodeId}
    (hl : Follows (later t) (some x) l) (hm : l.length ≤ m) (hyx : R y x)
    (ha : isAmbiguousFrom u n level y = true) : isAmbiguousFrom t m level x = true := by
  induction n generalizing m level x y l with
  | zero => cases ha
  | succ n ih =>
      -- Every place that `t` goes on to is a later one, so `m` is enough for all that are left.
      have hgo (z : NodeId) (hz : t.parent x = some z ∨ nextOperand t x = some z) :
          ∃ l' m', m = m' + 1 ∧ Follows (later t) (some z) l' ∧ l'.length ≤ m' := by
        obtain ⟨l', hl', hlt⟩ := follows_later_onward h hl hz
        exact ⟨l', m - 1, by omega, hl', by omega⟩
      have hot := onward_imp (t := t) (x := x)
      rw [isAmbiguousFrom] at ha
      cases hM y x hyx with
      | stop hu =>
          rw [hu] at ha
          cases ha
      | leave hu hr =>
          rw [hu] at ha
          exact ih hl hm hr ha
      | parent hu ht hr =>
          rw [hu] at ha
          rw [ht] at hot
          obtain ⟨l', m', rfl, hl', hm'⟩ := hgo _ (.inl hot)
          rw [isAmbiguousFrom, ht]
          exact ih hl' hm' hr ha
      | operator hu ht hr =>
          rename_i op p
          rw [hu] at ha
          rw [ht] at hot
          obtain ⟨l', m', rfl, hl', hm'⟩ := hgo _ (.inl hot.1)
          rw [isAmbiguousFrom, ht]
          have hp := hR p p hr
          have hw : Weaker (readOperator u (read u) level op (u.child p .right))
              (readOperator t (read t) level op (t.child p .right)) := by
            rw [he.child hp (.inr (.inr rfl))]
            exact readOperator_weaker (fun level => read_weaker h he level h.child_lt)
              (he.closing hp hot.2)
          rcases hw with hw | hw
          · simp only [hw] at ha
            simp only
            split at ha
            · exact ha
            · exact ih hl' hm' hr ha
          · simp only [hw] at ha
            cases ha
      | sibling hu ht hr =>
          rename_i s
          rw [hu] at ha
          rw [ht] at hot
          obtain ⟨l', m', rfl, hl', hm'⟩ := hgo _ (.inr hot)
          rw [isAmbiguousFrom, ht]
          rcases read_weaker h he level (hR _ _ hr) with hw | hw
          · simp only [hw] at ha
            simp only
            split at ha
            · exact ha
            · exact ih hl' hm' hr ha
          · simp only [hw] at ha
            cases ha

/-- A comparison is ambiguous only if it was so before. -/
theorem isAmbiguous_of_echo {f : NodeId → NodeId} {R : NodeId → NodeId → Prop} (h : t.WellFormed)
    (he : Echo t u f) (hR : ∀ y x, R y x → x < t.size) (hM : ∀ y x, R y x → Moves t u f R y x)
    (hx : R x x) (ha : isAmbiguous u x = true) : isAmbiguous t x = true := by
  have hlt := hR x x hx
  obtain ⟨l, hl, hm⟩ := follows_later h hlt
  rw [isAmbiguous, he.child hlt (.inr (.inr rfl))] at ha
  rw [isAmbiguous]
  rcases read_weaker h he 1 (h.child_lt (i := x) (r := .right)) with hw | hw
  · rw [hw] at ha
    split at ha
    · exact ha
    · exact isAmbiguousFrom_of_echo h he hR hM hl hm hx ha
  · rw [hw] at ha
    cases ha

end TreeScribe.Ambiguity
