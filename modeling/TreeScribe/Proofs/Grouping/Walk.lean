import TreeScribe.Proofs.Grouping.Reading
import TreeScribe.Proofs.Tree.Behind

namespace TreeScribe.Ambiguity

inductive Shift : Nat → BinaryOperator → Nat → Prop
  | opens (level : Nat) : Shift level .less (level + 1)
  | closes (level : Nat) : Shift (level + 1) .greater level
  | closesTwo (level : Nat) : Shift (level + 2) .shiftRight level

structure Visit where
  level : Nat
  node : NodeId
  deriving DecidableEq

inductive Item where
  | operand (node : NodeId)
  | operator (op : BinaryOperator) (right : NodeId)

def Item.node : Item → NodeId
  | operand i | operator _ i => i

/-- What can stand among type arguments. -/
@[simp]
def continues : Kind → Bool
  | .expression .identifier | .expression .typeReference | .expression .member
  | .expression (.binary _) => true
  | _ => false

/-- Reading an item visits nodes and ends. An operand may be missing; what is behind the last angle
is not visited. -/
inductive Reads (t : Tree) : Nat → Item → List Visit → Reading → Prop
  | absent {level : Nat} : Reads t level (.operand .null) [] (.decided false)
  | other {level : Nat} {i : NodeId} (hi : i ≠ .null) (hk : continues (t.kind i) = false) :
      Reads t level (.operand i) [⟨level, i⟩] (.decided false)
  | name {level : Nat} {i : NodeId}
      (hk : t.kind i = .expression .identifier ∨ t.kind i = .expression .typeReference) :
      Reads t level (.operand i) [⟨level, i⟩] (.opened level)
  | member {level : Nat} {i : NodeId} {v : List Visit} {a : Reading}
      (hk : t.kind i = .expression .member)
      (h : Reads t level (.operand (t.child i .target)) v a) :
      Reads t level (.operand i) (⟨level, i⟩ :: v) a
  | left {level : Nat} {i : NodeId} {op : BinaryOperator} {v : List Visit} {b : Bool}
      (hk : t.kind i = .expression (.binary op))
      (h : Reads t level (.operand (t.child i .left)) v (.decided b)) :
      Reads t level (.operand i) (⟨level, i⟩ :: v) (.decided b)
  | binary {level level' : Nat} {i : NodeId} {op : BinaryOperator} {v w : List Visit} {a : Reading}
      (hk : t.kind i = .expression (.binary op))
      (hl : Reads t level (.operand (t.child i .left)) v (.opened level'))
      (hr : Reads t level' (.operator op (t.child i .right)) w a) :
      Reads t level (.operand i) (⟨level, i⟩ :: (v ++ w)) a
  | refused {level : Nat} {op : BinaryOperator} {right : NodeId}
      (hs : ∀ level', ¬ Shift level op level') :
      Reads t level (.operator op right) [] (.decided false)
  | closed {level : Nat} {op : BinaryOperator} {right : NodeId} (hs : Shift level op 0) :
      Reads t level (.operator op right) [] (.decided (t.kind right = .expression .parenthesized))
  | within {level level' : Nat} {op : BinaryOperator} {right : NodeId} {v : List Visit}
      {a : Reading}
      (hs : Shift level op (level' + 1)) (h : Reads t (level' + 1) (.operand right) v a) :
      Reads t level (.operator op right) v a

def isSkipped : Kind → Bool
  | .token | .modifier _ | .special _ => true
  | _ => false

inductive Passes (t : Tree) : NodeId → Option NodeId → Prop
  | last {x : NodeId} (hs : t.nextSibling x = none) : Passes t x none
  | found {x s : NodeId} (hs : t.nextSibling x = some s) (hk : isSkipped (t.kind s) = false) :
      Passes t x (some s)
  | along {x s : NodeId} {o : Option NodeId} (hs : t.nextSibling x = some s)
      (hk : isSkipped (t.kind s) = true)
      (h : Passes t s o) : Passes t x o

structure LeftOperand (t : Tree) (op : BinaryOperator) (p x : NodeId) : Prop where
  parent : t.parent x = some p
  kind : t.kind p = .expression (.binary op)
  role : t.role x = .left

/-- Every right operand stands behind the left operands of its operator. -/
def OperandsInOrder (t : Tree) : Prop :=
  ∀ op p x, LeftOperand t op p x → t.child p .right ≠ .null → t.child p .right ∈ t.siblingsAfter x

/-- What is read next behind `x`; behind it the walk stands behind `y`. -/
inductive Next (t : Tree) : NodeId → Item → NodeId → Prop
  | operator {op : BinaryOperator} {p x : NodeId} (hx : LeftOperand t op p x) :
      Next t x (.operator op (t.child p .right)) p
  | sibling {x s : NodeId} (hx : ∀ op p, ¬ LeftOperand t op p x) (hs : Passes t x (some s)) :
      Next t x (.operand s) s

/-- From behind a node with so many open angles the walk goes on to places, visits nodes, and ends
with an answer. -/
inductive Goes (t : Tree) : Nat → NodeId → List Visit → List Visit → Bool → Prop
  | on {level level' : Nat} {x y : NodeId} {item : Item} {places v w : List Visit} {b : Bool}
      (hx : Next t x item y)
      (hr : Reads t level item v (.opened level')) (h : Goes t level' y places w b) :
      Goes t level x (⟨level, x⟩ :: places) (v ++ w) b
  | decided {level : Nat} {x y : NodeId} {item : Item} {v : List Visit} {b : Bool}
      (hx : Next t x item y)
      (hr : Reads t level item v (.decided b)) : Goes t level x [⟨level, x⟩] v b
  | climb {level : Nat} {x p : NodeId} {places v : List Visit} {b : Bool}
      (hx : ∀ op p, ¬ LeftOperand t op p x)
      (hs : Passes t x none) (hp : t.parent x = some p) (h : Goes t level p places v b) :
      Goes t level x (⟨level, x⟩ :: places) v b
  | top {level : Nat} {x : NodeId} (hs : Passes t x none) (hp : t.parent x = none) :
      Goes t level x [⟨level, x⟩] [] false

/-- One angle is open behind a `<`. Its right operand is read first, and then the walk goes on
behind the comparison. -/
inductive Walk (t : Tree) (i : NodeId) : List Visit → List Visit → Bool → Prop
  | decided {v : List Visit} {b : Bool}
      (hr : Reads t 1 (.operand (t.child i .right)) v (.decided b)) : Walk t i [] v b
  | goes {level : Nat} {places v w : List Visit} {b : Bool}
      (hr : Reads t 1 (.operand (t.child i .right)) v (.opened level))
      (h : Goes t level i places w b) :
      Walk t i places (v ++ w) b

variable {t : Tree} {i p q s x y y' : NodeId} {op op' : BinaryOperator} {level fuel n m : Nat}
  {item item' : Item}
  {places places' v v' : List Visit} {a a' : Reading} {b b' : Bool} {o o' : Option NodeId}

theorem levelAfter?_eq_some_iff : levelAfter? level op = some n ↔ Shift level op n := by
  constructor
  · intro h
    cases op with
    | less =>
        cases h
        exact .opens level
    | greater =>
        simp only [levelAfter?, Option.ite_none_right_eq_some, Option.some.injEq] at h
        obtain ⟨hle, rfl⟩ := h
        obtain ⟨k, rfl⟩ := Nat.exists_eq_add_of_le' hle
        exact .closes k
    | shiftRight =>
        simp only [levelAfter?, Option.ite_none_right_eq_some, Option.some.injEq] at h
        obtain ⟨hle, rfl⟩ := h
        obtain ⟨k, rfl⟩ := Nat.exists_eq_add_of_le' hle
        exact .closesTwo k
    | _ => cases h
  · rintro (_ | _ | _)
    · rfl
    · simp [levelAfter?]
    · simp [levelAfter?]

theorem Shift.unique (h : Shift level op n) (h' : Shift level op m) : n = m :=
  Option.some.inj ((levelAfter?_eq_some_iff.mpr h).symm.trans (levelAfter?_eq_some_iff.mpr h'))

theorem LeftOperand.unique (h : LeftOperand t op p x) (h' : LeftOperand t op' q x) :
    op = op' ∧ p = q := by
  cases Option.some.inj (h.parent.symm.trans h'.parent)
  have hk := h.kind.symm.trans h'.kind
  simp only [Kind.expression.injEq, ExpressionKind.binary.injEq] at hk
  exact ⟨hk, rfl⟩

theorem continues_of_name {k : Kind}
    (h : k = .expression .identifier ∨ k = .expression .typeReference) : continues k = true := by
  rcases h with rfl | rfl <;> rfl

theorem Reads.unique (ht : t.WellFormed) (h : Reads t level item v a)
    (h' : Reads t level item v' a') : v = v' ∧ a = a' := by
  -- The kind of an operand, or the shift of an operator, leaves one way to read it; only after a
  -- left operand there are two, which differ in what it came to.
  induction h generalizing v' a' with
  | absent => cases h' <;> simp_all [ht.null_kind]
  | other hi hk =>
      cases h' with
      | other => exact ⟨rfl, rfl⟩
      | name hk' => cases hk.symm.trans (continues_of_name hk')
      | _ => simp_all
  | name hk =>
      cases h' with
      | other _ hk' => cases hk'.symm.trans (continues_of_name hk)
      | name => exact ⟨rfl, rfl⟩
      | _ => simp_all [ht.null_kind]
  | member hk _ ih =>
      cases h' with
      | member _ h' =>
          obtain ⟨rfl, rfl⟩ := ih h'
          exact ⟨rfl, rfl⟩
      | _ => simp_all [ht.null_kind]
  | left hk _ ih =>
      cases h' with
      | left _ h' =>
          obtain ⟨rfl, ha⟩ := ih h'
          exact ⟨rfl, ha⟩
      | binary _ hl => cases (ih hl).2
      | _ => simp_all [ht.null_kind]
  | binary hk _ _ ihl ihr =>
      cases h' with
      | left _ h' => cases (ihl h').2
      | binary hk' hl hr =>
          cases hk.symm.trans hk'
          obtain ⟨rfl, hlevel⟩ := ihl hl
          cases hlevel
          obtain ⟨rfl, rfl⟩ := ihr hr
          exact ⟨rfl, rfl⟩
      | _ => simp_all [ht.null_kind]
  | refused hs =>
      cases h' with
      | refused => exact ⟨rfl, rfl⟩
      | closed hs' | within hs' => exact absurd hs' (hs _)
  | closed hs =>
      cases h' with
      | refused hs' => exact absurd hs (hs' _)
      | closed => exact ⟨rfl, rfl⟩
      | within hs' => cases hs.unique hs'
  | within hs _ ih =>
      cases h' with
      | refused hs' => exact absurd hs (hs' _)
      | closed hs' => cases hs.unique hs'
      | within hs' h' =>
          cases hs.unique hs'
          exact ih h'

theorem Reads.of_child_opened (ht : t.WellFormed) {r : Role}
    (h : Reads t level (.operand (t.child i r)) v (.opened n)) :
    t.parent (t.child i r) = some i ∧ t.role (t.child i r) = r := by
  have hne : t.child i r ≠ .null := by
    intro hc
    rw [hc] at h
    cases (h.unique ht .absent).2
  obtain ⟨hm, hr⟩ := Tree.role_child hne
  exact ⟨ht.mem_children.mp hm, hr⟩

theorem Passes.unique (h : Passes t x o) (h' : Passes t x o') : o = o' := by
  induction h generalizing o' with
  | last hs => cases h' <;> simp_all
  | found hs hk => cases h' <;> simp_all
  | along hs hk _ ih =>
      cases h' with
      | along hs' _ h' =>
          cases hs.symm.trans hs'
          exact ih h'
      | _ => simp_all

theorem Next.unique (h : Next t x item y) (h' : Next t x item' y') : item = item' ∧ y = y' := by
  cases h with
  | operator hx =>
      cases h' with
      | operator hx' =>
          obtain ⟨rfl, rfl⟩ := hx.unique hx'
          exact ⟨rfl, rfl⟩
      | sibling hx' => exact absurd hx (hx' _ _)
  | sibling hx hs =>
      cases h' with
      | operator hx' => exact absurd hx' (hx _ _)
      | sibling _ hs' =>
          cases hs.unique hs'
          exact ⟨rfl, rfl⟩

/-- Where something is read next, the walk does not climb. -/
theorem Next.not_passes (h : Next t x item y) (hx : ∀ op p, ¬ LeftOperand t op p x) :
    ¬ Passes t x none := by
  cases h with
  | operator hx' => exact absurd hx' (hx _ _)
  | sibling _ hs =>
      intro hs'
      cases hs.unique hs'

theorem not_leftOperand_of_parent_none (hp : t.parent x = none) (op : BinaryOperator) (p : NodeId) :
    ¬ LeftOperand t op p x := by
  intro h
  cases hp.symm.trans h.parent

theorem Goes.unique (ht : t.WellFormed) (h : Goes t level x places v b)
    (h' : Goes t level x places' v' b') : places = places' ∧ v = v' ∧ b = b' := by
  induction h generalizing places' v' b' with
  | on hx hr _ ih =>
      cases h' with
      | on hx' hr' h' =>
          obtain ⟨rfl, rfl⟩ := hx.unique hx'
          obtain ⟨rfl, hlevel⟩ := hr.unique ht hr'
          cases hlevel
          obtain ⟨rfl, rfl, rfl⟩ := ih h'
          exact ⟨rfl, rfl, rfl⟩
      | decided hx' hr' =>
          obtain ⟨rfl, rfl⟩ := hx.unique hx'
          cases (hr.unique ht hr').2
      | climb hx' hs' => exact absurd hs' (hx.not_passes hx')
      | top hs' hp' => exact absurd hs' (hx.not_passes (not_leftOperand_of_parent_none hp'))
  | decided hx hr =>
      cases h' with
      | on hx' hr' =>
          obtain ⟨rfl, rfl⟩ := hx.unique hx'
          cases (hr.unique ht hr').2
      | decided hx' hr' =>
          obtain ⟨rfl, rfl⟩ := hx.unique hx'
          obtain ⟨rfl, hb⟩ := hr.unique ht hr'
          cases hb
          exact ⟨rfl, rfl, rfl⟩
      | climb hx' hs' => exact absurd hs' (hx.not_passes hx')
      | top hs' hp' => exact absurd hs' (hx.not_passes (not_leftOperand_of_parent_none hp'))
  | climb hx hs hp _ ih =>
      cases h' with
      | on hx' | decided hx' => exact absurd hs (hx'.not_passes hx)
      | climb _ _ hp' h' =>
          cases hp.symm.trans hp'
          obtain ⟨rfl, rfl, rfl⟩ := ih h'
          exact ⟨rfl, rfl, rfl⟩
      | top _ hp' => cases hp.symm.trans hp'
  | top hs hp =>
      cases h' with
      | on hx' | decided hx' => exact absurd hs (hx'.not_passes (not_leftOperand_of_parent_none hp))
      | climb _ _ hp' => cases hp.symm.trans hp'
      | top => exact ⟨rfl, rfl, rfl⟩

theorem Walk.unique (ht : t.WellFormed) (h : Walk t i places v b) (h' : Walk t i places' v' b') :
    places = places' ∧ v = v' ∧ b = b' := by
  cases h with
  | decided hr =>
      cases h' with
      | decided hr' =>
          obtain ⟨rfl, hb⟩ := hr.unique ht hr'
          cases hb
          exact ⟨rfl, rfl, rfl⟩
      | goes hr' => cases (hr.unique ht hr').2
  | goes hr hg =>
      cases h' with
      | decided hr' => cases (hr.unique ht hr').2
      | goes hr' hg' =>
          obtain ⟨rfl, hlevel⟩ := hr.unique ht hr'
          cases hlevel
          obtain ⟨rfl, rfl, rfl⟩ := hg.unique ht hg'
          exact ⟨rfl, rfl, rfl⟩

theorem exists_reads_operator {operand : Nat → NodeId → Reading}
    (ho : ∀ level, ∃ v, Reads t level (.operand s) v (operand level s)) (level : Nat)
    (op : BinaryOperator) :
    ∃ v, Reads t level (.operator op s) v (readOperator t operand level op s) := by
  unfold readOperator
  cases hl : levelAfter? level op with
  | none =>
      refine ⟨[], .refused fun n hs => ?_⟩
      rw [levelAfter?_eq_some_iff.mpr hs] at hl
      cases hl
  | some n =>
      cases n with
      | zero => exact ⟨[], .closed (levelAfter?_eq_some_iff.mp hl)⟩
      | succ n =>
          obtain ⟨v, hv⟩ := ho (n + 1)
          exact ⟨v, .within (levelAfter?_eq_some_iff.mp hl) hv⟩

theorem exists_reads_within (h : t.WellFormed) (hf : t.size ≤ fuel + t.depth i) (level : Nat) :
    ∃ v, Reads t level (.operand i) v (readWithin t fuel level i) := by
  by_cases hn : i = .null
  · rw [hn, readWithin_null h]
    exact ⟨[], .absent⟩
  induction fuel generalizing level i with
  | zero =>
      have hi : t.size ≤ i := Nat.not_lt.mp fun hi => absurd (h.depth_lt hi) (by omega)
      exact ⟨_, .other hn (by rw [Tree.kind, Tree.node_of_size_le hi]; rfl)⟩
  | succ fuel ih =>
      have hc (level : Nat) (r : Role) :
          ∃ v, Reads t level (.operand (t.child i r))
            v (readWithin t fuel level (t.child i r)) := by
        by_cases hr : t.child i r = .null
        · rw [hr, readWithin_null h]
          exact ⟨[], .absent⟩
        · exact ih (h.fuel_child hf (h.mem_children.mp (Tree.role_child hr).1)) level hr
      rw [readWithin]
      split
      · exact ⟨_, .name (.inl ‹_›)⟩
      · exact ⟨_, .name (.inr ‹_›)⟩
      · obtain ⟨v, hv⟩ := hc level .target
        exact ⟨_, .member ‹_› hv⟩
      · obtain ⟨v, hv⟩ := hc level .left
        cases hl : readWithin t fuel level (t.child i .left) with
        | opened level' =>
            rw [hl] at hv
            obtain ⟨w, hw⟩ := exists_reads_operator (fun level => hc level .right) level' _
            exact ⟨_, .binary ‹_› hv hw⟩
        | decided b =>
            rw [hl] at hv
            exact ⟨_, .left ‹_› hv⟩
      · refine ⟨_, .other hn ?_⟩
        unfold continues
        split <;> simp_all

theorem exists_reads (h : t.WellFormed) (level : Nat) (i : NodeId) :
    ∃ v, Reads t level (.operand i) v (read t level i) :=
  exists_reads_within h (Nat.le_add_right _ _) level

theorem nextOperand_eq : nextOperand t x = (t.siblingsAfter x).find? fun s =>
    !isSkipped (t.kind s) := by
  unfold nextOperand
  congr
  funext s
  cases t.kind s <;> rfl

theorem passes_find? {l : List NodeId} (hl : Follows t.nextSibling (t.nextSibling x) l) :
    Passes t x (l.find? fun s => !isSkipped (t.kind s)) := by
  induction l generalizing x with
  | nil => exact .last hl.head?_eq.symm
  | cons s l ih =>
      have hs := hl.head?_eq.symm
      rw [List.head?_cons] at hs
      rw [hs] at hl
      cases hl with
      | go hl =>
          cases hk : isSkipped (t.kind s) with
          | false =>
              rw [List.find?_cons_of_pos (by simp [hk])]
              exact .found hs hk
          | true =>
              rw [List.find?_cons_of_neg (by simp [hk])]
              exact .along hs hk (ih hl)

theorem passes_nextOperand (h : t.WellFormed) (x : NodeId) : Passes t x (nextOperand t x) := by
  rw [nextOperand_eq]
  exact passes_find? (h.follows_siblingsAfter x).1

theorem Next.exists_goes (hx : Next t x item y) (hr : Reads t level item v a)
    (hd : ∀ b', a = .decided b' → b = b')
    (ho : ∀ level', a = .opened level' → ∃ places w, Goes t level' y places w b) :
    ∃ places w, Goes t level x places w b := by
  cases a with
  | decided b' =>
      cases hd b' rfl
      exact ⟨_, _, .decided hx hr⟩
  | opened level' =>
      obtain ⟨places, w, h⟩ := ho level' rfl
      exact ⟨_, _, .on hx hr h⟩

/-- Every place that the loop goes on to is a later one, so as much fuel as there are later ones is
enough. -/
theorem exists_goes (h : t.WellFormed) {l : List NodeId} (hl : Follows (later t) (some x) l)
    (hf : l.length ≤ fuel) (level : Nat) :
    ∃ places v, Goes t level x places v (isAmbiguousFrom t fuel level x) := by
  induction fuel generalizing x level l with
  | zero =>
      cases hl with
      | go => simp at hf
  | succ fuel ih =>
      have hgo (y : NodeId) (hy : t.parent x = some y ∨ nextOperand t x = some y) (level : Nat) :
          ∃ places v, Goes t level y places v (isAmbiguousFrom t fuel level y) := by
        obtain ⟨l', hl', hlt⟩ := follows_later_onward h hl hy
        exact ih hl' (by omega) level
      by_cases hx : ∃ op p, LeftOperand t op p x
      · obtain ⟨op, p, hx⟩ := hx
        rw [isAmbiguousFrom, onward_of_left hx.parent hx.kind hx.role]
        obtain ⟨v, hv⟩ := exists_reads_operator
          (fun level => exists_reads h level (t.child p .right)) level op
        refine (Next.operator hx).exists_goes hv (fun b ha => by simp only [ha]) fun level' ha => ?_
        simp only [ha]
        exact hgo p (.inl hx.parent) level'
      · have hx (op : BinaryOperator) (p : NodeId) : ¬ LeftOperand t op p x :=
          fun hl => hx ⟨op, p, hl⟩
        rw [isAmbiguousFrom, onward_of_not_left fun p op hp hk hr => hx op p ⟨hp, hk, hr⟩,
          onward.outward]
        have hs := passes_nextOperand h x
        cases hn : nextOperand t x with
        | some s =>
            rw [hn] at hs
            obtain ⟨v, hv⟩ := exists_reads h level s
            refine (Next.sibling hx hs).exists_goes hv (fun b ha => by simp only [ha])
              fun level' ha => ?_
            simp only [ha]
            exact hgo s (.inr hn) level'
        | none =>
            rw [hn] at hs
            cases hp : t.parent x with
            | some p =>
                obtain ⟨places, v, hv⟩ := hgo p (.inl hp) level
                exact ⟨_, _, .climb hx hs hp hv⟩
            | none => exact ⟨_, _, .top hs hp⟩

theorem exists_walk (h : t.WellFormed) (i : NodeId) :
    ∃ places v, Walk t i places v (isAmbiguous t i) := by
  obtain ⟨v, hv⟩ := exists_reads h 1 (t.child i .right)
  rw [isAmbiguous]
  cases ha : read t 1 (t.child i .right) with
  | decided b =>
      rw [ha] at hv
      exact ⟨_, _, .decided hv⟩
  | opened level =>
      rw [ha] at hv
      obtain ⟨l, hl, hf⟩ := follows_later h (h.lt_parent (hv.of_child_opened h).1)
      obtain ⟨places, w, hw⟩ := exists_goes h hl hf level
      exact ⟨_, _, .goes hv hw⟩

theorem Reads.level_pos (h : Reads t level item v a) (hl : 0 < level) :
    (∀ s ∈ v, 0 < s.level) ∧ ∀ n, a = .opened n → 0 < n := by
  induction h with
  | absent | refused | closed => simp
  | other => simpa using hl
  | name =>
      refine ⟨by simpa using hl, fun n hn => ?_⟩
      cases hn
      exact hl
  | member _ _ ih | left _ _ ih => exact ⟨List.forall_mem_cons.mpr ⟨hl, (ih hl).1⟩, (ih hl).2⟩
  | binary _ _ _ ihl ihr =>
      obtain ⟨hv, hn⟩ := ihl hl
      obtain ⟨hw, ha⟩ := ihr (hn _ rfl)
      exact ⟨List.forall_mem_cons.mpr ⟨hl, List.forall_mem_append.mpr ⟨hv, hw⟩⟩, ha⟩
  | within _ _ ih => exact ih (Nat.succ_pos _)

theorem Goes.level_pos (h : Goes t level x places v b) (hl : 0 < level) :
    (∀ s ∈ places, 0 < s.level) ∧ ∀ s ∈ v, 0 < s.level := by
  induction h with
  | on _ hr _ ih =>
      obtain ⟨hv, hn⟩ := hr.level_pos hl
      obtain ⟨hplaces, hw⟩ := ih (hn _ rfl)
      exact ⟨List.forall_mem_cons.mpr ⟨hl, hplaces⟩, List.forall_mem_append.mpr ⟨hv, hw⟩⟩
  | decided _ hr => exact ⟨by simpa using hl, (hr.level_pos hl).1⟩
  | climb _ _ _ _ ih => exact ⟨List.forall_mem_cons.mpr ⟨hl, (ih hl).1⟩, (ih hl).2⟩
  | top => exact ⟨by simpa using hl, by simp⟩

theorem Walk.level_pos (h : Walk t i places v b) :
    (∀ s ∈ places, 0 < s.level) ∧ ∀ s ∈ v, 0 < s.level := by
  cases h with
  | decided hr => exact ⟨by simp, (hr.level_pos Nat.one_pos).1⟩
  | goes hr h =>
      obtain ⟨hv, hn⟩ := hr.level_pos Nat.one_pos
      obtain ⟨hplaces, hw⟩ := h.level_pos (hn _ rfl)
      exact ⟨hplaces, List.forall_mem_append.mpr ⟨hv, hw⟩⟩

theorem Passes.mem (ht : t.WellFormed) (h : Passes t x (some s)) : s ∈ t.siblingsAfter x := by
  have hn : nextOperand t x = some s := (passes_nextOperand ht x).unique h
  exact List.mem_of_find?_eq_some hn

theorem Next.forward (ht : t.WellFormed) (h : Next t x item y) : t.Forward x y := by
  cases h with
  | operator hx => exact ht.forward_parent hx.parent
  | sibling _ hs => exact ht.forward_sibling (hs.mem ht)

theorem Goes.forward (ht : t.WellFormed) (h : Goes t level x places v b) :
    ∃ rest, places = ⟨level, x⟩ :: rest ∧ ((x :: rest.map Visit.node).Pairwise t.Forward) := by
  induction h with
  | on hx _ _ ih =>
      obtain ⟨rest, rfl, ih⟩ := ih
      exact ⟨_, rfl, (hx.forward ht).pairwise_cons ih⟩
  | decided | top => exact ⟨[], rfl, List.pairwise_singleton _ _⟩
  | climb _ _ hp _ ih =>
      obtain ⟨rest, rfl, ih⟩ := ih
      exact ⟨_, rfl, (ht.forward_parent hp).pairwise_cons ih⟩

theorem Walk.forward (ht : t.WellFormed) (h : Walk t i places v b) :
    (places.map Visit.node).Pairwise t.Forward := by
  cases h with
  | decided => exact .nil
  | goes _ h =>
      obtain ⟨rest, rfl, hrest⟩ := h.forward ht
      exact hrest

theorem Next.lt (ht : t.WellFormed) (h : Next t x item y) : y < t.size := by
  cases h with
  | operator hx => exact ht.lt_parent hx.parent
  | sibling _ hs => exact ht.lt_of_mem_siblingsAfter (hs.mem ht)

theorem Goes.lt (ht : t.WellFormed) (h : Goes t level x places v b) (hx : x < t.size) :
    ∀ s ∈ places, s.node < t.size := by
  induction h with
  | on hn _ _ ih => exact List.forall_mem_cons.mpr ⟨hx, ih (hn.lt ht)⟩
  | decided | top => exact List.forall_mem_singleton.mpr hx
  | climb _ _ hp _ ih => exact List.forall_mem_cons.mpr ⟨hx, ih (ht.lt_parent hp)⟩

/-- No place is met twice, so the loop turns no more often than there are nodes. -/
theorem Walk.length_le (ht : t.WellFormed) (h : Walk t i places v b) : places.length ≤ t.size := by
  have hn : (places.map Visit.node).Nodup := (h.forward ht).imp fun h => h.ne
  rw [← places.length_map Visit.node]
  refine length_le_of_nodup hn fun y hy => ?_
  obtain ⟨s, hs, rfl⟩ := List.mem_map.mp hy
  cases h with
  | decided => cases hs
  | goes hr h => exact h.lt ht (ht.lt_parent (hr.of_child_opened ht).1) s hs

theorem Reads.eq_nil (ht : t.WellFormed) (h : Reads t level item v a) (hn : item.node = .null) :
    v = [] := by
  cases item with
  | operand i =>
      rw [show i = .null from hn] at h
      exact (h.unique ht .absent).1
  | operator op i =>
      cases h with
      | refused | closed => rfl
      | within _ h =>
          rw [show i = .null from hn] at h
          exact (h.unique ht .absent).1

theorem Reads.below_of_child (ht : t.WellFormed) {r : Role} (h : Reads t level item v a)
    (hi : item.node = t.child i r) (hv : (v.map Visit.node).Sublist (t.subtree item.node)) :
    (v.map Visit.node).Sublist (t.descendants i) := by
  by_cases hn : item.node = .null
  · rw [h.eq_nil ht hn]
    exact List.nil_sublist _
  · refine hv.trans (ht.subtree_sublist (ht.mem_children.mp ?_))
    rw [hi] at hn ⊢
    exact (Tree.role_child hn).1

theorem Reads.sublist (ht : t.WellFormed) (ho : OperandsInOrder t) (h : Reads t level item v a) :
    (v.map Visit.node).Sublist (t.subtree item.node) := by
  induction h with
  | absent | refused | closed => exact List.nil_sublist _
  | other | name => exact (List.nil_sublist _).cons_cons _
  | member _ h ih | left _ h ih => exact (h.below_of_child ht rfl ih).cons_cons _
  | binary hk hl hr ihl ihr =>
      rename_i i op v w a
      refine List.Sublist.cons_cons _ ?_
      by_cases hn : t.child i .right = .null
      · rw [hr.eq_nil ht hn, List.append_nil]
        exact hl.below_of_child ht rfl ihl
      · obtain ⟨hp, hrole⟩ := hl.of_child_opened ht
        rw [List.map_append]
        exact (ihl.append ihr).trans (ht.subtrees_sublist hp (ho op i _ ⟨hp, hk, hrole⟩ hn))
  | within _ _ ih => exact ih

theorem Next.sublist (ht : t.WellFormed) (ho : OperandsInOrder t) (hx : Next t x item y)
    (hr : Reads t level item v a) : (v.map Visit.node ++ t.behind y).Sublist (t.behind x) := by
  have hv := hr.sublist ht ho
  cases hx with
  | operator hx =>
      -- the right operand is among the later siblings of the left one
      rw [ht.behind_of_parent hx.parent]
      refine List.Sublist.append ?_ (List.Sublist.refl _)
      by_cases hn : t.child y .right = .null
      · rw [hr.eq_nil ht hn]
        exact List.nil_sublist _
      · exact hv.trans (Tree.subtree_sublist_flatMap (ho _ _ _ hx hn))
  | sibling _ hs =>
      obtain ⟨between, hb⟩ := ht.behind_of_sibling (hs.mem ht)
      rw [hb]
      exact (hv.append (List.Sublist.refl _)).trans (List.sublist_append_right _ _)

theorem Goes.sublist (ht : t.WellFormed) (ho : OperandsInOrder t) (h : Goes t level x places v b) :
    (v.map Visit.node).Sublist (t.behind x) := by
  induction h with
  | on hx hr _ ih =>
      rw [List.map_append]
      exact ((List.Sublist.refl _).append ih).trans (hx.sublist ht ho hr)
  | decided hx hr => exact (List.sublist_append_left _ _).trans (hx.sublist ht ho hr)
  | climb _ _ hp _ ih => exact ih.trans (ht.forward_parent hp).behind.sublist
  | top => exact List.nil_sublist _

theorem Walk.sublist (ht : t.WellFormed) (ho : OperandsInOrder t) (h : Walk t i places v b) :
    (v.map Visit.node).Sublist (t.descendants i ++ t.behind i) := by
  cases h with
  | decided hr =>
      exact (hr.below_of_child ht rfl (hr.sublist ht ho)).trans (List.sublist_append_left _ _)
  | goes hr h =>
      rw [List.map_append]
      exact (hr.below_of_child ht rfl (hr.sublist ht ho)).append (h.sublist ht ho)

/-- From every node there is exactly one walk, and it ends with what `isAmbiguous` says, at no more
places than there are nodes. The places go forward in document order: of the order of the whole
tree, what is left behind a place is left behind all earlier ones, and is less unless the place is
higher up. At least one angle is open wherever the walk comes to, and none is closed that was not
open. If right operands stand behind left ones, the nodes are visited in document order too, each at
most once. -/
theorem walk_ends_forward (t : Tree) (h : t.WellFormed) (i : NodeId) :
    (∃ places visits, Walk t i places visits (isAmbiguous t i)) ∧
      (∀ x, ∃ top before, t.parent top = none ∧
        t.subtree top = before ++ (t.subtree x ++ t.behind x)) ∧
      ∀ places visits b, Walk t i places visits b →
        (∀ places' visits' b', Walk t i places' visits' b' →
          places' = places ∧ visits' = visits ∧ b' = b) ∧
          places.length ≤ t.size ∧ (places.map Visit.node).Pairwise t.Forward ∧
          (∀ s ∈ places ++ visits, 0 < s.level) ∧
          (OperandsInOrder t →
            (visits.map Visit.node).Sublist (t.descendants i ++ t.behind i)) := by
  refine ⟨exists_walk h i, fun x => ?_,
    fun places visits b hw =>
    ⟨fun _ _ _ hw' => hw'.unique h hw, hw.length_le h, hw.forward h,
    List.forall_mem_append.mpr hw.level_pos, fun ho => hw.sublist h ho⟩⟩
  obtain ⟨top, htop, hb⟩ := h.exists_top x
  obtain ⟨before, hbefore⟩ := h.order_behind htop hb
  exact ⟨top, before, htop, hbefore⟩

/-- `f(g(a < b < c), /* */ d >> (e))`. -/
def nestedComparisons : Tree :=
  .planted [.statement .expression, .expression .invocation, .expression .identifier,
      .expression .invocation,
      .expression .identifier, .expression (.binary .less), .expression (.binary .less),
      .expression .identifier,
      .expression .identifier, .expression .identifier, .special (.comment .block " "),
      .expression (.binary .shiftRight), .expression .identifier, .expression .parenthesized,
      .expression .identifier]
    [(1, .expression, 2), (2, .target, 3), (2, .argument, 4), (2, .comment, 11), (2, .argument, 12),
      (4, .target, 5),
      (4, .argument, 6), (6, .left, 7), (6, .right, 10), (7, .left, 8), (7, .right, 9),
      (12, .left, 13),
      (12, .right, 14), (14, .expression, 15)]

theorem walk_ends_forward_nested :
    nestedComparisons.WellFormed ∧ OperandsInOrder nestedComparisons ∧
    Walk nestedComparisons 7 [⟨1, 7⟩, ⟨2, 6⟩, ⟨2, 4⟩] [⟨1, 9⟩, ⟨2, 10⟩, ⟨2, 12⟩, ⟨2, 13⟩] true ∧
    isAmbiguous nestedComparisons 7 = true ∧ [7, 6, 4].Pairwise nestedComparisons.Forward ∧
    [9, 10, 12, 13].Sublist (nestedComparisons.descendants 7 ++ nestedComparisons.behind 7) := by
  have hw : nestedComparisons.WellFormed := Tree.wellFormed_planted _ _
  obtain ⟨h6, h9, h10, h12, h13, h14⟩ : nestedComparisons.kind 6 = .expression (.binary .less) ∧
      nestedComparisons.kind 9 = .expression .identifier ∧
      nestedComparisons.kind 10 = .expression .identifier ∧
      nestedComparisons.kind 12 = .expression (.binary .shiftRight) ∧
      nestedComparisons.kind 13 = .expression .identifier ∧
      decide (nestedComparisons.kind 14 = .expression .parenthesized) = true := by decide +kernel
  obtain ⟨hb, hc, hd, he⟩ :
    nestedComparisons.child 7 .right = 9 ∧ nestedComparisons.child 6 .right = 10 ∧
      nestedComparisons.child 12 .left = 13 ∧ nestedComparisons.child 12 .right = 14 := by
      decide +kernel
  obtain ⟨hp7, hp6, hs6, hs4, hs11⟩ :
    nestedComparisons.parent 7 = some 6 ∧ nestedComparisons.parent 6 = some 4 ∧
      nestedComparisons.nextSibling 6 = none ∧ nestedComparisons.nextSibling 4 = some 11 ∧
      nestedComparisons.nextSibling 11 = some 12 := by decide +kernel
  obtain ⟨hr7, hr6, hr4⟩ : nestedComparisons.role 7 = .left ∧ nestedComparisons.role 6 ≠ .left ∧
      nestedComparisons.role 4 ≠ .left := by decide +kernel
  obtain ⟨hk11, hk12⟩ : isSkipped (nestedComparisons.kind 11) = true ∧
      isSkipped (nestedComparisons.kind 12) = false := by decide +kernel
  have hright : Reads nestedComparisons 1 (.operand (nestedComparisons.child 7 .right))
    [⟨1, 9⟩] (.opened 1) :=
    hb ▸ .name (.inl h9)
  have hfirst : Next nestedComparisons 7 (.operator .less 10) 6 := hc ▸ .operator ⟨hp7, h6, hr7⟩
  have hsecond : Next nestedComparisons 4 (.operand 12) 12 :=
    .sibling (fun _ _ h => hr4 h.role) (.along hs4 hk11 (.found hs11 hk12))
  have hshift : Reads nestedComparisons 2 (.operand 12) [⟨2, 12⟩, ⟨2, 13⟩] (.decided true) := by
    have hleft : Reads nestedComparisons 2 (.operand (nestedComparisons.child 12 .left))
      [⟨2, 13⟩] (.opened 2) :=
      hd ▸ .name (.inl h13)
    have hread := Reads.binary h12 hleft (.closed (.closesTwo 0))
    rwa [he, h14] at hread
  have hwalk : Walk nestedComparisons 7 [⟨1, 7⟩, ⟨2, 6⟩, ⟨2, 4⟩]
    [⟨1, 9⟩, ⟨2, 10⟩, ⟨2, 12⟩, ⟨2, 13⟩] true :=
    .goes hright (.on hfirst (.within (.opens 1) (.name (.inl h10)))
      (.climb (fun _ _ h => hr6 h.role) (.last hs6) hp6 (.decided hsecond hshift)))
  have hbetween : ∀ x : Fin 16, nestedComparisons.role x = .left → (nestedComparisons.parent x).all
      (fun p => (nestedComparisons.siblingsAfter x).contains (nestedComparisons.child p .right)) =
        true := by
    decide +kernel
  have horder : OperandsInOrder nestedComparisons := by
    intro op p x hx _
    have hsize : nestedComparisons.size = 16 := by decide +kernel
    have hall := hbetween ⟨x, hsize ▸ Tree.lt_of_parent hx.parent⟩ hx.role
    rw [hx.parent] at hall
    exact List.contains_iff_mem.mp hall
  obtain ⟨⟨places, visits, hends⟩, -, hall⟩ := walk_ends_forward nestedComparisons hw 7
  obtain ⟨hunique, -, hforward, -, hvisits⟩ := hall _ _ _ hwalk
  exact ⟨hw, horder, hwalk, (hunique _ _ _ hends).2.2, hforward, hvisits horder⟩

end TreeScribe.Ambiguity
