import Mathlib.Tactic.Common
import TreeScribe.Proofs.Expression.Grammar

namespace TreeScribe

namespace BinaryOperator

def all : List BinaryOperator :=
  [bitAnd, bitOr, condAnd, condOr, bitXor, greater, greaterEqual, equal, notEqual, less, lessEqual,
    add, subtract, multiply, divide, remainder, shiftLeft, shiftRight, coalesce]

theorem token_inj {op op' : BinaryOperator} (h : op.token = op'.token) : op = op' := by
  have hall : ∀ a ∈ all, ∀ b ∈ all, a.token = b.token → a = b := by decide
  exact hall op (by cases op <;> decide) op' (by cases op' <;> decide) h

end BinaryOperator

namespace AssignmentOperator

def all : List AssignmentOperator :=
  [assign, add, subtract, multiply, divide, remainder, shiftLeft, shiftRight, bitAnd, bitOr, bitXor]

theorem token_inj {op op' : AssignmentOperator} (h : op.token = op'.token) : op = op' := by
  have hall : ∀ a ∈ all, ∀ b ∈ all, a.token = b.token → a = b := by decide
  exact hall op (by cases op <;> decide) op' (by cases op' <;> decide) h

end AssignmentOperator

theorem UnaryOperator.lexeme_inj {op op' : UnaryOperator} (ho : op.isPrefix = true)
    (ho' : op'.isPrefix = true) (h : op.lexeme = op'.lexeme) : op = op' := by
  have hall : ∀ a ∈ [not, bitNot, minus, plus, increment, decrement, dereference, addressOf, await],
      ∀ b ∈ [not, bitNot, minus, plus, increment, decrement, dereference, addressOf, await],
        a.lexeme = b.lexeme → a = b := by decide
  exact hall op (by cases op <;> first | decide | cases ho)
    op' (by cases op' <;> first | decide | cases ho') h

theorem UnaryOperator.lexeme_ne {m : String} (hm : m ∈ ["(", ")", "]"]) (op : UnaryOperator) :
    op.lexeme ≠ .mark m := by
  have hall : ∀ m ∈ ["(", ")", "]"], op.lexeme ≠ .mark m := by cases op <;> decide
  exact hall m hm

theorem TypeTest.word_inj {how how' : TypeTest} (h : how.word = how'.word) : how = how' := by
  cases how <;> cases how' <;> first | rfl | exact absurd h (by decide)

namespace Precedence

variable {l : Precedence}

theorem level_tighter (hl : l ≠ primary) : l.tighter.level = l.level + 1 := by
  cases l <;> first | rfl | exact absurd rfl hl

theorem level_inj {k l : Precedence} (h : k.level = l.level) : k = l := by
  have hall : ∀ a ∈ all, ∀ b ∈ all, a.level = b.level → a = b := by decide
  exact hall k (by cases k <;> decide) l (by cases l <;> decide) h

theorem level_lt {k : Precedence} (h : l.level ≤ k.level) (hne : l ≠ k) : l.level < k.level :=
  Nat.lt_of_le_of_ne h fun he => hne (level_inj he)

theorem ofBinary_ne_primary (op : BinaryOperator) : ofBinary op ≠ .primary := by
  cases op <;> decide

theorem ofBinary_cases (op : BinaryOperator) (ho : op ≠ .coalesce) :
    4 ≤ (ofBinary op).level ∧ (ofBinary op).level ≤ 13 := by
  cases op <;> first | decide | exact absurd rfl ho

end Precedence

namespace Grammar

/-- The level at which a lexeme joins the term before it, as an operator or otherwise. -/
def joins : Lexeme → Nat
  | .mark m =>
    match m with
    | "." | "(" | "[" => 17
    | "*" | "/" | "%" => 13
    | "+" | "-" => 12
    | "<<" | ">>" => 11
    | "<" | ">" | "<=" | ">=" => 10
    | "==" | "!=" => 9
    | "&" => 8
    | "^" => 7
    | "|" => 6
    | "&&" => 5
    | "||" => 4
    | "??" => 3
    | "?" => 2
    | "=" | "+=" | "-=" | "*=" | "/=" | "%=" | "<<=" | ">>=" | "&=" | "|=" | "^=" => 1
    | _ => 0
  | .word w => if w = "is" ∨ w = "as" then 10 else 0
  | _ => 0

theorem joins_binary (op : BinaryOperator) :
    joins (.mark op.token) = (Precedence.ofBinary op).level := by
  cases op <;> rfl

theorem joins_assign (op : AssignmentOperator) : joins (.mark op.token) = 1 := by
  cases op <;> rfl

theorem joins_test (how : TypeTest) : joins (.word how.word) = 10 := by
  cases how <;> rfl

/-- What stands behind a term of a level and does not go on with it. Behind the last branch of a
conditional, an assignment would be part of that branch. -/
def Closed (l : Precedence) (r : List Lexeme) : Prop :=
  ∀ x ∈ r.head?, joins x = 0 ∨ 2 < l.level ∧ joins x < l.level

theorem closed_nil {l : Precedence} : Closed l [] := by simp [Closed]

theorem closed_cons {l : Precedence} {x : Lexeme} {r : List Lexeme} :
    Closed l (x :: r) ↔ joins x = 0 ∨ 2 < l.level ∧ joins x < l.level := by simp [Closed]

theorem Closed.mono {k : Precedence} (h : Closed l r) (hl : l.level ≤ k.level) : Closed k r := by
  intro x hx
  rcases h x hx with h | h
  · exact .inl h
  · exact .inr ⟨by omega, by omega⟩

variable {l : Precedence} {s m n r r' : List Lexeme} {a b e e' : Term} {close : String}
  {first : Bool}

theorem Extends.front (h : Extends l a s e r) :
    ∃ x m, s = x :: m ∧ joins x = l.level ∧ 4 ≤ l.level ∧ l ≠ .unary := by
  cases h with
  | member => exact ⟨_, _, rfl, rfl, by decide, by decide⟩
  | call h => exact ⟨_, _, rfl, rfl, by decide, by decide⟩
  | index h => exact ⟨_, _, rfl, rfl, by decide, by decide⟩
  | binary ho h =>
      rename_i op _ _
      obtain ⟨h₄, h₁₃⟩ := Precedence.ofBinary_cases op ho
      refine ⟨_, _, rfl, joins_binary op, h₄, fun hu => ?_⟩
      rw [hu] at h₁₃
      exact absurd h₁₃ (by decide)
  | test => exact ⟨_, _, rfl, joins_test _, by decide, by decide⟩

def Ends (l : Precedence) (a : Term) (m : List Lexeme) : Prop :=
  Closed l m ∨ ∃ e r, Extends l a m e r

theorem Ends.tighter (h : Ends l a m) (hl : l ≠ .primary) : Closed l.tighter m := by
  have ht := Precedence.level_tighter hl
  rcases h with h | ⟨e, r, h⟩
  · exact h.mono (by omega)
  · obtain ⟨x, m, rfl, hj, h₄, -⟩ := h.front
    exact closed_cons.mpr (.inr ⟨by omega, by omega⟩)

theorem Ends.closed (h : Ends l a m) (hl : l.level < 4 ∨ l = .unary) : Closed l m := by
  rcases h with h | ⟨e, r, h⟩
  · exact h
  · obtain ⟨-, -, -, -, h₄, hu⟩ := h.front
    rcases hl with hl | hl
    · omega
    · exact absurd hl hu

inductive Further (l : Precedence) : Term → List Lexeme → Term → List Lexeme → Prop
  | stop {a : Term} {r : List Lexeme} : Further l a r a r
  | step {a b e : Term} {s m r : List Lexeme} (hx : Extends l a s b m) (h : Further l b m e r) :
      Further l a s e r

theorem Further.snoc (h : Further l a s b m) (hx : Extends l b m e r) : Further l a s e r := by
  induction h with
  | stop => exact .step hx .stop
  | step hy _ ih => exact .step hy (ih hx)

theorem Further.ends (h : Further l a m e r) (hr : Closed l r) : Ends l a m := by
  cases h with
  | stop => exact .inl hr
  | step hx => exact .inr ⟨_, _, hx⟩

theorem Reads.spine {l : Precedence} {s r : List Lexeme} {e : Term} (h : Reads l s e r) :
    ∃ a m, Starts l s a m ∧ Further l a m e r := by
  induction h using Reads.rec
    (motive_2 := fun _ _ _ _ _ => True) (motive_3 := fun _ _ _ _ _ _ => True)
      (motive_4 := fun _ _ _ _ _ _ => True) with
  | start h => exact ⟨_, _, h, .stop⟩
  | extend _ hx ih =>
      obtain ⟨a, m, ha, hf⟩ := ih
      exact ⟨a, m, ha, hf.snoc hx⟩
  | _ => trivial

def opensAtom : List Lexeme → Bool
  | .name .. :: _ | .literal _ :: _ => true
  | .type type :: _ => type.isName
  | .mark m :: s => m = "(" && !startsCast s
  | _ => false

mutual

theorem Reads.opensAtom {l : Precedence} {s r : List Lexeme} {e : Term} (hl : 14 < l.level) :
    Reads l s e r → opensAtom s = true
  | .start h => h.opensAtom hl
  | .extend h _ => h.opensAtom hl

theorem Starts.opensAtom {l : Precedence} {s r : List Lexeme} {e : Term} (hl : 14 < l.level) :
    Starts l s e r → opensAtom s = true
  | .tighter hp h => h.opensAtom (by rw [Precedence.level_tighter hp]; omega)
  | .name => rfl
  | .typeName ht => ht
  | .literal => rfl
  | .group hs _ => by simp [Grammar.opensAtom, hs]
  | .unary .. | .cast .. | .coalesce .. | .conditional .. | .assign .. => absurd hl (by decide)

end

theorem opensAtom_lexeme {op : UnaryOperator} : opensAtom (op.lexeme :: s) = false := by
  cases op <;> rfl

mutual

theorem Reads.front_ne {l : Precedence} {s r : List Lexeme} {e : Term} {close : String}
    (hc : close = ")" ∨ close = "]") : Reads l s e r → s.head? ≠ some (.mark close)
  | .start h => h.front_ne hc
  | .extend h _ => h.front_ne hc

theorem Starts.front_ne {l : Precedence} {s r : List Lexeme} {e : Term} {close : String}
    (hc : close = ")" ∨ close = "]") : Starts l s e r → s.head? ≠ some (.mark close)
  | .tighter _ h | .coalesce h _ | .conditional h _ _ | .assign h _ => h.front_ne hc
  | .name | .typeName _ | .literal => nofun
  | .group _ _ | .cast _ _ => by rcases hc with rfl | rfl <;> simp
  | .unary _ _ => by simpa using UnaryOperator.lexeme_ne (by rcases hc with rfl | rfl <;> simp) _

end

mutual

/-- A loose term begins with a term that binds as tightly as a unary one. Behind that stands an
operator, unless it is all. -/
theorem Reads.leading {l : Precedence} {s r : List Lexeme} {e : Term} (hl : 1 < l.level)
    (hu : l.level ≤ Precedence.unary.level) :
    Reads l s e r → ∃ a m, Reads .unary s a m ∧
      (m = r ∨ ∃ x m', m = x :: m' ∧ 1 < joins x ∧ joins x < 14)
  | .start h => by
      by_cases hlu : l = .unary
      · exact ⟨e, r, hlu ▸ .start h, .inl rfl⟩
      · exact h.leading hl (Precedence.level_lt hu hlu)
  | .extend h hx => by
      obtain ⟨x, m', hm', hj, h₄, hne⟩ := hx.front
      have hlt : l.level < 14 := Precedence.level_lt hu hne
      obtain ⟨a, m, ha, he | hm⟩ := h.leading hl hu
      · exact ⟨a, m, ha, .inr ⟨x, m', he.trans hm', by omega, by omega⟩⟩
      · exact ⟨a, m, ha, .inr hm⟩

theorem Starts.leading {l : Precedence} {s r : List Lexeme} {e : Term} (hl : 1 < l.level)
    (hu : l.level < 14) :
    Starts l s e r → ∃ a m, Reads .unary s a m ∧
      (m = r ∨ ∃ x m', m = x :: m' ∧ 1 < joins x ∧ joins x < 14)
  | .tighter hp h =>
      h.leading (by rw [Precedence.level_tighter hp]; omega)
        (by rw [Precedence.level_tighter hp]; exact hu)
  | .coalesce h _ => by
      obtain ⟨a, m, ha, he | hm⟩ := h.leading (by decide) (by decide)
      · exact ⟨a, m, ha, .inr ⟨_, _, he, by decide, by decide⟩⟩
      · exact ⟨a, m, ha, .inr hm⟩
  | .conditional h _ _ => by
      obtain ⟨a, m, ha, he | hm⟩ := h.leading (by decide) (by decide)
      · exact ⟨a, m, ha, .inr ⟨_, _, he, by decide, by decide⟩⟩
      · exact ⟨a, m, ha, .inr hm⟩
  | .assign _ _ => absurd hl (by decide)
  | .name | .typeName _ | .literal | .group _ _ | .unary _ _ | .cast _ _ => absurd hu (by decide)

end

/-- What is read at a level from the beginning of a text, up to where it is closed, is
determined. -/
def Unique (l : Precedence) (s : List Lexeme) : Prop :=
  ∀ {a m b n}, Reads l s a m → Closed l m → Reads l s b n → Closed l n → a = b ∧ m = n

namespace Starts

variable (hs : ∀ k : Precedence, l.level < k.level → Unique k s)

include hs

theorem reads_tighter (hp : l ≠ .primary) (h : Reads l.tighter s a m) (ha : Ends l a m)
    (h' : Starts l s b n) : Reads l.tighter s b n := by
  cases h' with
  | tighter _ h' => exact h'
  | name | typeName | literal | group => exact absurd rfl hp
  | unary ho h' =>
      have ht := h.opensAtom (by decide)
      rw [opensAtom_lexeme] at ht
      cases ht
  | cast hc h' =>
      have ht := h.opensAtom (by decide)
      simp [Grammar.opensAtom, hc] at ht
  | coalesce h' h'' =>
      obtain ⟨-, rfl⟩ := hs _ (by decide) h (ha.tighter hp) h' (closed_cons.mpr (.inr (by decide)))
      exact absurd (closed_cons.mp (ha.closed (.inl (by decide)))) (by decide)
  | conditional h' h₁ h₂ =>
      obtain ⟨-, rfl⟩ := hs _ (by decide) h (ha.tighter hp) h' (closed_cons.mpr (.inr (by decide)))
      exact absurd (closed_cons.mp (ha.closed (.inl (by decide)))) (by decide)
  | assign h' h'' =>
      rename_i op _ _ _
      have hc (m : List Lexeme) : Closed .unary (.mark op.token :: m) :=
        closed_cons.mpr (.inr (by rw [joins_assign]; decide))
      have hr := ha.closed (.inl (by decide))
      obtain ⟨c, m', hu, hm⟩ := h.leading (by decide) (by decide)
      rcases hm with rfl | ⟨x, m'', rfl, h₁, h₁₄⟩
      · obtain ⟨-, rfl⟩ := hs _ (by decide) hu (hr.mono (by decide)) h' (hc _)
        rw [closed_cons, joins_assign] at hr
        exact absurd hr (by decide)
      · obtain ⟨-, he⟩ := hs _ (by decide) hu (closed_cons.mpr (.inr ⟨by decide, h₁₄⟩)) h' (hc _)
        rw [(List.cons.inj he).1, joins_assign] at h₁
        exact absurd h₁ (by decide)

theorem unique_of_tighter (hp : l ≠ .primary) (h : Starts l s a m) (ha : Ends l a m)
    (h' : Reads l.tighter s b n) (hb : Ends l b n) : a = b ∧ m = n := by
  have hlt : l.level < l.tighter.level := by
    rw [Precedence.level_tighter hp]
    exact Nat.lt_succ_self _
  exact hs _ hlt (h.reads_tighter hs hp h' hb) (ha.tighter hp) h' (hb.tighter hp)

theorem unique {s' : List Lexeme} (hU : ∀ k s', s'.length < s.length → Unique k s')
    (h : Starts l s a m) (ha : Ends l a m) (h' : Starts l s' b n) (hb : Ends l b n) (he : s = s') :
    a = b ∧ m = n := by
  cases h with
  | tighter hp h =>
      subst he
      obtain ⟨h₁, h₂⟩ := h'.unique_of_tighter hs hp hb h ha
      exact ⟨h₁.symm, h₂.symm⟩
  | name =>
      cases h' with
      | tighter hp => exact absurd rfl hp
      | name =>
          cases he
          exact ⟨rfl, rfl⟩
      | _ => cases he
  | typeName ht =>
      cases h' with
      | tighter hp => exact absurd rfl hp
      | typeName =>
          cases he
          exact ⟨rfl, rfl⟩
      | _ => cases he
  | literal =>
      cases h' with
      | tighter hp => exact absurd rfl hp
      | literal =>
          cases he
          exact ⟨rfl, rfl⟩
      | _ => cases he
  | group hc h =>
      cases h' with
      | tighter hp => exact absurd rfl hp
      | group hc' h' =>
          cases he
          obtain ⟨rfl, hm⟩ := hU _ _ (Nat.lt_succ_self _) h (closed_cons.mpr (.inl rfl)) h'
            (closed_cons.mpr (.inl rfl))
          exact ⟨rfl, (List.cons.inj hm).2⟩
      | _ => cases he
  | unary ho h =>
      cases h' with
      | tighter hp h' =>
          subst he
          exact (Starts.unary ho h).unique_of_tighter hs hp ha h' hb
      | unary ho' h' =>
          obtain ⟨hop, rfl⟩ := List.cons.inj he
          cases UnaryOperator.lexeme_inj ho ho' hop
          obtain ⟨rfl, rfl⟩ := hU _ _ (Nat.lt_succ_self _) h (ha.closed (.inr rfl))
            h' (hb.closed (.inr rfl))
          exact ⟨rfl, rfl⟩
      | cast => exact absurd (List.cons.inj he).1 (UnaryOperator.lexeme_ne (by simp) _)
  | cast hc h =>
      cases h' with
      | tighter hp h' =>
          subst he
          exact (Starts.cast hc h).unique_of_tighter hs hp ha h' hb
      | unary => exact absurd (List.cons.inj he).1.symm (UnaryOperator.lexeme_ne (by simp) _)
      | cast hc' h' =>
          cases he
          obtain ⟨rfl, rfl⟩ := hU _ _ (by simp; omega) h (ha.closed (.inr rfl))
            h' (hb.closed (.inr rfl))
          exact ⟨rfl, rfl⟩
  | coalesce h h₁ =>
      have hlt := h.length_lt
      cases h' with
      | tighter hp h' =>
          subst he
          exact (Starts.coalesce h h₁).unique_of_tighter hs hp ha h' hb
      | coalesce h' h₁' =>
          subst he
          obtain ⟨rfl, hm⟩ := hs _ (by decide) h (closed_cons.mpr (.inr (by decide))) h'
            (closed_cons.mpr (.inr (by decide)))
          cases hm
          obtain ⟨rfl, rfl⟩ := hU _ _ (Nat.lt_of_succ_lt hlt) h₁ (ha.closed (.inl (by decide))) h₁'
            (hb.closed (.inl (by decide)))
          exact ⟨rfl, rfl⟩
  | conditional h h₁ h₂ =>
      have hlt := h.length_lt
      have hlt₁ := h₁.length_lt
      cases h' with
      | tighter hp h' =>
          subst he
          exact (Starts.conditional h h₁ h₂).unique_of_tighter hs hp ha h' hb
      | conditional h' h₁' h₂' =>
          subst he
          obtain ⟨rfl, hm⟩ := hs _ (by decide) h (closed_cons.mpr (.inr (by decide))) h'
            (closed_cons.mpr (.inr (by decide)))
          cases hm
          obtain ⟨rfl, hn⟩ := hU _ _ (Nat.lt_of_succ_lt hlt) h₁ (closed_cons.mpr (.inl rfl)) h₁'
            (closed_cons.mpr (.inl rfl))
          cases hn
          have hc (e : Term) {r : List Lexeme} (h : Ends .conditional e r) : Closed .assignment r :=
            fun x hx => ((h.closed (.inl (by decide))) x hx).imp_right fun h =>
              absurd h.1 (by decide)
          obtain ⟨rfl, rfl⟩ := hU _ _ (by simp at hlt hlt₁; omega) h₂ (hc _ ha) h₂' (hc _ hb)
          exact ⟨rfl, rfl⟩
  | assign h h₁ =>
      have hlt := h.length_lt
      cases h' with
      | tighter hp h' =>
          subst he
          exact (Starts.assign h h₁).unique_of_tighter hs hp ha h' hb
      | assign h' h₁' =>
          subst he
          have hc (op : AssignmentOperator) (m : List Lexeme) :
              Closed .unary (.mark op.token :: m) :=
            closed_cons.mpr (.inr (by rw [joins_assign]; decide))
          obtain ⟨rfl, hm⟩ := hs _ (by decide) h (hc _ _) h' (hc _ _)
          obtain ⟨hop, rfl⟩ := List.cons.inj hm
          cases AssignmentOperator.token_inj (Lexeme.mark.inj hop)
          obtain ⟨rfl, rfl⟩ := hU _ _ (Nat.lt_of_succ_lt hlt) h₁ (ha.closed (.inl (by decide))) h₁'
            (hb.closed (.inl (by decide)))
          exact ⟨rfl, rfl⟩

end Starts

def UniqueArguments (s : List Lexeme) : Prop :=
  ∀ {close first es m es' m'}, close = ")" ∨ close = "]" → Arguments close first s es m →
    Arguments close first s es' m' → es = es' ∧ m = m'

theorem Arguments.closed {es : List Term} (hc : close = ")" ∨ close = "]")
    (h : Arguments close false s es r) : Closed .assignment s := by
  cases h with
  | close => exact closed_cons.mpr (.inl (by rcases hc with rfl | rfl <;> rfl))
  | more h hs => exact closed_cons.mpr (.inl rfl)

theorem Arguments.unique {s' : List Lexeme} {es es' : List Term} (hs : Unique .assignment s)
    (hU : ∀ s', s'.length < s.length → Unique .assignment s' ∧ UniqueArguments s')
    (hc : close = ")" ∨ close = "]") (h : Arguments close first s es r)
    (h' : Arguments close first s' es' r') (he : s = s') : es = es' ∧ r = r' := by
  cases h with
  | close =>
      cases h' with
      | close => exact ⟨rfl, (List.cons.inj he).2⟩
      | more h' hs' =>
          cases first with
          | false => rcases hc with rfl | rfl <;> simp [Term.separator] at he
          | true =>
              exact absurd (congrArg List.head? he).symm (h'.front_ne hc)
  | more h hm =>
      rename_i s₀ _ _ _
      have hlt := h.length_lt
      cases h' with
      | close =>
          cases first with
          | false => rcases hc with rfl | rfl <;> simp [Term.separator] at he
          | true =>
              exact absurd (congrArg List.head? he) (h.front_ne hc)
      | more h' hm' =>
          cases List.append_cancel_left he
          have hu : Unique .assignment s₀ := by
            cases first with
            | false => exact (hU _ (Nat.lt_succ_self _)).1
            | true => exact hs
          obtain ⟨rfl, rfl⟩ := hu h (hm.closed hc) h' (hm'.closed hc)
          obtain ⟨rfl, rfl⟩ := (hU _ (by simp; omega)).2 hc hm hm'
          exact ⟨rfl, rfl⟩

theorem Extends.unique {k : Precedence} {s' : List Lexeme}
    (hU : ∀ s', s'.length < s.length → (∀ k, Unique k s') ∧ UniqueArguments s')
    (h : Extends l a s b m) (hb : Ends l b m) (h' : Extends k a s' e n) (he : Ends k e n)
    (hk : l = k) (hs : s = s') : b = e ∧ m = n := by
  cases h with
  | member =>
      cases h' with
      | member =>
          cases hs
          exact ⟨rfl, rfl⟩
      | binary => exact absurd hk.symm (Precedence.ofBinary_ne_primary _)
      | _ => simp at hs
  | call h =>
      cases h' with
      | call h' =>
          cases hs
          obtain ⟨rfl, rfl⟩ := (hU _ (Nat.lt_succ_self _)).2 (.inl rfl) h h'
          exact ⟨rfl, rfl⟩
      | binary => exact absurd hk.symm (Precedence.ofBinary_ne_primary _)
      | _ => simp at hs
  | index h =>
      cases h' with
      | index h' =>
          cases hs
          obtain ⟨rfl, rfl⟩ := (hU _ (Nat.lt_succ_self _)).2 (.inr rfl) h h'
          exact ⟨rfl, rfl⟩
      | binary => exact absurd hk.symm (Precedence.ofBinary_ne_primary _)
      | _ => simp at hs
  | binary ho h =>
      rename_i op _ _
      cases h' with
      | binary ho' h' =>
          obtain ⟨hop, rfl⟩ := List.cons.inj hs
          cases BinaryOperator.token_inj (Lexeme.mark.inj hop)
          have hp := Precedence.ofBinary_ne_primary op
          obtain ⟨rfl, rfl⟩ := (hU _ (Nat.lt_succ_self _)).1 _ h (hb.tighter hp) h' (he.tighter hp)
          exact ⟨rfl, rfl⟩
      | test => simp at hs
      | _ => cases op <;> cases hk
  | test =>
      cases h' with
      | test =>
          obtain ⟨hw, ht⟩ := List.cons.inj hs
          cases TypeTest.word_inj (Lexeme.word.inj hw)
          cases ht
          exact ⟨rfl, rfl⟩
      | _ => simp at hs

theorem Further.unique (hU : ∀ s', s'.length < s.length → (∀ k, Unique k s') ∧ UniqueArguments s')
    (h : Further l a s b m) (hm : Closed l m) (h' : Further l a s e n) (hn : Closed l n) :
    b = e ∧ m = n := by
  have hopen {a e : Term} {s r : List Lexeme} (hx : Extends l a s e r) : ¬ Closed l s := by
    obtain ⟨x, m, rfl, hj, h₄, -⟩ := hx.front
    rw [closed_cons]
    omega
  induction h with
  | stop =>
      cases h' with
      | stop => exact ⟨rfl, rfl⟩
      | step hx => exact absurd hm (hopen hx)
  | step hx h ih =>
      cases h' with
      | stop => exact absurd hn (hopen hx)
      | step hy h' =>
          obtain ⟨rfl, rfl⟩ := hx.unique hU (h.ends hm) hy (h'.ends hn) rfl rfl
          exact ih (fun s' hlt => hU s' (Nat.lt_trans hlt hx.length_lt)) hm h'

/-- At every level, by the tighter ones and by shorter texts. -/
theorem unique_of_shorter
    (hU : ∀ s', s'.length < s.length → (∀ k, Unique k s') ∧ UniqueArguments s') (l : Precedence) :
    Unique l s := by
  -- The start of a term is determined by the tighter levels, what extends it by shorter texts.
  induction hd : Precedence.primary.level - l.level using Nat.strongRecOn generalizing l with
  | ind d ih =>
      intro a m b n h hm h' hn
      have hs (k : Precedence) (hk : l.level < k.level) : Unique k s := by
        refine ih _ ?_ k rfl
        have hle : k.level ≤ Precedence.primary.level := by cases k <;> decide
        omega
      obtain ⟨a₀, m₀, hst, hf⟩ := h.spine
      obtain ⟨b₀, n₀, hst', hf'⟩ := h'.spine
      obtain ⟨rfl, rfl⟩ := hst.unique hs (fun k s' hlt => (hU s' hlt).1 k) (hf.ends hm)
        hst' (hf'.ends hn) rfl
      exact hf.unique (fun s' hlt => hU s' (Nat.lt_trans hlt hst.length_lt)) hm hf' hn

theorem unique_all (s : List Lexeme) : (∀ l, Unique l s) ∧ UniqueArguments s := by
  induction hn : s.length using Nat.strongRecOn generalizing s with
  | ind n ih =>
      have hU (s' : List Lexeme) (hlt : s'.length < s.length) := ih _ (hn ▸ hlt) s' rfl
      have hs := unique_of_shorter hU
      exact ⟨hs, fun hc h h' => h.unique (hs _) (fun s' hlt => ⟨(hU s' hlt).1 _, (hU s' hlt).2⟩)
        hc h' rfl⟩

/-- A whole text is read in one way at most. -/
theorem Reads.unique (h : Reads l s e []) (h' : Reads l s e' []) : e = e' :=
  ((unique_all s).1 l h closed_nil h' closed_nil).1

end Grammar

end TreeScribe
