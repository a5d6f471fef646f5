import Mathlib.Data.List.DropRight
import Mathlib.Data.List.TakeDrop
import Mathlib.Tactic.Common
import TreeScribe.Json.Read

namespace TreeScribe.Json

inductive SpellsUnits : List Char → List Nat → Prop
  | nil : SpellsUnits [] []
  | plain {c : Char} {s : List Char} {units : List Nat} (hquote : c ≠ '\x22') (hslash : c ≠ '\\')
      (hc : 0x20 ≤ c.toNat)
    (h : SpellsUnits s units) : SpellsUnits (c :: s) (c.toNat :: units)
  | letter {c : Char} {n : Nat} {s : List Char} {units : List Nat} (hc : escaped? c = some n)
      (h : SpellsUnits s units) :
    SpellsUnits ('\\' :: c :: s) (n :: units)
  | code {a b c d : Char} {n : Nat} {s : List Char} {units : List Nat}
      (hn : hexValue4? a b c d = some n)
    (h : SpellsUnits s units) : SpellsUnits ('\\' :: 'u' :: a :: b :: c :: d :: s) (n :: units)

inductive Quotes : List Char → Option String → Prop
  | intro {s : List Char} {units : List Nat} (h : SpellsUnits s units) :
    Quotes ('\x22' :: (s ++ ['\x22'])) ((joinUnits? units).map String.ofList)

def Blanks (s : List Char) : Prop := ∀ c ∈ s, isBlank c = true

def Digits (s : List Char) : Prop := s ≠ [] ∧ ∀ c ∈ s, isDigit c = true

structure Whole (s : List Char) : Prop where
  digits : Digits s
  zero : s.head? = some '0' → s = ['0']

inductive Fraction : List Char → Prop
  | nil : Fraction []
  | point {s : List Char} (h : Digits s) : Fraction ('.' :: s)

inductive Exponent : List Char → Prop
  | nil : Exponent []
  | mark {e : Char} {sign s : List Char} (he : e = 'e' ∨ e = 'E')
      (hsign : sign = [] ∨ sign = ['+'] ∨ sign = ['-'])
    (h : Digits s) : Exponent (e :: (sign ++ s))

/-- What a text may spell: one value, or what stands between the brackets of an array or the braces
of an object. -/
inductive Part where
  | value (j : Json)
  | items (js : List Json)
  | members (ms : List (Option String × Json))

inductive Spells : List Char → Part → Prop
  | null : Spells ['n', 'u', 'l', 'l'] (.value .null)
  | bool_true : Spells ['t', 'r', 'u', 'e'] (.value (.bool true))
  | bool_false : Spells ['f', 'a', 'l', 's', 'e'] (.value (.bool false))
  | natural {s : List Char} (h : Whole s) : Spells s (.value (.natural (digitsValue s)))
  | number {sign s fraction exponent : List Char} (hsign : sign = [] ∨ sign = ['-']) (hs : Whole s)
      (hf : Fraction fraction) (he : Exponent exponent)
      (hmore : sign ++ (fraction ++ exponent) ≠ []) :
    Spells (sign ++ (s ++ (fraction ++ exponent))) (.value .otherNumber)
  | string {s : List Char} {text : Option String} (h : Quotes s text) :
    Spells s (.value (text.elim .unpairedString .string))
  | empty_array {b : List Char} (hb : Blanks b) : Spells ('[' :: (b ++ [']'])) (.value (.array []))
  | array {s : List Char} {js : List Json} (h : Spells s (.items js)) :
      Spells ('[' :: (s ++ [']'])) (.value (.array js))
  | empty_object {b : List Char} (hb : Blanks b) :
      Spells ('\x7b' :: (b ++ ['\x7d'])) (.value (.object []))
  | object {s : List Char} {ms : List (Option String × Json)} (h : Spells s (.members ms)) :
    Spells ('\x7b' :: (s ++ ['\x7d'])) (.value (.object ms))
  | blank_before {c : Char} {s : List Char} {j : Json} (hc : isBlank c = true)
      (h : Spells s (.value j)) :
    Spells (c :: s) (.value j)
  | blank_after {c : Char} {s : List Char} {j : Json} (hc : isBlank c = true)
      (h : Spells s (.value j)) :
    Spells (s ++ [c]) (.value j)
  | last_item {s : List Char} {j : Json} (h : Spells s (.value j)) : Spells s (.items [j])
  | item {s rest : List Char} {j : Json} {js : List Json} (h : Spells s (.value j))
      (hrest : Spells rest (.items js)) :
    Spells (s ++ ',' :: rest) (.items (j :: js))
  | last_member {b k t s : List Char} {key : Option String} {j : Json} (hb : Blanks b)
      (hkey : Quotes k key)
      (ht : Blanks t) (h : Spells s (.value j)) :
    Spells (b ++ (k ++ (t ++ ':' :: s))) (.members [(key, j)])
  | member {b k t s rest : List Char} {key : Option String} {j : Json}
      {ms : List (Option String × Json)}
      (hb : Blanks b) (hkey : Quotes k key) (ht : Blanks t) (h : Spells s (.value j))
      (hrest : Spells rest (.members ms)) :
    Spells (b ++ (k ++ (t ++ ':' :: (s ++ ',' :: rest)))) (.members ((key, j) :: ms))

variable {c : Char} {d : Nat} {b k s t text fraction exponent more rest : List Char}
  {units : List Nat}
  {key : Option String} {j : Json} {js : List Json} {ms : List (Option String × Json)} {part : Part}

theorem skipBlanks_cons (hc : isBlank c = true) : skipBlanks (c :: s) = skipBlanks s :=
  List.dropWhile_cons_of_pos hc

theorem skipBlanks_cons_of_not (hc : isBlank c = false) : skipBlanks (c :: s) = c :: s :=
  List.dropWhile_cons_of_neg (by simp [hc])

theorem Blanks.skip (ht : Blanks t) : skipBlanks (t ++ s) = skipBlanks s :=
  List.dropWhile_append_of_pos ht

theorem skipBlanks_append (h : skipBlanks s = c :: t) :
    skipBlanks (s ++ rest) = c :: (t ++ rest) := by
  have happend : (s ++ rest).dropWhile isBlank = _ := List.dropWhile_append
  rw [show s.dropWhile isBlank = c :: t from h] at happend
  exact happend

theorem isBlank_of_isDigit (hc : isDigit c = true) : isBlank c = false := by
  by_contra hb
  simp only [Bool.not_eq_false, isBlank, Bool.or_eq_true, beq_iff_eq] at hb
  rcases hb with ((rfl | rfl) | rfl) | rfl <;> cases hc

@[simp] theorem skipBlanks_skipBlanks (s : List Char) : skipBlanks (skipBlanks s) = skipBlanks s :=
  List.dropWhile_idempotent _ _

theorem readValue?_congr (h : skipBlanks s = skipBlanks t) : readValue? d s = readValue? d t := by
  cases d with
  | zero => rfl
  | succ d => rw [readValue?, readValue?, h]

theorem readItems?_congr (h : skipBlanks s = skipBlanks t) : readItems? d s = readItems? d t := by
  cases d with
  | zero => rfl
  | succ d => rw [readItems?, readItems?, readValue?_congr h]

theorem readMembers?_congr (h : skipBlanks s = skipBlanks t) :
    readMembers? d s = readMembers? d t := by
  cases d with
  | zero => rfl
  | succ d => rw [readMembers?, readMembers?, h]

theorem SpellsUnits.read (h : SpellsUnits s units) :
    readUnits? (s ++ '\x22' :: rest) = some (units, rest) := by
  induction h with
  | nil => rfl
  | @plain c s units hquote hslash hc h ih =>
      rw [List.cons_append, readUnits?.eq_def]
      split
      · simp_all
      · simp_all
      · simp_all
      · simp_all
      · rename_i heq
        obtain ⟨rfl, rfl⟩ := List.cons.inj heq
        simp [hslash, hc, ih]
  | @letter c n s units hc h ih =>
      rw [List.cons_append, List.cons_append, readUnits?.eq_def]
      split
      · simp_all
      · simp_all
      · -- the letter of a code point is no letter of its own
        rename_i heq
        simp only [List.cons.injEq, true_and] at heq
        obtain ⟨rfl, -⟩ := heq
        cases hc
      · rename_i heq
        simp only [List.cons.injEq, true_and] at heq
        obtain ⟨rfl, rfl⟩ := heq
        simp [hc, ih]
      · rename_i hletter heq
        obtain ⟨rfl, rfl⟩ := List.cons.inj heq
        exact absurd rfl (hletter _ _ rfl)
  | code hn h ih => simp [readUnits?, hn, ih]

theorem Quotes.read (h : Quotes s key) (rest : List Char) :
    ∃ t, s ++ rest = '\x22' :: t ∧ readString? t = some (key, rest) := by
  obtain ⟨h⟩ := h
  refine ⟨_, by rw [List.cons_append, List.append_assoc], ?_⟩
  rw [readString?, List.singleton_append, h.read]
  rfl

def Stops (rest : List Char) : Prop :=
  ∀ c ∈ rest.head?, isDigit c = false ∧ c ≠ '.' ∧ c ≠ 'e' ∧ c ≠ 'E'

theorem span_digits (hs : ∀ c ∈ s, isDigit c = true) (hr : ∀ c ∈ rest.head?, isDigit c = false) :
    (s ++ rest).takeWhile isDigit = s ∧ (s ++ rest).dropWhile isDigit = rest := by
  rw [List.takeWhile_append_of_pos hs, List.dropWhile_append_of_pos hs]
  cases rest with
  | nil => simp
  | cons c rest =>
      have hc : ¬isDigit c = true := by simp [hr c rfl]
      rw [List.takeWhile_cons_of_neg hc, List.dropWhile_cons_of_neg hc, List.append_nil]
      exact ⟨rfl, rfl⟩

theorem Whole.read (h : Whole s) (hr : ∀ c ∈ rest.head?, isDigit c = false) :
    readWhole? (s ++ rest) = some (digitsValue s, rest) := by
  obtain ⟨htake, hdrop⟩ := span_digits h.digits.2 hr
  rw [readWhole?, List.span_eq_takeWhile_dropWhile, htake, hdrop]
  simp only
  split
  · exact absurd rfl h.digits.1
  · exact absurd (h.zero rfl) (by simp)
  · rfl

theorem Digits.skip (h : Digits s) (hr : ∀ c ∈ rest.head?, isDigit c = false) :
    skipDigits? (s ++ rest) = some rest := by
  obtain ⟨htake, hdrop⟩ := span_digits h.2 hr
  rw [skipDigits?, htake, hdrop, if_neg (by simp [h.1])]

theorem Exponent.skip (h : Exponent s) (hr : Stops rest) :
    skipExponent? (s ++ rest) = some rest := by
  have hdigit : ∀ c ∈ rest.head?, isDigit c = false := fun c hc => (hr c hc).1
  cases h with
  | nil =>
      cases rest with
      | nil => rfl
      | cons c rest =>
          obtain ⟨-, -, he, hE⟩ := hr c rfl
          simp [skipExponent?, he, hE]
  | @mark e sign s he hsign h =>
      have hsigned : skipSign (sign ++ s ++ rest) = s ++ rest := by
        rcases hsign with rfl | rfl | rfl
        · obtain ⟨c, s, rfl⟩ := List.exists_cons_of_ne_nil h.1
          have hc : isDigit c = true := h.2 c List.mem_cons_self
          rw [List.nil_append, List.cons_append, skipSign.eq_def]
          split
          · rename_i heq
            cases heq
            cases hc
          · rename_i heq
            cases heq
            cases hc
          · rfl
        · rfl
        · rfl
      rcases he with rfl | rfl <;> simp
        only [List.cons_append, skipExponent?, hsigned, h.skip hdigit]

theorem Exponent.stops (h : Exponent s) (hr : Stops rest) :
    ∀ c ∈ (s ++ rest).head?, isDigit c = false ∧ c ≠ '.' := by
  cases h with
  | nil => exact fun c hc => ⟨(hr c hc).1, (hr c hc).2.1⟩
  | mark he hsign h =>
      rintro c hc
      cases hc
      rcases he with rfl | rfl <;> exact ⟨rfl, by decide⟩

theorem Fraction.skip (h : Fraction s) (hr : ∀ c ∈ rest.head?, isDigit c = false ∧ c ≠ '.') :
    skipFraction? (s ++ rest) = some rest := by
  cases h with
  | nil =>
      cases rest with
      | nil => rfl
      | cons c rest => simp [skipFraction?, (hr c rfl).2]
  | point h => exact h.skip fun c hc => (hr c hc).1

theorem Fraction.stops (h : Fraction s) (hr : ∀ c ∈ rest.head?, isDigit c = false ∧ c ≠ '.') :
    ∀ c ∈ (s ++ rest).head?, isDigit c = false := by
  cases h with
  | nil => exact fun c hc => (hr c hc).1
  | point h =>
      rintro c hc
      cases hc
      rfl

theorem readUnsigned?_append (hs : Whole s) (hf : Fraction fraction) (he : Exponent exponent)
    (hr : Stops rest) : readUnsigned? (s ++ (fraction ++ exponent) ++ rest) =
      some (if fraction ++ exponent = [] then .natural (digitsValue s) else .otherNumber,
          rest) := by
  have hexponent := he.stops hr
  rw [List.append_assoc, List.append_assoc, readUnsigned?, hs.read (hf.stops hexponent)]
  simp only [Option.bind_eq_bind, Option.bind_some, hf.skip hexponent, he.skip hr]
  have hlength : rest.length = (fraction ++ (exponent ++ rest)).length ↔
      fraction ++ exponent = [] := by
    simp only [List.length_append, ← List.length_eq_zero_iff]
    omega
  simp only [hlength]
  rfl

theorem readValue?_digit (hc : isDigit c = true) :
    readValue? (d + 1) (c :: s) = readUnsigned? (c :: s) := by
  rw [readValue?, skipBlanks_cons_of_not (isBlank_of_isDigit hc)]
  split
  all_goals first
    | (rename_i heq; obtain ⟨rfl, -⟩ := List.cons.inj heq; cases hc)
    | skip
  rw [readNumber?.eq_def]
  split
  · rename_i heq
    obtain ⟨rfl, -⟩ := List.cons.inj heq
    cases hc
  · rfl

theorem readValue?_unsigned (hs : Whole s) (hf : Fraction fraction) (he : Exponent exponent)
    (hr : Stops rest) : readValue? (d + 1) (s ++ (fraction ++ exponent) ++ rest) =
      some (if fraction ++ exponent = [] then .natural (digitsValue s) else .otherNumber,
          rest) := by
  rw [← readUnsigned?_append hs hf he hr]
  obtain ⟨c, s, rfl⟩ := List.exists_cons_of_ne_nil hs.digits.1
  exact readValue?_digit (hs.digits.2 c List.mem_cons_self)

theorem readValue?_array (h : readItems? d s = some (js, rest))
    (hs : ∀ t, skipBlanks s ≠ ']' :: t) :
    readValue? (d + 1) ('[' :: s) = some (.array js, rest) := by
  rw [readValue?, skipBlanks_cons_of_not rfl]
  -- the text does not go on with the closing bracket, so `hs` takes the other branch
  simp only [readItems?_congr (skipBlanks_skipBlanks s), h]
  rfl

theorem readValue?_object (h : readMembers? d s = some (ms, rest))
    (hs : ∀ t, skipBlanks s ≠ '\x7d' :: t) :
    readValue? (d + 1) ('\x7b' :: s) = some (.object ms, rest) := by
  rw [readValue?, skipBlanks_cons_of_not rfl]
  simp only [readMembers?_congr (skipBlanks_skipBlanks s), h]
  rfl

theorem readItems?_last (h : readValue? d s = some (j, more))
    (hmore : skipBlanks more = ']' :: rest) :
    readItems? (d + 1) s = some ([j], rest) := by
  simp [readItems?, h, hmore]

theorem readItems?_cons (h : readValue? d s = some (j, more)) (hmore : skipBlanks more = ',' :: t)
    (ht : readItems? d t = some (js, rest)) : readItems? (d + 1) s = some (j :: js, rest) := by
  simp [readItems?, h, hmore, ht]

theorem readMembers?_last (hb : Blanks b) (hkey : Quotes k key) (ht : Blanks t)
    (h : readValue? d s = some (j, more)) (hmore : skipBlanks more = '\x7d' :: rest) :
    readMembers? (d + 1) (b ++ (k ++ (t ++ ':' :: s))) = some ([(key, j)], rest) := by
  obtain ⟨l, hl, hread⟩ := hkey.read (t ++ ':' :: s)
  simp [readMembers?, hb.skip, hl, skipBlanks_cons_of_not, hread, ht.skip, isBlank, h, hmore]

theorem readMembers?_cons (hb : Blanks b) (hkey : Quotes k key) (ht : Blanks t)
    (h : readValue? d s = some (j, more)) (hmore : skipBlanks more = ',' :: text)
    (hrest : readMembers? d text = some (ms, rest)) :
    readMembers? (d + 1) (b ++ (k ++ (t ++ ':' :: s))) = some ((key, j) :: ms, rest) := by
  obtain ⟨l, hl, hread⟩ := hkey.read (t ++ ':' :: s)
  simp [readMembers?, hb.skip, hl, skipBlanks_cons_of_not, hread, ht.skip, isBlank, h, hmore, hrest]

/-- The first character behind the blanks closes nothing. -/
theorem Spells.begins (h : Spells s part) :
    ∃ c t, skipBlanks s = c :: t ∧ c ≠ ']' ∧ c ≠ '\x7d' := by
  have hdigit {s : List Char} (hs : Whole s) (rest : List Char) :
      ∃ c t, skipBlanks (s ++ rest) = c :: t ∧ c ≠ ']' ∧ c ≠ '\x7d' := by
    obtain ⟨c, s, rfl⟩ := List.exists_cons_of_ne_nil hs.digits.1
    have hc := hs.digits.2 c List.mem_cons_self
    refine ⟨c, _, skipBlanks_cons_of_not (isBlank_of_isDigit hc), ?_, ?_⟩
      <;> rintro rfl <;> cases hc
  have hquoted {b k : List Char} {key : Option String} (hb : Blanks b) (hkey : Quotes k key)
    (rest : List Char) :
      ∃ c t, skipBlanks (b ++ (k ++ rest)) = c :: t ∧ c ≠ ']' ∧ c ≠ '\x7d' := by
    obtain ⟨h⟩ := hkey
    rw [hb.skip]
    exact ⟨_, _, rfl, by decide, by decide⟩
  induction h with
  | null | bool_true | bool_false | empty_array | array | empty_object | object =>
      exact ⟨_, _, rfl, by decide, by decide⟩
  | natural h => simpa using hdigit h []
  | number hsign hs hf he hmore =>
      rcases hsign with rfl | rfl
      · exact hdigit hs _
      · exact ⟨_, _, rfl, by decide, by decide⟩
  | string h => simpa using hquoted (b := []) (fun _ h => by cases h) h []
  | blank_before hc h ih => rwa [skipBlanks_cons hc]
  | blank_after hc h ih | item h hrest ih ihrest =>
      obtain ⟨c, t, hs, hne⟩ := ih
      exact ⟨c, _, skipBlanks_append hs, hne⟩
  | last_item h ih => exact ih
  | last_member hb hkey ht h ih | member hb hkey ht h hrest ih ihrest => exact hquoted hb hkey _

theorem Spells.length_pos (h : Spells s part) : 0 < s.length := by
  obtain ⟨c, t, hs, -⟩ := h.begins
  rw [List.length_pos_iff]
  rintro rfl
  cases hs

theorem stops_cons (hc : c ∈ [',', ']', '\x7d'] ∨ isBlank c = true) : Stops (c :: rest) := by
  rintro _ ⟨⟩
  simp only [isBlank, Bool.or_eq_true, beq_iff_eq, List.mem_cons, List.not_mem_nil, or_false] at hc
  rcases hc with (rfl | rfl | rfl) | ((rfl | rfl) | rfl) | rfl <;> decide

/-- What it is to read a part: a value may leave blanks behind, the others end with the bracket that
closes them. The depth is enough when it is twice the length of the text. -/
def Part.ReadFrom (s : List Char) : Part → Prop
  | value j => ∀ d rest, 2 * s.length ≤ d → Stops rest →
      ∃ more, readValue? d (s ++ rest) = some (j, more) ∧ skipBlanks more = skipBlanks rest
  | items js => ∀ d rest, 2 * s.length < d → readItems? d (s ++ ']' :: rest) = some (js, rest)
  | members ms => ∀ d rest, 2 * s.length < d →
      readMembers? d (s ++ '\x7d' :: rest) = some (ms, rest)

theorem Spells.readFrom (h : Spells s part) : part.ReadFrom s := by
  have hpos {s : List Char} {part : Part} {d : Nat} (h : Spells s part) (hd : 2 * s.length ≤ d) :
      ∃ e, d = e + 1 :=
    ⟨d - 1, by have := h.length_pos; omega⟩
  have hopen {s rest : List Char} {part : Part} (h : Spells s part) :
      (∀ t, skipBlanks (s ++ rest) ≠ ']' :: t) ∧ ∀ t, skipBlanks (s ++ rest) ≠ '\x7d' :: t := by
    obtain ⟨c, t, hs, hc, hc'⟩ := h.begins
    rw [skipBlanks_append hs]
    exact ⟨fun _ heq => hc (List.cons.inj heq).1, fun _ heq => hc' (List.cons.inj heq).1⟩
  induction h with
  | null | bool_true | bool_false =>
      intro d rest hd hr
      obtain ⟨d, rfl⟩ : ∃ e, d = e + 1 := ⟨d - 1, by simp at hd; omega⟩
      exact ⟨rest, rfl, rfl⟩
  | natural h =>
      intro d rest hd hr
      obtain ⟨d, rfl⟩ := hpos (.natural h) hd
      exact ⟨rest, by simpa using readValue?_unsigned h .nil .nil hr, rfl⟩
  | number hsign hs hf he hmore =>
      intro d rest hd hr
      obtain ⟨d, rfl⟩ := hpos (.number hsign hs hf he hmore) hd
      refine ⟨rest, ?_, rfl⟩
      rcases hsign with rfl | rfl
      · exact (readValue?_unsigned hs hf he hr).trans
          (congrArg (fun j => some (j, rest)) (if_neg hmore))
      · exact (congrArg (Option.map fun p => (otherNumber, p.2))
          (readUnsigned?_append hs hf he hr) :)
  | string h =>
      intro d rest hd hr
      obtain ⟨d, rfl⟩ := hpos (.string h) hd
      obtain ⟨t, ht, hread⟩ := h.read rest
      refine ⟨rest, ?_, rfl⟩
      rw [ht, readValue?, skipBlanks_cons_of_not rfl]
      simp only [hread]
      rfl
  | empty_array hb =>
      intro d rest hd hr
      obtain ⟨d, rfl⟩ := hpos (.empty_array hb) hd
      refine ⟨rest, ?_, rfl⟩
      rw [List.cons_append, List.append_assoc, readValue?, skipBlanks_cons_of_not rfl]
      simp only [hb.skip]
      rfl
  | array h ih =>
      intro d rest hd hr
      obtain ⟨d, rfl⟩ := hpos (.array h) hd
      simp only [List.length_cons, List.length_append] at hd
      rw [List.cons_append, List.append_assoc]
      exact ⟨rest, readValue?_array (ih d rest (by omega)) (hopen h).1, rfl⟩
  | empty_object hb =>
      intro d rest hd hr
      obtain ⟨d, rfl⟩ := hpos (.empty_object hb) hd
      refine ⟨rest, ?_, rfl⟩
      rw [List.cons_append, List.append_assoc, readValue?, skipBlanks_cons_of_not rfl]
      simp only [hb.skip]
      rfl
  | object h ih =>
      intro d rest hd hr
      obtain ⟨d, rfl⟩ := hpos (.object h) hd
      simp only [List.length_cons, List.length_append] at hd
      rw [List.cons_append, List.append_assoc]
      exact ⟨rest, readValue?_object (ih d rest (by omega)) (hopen h).2, rfl⟩
  | blank_before hc h ih =>
      intro d rest hd hr
      obtain ⟨more, hread, hmore⟩ := ih d rest (by simp at hd; omega) hr
      exact ⟨more, (readValue?_congr (skipBlanks_cons hc)).trans hread, hmore⟩
  | blank_after hc h ih =>
      intro d rest hd hr
      obtain ⟨more, hread, hmore⟩ :=
        ih d _ (by simp at hd; omega) (stops_cons (.inr hc) : Stops (_ :: rest))
      rw [List.append_assoc]
      exact ⟨more, hread, hmore.trans (skipBlanks_cons hc)⟩
  | last_item h ih =>
      intro d rest hd
      obtain ⟨d, rfl⟩ := hpos h hd.le
      obtain ⟨more, hread, hmore⟩ := ih d (']' :: rest) (by omega) (stops_cons (by simp))
      exact readItems?_last hread hmore
  | item h hrest ih ihrest =>
      intro d rest hd
      obtain ⟨d, rfl⟩ := hpos (.item h hrest) hd.le
      simp only [List.length_append, List.length_cons] at hd
      obtain ⟨more, hread, hmore⟩ := ih d (',' :: _) (by omega) (stops_cons (by simp))
      rw [List.append_assoc]
      exact readItems?_cons hread hmore (ihrest d rest (by omega))
  | last_member hb hkey ht h ih =>
      intro d rest hd
      obtain ⟨d, rfl⟩ := hpos (.last_member hb hkey ht h) hd.le
      simp only [List.length_append, List.length_cons] at hd
      obtain ⟨more, hread, hmore⟩ := ih d ('\x7d' :: rest) (by omega) (stops_cons (by simp))
      simp only [List.append_assoc, List.cons_append]
      exact readMembers?_last hb hkey ht hread hmore
  | member hb hkey ht h hrest ih ihrest =>
      intro d rest hd
      obtain ⟨d, rfl⟩ := hpos (.member hb hkey ht h hrest) hd.le
      simp only [List.length_append, List.length_cons] at hd
      obtain ⟨more, hread, hmore⟩ := ih d (',' :: _) (by omega) (stops_cons (by simp))
      simp only [List.append_assoc, List.cons_append]
      exact readMembers?_cons hb hkey ht hread hmore (ihrest d rest (by omega))

/-- The grammar's texts are read. -/
theorem Spells.read? {text : String} (h : Spells text.toList (.value j)) :
    Json.read? text = some j := by
  obtain ⟨more, hread, hmore⟩ := h.readFrom (2 * text.length + 2) []
    (by rw [String.length_toList]; omega) (by rintro _ ⟨⟩)
  rw [List.append_nil] at hread
  rw [Json.read?, hread]
  simp only [hmore]
  rfl

end TreeScribe.Json
