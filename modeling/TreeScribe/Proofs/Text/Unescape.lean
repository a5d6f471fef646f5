import TreeScribe.Text.Escape
import Mathlib.Data.List.Basic

namespace TreeScribe.Text

def hexValue? (c : Char) : Option Nat :=
  if '0' ≤ c ∧ c ≤ '9' then some (c.toNat - 48)
  else if 'a' ≤ c ∧ c ≤ 'f' then some (c.toNat - 87)
  else if 'A' ≤ c ∧ c ≤ 'F' then some (c.toNat - 55)
  else none

def hexNumber? (digits : List Char) : Option Nat :=
  digits.foldlM (fun n c => (hexValue? c).map (16 * n + ·)) 0

def readCode? (width : Nat) (text : List Char) : Option (Char × List Char) :=
  if text.length < width then none
  else match hexNumber? (text.take width) with
    | none => none
    | some n => if n.isValidChar then some (Char.ofNat n, text.drop width) else none

def simpleEscape? : Char → Option Char
  | '\x27' => some '\x27'
  | '\x22' => some '\x22'
  | '\\' => some '\\'
  | '0' => some '\x00'
  | 'a' => some '\x07'
  | 'b' => some '\x08'
  | 'f' => some '\x0c'
  | 'n' => some '\n'
  | 'r' => some '\r'
  | 't' => some '\t'
  | 'v' => some '\x0b'
  | _ => none

/-- An escape with `x` takes as many digits as follow, from one to four. -/
def shortWidth (text : List Char) : Nat :=
  max 1 ((text.take 4).takeWhile fun c => (hexValue? c).isSome).length

def IsLineTerminator (c : Char) : Prop :=
  c = '\r' ∨ c = '\n' ∨ c = '\u0085' ∨ c = '\u2028' ∨ c = '\u2029'

instance (c : Char) : Decidable (IsLineTerminator c) := by
  unfold IsLineTerminator
  infer_instance

def readEscape? : List Char → Option (Char × List Char)
  | [] => none
  | letter :: rest =>
    if letter = 'u' then readCode? 4 rest
    else if letter = 'U' then readCode? 8 rest
    else if letter = 'x' then readCode? (shortWidth rest) rest
    else (simpleEscape? letter).map fun c => (c, rest)

def stringChar? : List Char → Option (Char × List Char)
  | [] => none
  | c :: rest =>
    if c = '\\' then readEscape? rest
    else if c = '\x22' ∨ IsLineTerminator c then none
    else some (c, rest)

/-- A backslash that begins no escape stands for itself in an identifier. -/
def identifierChar? : List Char → Option (Char × List Char)
  | '\\' :: 'u' :: rest => (readCode? 4 rest).orElse fun _ => some ('\\', 'u' :: rest)
  | '\\' :: 'U' :: rest => (readCode? 8 rest).orElse fun _ => some ('\\', 'U' :: rest)
  | c :: rest => some (c, rest)
  | [] => none

def readAll? (read? : List Char → Option (Char × List Char)) (text : List Char) :
    Option (List Char) :=
  match text with
  | [] => some []
  | c :: tail =>
    match read? (c :: tail) with
    | none => none
    | some (d, rest) =>
        if rest.length ≤ tail.length then (readAll? read? rest).map (d :: ·) else none
termination_by text.length
decreasing_by simp only [List.length_cons]; omega

def readIdentifier? (text : List Char) : Option (List Char) := readAll? identifierChar? text

def readString? (body : List Char) : Option (List Char) := readAll? stringChar? body

/-- Whether a quote would end the literal early; `escaped` tells that a backslash stands before. -/
def hasBareQuote (escaped : Bool) : List Char → Bool
  | [] => false
  | c :: rest =>
    if escaped then hasBareQuote false rest
    else if c = '\x22' then true
    else hasBareQuote (c = '\\') rest

theorem hexValue?_hexDigit : ∀ d < 16, hexValue? (hexDigit d) = some d := by decide

theorem hexDigit_ordinary :
    ∀ d < 16, hexDigit d ≠ '\x22' ∧ hexDigit d ≠ '\\' ∧ ¬ IsLineTerminator (hexDigit d) := by
  decide

theorem length_hexDigits (width n : Nat) : (hexDigits width n).length = width := by
  induction width generalizing n with
  | zero => rfl
  | succ width ih => rw [hexDigits, List.length_append, ih, List.length_singleton]

theorem eq_hexDigit_of_mem {c : Char} {width n : Nat} (h : c ∈ hexDigits width n) :
    ∃ d < 16, c = hexDigit d := by
  induction width generalizing n with
  | zero => simp [hexDigits] at h
  | succ width ih =>
    rw [hexDigits, List.mem_append, List.mem_singleton] at h
    cases h with
    | inl h => exact ih h
    | inr h => exact ⟨_, Nat.mod_lt _ (by omega), h⟩

theorem hexNumber?_hexDigits {width n : Nat} (h : n < Nat.pow 16 width) :
    hexNumber? (hexDigits width n) = some n := by
  induction width generalizing n with
  | zero =>
    obtain rfl : n = 0 := Nat.lt_one_iff.1 h
    rfl
  | succ width ih =>
    have hq : n / 16 < Nat.pow 16 width := Nat.div_lt_of_lt_mul (by rwa [Nat.mul_comm])
    have hd := hexValue?_hexDigit (n % 16) (Nat.mod_lt _ (by omega))
    rw [hexDigits, hexNumber?, List.foldlM_append]
    rw [← hexNumber?, ih hq]
    simp [hd, Nat.div_add_mod]

theorem readCode?_hexDigits {width : Nat} {c : Char} (h : c.toNat < Nat.pow 16 width)
    (rest : List Char) : readCode? width (hexDigits width c.toNat ++ rest) = some (c, rest) := by
  have hl := length_hexDigits width c.toNat
  have hv : c.toNat.isValidChar := c.valid
  rw [readCode?, if_neg (by rw [List.length_append]; omega), List.take_left' hl, List.drop_left' hl,
    hexNumber?_hexDigits h]
  simp only [hv, if_true, Char.ofNat_toNat]

theorem codeEscape_eq (c : Char) :
    ∃ letter width, codeEscape c = '\\' :: letter :: hexDigits width c.toNat ∧
      c.toNat < Nat.pow 16 width ∧
      (letter = 'u' ∧ width = 4 ∨ letter = 'U' ∧ width = 8) := by
  have hv : c.toNat.isValidChar := c.valid
  rw [codeEscape]
  split
  · refine ⟨'U', 8, rfl, ?_, .inr ⟨rfl, rfl⟩⟩
    rw [show Nat.pow 16 8 = 4294967296 from rfl]
    rcases hv with hv | hv <;> omega
  · refine ⟨'u', 4, rfl, ?_, .inl ⟨rfl, rfl⟩⟩
    rw [show Nat.pow 16 4 = 65536 from rfl]
    omega

theorem stringChar?_codeEscape (c : Char) (rest : List Char) :
    stringChar? (codeEscape c ++ rest) = some (c, rest) := by
  obtain ⟨letter, width, he, hw, ⟨rfl, rfl⟩ | ⟨rfl, rfl⟩⟩ := codeEscape_eq c
  · rw [he]
    exact readCode?_hexDigits hw rest
  · rw [he]
    exact readCode?_hexDigits hw rest

theorem identifierChar?_codeEscape (c : Char) (rest : List Char) :
    identifierChar? (codeEscape c ++ rest) = some (c, rest) := by
  obtain ⟨letter, width, he, hw, ⟨rfl, rfl⟩ | ⟨rfl, rfl⟩⟩ := codeEscape_eq c
  · rw [he, List.cons_append, List.cons_append, identifierChar?, readCode?_hexDigits hw]
    rfl
  · rw [he, List.cons_append, List.cons_append, identifierChar?, readCode?_hexDigits hw]
    rfl

theorem identifierChar?_plain {c : Char} (hc : c ≠ '\\') (rest : List Char) :
    identifierChar? (c :: rest) = some (c, rest) := by
  rw [identifierChar?]
  · exact fun r h => absurd h hc
  · exact fun r h => absurd h hc

inductive StringForm (c : Char) : List Char → Prop
  | letter {l : Char} (h : simpleEscape? l = some c) : StringForm c ['\\', l]
  | code : StringForm c (codeEscape c)
  | plain (hb : c ≠ '\\') (hq : c ≠ '\x22') (ht : ¬ IsLineTerminator c) : StringForm c [c]

theorem simpleEscape?_escapeLetter {c l : Char} (h : escapeLetter? c = some l) :
    simpleEscape? l = some c := by
  unfold escapeLetter? at h
  split at h <;> cases h <;> rfl

theorem simpleEscape?_lineTerminator {l : Char} (h : IsLineTerminator l) :
    simpleEscape? l = none := by
  rcases h with rfl | rfl | rfl | rfl | rfl <;> rfl

theorem isAlwaysPlain_ordinary {c : Char} (h : isAlwaysPlain c = true) : ¬ IsLineTerminator c := by
  unfold isAlwaysPlain at h
  split at h
  · decide
  · decide
  · decide
  · decide
  · cases h

section

variable {hidden : Char → Bool}

theorem quotedBodyWith_form (hh : ∀ c, IsLineTerminator c → hidden c = true) (c : Char) :
    StringForm c (quotedBodyWith hidden c) := by
  rw [quotedBodyWith]
  split
  · next hq =>
    subst hq
    exact .letter rfl
  next hq =>
  rw [escapeCharWith]
  split
  · next l hl => exact .letter (simpleEscape?_escapeLetter hl)
  next hl =>
  have hb : c ≠ '\\' := by
    rintro rfl
    cases hl
  split
  · next hp => exact .plain hb hq (isAlwaysPlain_ordinary hp)
  split
  · exact .code
  · next hn => exact .plain hb hq fun ht => hn (.inr (.inr (hh c ht)))

end

namespace StringForm

variable {c : Char} {front : List Char}

theorem ne_nil (h : StringForm c front) : front ≠ [] := by
  cases h with
  | letter h => exact List.cons_ne_nil _ _
  | code =>
    obtain ⟨letter, width, he, -⟩ := codeEscape_eq c
    exact he ▸ List.cons_ne_nil _ _
  | plain => exact List.cons_ne_nil _ _

theorem read (h : StringForm c front) (rest : List Char) :
    stringChar? (front ++ rest) = some (c, rest) := by
  cases h with
  | @letter l h =>
    have hu : l ≠ 'u' := by rintro rfl; cases h
    have hU : l ≠ 'U' := by rintro rfl; cases h
    have hx : l ≠ 'x' := by rintro rfl; cases h
    simp [stringChar?, readEscape?, hu, hU, hx, h]
  | code => exact stringChar?_codeEscape c rest
  | plain hb hq ht => simp [stringChar?, hb, hq, ht]

theorem ordinary (h : StringForm c front) : ∀ d ∈ front, ¬ IsLineTerminator d := by
  have hs : ¬ IsLineTerminator '\\' := by decide
  cases h with
  | @letter l h =>
    have hl : ¬ IsLineTerminator l := by
      intro ht
      rw [simpleEscape?_lineTerminator ht] at h
      cases h
    simp [hs, hl]
  | code =>
    obtain ⟨letter, width, he, -, hw⟩ := codeEscape_eq c
    have hl : ¬ IsLineTerminator letter := by
      rcases hw with ⟨rfl, -⟩ | ⟨rfl, -⟩ <;> decide
    have hd : ∀ d ∈ hexDigits width c.toNat, ¬ IsLineTerminator d := by
      intro d hd
      obtain ⟨n, hn, rfl⟩ := eq_hexDigit_of_mem hd
      exact (hexDigit_ordinary n hn).2.2
    simpa [he, hs, hl] using hd
  | plain hb hq ht => simpa using ht

end StringForm

theorem hasBareQuote_digits {digits : List Char} (h : ∀ d ∈ digits, d ≠ '\x22' ∧ d ≠ '\\')
    (rest : List Char) : hasBareQuote false (digits ++ rest) = hasBareQuote false rest := by
  induction digits with
  | nil => rfl
  | cons d digits ih =>
    obtain ⟨hd, ht⟩ := List.forall_mem_cons.1 h
    simp [hasBareQuote, hd.1, hd.2, ih ht]

theorem StringForm.quotes {c : Char} {front : List Char} (h : StringForm c front)
    (rest : List Char) : hasBareQuote false (front ++ rest) = hasBareQuote false rest := by
  cases h with
  | letter h => simp [hasBareQuote]
  | code =>
    obtain ⟨letter, width, he, -⟩ := codeEscape_eq c
    have hd : ∀ d ∈ hexDigits width c.toNat, d ≠ '\x22' ∧ d ≠ '\\' := by
      intro d hd
      obtain ⟨n, hn, rfl⟩ := eq_hexDigit_of_mem hd
      exact ⟨(hexDigit_ordinary n hn).1, (hexDigit_ordinary n hn).2.1⟩
    simp [he, hasBareQuote, hasBareQuote_digits hd]
  | plain hb hq ht => exact hasBareQuote_digits (by simp [hb, hq]) rest

section

variable {read? : List Char → Option (Char × List Char)} {encode : Char → List Char}

theorem readAll?_append {c : Char} {front rest : List Char} (hf : front ≠ [])
    (h : read? (front ++ rest) = some (c, rest)) :
    readAll? read? (front ++ rest) = (readAll? read? rest).map (c :: ·) := by
  obtain ⟨d, front, rfl⟩ := List.exists_cons_of_ne_nil hf
  rw [List.cons_append] at h ⊢
  rw [readAll?, h]
  simp

/-- What follows does not matter to the reader, so it stands at the start of the next character
again. -/
theorem readAll?_flatMap (hf : ∀ c, encode c ≠ [])
    (h : ∀ c rest, read? (encode c ++ rest) = some (c, rest)) (text : List Char) :
    readAll? read? (text.flatMap encode) = some text := by
  induction text with
  | nil => rw [List.flatMap_nil, readAll?]
  | cons c text ih => rw [List.flatMap_cons, readAll?_append (hf c) (h c _), ih, Option.map_some]

theorem injective_of_reads {read? : List Char → Option (List Char)} {write : List Char → List Char}
    (h : ∀ text, read? (write text) = some text) : Function.Injective write := by
  intro a b hab
  have hr := h a
  rw [hab, h b] at hr
  exact (Option.some.inj hr).symm

end

section

variable {hidden : Char → Bool}

theorem readIdentifier?_escapeIdentifier (text : List Char) :
    readIdentifier? (escapeIdentifierWith hidden text) = some text := by
  refine readAll?_flatMap ?_ ?_ text
  · intro c
    obtain ⟨letter, width, he, -⟩ := codeEscape_eq c
    split <;> simp [he]
  · intro c rest
    split
    · next hp =>
      rw [isPlainInIdentifier, Bool.and_eq_true, bne_iff_ne] at hp
      exact identifierChar?_plain hp.1 rest
    · exact identifierChar?_codeEscape c rest

variable (hh : ∀ c, IsLineTerminator c → hidden c = true)
include hh

theorem readString?_escapeString (text : List Char) :
    readString? (escapeStringWith hidden none text) = some text :=
  readAll?_flatMap (fun c => (quotedBodyWith_form hh c).ne_nil)
    (fun c => (quotedBodyWith_form hh c).read) text

theorem escapeString_noQuote (text : List Char) :
    hasBareQuote false (escapeStringWith hidden none text) = false := by
  rw [escapeStringWith]
  induction text with
  | nil => rfl
  | cons c text ih => rw [List.flatMap_cons, (quotedBodyWith_form hh c).quotes, ih]

theorem escapeString_oneLine (text : List Char) :
    ∀ d ∈ escapeStringWith hidden none text, ¬ IsLineTerminator d := by
  intro d hd
  obtain ⟨c, -, hc⟩ := List.mem_flatMap.1 hd
  exact (quotedBodyWith_form hh c).ordinary d hc

end

theorem escapeString_limit (hidden : Char → Bool) (n : Nat) (text : List Char) :
    escapeStringWith hidden (some n) text =
      if text.length ≤ n then escapeStringWith hidden none text
      else escapeStringWith hidden none (text.take n) ++ tooLongMarker.toList := by
  simp only [escapeStringWith]
  split
  · next h => rw [List.take_of_length_le h, List.append_nil]
  · rfl

/-- Both ways to escape a text keep it: it is read back, so no two texts are written alike. -/
theorem escapes_read_back (hidden : Char → Bool) (hh : ∀ c, IsLineTerminator c → hidden c = true) :
    (∀ text, readIdentifier? (escapeIdentifierWith hidden text) = some text) ∧
    (∀ text, readString? (escapeStringWith hidden none text) = some text ∧
      hasBareQuote false (escapeStringWith hidden none text) = false ∧
      ∀ d ∈ escapeStringWith hidden none text, ¬ IsLineTerminator d) ∧
    Function.Injective (escapeIdentifierWith hidden) ∧
    Function.Injective (escapeStringWith hidden none) ∧
    ∀ n text, escapeStringWith hidden (some n) text =
      if text.length ≤ n then escapeStringWith hidden none text
      else escapeStringWith hidden none (text.take n) ++ tooLongMarker.toList := by
  refine ⟨readIdentifier?_escapeIdentifier, ?_, ?_, ?_, escapeString_limit hidden⟩
  · exact fun text => ⟨readString?_escapeString hh text, escapeString_noQuote hh text,
      escapeString_oneLine hh text⟩
  · exact injective_of_reads readIdentifier?_escapeIdentifier
  · exact injective_of_reads (readString?_escapeString hh)

def trickyText : List Char :=
  ['\x22', '\\', 'u', '0', '\u0085', '1', 'f', '\n', Char.ofNat 0x1F600, 'a', '\u0301', 'e']

theorem isUnprintable_lineTerminator (c : Char) (h : IsLineTerminator c) :
    isUnprintable c = true := by
  rcases h with rfl | rfl | rfl | rfl | rfl <;> decide +kernel

theorem escapes_read_back_tricky :
    (∀ c, IsLineTerminator c → isUnprintable c = true) ∧
    readIdentifier? (escapeIdentifierWith isUnprintable trickyText) = some trickyText ∧
    readString? (escapeStringWith isUnprintable none trickyText) = some trickyText ∧
    String.ofList (escapeStringWith isUnprintable none trickyText) =
      "\\\x22\\\\u0\\u00851f\\n\\U0001f600a\\u0301e" :=
  have h := escapes_read_back isUnprintable isUnprintable_lineTerminator
  ⟨isUnprintable_lineTerminator, h.1 trickyText, (h.2.1 trickyText).1, by decide +kernel⟩

end TreeScribe.Text
