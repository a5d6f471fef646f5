import TreeScribe.Proofs.Json.Grammar

namespace TreeScribe.Json

variable {c : Char} {n : Nat} {b s : List Char} {units : List Nat}
  {members : List (String × Scalar)}

theorem hexValue4?_hexDigits : ∀ n < 32,
    (match Text.hexDigits 4 n with
      | [a, b, c, d] => hexValue4? a b c d
      | _ => none) = some n := by decide

theorem SpellsUnits.escapeChar (h : SpellsUnits s units) :
    SpellsUnits (Scalar.escapeChar c ++ s) (c.toNat :: units) := by
  by_cases hl : c ∈ ['\x22', '\\', '\x08', '\x0c', '\n', '\r', '\t']
  · -- the characters with a letter of their own
    simp only [List.mem_cons, List.not_mem_nil, or_false] at hl
    rcases hl with rfl | rfl | rfl | rfl | rfl | rfl | rfl <;> exact .letter rfl h
  · simp only [List.mem_cons, List.not_mem_nil, or_false, not_or] at hl
    obtain ⟨hquote, hslash, hb, hf, hn, hr, ht⟩ := hl
    rw [Scalar.escapeChar, if_neg hquote, if_neg hslash, if_neg hb, if_neg hf, if_neg hn, if_neg hr,
      if_neg ht]
    split
    · rename_i hc
      have hhex := hexValue4?_hexDigits c.toNat hc
      split at hhex
      · rename_i hdigits
        rw [hdigits]
        exact .code hhex h
      · cases hhex
    · rename_i hc
      exact .plain hquote hslash (Nat.le_of_not_lt hc) h

theorem not_surrogate (c : Char) :
    isHighSurrogate c.toNat = false ∧ isLowSurrogate c.toNat = false := by
  have hv : c.toNat < 0xD800 ∨ 0xDFFF < c.toNat ∧ c.toNat < 0x110000 := c.valid
  simp only [isHighSurrogate, isLowSurrogate, Bool.and_eq_false_iff, decide_eq_false_iff_not]
  omega

theorem joinUnits?_toNat (s : List Char) : joinUnits? (s.map Char.toNat) = some s := by
  induction s with
  | nil => rfl
  | cons c s ih =>
      cases s with
      | nil => simp [joinUnits?, not_surrogate]
      | cons d s =>
          simp only [List.map_cons] at ih ⊢
          simp [joinUnits?, not_surrogate, ih]

theorem quotes_quote (s : String) : Quotes (Scalar.quote s.toList) (some s) := by
  have hunits (l : List Char) : SpellsUnits (l.flatMap Scalar.escapeChar) (l.map Char.toNat) := by
    induction l with
    | nil => exact .nil
    | cons c l ih => exact ih.escapeChar
  have := Quotes.intro (hunits s.toList)
  rwa [joinUnits?_toNat, Option.map_some, String.ofList_toList] at this

theorem isDigit_of_mem_toDigits (hc : c ∈ Nat.toDigits 10 n) : isDigit c = true := by
  have hd := Nat.isDigit_of_mem_toDigits (by decide) (by decide) hc
  simpa [isDigit, Char.isDigit, Char.le_def] using hd

theorem digitsValue_toDigits (n : Nat) : digitsValue (Nat.toDigits 10 n) = n :=
  Nat.ofDigitChars_toDigits (b := 10) (by decide) (by decide)

theorem toDigits_cases (n : Nat) : ∃ c l, Nat.toDigits 10 n = c :: l ∧ (l = [] ∨ c ≠ '0') := by
  induction n using Nat.strongRecOn with
  | ind n ih =>
      by_cases hn : n < 10
      · exact ⟨_, [], Nat.toDigits_of_lt_base hn, .inl rfl⟩
      · obtain ⟨c, l, hl, hc⟩ := ih (n / 10) (by omega)
        have hsplit := Nat.toDigits_append_toDigits (b := 10) (n := n / 10) (d := n % 10)
          (by decide) (by omega)
          (Nat.mod_lt _ (by decide))
        rw [Nat.div_add_mod, hl, List.cons_append] at hsplit
        refine ⟨c, _, hsplit.symm, .inr ?_⟩
        rcases hc with rfl | hc
        · rintro rfl
          -- a single zero stands for the number zero only
          have hzero := digitsValue_toDigits (n / 10)
          rw [hl] at hzero
          have : n / 10 = 0 := hzero.symm
          omega
        · exact hc

theorem whole_toDigits (n : Nat) : Whole (Nat.toDigits 10 n) := by
  refine ⟨⟨Nat.toDigits_ne_nil, fun c => isDigit_of_mem_toDigits⟩, fun hzero => ?_⟩
  obtain ⟨c, l, hl, hc⟩ := toDigits_cases n
  rw [hl] at hzero ⊢
  cases hzero
  rcases hc with rfl | hc
  · rfl
  · exact absurd rfl hc

theorem spells_write (v : Scalar) : Spells v.write (.value v.toJson) := by
  cases v with
  | null => exact .null
  | bool b => cases b with
    | true => exact .bool_true
    | false => exact .bool_false
  | natural n =>
      have := Spells.natural (whole_toDigits n)
      rwa [digitsValue_toDigits] at this
  | string s => exact .string (quotes_quote s)

theorem writeMembers_cons_cons (m m' : String × Scalar) (members : List (String × Scalar)) :
    writeMembers (m :: m' :: members) = writeMember m ++ ',' :: '\n' ::
      writeMembers (m' :: members) := by
  rw [writeMembers]
  · simp
  · simp

theorem blanks_break : Blanks ['\n'] := by
  rintro _ (_ | ⟨_, ⟨⟩⟩)
  rfl

theorem spells_writeMembers (hne : members ≠ []) (hb : Blanks b) :
    Spells (b ++ (writeMembers members ++ ['\n']))
      (.members (members.map fun m => (some m.1, m.2.toJson))) := by
  induction members generalizing b with
  | nil => exact absurd rfl hne
  | cons m members ih =>
      have hstart : Blanks (b ++ [' ', ' ']) := by
        intro c hc
        rcases List.mem_append.mp hc with hc | hc
        · exact hb c hc
        · simp only [List.mem_cons, List.not_mem_nil, or_false, or_self] at hc
          rw [hc]
          rfl
      have hnone : Blanks [] := by rintro _ ⟨⟩
      have hvalue := (spells_write m.2).blank_before (c := ' ') rfl
      cases members with
      | nil =>
          have := Spells.last_member hstart (quotes_quote m.1)
            hnone (hvalue.blank_after (c := '\n') rfl)
          simpa [writeMembers, writeMember] using this
      | cons m' members =>
          have := Spells.member hstart (quotes_quote m.1) hnone hvalue (ih (by simp) blanks_break)
          simpa [writeMembers_cons_cons, writeMember] using this

theorem spells_writeObject (members : List (String × Scalar)) :
    Spells (writeObject members).toList
      (.value (.object (members.map fun m => (some m.1, m.2.toJson)))) := by
  have hlist : (writeObject members).toList = '\x7b' ::
      ('\n' :: (writeMembers members ++ ['\n'])) ++ ['\x7d'] := by
    simp [writeObject]
  rw [hlist]
  by_cases hne : members = []
  · subst hne
    exact .empty_object (b := ['\n', '\n']) (by rintro _ (_ | ⟨_, _ | ⟨_, ⟨⟩⟩⟩) <;> rfl)
  · exact .object (spells_writeMembers hne blanks_break)

/-- The text of an object of scalars is read as that object. -/
theorem read?_writeObject (members : List (String × Scalar)) :
    Json.read? (writeObject members) =
      some (.object (members.map fun m => (some m.1, m.2.toJson))) :=
  (spells_writeObject members).read?

end TreeScribe.Json
