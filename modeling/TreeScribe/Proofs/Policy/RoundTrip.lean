import Mathlib.Data.List.Nodup
import TreeScribe.Policy.Codec
import TreeScribe.Proofs.Json.ReadBack

namespace TreeScribe

namespace Codec

variable {α : Type}

/-- What is written is read back, and a scalar is read as what is written like it. -/
class Lawful (c : Codec α) : Prop where
  decode_encode (a : α) : c.decode? (c.encode a).toJson = some a
  encode_decode {s : Scalar} {a : α} (h : c.decode? s.toJson = some a) : c.encode a = s

theorem lawful_ofWords {values : List α} {word : α → String} (hmem : ∀ a, a ∈ values)
    (hinj : Function.Injective word) : (ofWords values word).Lawful where
  decode_encode a := by
    have hsome : (values.find? fun b => word b == word a).isSome :=
      List.find?_isSome.mpr ⟨a, hmem a, by simp⟩
    obtain ⟨b, hb⟩ := Option.isSome_iff_exists.mp hsome
    have heq : word b = word a := by simpa using List.find?_some hb
    exact hb.trans (congrArg some (hinj heq))
  encode_decode {s a} h := by
    cases s with
    | string s =>
        have heq : word a = s := by
          simpa using List.find?_some (show values.find? _ = some a from h)
        exact congrArg Scalar.string heq
    | null | bool | natural => cases h

instance : braceStyle.Lawful :=
  lawful_ofWords (fun a => by cases a <;> decide) fun a b => by cases a <;> cases b <;> decide

instance : wrapping.Lawful :=
  lawful_ofWords (fun a => by cases a <;> decide) fun a b => by cases a <;> cases b <;> decide

instance : keywordPlacement.Lawful :=
  lawful_ofWords (fun a => by cases a <;> decide) fun a b => by cases a <;> cases b <;> decide

instance : propertyLayout.Lawful :=
  lawful_ofWords (fun a => by cases a <;> decide) fun a b => by cases a <;> cases b <;> decide

instance : flag.Lawful where
  decode_encode _ := rfl
  encode_decode {s a} h := by
    cases s with
    | bool b =>
        cases h
        rfl
    | null | natural | string => cases h

instance : text.Lawful where
  decode_encode _ := rfl
  encode_decode {s a} h := by
    cases s with
    | string s =>
        cases h
        rfl
    | null | bool | natural => cases h

instance : count.Lawful where
  decode_encode n := by simp [count, Scalar.toJson, UInt32.toNat_lt_size]
  encode_decode {s a} h := by
    cases s with
    | natural n =>
        obtain ⟨hn, rfl⟩ : n < UInt32.size ∧ .ofNat n = a := by simpa [count, Scalar.toJson] using h
        exact congrArg Scalar.natural (UInt32.toNat_ofNat_of_lt' hn)
    | null | bool | string => cases h

instance : limit.Lawful where
  decode_encode o := by cases o <;> simp [limit, Scalar.toJson, UInt64.toNat_lt_size]
  encode_decode {s a} h := by
    cases s with
    | natural n =>
        obtain ⟨hn, rfl⟩ : n < UInt64.size ∧ some (.ofNat n) = a := by
          simpa [limit, Scalar.toJson] using h
        exact congrArg Scalar.natural (UInt64.toNat_ofNat_of_lt' hn)
    | null =>
        cases h
        rfl
    | bool | string => cases h

end Codec

namespace Policy

variable {f g : Field} {p p' q q' : Policy} {j : Json} {s : Scalar} {name : String}
  {ms : List (String × Json)}

def Field.value? (f : Field) (j : Json) : Option Scalar := (f.decode? allman j).map f.encode

def encodings (p : Policy) : List Scalar := fields.map fun f => f.encode p

/-- A field in the place `n`: it takes the same values in every policy, its own among them, and
changes no other. -/
structure Field.Lawful (f : Field) (n : Nat) : Prop where
  reads (p : Policy) (j : Json) : (f.decode? p j).map f.encode = f.value? j
  sets {p q : Policy} {j : Json} (h : f.decode? p j = some q) :
    q.encodings = p.encodings.set n (f.encode q)
  own (p : Policy) : f.value? (f.encode p).toJson = some (f.encode p)
  scalar {s t : Scalar} (h : f.value? s.toJson = some t) : t = s

section

variable {α : Type} {codec : Codec α} [codec.Lawful] {get : Policy → α}
  {set : Policy → α → Policy} {n : Nat}

theorem Field.decode_encode (p q : Policy) :
    (Field.of name codec get set).decode? q ((Field.of name codec get set).encode p).toJson =
    some (set q (get p)) := by
  simp [Field.of, Codec.Lawful.decode_encode]

theorem Field.lawful_of (hget : ∀ p v, get (set p v) = v)
    (hset : ∀ p v, (set p v).encodings = p.encodings.set n (codec.encode v)) :
    (Field.of name codec get set).Lawful n := by
  have hvalue (p : Policy) (j : Json) :
      ((Field.of name codec get set).decode? p j).map (Field.of name codec get set).encode =
        (codec.decode? j).map codec.encode := by
    simp only [Field.of, Option.map_map]
    exact congrArg (Option.map · _) (funext fun v => congrArg codec.encode (hget p v))
  refine ⟨fun p j => (hvalue p j).trans (hvalue allman j).symm, fun {p q j} h => ?_, fun p => ?_,
    fun {s t} h => ?_⟩
  · obtain ⟨v, -, rfl⟩ := Option.map_eq_some_iff.mp h
    rw [hset]
    simp [Field.of, hget]
  · refine (hvalue allman _).trans ?_
    simp [Field.of, Codec.Lawful.decode_encode]
  · obtain ⟨v, hv, rfl⟩ := Option.map_eq_some_iff.mp ((hvalue allman _).symm.trans h)
    exact Codec.Lawful.encode_decode hv

end

set_option maxRecDepth 4000 in
theorem fields_lawful : ∀ x ∈ fields.zipIdx, x.1.Lawful x.2 := by
  unfold fields
  simp only [List.zipIdx_cons, List.zipIdx_nil, List.forall_mem_cons]
  repeat' apply And.intro
  all_goals first
    | exact Field.lawful_of (fun _ _ => rfl) fun _ _ => rfl
    | simp

theorem lawful_of_mem (hf : f ∈ fields) : ∃ n, fields[n]? = some f ∧ f.Lawful n := by
  obtain ⟨n, hn⟩ := List.mem_iff_getElem?.mp hf
  exact ⟨n, hn, fields_lawful (f, n) (List.mem_zipIdx_iff_getElem?.mpr hn)⟩

theorem names_nodup : (fields.map Field.name).Nodup := by decide +kernel

theorem eq_of_name_eq (hf : f ∈ fields) (hg : g ∈ fields) (h : f.name = g.name) : f = g :=
  List.inj_on_of_nodup_map names_nodup hf hg h

theorem field?_name (hf : f ∈ fields) : field? f.name = some f := by
  have hsome : (field? f.name).isSome := List.find?_isSome.mpr ⟨f, hf, by simp⟩
  obtain ⟨g, hg⟩ := Option.isSome_iff_exists.mp hsome
  have hname : g.name = f.name := by simpa using List.find?_some hg
  rw [hg, eq_of_name_eq (List.mem_of_find?_eq_some hg) hf hname]

theorem field?_eq_some (h : field? name = some f) : f ∈ fields ∧ f.name = name :=
  ⟨List.mem_of_find?_eq_some h, by simpa using List.find?_some h⟩

theorem Field.value?_toJson (hf : f ∈ fields) {t : Scalar} :
    f.value? s.toJson = some t ↔ t = s ∧ ∃ p : Policy, f.encode p = s := by
  obtain ⟨n, -, h⟩ := lawful_of_mem hf
  constructor
  · intro ht
    have hts := h.scalar ht
    obtain ⟨p, -, hp⟩ := Option.map_eq_some_iff.mp ht
    exact ⟨hts, p, hp.trans hts⟩
  · rintro ⟨rfl, p, rfl⟩
    exact h.own p

theorem encode_of_ne (hf : f ∈ fields) (hg : g ∈ fields) (hne : g.name ≠ f.name)
    (h : f.decode? p j = some q) : g.encode q = g.encode p := by
  obtain ⟨n, hn, hlawful⟩ := lawful_of_mem hf
  obtain ⟨m, hm⟩ := List.mem_iff_getElem?.mp hg
  have hnm : n ≠ m := by
    rintro rfl
    rw [hn] at hm
    exact hne (congrArg Field.name (Option.some.inj hm)).symm
  have hplace (p : Policy) : p.encodings[m]? = some (g.encode p) := by
    rw [encodings, List.getElem?_map, hm]; rfl
  have hset := congrArg (·[m]?) (hlawful.sets h)
  simp only [List.getElem?_set_ne hnm, hplace] at hset
  exact Option.some.inj hset

theorem foldlM_encode (p q : Policy) :
    fields.foldlM (fun q f => f.decode? q (f.encode p).toJson) q = some p := by
  unfold fields
  simp only [List.foldlM_cons, List.foldlM_nil, Field.decode_encode, Option.bind_eq_bind,
    Option.bind_some]
  rfl

/-- Members of different fields that were not given before are read in turn. -/
theorem ofMembers?_map {value : Field → Json} {fs : List Field} (hfs : ∀ f ∈ fs, f ∈ fields)
    (hnodup : (fs.map Field.name).Nodup) (seen : List String) (hseen : ∀ f ∈ fs, f.name ∉ seen)
    (p : Policy) : ofMembers? seen p (fs.map fun f => (some f.name, value f)) =
      fs.foldlM (fun q f => f.decode? q (value f)) p := by
  induction fs generalizing seen p with
  | nil => rfl
  | cons f fs ih =>
      obtain ⟨hfresh, hnodup⟩ := List.nodup_cons.mp hnodup
      have hseen' : ∀ g ∈ fs, g.name ∉ f.name :: seen := by
        intro g hg
        have hne : g.name ≠ f.name := fun h => hfresh (h ▸ List.mem_map_of_mem hg)
        simp [hne, hseen g (List.mem_cons_of_mem _ hg)]
      have hstep := ih (fun g hg => hfs g (List.mem_cons_of_mem _ hg))
        hnodup (f.name :: seen) hseen'
      rw [List.map_cons, ofMembers?, field?_name (hfs f List.mem_cons_self), List.foldlM_cons]
      simp only [List.contains_eq_mem, hseen f List.mem_cons_self, decide_false,
        Bool.false_eq_true, if_false]
      exact congrArg _ (funext hstep)

theorem read?_write (p : Policy) : read? p.write = some p := by
  rw [read?, write, Json.read?_writeObject, List.map_map]
  exact (ofMembers?_map (fun f hf => hf) names_nodup [] (fun _ _ => List.not_mem_nil) allman).trans
    (foldlM_encode p allman)

theorem ext_encode (h : ∀ f ∈ fields, f.encode p = f.encode q) : p = q := by
  have hwrite : p.write = q.write :=
    congrArg Json.writeObject (List.map_congr_left fun f hf => congrArg (Prod.mk f.name) (h f hf))
  have hread := read?_write p
  rw [hwrite, read?_write] at hread
  exact (Option.some.inj hread).symm

/-- Members that give no field twice and to each field that they give one of its values. -/
structure Valid (ms : List (String × Json)) : Prop where
  once : ((ms.map Prod.fst).filter (· ∈ fields.map Field.name)).Nodup
  typed : ∀ m ∈ ms, ∀ f ∈ fields, f.name = m.1 → (f.value? m.2).isSome

structure Replaces (ms : List (String × Json)) (p q : Policy) : Prop where
  given : ∀ m ∈ ms, ∀ f ∈ fields, f.name = m.1 → f.value? m.2 = some (f.encode q)
  kept : ∀ f ∈ fields, f.name ∉ ms.map Prod.fst → f.encode q = f.encode p

theorem Replaces.unique (h : Replaces ms p q) (h' : Replaces ms p q') : q' = q := by
  refine ext_encode fun f hf => ?_
  by_cases hname : f.name ∈ ms.map Prod.fst
  · obtain ⟨m, hm, hfm⟩ := List.mem_map.mp hname
    exact Option.some.inj ((h'.given m hm f hf hfm.symm).symm.trans (h.given m hm f hf hfm.symm))
  · rw [h'.kept f hf hname, h.kept f hf hname]

theorem Valid.tail {m : String × Json} (h : Valid (m :: ms)) : Valid ms where
  once := h.once.sublist (((List.sublist_cons_self m ms).map Prod.fst).filter _)
  typed n hn := h.typed n (List.mem_cons_of_mem m hn)

theorem Valid.fresh (hf : f ∈ fields) (h : Valid ((f.name, j) :: ms)) :
    f.name ∉ ms.map Prod.fst := by
  have hmem : f.name ∈ fields.map Field.name := List.mem_map_of_mem hf
  have honce := h.once
  rw [List.map_cons, List.filter_cons_of_pos (by simpa using hmem), List.nodup_cons] at honce
  exact fun hname => honce.1 (List.mem_filter.mpr ⟨hname, by simpa using hmem⟩)

theorem Replaces.unknown (hname : ∀ f ∈ fields, f.name ≠ name) (h : Replaces ms p q) :
    Replaces ((name, j) :: ms) p q := by
  refine ⟨fun m hm f hf hfm => ?_,
    fun f hf hfms => h.kept f hf fun hmem => hfms (List.mem_cons_of_mem name hmem)⟩
  rcases List.mem_cons.mp hm with rfl | hm
  · exact absurd hfm (hname f hf)
  · exact h.given m hm f hf hfm

theorem Replaces.set (hf : f ∈ fields) (hset : f.decode? p j = some p')
    (hfresh : f.name ∉ ms.map Prod.fst) (h : Replaces ms p' q) :
    Replaces ((f.name, j) :: ms) p q := by
  obtain ⟨n, -, hlawful⟩ := lawful_of_mem hf
  refine ⟨fun m hm g hg hname => ?_, fun g hg hname => ?_⟩
  · rcases List.mem_cons.mp hm with rfl | hm
    · obtain rfl := eq_of_name_eq hg hf hname
      rw [← hlawful.reads p j, hset, h.kept g hg hfresh]
      rfl
    · exact h.given m hm g hg hname
  · simp only [List.map_cons, List.mem_cons, not_or] at hname
    rw [h.kept g hg hname.2, encode_of_ne hf hg hname.1 hset]

theorem ofMembers?_replaces (hms : Valid ms) (seen : List String)
    (hseen : ∀ name ∈ seen, name ∉ ms.map Prod.fst) (p : Policy) :
    ∃ q, ofMembers? seen p (ms.map fun m => (some m.1, m.2)) = some q ∧ Replaces ms p q := by
  induction ms generalizing seen p with
  | nil => exact ⟨p, rfl, fun m hm => absurd hm List.not_mem_nil, fun f hf _ => rfl⟩
  | cons m ms ih =>
      obtain ⟨name, j⟩ := m
      have hrest : ∀ name ∈ seen, name ∉ ms.map Prod.fst :=
        fun n hn h => hseen n hn (List.mem_cons_of_mem _ h)
      rw [List.map_cons, ofMembers?]
      cases hname : field? name with
      | none =>
          have hnone : ∀ f ∈ fields, f.name ≠ name := by
            rintro f hf rfl
            rw [field?_name hf] at hname
            cases hname
          obtain ⟨q, hq, hreplaces⟩ := ih hms.tail seen hrest p
          exact ⟨q, hq, hreplaces.unknown hnone⟩
      | some f =>
          obtain ⟨hf, rfl⟩ := field?_eq_some hname
          have hfresh := hms.fresh hf
          have hunseen : f.name ∉ seen := fun h => hseen f.name h List.mem_cons_self
          obtain ⟨n, -, hlawful⟩ := lawful_of_mem hf
          have hvalue := hms.typed _ List.mem_cons_self f hf rfl
          rw [← hlawful.reads p j, Option.isSome_map] at hvalue
          obtain ⟨p', hp'⟩ := Option.isSome_iff_exists.mp hvalue
          obtain ⟨q, hq, hreplaces⟩ := ih hms.tail (f.name :: seen)
            (List.forall_mem_cons.mpr ⟨hfresh, hrest⟩) p'
          exact ⟨q, by simpa [hunseen, hp'] using hq, hreplaces.set hf hp' hfresh⟩

/-- Every policy is read back from what it is written as. A field takes the scalars that some policy
has there, each as it is; and every text of an object with values for some fields, each given once,
is read as the one policy that has these values there and the default elsewhere. -/
theorem survives_json : (∀ p : Policy, read? p.write = some p) ∧
    (∀ f ∈ fields, ∀ s t : Scalar, f.value? s.toJson = some t ↔
      t = s ∧ ∃ p : Policy, f.encode p = s) ∧
    ∀ (text : String) (ms : List (String × Json)),
      Json.Spells text.toList (.value (.object (ms.map fun m => (some m.1, m.2)))) → Valid ms →
      ∃ q, read? text = some q ∧ Replaces ms allman q ∧ ∀ q', Replaces ms allman q' → q' = q := by
  refine ⟨read?_write, fun f hf s t => Field.value?_toJson hf, fun text ms htext hms => ?_⟩
  obtain ⟨q, hq, hreplaces⟩ :=
    ofMembers?_replaces hms [] (fun _ h => absurd h List.not_mem_nil) allman
  exact ⟨q, by rw [read?, htext.read?]; exact hq, hreplaces, fun q' => hreplaces.unique⟩

/-- Two fields, the later one first, with a member of no field between them. -/
theorem survives_json_two_fields :
    read? (Json.writeObject [("max_string_length", .natural 5), ("theme", .null),
      ("statement_brace_style", .string "end_of_line")]) =
      some { allman with statementBrace := .endOfLine, stringLimit := some 5 } := by
  have hspells := Json.spells_writeObject [("max_string_length", .natural 5), ("theme", .null),
    ("statement_brace_style", .string "end_of_line")]
  obtain ⟨q, hq, -, hunique⟩ :=
    survives_json.2.2 _ [("max_string_length", .natural 5), ("theme", .null),
    ("statement_brace_style", .string "end_of_line")] hspells ⟨by decide +kernel, by decide +kernel⟩
  rw [hq, hunique { allman with statementBrace := .endOfLine, stringLimit := some 5 }
    ⟨by decide +kernel, by decide +kernel⟩]

end Policy

end TreeScribe
