import TreeScribe.Proofs.Layout.Nested
import TreeScribe.Proofs.Render.Placed

namespace TreeScribe

namespace Tree

/-- Nodes that take the place of their only word. -/
def IsLeaf (t : Tree) (i : NodeId) : Prop :=
  (t.kind i = .expression .nullRef ∨ t.kind i = .expression .thisRef ∨
      t.kind i = .expression .baseRef ∨
    (∃ v, t.kind i = .expression (.literal v)) ∨ ∃ word, t.kind i = .type (.primitive word)) ∧
  (t.role i).isToken = false ∧ t.role i ≠ .modifier

end Tree

namespace Recording

variable {W : Type}

def outline (w : Recording W) : List (NodeId × Extent × List Entry) :=
  w.opened.map fun o => (o.node, o.extent, o.entries)

/-- What a word or child adds to the record of its node, if `r` is the place of the last word by
then. -/
def entryOf (e : Extent) (r : Option TextRange) : Call → Option Entry
  | .start j | .identifier j => some (.node j)
  | .keyword (.token text) _ => r.map (.token (.token text))
  | .keyword .modifier word => (Modifier.ofKeyword? word).bind fun m =>
      r.map (.modifier (.single m))
  | .token role _ => if e = .empty ∨ role.isToken = false then none else r.map (.token role)
  | _ => none

def rangeAt [Sink W] (t : Tree) (w : W) (s : Spot) : Option TextRange :=
  Sink.lastRange (Sink.putAll t w s.through)

def record [Sink W] (t : Tree) (w : W) (i : NodeId) (spots : List Spot) : List Entry :=
  spots.filterMap fun s => entryOf (.ofKind (t.kind i)) (rangeAt t w s) s.call

variable {t : Tree} {i j x : NodeId} {e : Extent} {es : List Entry}
  {outer : List (NodeId × Extent × List Entry)}
  {r : TextRange} {c : Call} {w w' : Recording W}

structure Adds (i : NodeId) (e : Extent) (es : List Entry)
    (outer : List (NodeId × Extent × List Entry)) (c : Call) (w w' : Recording W) : Prop where
  outline : w'.outline = (i, e, es) :: outer
  plan : w'.plan = w.plan
  located : ∃ new, w'.located = new ++ w.located ∧ ∀ y ∈ new, y.1 = i ∨ c = .identifier y.1

theorem adds_refl (ho : w.outline = (i, e, es) :: outer) : Adds i e es outer c w w :=
  ⟨ho, rfl, [], rfl, by simp⟩

theorem Adds.trans {es' : List Entry} {w'' : Recording W} (h : Adds i e es outer c w w')
    (h' : Adds i e es' outer c w' w'') : Adds i e es' outer c w w'' := by
  obtain ⟨new, hl, hn⟩ := h.located
  obtain ⟨new', hl', hn'⟩ := h'.located
  refine ⟨h'.outline, h'.plan.trans h.plan,
    new' ++ new, by rw [hl', hl, List.append_assoc], fun y hy => ?_⟩
  rcases List.mem_append.mp hy with hy | hy
  · exact hn' y hy
  · exact hn y hy

theorem outline_note : (w.note r).outline = w.outline := by
  have hn (os : List OpenNode) :
      (noteFirst r.start os).map (fun o => (o.node, o.extent, o.entries)) =
        os.map fun o => (o.node, o.extent, o.entries) := by
    induction os with
    | nil => rfl
    | cons o os ih =>
        unfold noteFirst
        split
        · rfl
        · rw [List.map_cons, List.map_cons, ih]
  exact hn w.opened

theorem adds_entry {a : Entry} (ho : w.outline = (i, e, es) :: outer) :
    Adds i e (a :: es) outer c w (w.addEntry a) := by
  obtain ⟨inner, opened, plan, located⟩ := w
  cases opened with
  | nil => cases ho
  | cons o os =>
      cases ho
      exact ⟨rfl, rfl, [], rfl, by simp⟩

theorem adds_locate {x : NodeId} (ho : w.outline = (i, e, es) :: outer)
    (hx : x = i ∨ c = .identifier x) :
    Adds i e es outer c w (w.locate x r) := ⟨ho, rfl, [(x, r)], rfl, by simpa using hx⟩

theorem locateOpen_eq (ho : w.outline = (i, e, es) :: outer) : w.locateOpen r = w.locate i r := by
  obtain ⟨inner, opened, plan, located⟩ := w
  cases opened with
  | nil => cases ho
  | cons o os =>
      cases ho
      rfl

theorem isInside_eq {x : Extent} (ho : w.outline = (i, e, es) :: outer) :
    w.isInside x = decide (e = x) := by
  obtain ⟨inner, opened, plan, located⟩ := w
  cases opened with
  | nil => cases ho
  | cons o os =>
      cases ho
      rfl

theorem adds_locateIf {x : Extent} (ho : w.outline = (i, e, es) :: outer) :
    Adds i e es outer c w (w.locateIf x r) := by
  unfold locateIf
  split
  · rw [locateOpen_eq ho]
    exact adds_locate ho (.inl rfl)
  · exact adds_refl ho

theorem entryOf_keyword {o : Option TextRange} {role : Role} {text : String}
    (hr : ∀ word, role = .token word → False) (hm : role = .modifier → False) :
    entryOf e o (.keyword role text) = none := by
  unfold entryOf
  split <;> simp_all

theorem adds_recordToken (ho : w.outline = (i, e, es) :: outer) (hs : ∀ j, c ≠ .start j)
    (hn : c ≠ .identifier .null) :
    Adds i e ((entryOf e (some r) c).toList ++ es) outer c w (w.recordToken r c) := by
  unfold recordToken
  split
  · rename_i j
    have hj : j ≠ .null := fun hj => hn (hj ▸ rfl)
    rw [if_neg hj]
    have ha := adds_entry (c := .identifier j) (a := .node j) ho
    exact ha.trans (adds_locate ha.outline (.inr rfl))
  · exact adds_entry ho
  · rename_i word
    cases hm : Modifier.ofKeyword? word with
    | none => simpa [entryOf, hm] using adds_refl ho
    | some m => simpa [entryOf, hm] using adds_entry ho
  · rename_i hr hm
    rw [entryOf_keyword hr hm]
    exact adds_locateIf ho
  · rename_i hr hm
    rw [entryOf_keyword hr hm]
    exact adds_locateIf ho
  · rename_i role text
    rw [isInside_eq ho, locateOpen_eq ho]
    by_cases he : e = .empty
    · simpa [entryOf, he] using adds_locate ho (.inl rfl)
    · by_cases hr : role.isToken = true
      · simpa [entryOf, he, hr] using adds_entry ho
      · simpa [entryOf, he, hr] using adds_refl ho
  · split
    · rw [locateOpen_eq ho]
      exact adds_locate ho (.inl rfl)
    · exact adds_locateIf ho
  · exact adds_locateIf ho
  · rename_i hid htok hmod hthis hbase htoken hlit hprim
    have he : entryOf e (some r) c = none := by
      cases c with
      | start j => exact absurd rfl (hs j)
      | identifier j => exact absurd rfl (hid j)
      | keyword role text =>
          exact entryOf_keyword (fun text' h => htok text' text (h ▸ rfl))
            (fun h => hmod text (h ▸ rfl))
      | token role text => exact absurd rfl (htoken role text)
      | _ => rfl
    rw [he]
    exact adds_refl ho

theorem adds_recordUnplaced (ho : w.outline = (i, e, es) :: outer) (hs : ∀ j, c ≠ .start j)
    (hn : c ≠ .identifier .null) :
    Adds i e ((entryOf e none c).toList ++ es) outer c w (w.recordUnplaced c) := by
  cases c with
  | start j => exact absurd rfl (hs j)
  | identifier j =>
      have hj : j ≠ .null := fun hj => hn (hj ▸ rfl)
      simp only [recordUnplaced, if_neg hj]
      exact adds_entry ho
  | keyword role word =>
      have he : entryOf e none (.keyword role word) = none := by
        unfold entryOf
        split <;> simp_all
      rw [he]
      exact adds_refl ho
  | token role text =>
      have he : entryOf e none (.token role text) = none := by simp [entryOf]
      rw [he]
      exact adds_refl ho
  | _ => exact adds_refl ho

theorem recordToken_keyword {role : Role} (hr : role.isToken = false) (hm : role ≠ .modifier) :
    w.recordToken r (.keyword role "this") = w.locateIf .thisRef r ∧
      w.recordToken r (.keyword role "base") = w.locateIf .baseRef r := by
  cases role with
  | token text => cases hr
  | modifier => exact absurd rfl hm
  | _ => exact ⟨rfl, rfl⟩

variable [Sink W]

theorem adds_put (ho : w.outline = (i, e, es) :: outer) (hs : ∀ j, c ≠ .start j)
    (hf : ∀ j, c ≠ .finish j) (hn : c ≠ .identifier .null) :
    Adds i e ((entryOf e (Sink.lastRange (Sink.put t w.inner c)) c).toList ++ es)
      outer c w (Sink.put t w c) := by
  have hpassed : Adds i e es outer c w { w with inner := Sink.put t w.inner c } :=
    ⟨ho, rfl, [], rfl, by simp⟩
  have hnote (r : TextRange) :
      Adds i e es outer c w (Recording.note { w with inner := Sink.put t w.inner c } r) :=
    ⟨outline_note.trans ho, rfl, [], rfl, by simp⟩
  change Adds i e _ outer c w (put t w c)
  unfold put
  cases c with
  | start j => exact absurd rfl (hs j)
  | finish j => exact absurd rfl (hf j)
  | identifier | keyword | token | literal | primitiveType =>
      simp only
      cases hr : Sink.lastRange (Sink.put t w.inner _) with
      | some r => exact (hnote r).trans (adds_recordToken (hnote r).outline hs hn)
      | none => exact hpassed.trans (adds_recordUnplaced hpassed.outline hs hn)
  | special k =>
      cases k with
      | comment kind content =>
          simp only
          split
          · exact (hnote _).trans (adds_locateIf (hnote _).outline)
          · exact hpassed
      | directive => exact hpassed
  | space | indent | unindent | newLine => exact hpassed

theorem put_start : (Sink.put t w (.start j)).outline =
      (j, .ofKind (t.kind j), []) ::
      w.outline.modifyHead (fun o => (o.1, o.2.1, .node j :: o.2.2)) ∧
    (Sink.put t w (.start j)).plan = w.plan ∧ (Sink.put t w (.start j)).located = w.located := by
  obtain ⟨inner, opened, plan, located⟩ := w
  cases opened <;> exact ⟨rfl, rfl, rfl⟩

theorem put_finish (ho : w.outline = (i, e, es) :: outer) :
    (Sink.put t w (.finish j)).outline = outer ∧
    (Sink.put t w (.finish j)).plan = (i, es.reverse) :: w.plan ∧
      ∃ new, (Sink.put t w (.finish j)).located = new ++ w.located ∧ ∀ y ∈ new, y.1 = i ∧
      e = .tokens := by
  obtain ⟨inner, opened, plan, located⟩ := w
  cases opened with
  | nil => cases ho
  | cons o os =>
      cases ho
      refine ⟨rfl, rfl, ?_⟩
      cases hx : extentOf o (Sink.lastRange inner) with
      | none => exact ⟨[], by simp [Sink.put, put, finished, hx], by simp⟩
      | some r =>
          refine ⟨[(o.node, r)], by simp [Sink.put, put, finished, hx], fun y hy => ?_⟩
          rw [List.mem_singleton.mp hy]
          refine ⟨rfl, ?_⟩
          unfold extentOf at hx
          split at hx
          · assumption
          · cases hx

theorem located_put_identifier (hn : Call.identifier j ≠ .identifier .null)
    (hr : Sink.lastRange (Sink.put t w.inner (.identifier j)) = some r) :
    (Sink.put t w (.identifier j)).located = (j, r) :: w.located := by
  have hj : j ≠ .null := fun hj => hn (hj ▸ rfl)
  have ha (v : Recording W) (a : Entry) : (v.addEntry a).located = v.located := by
    unfold addEntry
    split <;> rfl
  change (put t w (.identifier j)).located = _
  simp only [put, hr, recordToken, if_neg hj, locate, ha]
  rfl

theorem located_put_word (ho : w.outline = (i, .ofKind (t.kind i), es) :: outer) (hi : t.IsLeaf i)
    (hc : t.wordOf? i = some c) (hr : Sink.lastRange (Sink.put t w.inner c) = some r) :
    (Sink.put t w c).located = (i, r) :: w.located := by
  obtain ⟨hk, hrt, hrm⟩ := hi
  have hn : (Recording.note { w with inner := Sink.put t w.inner c } r).outline =
    (i, .ofKind (t.kind i), es) :: outer :=
    outline_note.trans ho
  have hlocate {x : Extent} (hx : Extent.ofKind (t.kind i) = x) :
      ((Recording.note { w with inner := Sink.put t w.inner c } r).locateIf x r).located = (i, r) ::
        w.located := by
    rw [locateIf, isInside_eq hn, decide_eq_true hx, if_pos rfl, locateOpen_eq hn]
    rfl
  change (put t w c).located = _
  unfold Tree.wordOf? at hc
  rcases hk with hk | hk | hk | ⟨v, hk⟩ | ⟨word, hk⟩ <;> simp only [hk, Option.some.injEq] at hc
    <;> subst hc <;>
    simp only [put, hr]
  · rw [recordToken, isInside_eq hn, hk]
    exact hlocate (by rw [hk]; rfl)
  · rw [(recordToken_keyword hrt hrm).1]
    exact hlocate (by rw [hk]; rfl)
  · rw [(recordToken_keyword hrt hrm).2]
    exact hlocate (by rw [hk]; rfl)
  · rw [recordToken, isInside_eq hn, hk]
    exact (congrArg Recording.located (locateOpen_eq hn)).trans rfl
  · exact hlocate (by rw [hk]; rfl)

variable {w₀ : W} {before l : List Call} {spots inner : List Spot} {plan under : Plan}

/-- From `w` to `w'`, the node `i` was filled: its record has grown, and those of the nodes started
are in the plan. Names and words have their places, and no place of another node has changed. -/
structure Recorded (t : Tree) (w₀ : W) (i : NodeId) (spots : List Spot) (plan : Plan)
    (w w' : Recording W) : Prop where
  outline {es : List Entry} {outer : List (NodeId × Extent × List Entry)}
    (ho : w.outline = (i, .ofKind (t.kind i), es) :: outer) :
    w'.outline = (i, .ofKind (t.kind i), (record t w₀ i spots).reverse ++ es) :: outer
  planned : w'.plan = (plan.map fun e => (e.1, record t w₀ e.1 e.2)).reverse ++ w.plan
  frame {x : NodeId} (hx : x ≠ i) (hb : ∀ j ∈ nodesOf spots, ¬ t.Below j x) :
    w'.located.lookup x = w.located.lookup x
  names {e : NodeId × List Spot} (he : e ∈ (i, spots) :: plan) {s : Spot} (hs : s ∈ e.2)
    {j : NodeId} (hj : s.call = .identifier j) {r : TextRange} (hr : rangeAt t w₀ s = some r) :
    w'.located.lookup j = some r
  words {e : NodeId × List Spot} (he : e ∈ plan) (hl : t.IsLeaf e.1) {s : Spot} (hs : s ∈ e.2)
    (hc : t.IsWord e.1 s.call) {r : TextRange} (hr : rangeAt t w₀ s = some r) :
    w'.located.lookup e.1 = some r

theorem lookup_append_of_notMem {new old : List (NodeId × TextRange)} (h : ∀ y ∈ new, y.1 ≠ x) :
    (new ++ old).lookup x = old.lookup x := by
  induction new with
  | nil => rfl
  | cons y new ih =>
      have hy : (x == y.1) = false := beq_eq_false_iff_ne.mpr (h y List.mem_cons_self).symm
      rw [List.cons_append, List.lookup_cons, hy]
      exact ih fun z hz => h z (List.mem_cons_of_mem _ hz)

theorem inner_putAll {l : List Call} (hw : w.inner = Sink.putAll t w₀ before) :
    (Sink.putAll t w l).inner = Sink.putAll t w₀ (before ++ l) := by
  rw [Sink.putAll_append, ← hw]
  clear hw
  induction l generalizing w with
  | nil => rfl
  | cons c l ih => rw [Sink.putAll_cons, Sink.putAll_cons, ih, respects_inner.put]

theorem wordOf?_ne (hc : t.wordOf? j = some c) :
    (∀ i, c ≠ .start i) ∧ (∀ i, c ≠ .finish i) ∧ ∀ i, c ≠ .identifier i := by
  unfold Tree.wordOf? at hc
  split at hc <;> cases hc <;> exact ⟨nofun, nofun, nofun⟩

theorem rangeAt_eq {s : Spot} :
    rangeAt t w₀ s = Sink.lastRange (Sink.put t (Sink.putAll t w₀ s.before) s.call) := by
  rw [rangeAt, Spot.through, Sink.putAll_append]
  rfl

theorem record_singleton {s : Spot} :
    record t w₀ i [s] = (entryOf (.ofKind (t.kind i)) (rangeAt t w₀ s) s.call).toList := by
  rw [record, List.filterMap_cons]
  cases entryOf (.ofKind (t.kind i)) (rangeAt t w₀ s) s.call <;> rfl

namespace Recorded

theorem nil : Recorded t w₀ i [] [] w w :=
  ⟨fun ho => ho, rfl, fun _ _ => rfl, fun he => (List.mem_singleton.mp he ▸ nofun), nofun⟩

theorem blank (hc : c.isBlank = true) : Recorded t w₀ i [] [] w (Sink.put t w c) := by
  cases c with
  | space | indent | unindent | newLine =>
      exact ⟨fun ho => ho, rfl, fun _ _ => rfl, fun he => (List.mem_singleton.mp he ▸ nofun), nofun⟩
  | _ => cases hc

theorem opened (h : Recorded t w₀ i spots plan w w')
    (ho : ∃ es outer, w.outline = (i, .ofKind (t.kind i), es) :: outer) :
    ∃ es outer, w'.outline = (i, .ofKind (t.kind i), es) :: outer := by
  obtain ⟨es, outer, ho⟩ := ho
  exact ⟨_, _, h.outline ho⟩

theorem trans {before before' l l' : List Call} {spots' : List Spot} {plan' : Plan}
    {w'' : Recording W} (ht : t.WellFormed) (hf : Fills t i before spots plan l)
    (hf' : Fills t i before' spots' plan' l') (hn : (nodesOf (spots ++ spots')).Nodup)
    (h : Recorded t w₀ i spots plan w w') (h' : Recorded t w₀ i spots' plan' w' w'') :
    Recorded t w₀ i (spots ++ spots') (plan ++ plan') w w'' := by
  rw [nodesOf_append] at hn
  -- what was placed below a child of the first stretch is not placed again
  have hkeep {x k : NodeId} (hk : k ∈ nodesOf spots) (hb : t.Below k x) :
      w''.located.lookup x = w'.located.lookup x := by
    refine h'.frame ?_ fun k' hk' hb' => ?_
    · rintro rfl
      exact ht.not_below_of_parent (hf.parent hk) hb
    · exact (List.nodup_append.mp hn).2.2 k hk k' hk'
        (ht.eq_of_below (hf.parent hk) (hf'.parent hk') hb hb')
  refine ⟨fun ho => ?_, ?_, fun hx hb => ?_, fun {e} he {s} hs {j} hj {r} hr => ?_,
    fun {e} he hl {s} hs hc {r} hr => ?_⟩
  · rw [h'.outline (h.outline ho), record, record, record, List.filterMap_append,
      List.reverse_append, List.append_assoc]
  · rw [h'.planned, h.planned, List.map_append, List.reverse_append, List.append_assoc]
  · rw [nodesOf_append] at hb
    rw [h'.frame hx fun j hj => hb j (List.mem_append_right _ hj),
      h.frame hx fun j hj => hb j (List.mem_append_left _ hj)]
  · have hfirst {e : NodeId × List Spot} (he : e ∈ (i, spots) :: plan) (hs : s ∈ e.2) :
        w''.located.lookup j = some r := by
      obtain ⟨k, hk, hb⟩ := hf.below_of_name he hs hj
      rw [hkeep hk hb]
      exact h.names he hs hj hr
    rcases List.mem_cons.mp he with rfl | he
    · rcases List.mem_append.mp hs with hs | hs
      · exact hfirst List.mem_cons_self hs
      · exact h'.names List.mem_cons_self hs hj hr
    · rcases List.mem_append.mp he with he | he
      · exact hfirst (List.mem_cons_of_mem _ he) hs
      · exact h'.names (List.mem_cons_of_mem _ he) hs hj hr
  · rcases List.mem_append.mp he with he | he
    · obtain ⟨k, hk, hb⟩ := hf.under he
      rw [hkeep hk hb]
      exact h.words he hl hs hc hr
    · exact h'.words he hl hs hc hr

theorem put {s : Spot} (hs : ∀ j, s.call ≠ .start j) (hf : ∀ j, s.call ≠ .finish j)
    (hn : s.call ≠ .identifier .null) (hw : w.inner = Sink.putAll t w₀ s.before)
    (ho : ∃ es outer, w.outline = (i, .ofKind (t.kind i), es) :: outer) :
    Recorded t w₀ i [s] [] w (Sink.put t w s.call) := by
  have hr : Sink.lastRange (Sink.put t w.inner s.call) = rangeAt t w₀ s := by rw [hw, rangeAt_eq]
  obtain ⟨es, outer, ho⟩ := ho
  have ha := adds_put (t := t) ho hs hf hn
  obtain ⟨new, hl, hnew⟩ := ha.located
  refine ⟨fun ho' => ?_, ha.plan, fun {x} hx hb => ?_,
    fun {e} he {s'} hs' {j} hj {r} hr' => ?_, nofun⟩
  · rw [(adds_put (t := t) ho' hs hf hn).outline, hr, record_singleton]
    cases entryOf (.ofKind (t.kind i)) (rangeAt t w₀ s) s.call <;> rfl
  · rw [hl]
    refine lookup_append_of_notMem fun y hy hyx => ?_
    rcases hnew y hy with hi | hc
    · exact hx (hyx.symm.trans hi)
    · exact hb y.1 (mem_nodesOf.mpr ⟨s, by simp, by rw [hc]; rfl⟩) (hyx ▸ .self)
  · cases List.mem_singleton.mp he
    cases List.mem_singleton.mp hs'
    rw [hj] at hr hn ⊢
    rw [located_put_identifier hn (hr.trans hr'), List.lookup_cons, beq_self_eq_true]

theorem node {m : List Call} (ht : t.WellFormed)
    (hb : Body t j (before ++ [.start j]) inner under m) {w₂ : Recording W}
    (h : Recorded t w₀ j inner under (Sink.put t w (.start j)) w₂)
    (hword : t.IsLeaf j → ∀ s ∈ inner, t.IsWord j s.call → ∀ r, rangeAt t w₀ s = some r →
      w₂.located.lookup j = some r) :
    Recorded t w₀ i [⟨before, .start j⟩] (under ++ [(j, inner)]) w (Sink.put t w₂ (.finish j)) := by
  obtain ⟨hstart, hplan, hlocated⟩ := put_start (t := t) (w := w) (j := j)
  have ho := h.outline hstart
  rw [List.append_nil] at ho
  obtain ⟨hfinish, hplan', new, hl, hnew⟩ := put_finish (t := t) (j := j) ho
  have hkeep {x : NodeId} (hx : x ≠ j) :
      (Sink.put t w₂ (.finish j)).located.lookup x = w₂.located.lookup x := by
    rw [hl]
    exact lookup_append_of_notMem fun y hy hyx => hx (hyx.symm.trans (hnew y hy).1)
  refine ⟨fun ho => ?_, ?_, fun {x} _ hx => ?_, fun {e} he {s} hs {x} hj {r} hr => ?_,
    fun {e} he hl' {s} hs hc {r} hr => ?_⟩
  · rw [hfinish, ho, record_singleton]
    rfl
  · rw [hplan', h.planned, hplan, List.map_append, List.reverse_append, List.reverse_reverse]
    rfl
  · have hx : ¬ t.Below j x := hx j (by simp [nodesOf, Call.node?])
    have hxj : x ≠ j := by
      rintro rfl
      exact hx .self
    rw [hkeep hxj, h.frame hxj fun k hk hkx =>
      hx ((Tree.Below.self.child (hb.parent hk)).trans hkx), hlocated]
  · have he : e ∈ (j, inner) :: under := by
      rcases List.mem_cons.mp he with rfl | he
      · cases List.mem_singleton.mp hs
        cases hj
      · simpa [or_comm] using he
    rw [hkeep (hb.name_ne ht he hs hj)]
    exact h.names he hs hj hr
  · rcases List.mem_append.mp he with he | he
    · have hne : e.1 ≠ j := fun hej =>
        (List.nodup_cons.mp (hb.nodup_plan ht)).1 (List.mem_map.mpr ⟨e, he, hej⟩)
      rw [hkeep hne]
      exact h.words he hl' hs hc hr
    · cases List.mem_singleton.mp he
      have hnone : new = [] := by
        refine List.eq_nil_iff_forall_not_mem.mpr fun y hy => ?_
        have hk := (hnew y hy).2
        rcases hl'.1 with h | h | h | ⟨v, h⟩ | ⟨v, h⟩ <;> simp [h, Extent.ofKind] at hk
      rw [hl, hnone]
      exact hword hl' s hs hc r hr

theorem leaf (ht : t.WellFormed) (hc : t.IsWord j c) (hw : w.inner = Sink.putAll t w₀ before) :
    Recorded t w₀ i [⟨before, .start j⟩] [(j, [⟨before ++ [.start j], c⟩])] w
      (Sink.putAll t w [.start j, c, .finish j]) := by
  have hstart : (Sink.put t w (.start j)).inner = Sink.putAll t w₀ (before ++ [.start j]) :=
    inner_putAll (l := [.start j]) hw
  obtain ⟨hs, hf, hn⟩ := wordOf?_ne hc.2
  have hbody : Body t j (before ++ [.start j]) [⟨before ++ [.start j], c⟩] [] [c] := .word hc
  refine node ht hbody (put hs hf (hn _) hstart ⟨_, _, put_start.1⟩) fun hl s hs hc' r hr => ?_
  cases List.mem_singleton.mp hs
  rw [rangeAt_eq, ← hstart] at hr
  rw [located_put_word put_start.1 hl hc.2 hr, List.lookup_cons, beq_self_eq_true]

/-- A node of words and children never consists of the word that would place it. -/
theorem not_isWord_of_fills {m : List Call} (hm : Fills t j before inner under m)
    (hl : t.IsLeaf j) {s : Spot} (hs : s ∈ inner) : ¬ t.IsWord j s.call := by
  rintro ⟨-, hc⟩
  obtain ⟨hk, hrt, hrm⟩ := hl
  rcases hm.spot_cases hs with hsays | ⟨k, -, hk⟩
  · obtain ⟨before, c⟩ := s
    unfold Tree.wordOf? at hc
    generalize t.role j = r at hc hrt hrm
    cases hsays with
    | keyword =>
        rcases hk with hk | hk | hk | ⟨v, hk⟩ | ⟨v, hk⟩ <;> simp [hk] at hc
          <;> simp [hc.1, Role.isToken] at hrt
    | modifier =>
        rcases hk with hk | hk | hk | ⟨v, hk⟩ | ⟨v, hk⟩ <;> simp [hk] at hc <;> exact hrm hc.1
    | token | name => rcases hk with hk | hk | hk | ⟨v, hk⟩ | ⟨v, hk⟩ <;> simp [hk] at hc
  · exact (wordOf?_ne hc).1 k hk

theorem composite {m : List Call} (ht : t.WellFormed) (hk : t.IsComposite j)
    (hn : (nodesOf inner).Nodup) (hm : Fills t j (before ++ [.start j]) inner under m)
    (h : Recorded t w₀ j inner under (Sink.put t w (.start j))
      (Sink.putAll t (Sink.put t w (.start j)) m)) :
    Recorded t w₀ i [⟨before, .start j⟩] (under ++ [(j, inner)]) w
      (Sink.putAll t w (.start j :: (m ++ [.finish j]))) := by
  rw [Sink.putAll_cons, Sink.putAll_append]
  exact node ht (.composite hk hn hm) h fun hl s hs hc => absurd hc (not_isWord_of_fills hm hl hs)

end Recorded

end Recording

/-- A recording notes what fills a node. -/
theorem Fills.recorded {W : Type} [Sink W] {t : Tree} {w₀ : W} {w : Recording W} {i : NodeId}
    {before l : List Call} {spots : List Spot} {plan : Plan} (ht : t.WellFormed)
    (h : Fills t i before spots plan l) (hn : (nodesOf spots).Nodup)
    (hw : w.inner = Sink.putAll t w₀ before)
    (ho : ∃ es outer, w.outline = (i, .ofKind (t.kind i), es) :: outer) :
    Recording.Recorded t w₀ i spots plan w (Sink.putAll t w l) := by
  induction h generalizing w with
  | nil => exact .nil
  | @blank i before l spots plan c hc h ih =>
      have hfirst : Fills t i before [] [] [c] := .blank hc .nil
      have hr : Recording.Recorded t w₀ i [] [] w (Sink.put t w c) := .blank hc
      exact hr.trans ht hfirst h hn (ih hn (Recording.inner_putAll (l := [c]) hw) (hr.opened ho))
  | @word i before l spots plan c hc h ih =>
      have hfirst : Fills t i before [⟨before, c⟩] [] [c] := .word hc .nil
      have hname : c ≠ .identifier .null := by
        rintro rfl
        exact ht.ne_null (hfirst.parent (mem_nodesOf.mpr ⟨_, List.mem_singleton_self _, rfl⟩)) rfl
      have hr : Recording.Recorded t w₀ i [⟨before, c⟩] [] w (Sink.put t w c) :=
        .put (s := ⟨before, c⟩) (fun _ => hc.ne_start) (fun _ => hc.ne_finish) hname hw ho
      exact hr.trans ht hfirst h hn (ih (List.nodup_append.mp (nodesOf_cons ▸ hn)).2.1
        (Recording.inner_putAll (l := [c]) hw) (hr.opened ho))
  | @leaf i j before l spots plan c hj hc h ih =>
      have hfirst : Fills t i before [⟨before, .start j⟩] [(j, [⟨before ++ [.start j], c⟩])]
        [.start j, c, .finish j] :=
        .leaf hj hc .nil
      have hr := Recording.Recorded.leaf (i := i) ht hc hw
      exact hr.trans ht hfirst h hn (ih (List.nodup_append.mp (nodesOf_cons ▸ hn)).2.1
        (Recording.inner_putAll (l := [.start j, c, .finish j]) hw) (hr.opened ho))
  | @child i j before m l inner spots under plan hj hk hinner hm h ihm ih =>
      have hfirst : Fills t i before [⟨before, .start j⟩] (under ++ [(j, inner)])
        (.start j :: (m ++ [.finish j])) :=
        .child hj hk hinner hm .nil
      have hr := Recording.Recorded.composite (i := i) ht hk hinner hm
        (ihm hinner (Recording.inner_putAll (l := [.start j]) hw) ⟨_, _, Recording.put_start.1⟩)
      have hall := hr.trans ht hfirst h hn (ih (List.nodup_append.mp (nodesOf_cons ▸ hn)).2.1
        (Recording.inner_putAll (l := .start j :: (m ++ [.finish j])) hw) (hr.opened ho))
      simpa [Sink.putAll_nil, Sink.putAll_cons, Sink.putAll_append] using hall

theorem Body.recorded {W : Type} [Sink W] {t : Tree} {w₀ : W} {w : Recording W} {i j : NodeId}
    {before l : List Call} {spots : List Spot} {plan : Plan} (ht : t.WellFormed)
    (h : Body t j (before ++ [.start j]) spots plan l) (hw : w.inner = Sink.putAll t w₀ before) :
    Recording.Recorded t w₀ i [⟨before, .start j⟩] (plan ++ [(j, spots)]) w
      (Sink.putAll t w (.start j :: (l ++ [.finish j]))) := by
  cases h with
  | word hc => exact .leaf ht hc hw
  | composite hk hn hm =>
      exact .composite ht hk hn hm
        (hm.recorded ht hn (Recording.inner_putAll (l := [.start j]) hw)
          ⟨_, _, Recording.put_start.1⟩)

end TreeScribe
