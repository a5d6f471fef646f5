import TreeScribe.Proofs.Sink.Rising

namespace TreeScribe

def TextRange.Within (r r' : TextRange) : Prop :=
  r'.start.offset ≤ r.start.offset ∧ r.stop.offset ≤ r'.stop.offset

/-- A range lies between the place `first` and the end of the range `last`. -/
def TextRange.Between (r : TextRange) (first : Option Location) (last : Option TextRange) : Prop :=
  ∃ f l, first = some f ∧ last = some l ∧ f.offset ≤ r.start.offset ∧ r.stop.offset ≤ l.stop.offset

/-- A node below `x` is planned to say a word, or `x` is. -/
def Tree.Speaks (t : Tree) (plan : Plan) (x : NodeId) : Prop :=
  ∃ e ∈ plan, t.Below x e.1 ∧ ∃ s ∈ e.2, s.call.writesWord t = true

namespace Recording

variable {W : Type}

def firsts (w : Recording W) : List (Option Location) := w.opened.map (·.first)

def noteFirsts (l : Location) : List (Option Location) → List (Option Location)
  | [] => []
  | some f :: fs => some f :: fs
  | none :: fs => some l :: noteFirsts l fs

def noteAny (first : Option Location) (fs : List (Option Location)) : List (Option Location) :=
  match first with
  | some l => noteFirsts l fs
  | none => fs

variable {a b : Option Location} {fs : List (Option Location)} {r : TextRange} {c : Call}
  {w w' w'' : Recording W} {i j : NodeId} {e : Extent} {es : List Entry}
  {outer : List (NodeId × Extent × List Entry)} {t : Tree}

theorem noteAny_noteAny : noteAny b (noteAny a fs) = noteAny (a.or b) fs := by
  cases a with
  | none => rfl
  | some l =>
      cases b with
      | none => rfl
      | some l' =>
          cases fs with
          | nil => rfl
          | cons f fs => cases f <;> rfl

theorem firsts_note : (w.note r).firsts = noteFirsts r.start w.firsts := by
  have hos (os : List OpenNode) :
      (noteFirst r.start os).map (·.first) = noteFirsts r.start (os.map (·.first)) := by
    induction os with
    | nil => rfl
    | cons o os ih =>
        rw [noteFirst, List.map_cons]
        cases hf : o.first with
        | none => simp [noteFirsts, ih]
        | some f => simp [noteFirsts, hf]
  exact hos w.opened

structure Ranged (i : NodeId) (e : Extent) (c : Call) (r : TextRange)
    (w w' : Recording W) : Prop where
  firsts : w'.firsts = w.firsts
  located : ∃ new, w'.located = new ++ w.located ∧
    ∀ y ∈ new, y.2 = r ∧ (y.1 = i ∧ e ≠ .tokens ∨ c = .identifier y.1)

namespace Ranged

theorem refl : Ranged i e c r w w := ⟨rfl, [], rfl, by simp⟩

theorem addEntry {x : Entry} (h : Ranged i e c r w w') : Ranged i e c r w (w'.addEntry x) := by
  obtain ⟨inner, opened, plan, located⟩ := w'
  cases opened <;> exact ⟨h.firsts, h.located⟩

theorem locate {x : NodeId} (h : Ranged i e c r w w')
    (hx : x = i ∧ e ≠ .tokens ∨ c = .identifier x) : Ranged i e c r w (w'.locate x r) := by
  obtain ⟨new, hl, hnew⟩ := h.located
  exact ⟨h.firsts, (x, r) :: new, congrArg _ hl, List.forall_mem_cons.mpr ⟨⟨rfl, hx⟩, hnew⟩⟩

theorem locateOpen (ho : w.outline = (i, e, es) :: outer) (he : e ≠ .tokens) :
    Ranged i e c r w (w.locateOpen r) := by
  rw [locateOpen_eq ho]
  exact refl.locate (.inl ⟨rfl, he⟩)

theorem locateIf {x : Extent} (ho : w.outline = (i, e, es) :: outer) (hx : x ≠ .tokens) :
    Ranged i e c r w (w.locateIf x r) := by
  rw [Recording.locateIf, isInside_eq ho]
  split
  · rename_i he
    exact locateOpen ho fun hn => hx ((of_decide_eq_true he).symm.trans hn)
  · exact refl

theorem recordToken (ho : w.outline = (i, e, es) :: outer) :
    Ranged i e c r w (w.recordToken r c) := by
  unfold Recording.recordToken
  split
  · split
    · exact refl
    · exact refl.addEntry.locate (.inr rfl)
  · exact refl.addEntry
  · split
    · exact refl.addEntry
    · exact refl
  · exact locateIf ho nofun
  · exact locateIf ho nofun
  · rw [isInside_eq ho]
    split
    · rename_i he
      exact locateOpen ho fun hn => by rw [hn] at he; cases he
    · split
      · exact refl.addEntry
      · exact refl
  · rw [isInside_eq ho]
    split
    · rename_i he
      exact locateOpen ho fun hn => by rw [hn] at he; cases he
    · exact locateIf ho nofun
  · exact locateIf ho nofun
  · exact refl

end Ranged

variable [Sink W] {mark : W → Nat} {before before' l l' : List Call}
  {spots spots' inner : List Spot}
  {plan plan' under : Plan} {first first' : Option Location} {new new' : List (NodeId × TextRange)}

theorem firsts_start : (Sink.put t w (.start j)).firsts = none :: w.firsts := by
  obtain ⟨inner, opened, plan, located⟩ := w
  cases opened <;> rfl

theorem finish_ranges {f : Option Location} (ho : w.outline = (i, e, es) :: outer)
    (hf : w.firsts = f :: fs) :
    (Sink.put t w (.finish j)).firsts = fs ∧
      ∃ new, (Sink.put t w (.finish j)).located = new ++ w.located ∧
      (∀ y ∈ new, y.1 = i ∧ y.2.Between f (Sink.lastRange w.inner) ∧
        ∀ r : TextRange, r.Between f (Sink.lastRange w.inner) → r.Within y.2) ∧
      (e = .tokens → ∀ r : TextRange, r.Between f (Sink.lastRange w.inner) →
        ∃ r', (i, r') ∈ new) := by
  obtain ⟨inner, opened, plan, located⟩ := w
  cases opened with
  | nil => cases ho
  | cons o os =>
      obtain ⟨node, extent, first, entries⟩ := o
      cases ho
      cases hf
      refine ⟨rfl, ?_⟩
      cases hx : extentOf ⟨node, extent, first, entries⟩ (Sink.lastRange inner) with
      | none =>
          refine ⟨[], by simp [Sink.put, put, finished, hx], by simp, ?_⟩
          rintro rfl r ⟨f, l, rfl, hl, hstart, hstop⟩
          change Sink.lastRange inner = some l at hl
          rw [hl] at hx
          have hle := hstart.trans (r.ordered.trans hstop)
          simp [extentOf, hle] at hx
      | some r =>
          refine ⟨[(node, r)], by simp [Sink.put, put, finished, hx], ?_, fun _ _ _ => ⟨r, by simp⟩⟩
          rw [List.forall_mem_singleton]
          unfold extentOf at hx
          split at hx
          · rename_i f l he hf hl
            split at hx
            · cases hx
              refine ⟨rfl, ⟨f, l, hf, hl, Nat.le_refl _, Nat.le_refl _⟩, ?_⟩
              rintro r ⟨f', l', hf', hl', hstart, hstop⟩
              cases hf.symm.trans hf'
              cases hl.symm.trans hl'
              exact ⟨hstart, hstop⟩
            · cases hx
          · cases hx

theorem start_of_commentRange {start stop : Option Location}
    (hr : commentRange start stop = some r) : start = some r.start := by
  unfold commentRange at hr
  split at hr
  · split at hr
    · cases hr
      rfl
    · cases hr
  · cases hr

theorem comment_ranges (kind : CommentKind) (content : String)
    (ho : w.outline = (i, e, es) :: outer) :
    let w' := Sink.put t w (.special (.comment kind content))
    w'.firsts = w.firsts ∧ w'.located = w.located ∨
      ∃ l, Sink.location w.inner = some l ∧ w'.firsts = noteFirsts l w.firsts ∧
        ∃ new, w'.located = new ++ w.located ∧ ∀ y ∈ new, y.1 = i ∧ e = .error := by
  intro w'
  have hw' : w' = Recording.put t w (.special (.comment kind content)) := rfl
  simp only [Recording.put] at hw'
  split at hw'
  · rename_i r hr
    have hl : Sink.location w.inner = some r.start := start_of_commentRange hr
    have hnote : (Recording.note
        { w with inner := Sink.put t w.inner (.special (.comment kind content)) } r).outline =
        (i, e, es) :: outer := outline_note.trans ho
    rw [hw', locateIf, isInside_eq hnote]
    by_cases he : e = .error
    · rw [if_pos (decide_eq_true he), locateOpen_eq hnote]
      exact .inr ⟨r.start, hl, firsts_note, [(i, r)], rfl, by simpa using he⟩
    · rw [if_neg (by simpa using he)]
      exact .inr ⟨r.start, hl, firsts_note, [], rfl, by simp⟩
  · rw [hw']
    exact .inl ⟨rfl, rfl⟩

def Bounded (mark : W → Nat) (w : W) : Prop :=
  ∀ r, Sink.lastRange w = some r → r.stop.offset ≤ mark w

structure Advanced (mark : W → Nat) (w w' : W) : Prop where
  bounded : Bounded mark w'
  grows : mark w ≤ mark w'
  last {r : TextRange} (hr : Sink.lastRange w = some r) :
    ∃ r', Sink.lastRange w' = some r' ∧ r.stop.offset ≤ r'.stop.offset

namespace Advanced

variable {w w' w'' : W}

theorem refl (hb : Bounded mark w) : Advanced mark w w :=
  ⟨hb, Nat.le_refl _, fun hr => ⟨_, hr, Nat.le_refl _⟩⟩

theorem trans (h : Advanced mark w w') (h' : Advanced mark w' w'') : Advanced mark w w'' := by
  refine ⟨h'.bounded, h.grows.trans h'.grows, fun hr => ?_⟩
  obtain ⟨r', hr', hle⟩ := h.last hr
  obtain ⟨r'', hr'', hle'⟩ := h'.last hr'
  exact ⟨r'', hr'', hle.trans hle'⟩

theorem put (hm : Sink.Rising t mark) (hb : Bounded mark w) : Advanced mark w (Sink.put t w c) where
  bounded r hr := by
    rcases hm.last w c with he | ⟨r', hr', -, hstop⟩
    · exact (hb r (he ▸ hr)).trans (hm.grows w c)
    · cases hr.symm.trans hr'
      exact hstop
  grows := hm.grows w c
  last {r} hr := by
    rcases hm.last w c with he | ⟨r', hr', hstart, -⟩
    · exact ⟨r, he.trans hr, Nat.le_refl _⟩
    · exact ⟨r', hr', ((hb r hr).trans hstart).trans r'.ordered⟩

theorem put_recording {w : Recording W} (hm : Sink.Rising t mark) (hb : Bounded mark w.inner) :
    Advanced mark w.inner (Sink.put t w c).inner := by
  rw [respects_inner.put]
  exact put hm hb

/-- What ends before the last word still does later. -/
theorem between (h : Advanced mark w w') (hr : r.Between a (Sink.lastRange w)) :
    r.Between a (Sink.lastRange w') := by
  obtain ⟨f, l, hf, hl, hstart, hstop⟩ := hr
  obtain ⟨l', hl', hle⟩ := h.last hl
  exact ⟨f, l', hf, hl', hstart, hstop.trans hle⟩

end Advanced

/-- From `w` to `w'`, the node `i` was filled: `first` is the first place that was noted, and `new`
has the ranges. -/
structure Spanned (t : Tree) (mark : W → Nat) (i : NodeId) (spots : List Spot) (plan : Plan)
    (w w' : Recording W) (first : Option Location) (new : List (NodeId × TextRange)) : Prop where
  firsts : w'.firsts = noteAny first w.firsts
  located : w'.located = new ++ w.located
  advanced : Advanced mark w.inner w'.inner
  bounds {f : Location} (hf : first = some f) : mark w.inner ≤ f.offset ∧ f.offset ≤ mark w'.inner
  word (h : ∃ e ∈ (i, spots) :: plan, ∃ s ∈ e.2, s.call.writesWord t = true) :
    ∃ r : TextRange, r.Between first (Sink.lastRange w'.inner)
  owned {y : NodeId × TextRange} (hy : y ∈ new) :
    y.1 = i ∧ Extent.ofKind (t.kind i) ≠ .tokens ∨ ∃ k ∈ nodesOf spots, t.Below k y.1
  inside {y : NodeId × TextRange} (hy : y ∈ new) (he : Extent.ofKind (t.kind y.1) ≠ .error) :
    y.2.Between first (Sink.lastRange w'.inner)
  nested {y z : NodeId × TextRange} (hy : y ∈ new) (hz : z ∈ new)
    (hk : Extent.ofKind (t.kind y.1) = .tokens)
    (he : Extent.ofKind (t.kind z.1) ≠ .error) (hb : t.Below y.1 z.1) : z.2.Within y.2
  placed {x : NodeId × List Spot} (hx : x ∈ plan) (hk : Extent.ofKind (t.kind x.1) = .tokens)
    (hs : t.Speaks plan x.1) :
    ∃ r, (x.1, r) ∈ new

namespace Spanned

theorem nil (hb : Bounded mark w.inner) : Spanned t mark i [] [] w w none [] where
  firsts := rfl
  located := rfl
  advanced := .refl hb
  bounds := nofun
  word h := by simp at h
  owned hy := by cases hy
  inside hy := by cases hy
  nested hy := by cases hy
  placed hx := by cases hx

theorem trans (ht : t.WellFormed) (hf : Fills t i before spots plan l)
    (hf' : Fills t i before' spots' plan' l') (hn : (nodesOf (spots ++ spots')).Nodup)
    (h : Spanned t mark i spots plan w w' first new)
    (h' : Spanned t mark i spots' plan' w' w'' first' new') :
    Spanned t mark i (spots ++ spots') (plan ++ plan') w w'' (first.or first') (new' ++ new) := by
  rw [nodesOf_append] at hn
  -- nothing that the one stretch wrote is below what the other one wrote
  have happart {k k' x : NodeId} (hk : k ∈ nodesOf spots) (hk' : k' ∈ nodesOf spots')
    (hb : t.Below k x)
      (hb' : t.Below k' x) : False :=
    (List.nodup_append.mp hn).2.2 k hk k' hk'
      (ht.eq_of_below (hf.parent hk) (hf'.parent hk') hb hb')
  have hearly {r : TextRange} (hr : r.Between first (Sink.lastRange w'.inner)) :
      r.Between (first.or first') (Sink.lastRange w''.inner) := by
    obtain ⟨f, l, rfl, hbetween⟩ := h'.advanced.between hr
    exact ⟨f, l, rfl, hbetween⟩
  have hlate {r : TextRange} (hr : r.Between first' (Sink.lastRange w''.inner)) :
      r.Between (first.or first') (Sink.lastRange w''.inner) := by
    obtain ⟨f', l, hf', hl, hstart, hstop⟩ := hr
    cases hfirst : first with
    | none => exact ⟨f', l, hf', hl, hstart, hstop⟩
    | some f =>
        have hle := (h.bounds hfirst).2.trans (h'.bounds hf').1
        exact ⟨f, l, rfl, hl, hle.trans hstart, hstop⟩
  refine {
    firsts := by rw [h'.firsts, h.firsts, noteAny_noteAny]
    located := by rw [h'.located, h.located, List.append_assoc]
    advanced := h.advanced.trans h'.advanced
    bounds := fun {f} hf => ?_
    word := ?_
    owned := fun {y} hy => ?_
    inside := fun {y} hy he => ?_
    nested := fun {y z} hy hz hk he hb => ?_
    placed := fun {x} hx hk hs => ?_ }
  · cases hfirst : first with
    | none =>
        rw [hfirst] at hf
        exact ⟨h.advanced.grows.trans (h'.bounds hf).1, (h'.bounds hf).2⟩
    | some f' =>
        rw [hfirst] at hf
        cases hf
        exact ⟨(h.bounds hfirst).1, (h.bounds hfirst).2.trans h'.advanced.grows⟩
  · rintro ⟨e, he, s, hs, hc⟩
    have hsplit : (∃ e ∈ (i, spots) :: plan, ∃ s ∈ e.2, s.call.writesWord t = true) ∨
        ∃ e ∈ (i, spots') :: plan', ∃ s ∈ e.2, s.call.writesWord t = true := by
      rcases List.mem_cons.mp he with rfl | he
      · rcases List.mem_append.mp hs with hs | hs
        · exact .inl ⟨_, List.mem_cons_self, s, hs, hc⟩
        · exact .inr ⟨_, List.mem_cons_self, s, hs, hc⟩
      · rcases List.mem_append.mp he with he | he
        · exact .inl ⟨e, List.mem_cons_of_mem _ he, s, hs, hc⟩
        · exact .inr ⟨e, List.mem_cons_of_mem _ he, s, hs, hc⟩
    rcases hsplit with hw | hw
    · obtain ⟨r, hr⟩ := h.word hw
      exact ⟨r, hearly hr⟩
    · obtain ⟨r, hr⟩ := h'.word hw
      exact ⟨r, hlate hr⟩
  · rw [nodesOf_append]
    rcases List.mem_append.mp hy with hy | hy
    · exact (h'.owned hy).imp id fun ⟨k, hk, hb⟩ => ⟨k, List.mem_append_right _ hk, hb⟩
    · exact (h.owned hy).imp id fun ⟨k, hk, hb⟩ => ⟨k, List.mem_append_left _ hk, hb⟩
  · rcases List.mem_append.mp hy with hy | hy
    · exact hlate (h'.inside hy he)
    · exact hearly (h.inside hy he)
  · have hchild {k : NodeId} (hp : t.parent k = some i) (hy : t.Below k y.1) (hz : z.1 = i) :
        False :=
      ht.not_below_of_parent hp (hz ▸ hy.trans hb)
    rcases List.mem_append.mp hy with hy | hy <;> rcases List.mem_append.mp hz with hz | hz
    · exact h'.nested hy hz hk he hb
    · obtain ⟨hyi, hne⟩ | ⟨k', hk', hby⟩ := h'.owned hy
      · exact absurd (hyi ▸ hk) hne
      · obtain ⟨hzi, -⟩ | ⟨k, hk, hbz⟩ := h.owned hz
        · exact (hchild (hf'.parent hk') hby hzi).elim
        · exact (happart hk hk' hbz (hby.trans hb)).elim
    · obtain ⟨hyi, hne⟩ | ⟨k, hk, hby⟩ := h.owned hy
      · exact absurd (hyi ▸ hk) hne
      · obtain ⟨hzi, -⟩ | ⟨k', hk', hbz⟩ := h'.owned hz
        · exact (hchild (hf.parent hk) hby hzi).elim
        · exact (happart hk hk' (hby.trans hb) hbz).elim
    · exact h.nested hy hz hk he hb
  · obtain ⟨e, he, hb, hs⟩ := hs
    rcases List.mem_append.mp hx with hx | hx <;> rcases List.mem_append.mp he with he | he
    · obtain ⟨r, hr⟩ := h.placed hx hk ⟨e, he, hb, hs⟩
      exact ⟨r, List.mem_append_right _ hr⟩
    · obtain ⟨k, hk, hbx⟩ := hf.under hx
      obtain ⟨k', hk', hbe⟩ := hf'.under he
      exact (happart hk hk' (hbx.trans hb) hbe).elim
    · obtain ⟨k', hk', hbx⟩ := hf'.under hx
      obtain ⟨k, hk, hbe⟩ := hf.under he
      exact (happart hk hk' hbe (hbx.trans hb)).elim
    · obtain ⟨r, hr⟩ := h'.placed hx hk ⟨e, he, hb, hs⟩
      exact ⟨r, List.mem_append_left _ hr⟩

theorem blank (hm : Sink.Rising t mark) (hb : Bounded mark w.inner) (hc : c.isBlank = true) :
    Spanned t mark i [] [] w (Sink.put t w c) none [] := by
  have hput : Sink.put t w c = { w with inner := Sink.put t w.inner c } := by
    cases c with
    | space | indent | unindent | newLine => rfl
    | _ => cases hc
  rw [hput]
  exact {
    firsts := rfl
    located := rfl
    advanced := .put hm hb
    bounds := nofun
    word := fun h => by simp at h
    owned := fun hy => by cases hy
    inside := fun hy => by cases hy
    nested := fun hy => by cases hy
    placed := fun hx => by cases hx }

theorem put (hm : Sink.Rising t mark)
    (hb : Bounded mark w.inner) {s : Spot} (hc : s.call.writesWord t = true)
    (ho : ∃ es outer, w.outline = (i, .ofKind (t.kind i), es) :: outer) :
    ∃ first new, Spanned t mark i [s] [] w (Sink.put t w s.call) first new := by
  obtain ⟨before, c⟩ := s
  obtain ⟨es, outer, ho⟩ := ho
  obtain ⟨r, hr, hstart, hstop⟩ := hm.word w.inner hc
  have hput : Sink.put t w c =
      (Recording.note { w with inner := Sink.put t w.inner c } r).recordToken r c := by
    cases c with
    | identifier | keyword | token | literal | primitiveType =>
        simp only [Sink.put, Recording.put] at hr ⊢
        simp only [hr]
    | _ => cases hc
  have hnote : (Recording.note { w with inner := Sink.put t w.inner c } r).outline =
      (i, .ofKind (t.kind i), es) :: outer := outline_note.trans ho
  obtain ⟨hfirsts, new, hlocated, hnew⟩ := Ranged.recordToken (r := r) (c := c) hnote
  rw [← hput] at hfirsts hlocated
  have hinner : (Sink.put t w c).inner = Sink.put t w.inner c := respects_inner.put _ _
  have hbetween : r.Between (some r.start) (Sink.lastRange (Sink.put t w c).inner) := by
    rw [hinner]
    exact ⟨_, _, rfl, hr, Nat.le_refl _, Nat.le_refl _⟩
  refine ⟨some r.start, new, {
    firsts := hfirsts.trans firsts_note
    located := hlocated
    advanced := .put_recording hm hb
    bounds := fun {f} hf => ?_
    word := fun _ => ⟨r, hbetween⟩
    owned := fun {y} hy => ?_
    inside := fun {y} hy _ => by rw [(hnew y hy).1]; exact hbetween
    nested := fun {y z} hy hz _ _ _ =>
      by rw [(hnew y hy).1, (hnew z hz).1]; exact ⟨Nat.le_refl _, Nat.le_refl _⟩
    placed := fun hx => by cases hx }⟩
  · cases hf
    rw [hinner]
    exact ⟨hstart, r.ordered.trans hstop⟩
  · refine (hnew y hy).2.imp id fun hy => ⟨y.1, ?_, .self⟩
    exact mem_nodesOf.mpr ⟨_, List.mem_singleton_self _, by rw [hy]; rfl⟩

theorem placeholder (hm : Sink.Rising t mark)
    (hb : Bounded mark w.inner) {kind : CommentKind} {content : String}
    (ho : ∃ es outer, w.outline = (i, .ofKind (t.kind i), es) :: outer) :
    ∃ first new, Spanned t mark i [⟨before, .special (.comment kind content)⟩] [] w
      (Sink.put t w (.special (.comment kind content))) first new := by
  obtain ⟨es, outer, ho⟩ := ho
  have hinner : (Sink.put t w (.special (.comment kind content))).inner =
      Sink.put t w.inner (.special (.comment kind content)) := respects_inner.put _ _
  have hsilent : ¬ ∃ e ∈ [(i, [(⟨before, .special (.comment kind content)⟩ : Spot)])], ∃ s ∈ e.2,
      s.call.writesWord t = true := by simp [Call.writesWord]
  rcases comment_ranges (t := t) kind content ho with
    ⟨hfirsts, hlocated⟩ | ⟨l, hl, hfirsts, new, hlocated, hnew⟩
  · refine ⟨none, [], {
      firsts := hfirsts
      located := hlocated
      advanced := .put_recording hm hb
      bounds := nofun
      word := fun h => absurd h hsilent
      owned := fun hy => by cases hy
      inside := fun hy => by cases hy
      nested := fun hy => by cases hy
      placed := fun hx => by cases hx }⟩
  · refine ⟨some l, new, {
      firsts := hfirsts
      located := hlocated
      advanced := .put_recording hm hb
      bounds := fun {f} hf => ?_
      word := fun h => absurd h hsilent
      owned := fun {y} hy => .inl ⟨(hnew y hy).1, by simp [(hnew y hy).2]⟩
      inside := fun {y} hy he => absurd ((hnew y hy).1 ▸ (hnew y hy).2) he
      nested := fun {y z} hy hz hk _ _ => ?_
      placed := fun hx => by cases hx }⟩
    · cases hf
      rw [hinner]
      exact hm.comment _ _ _ hl
    · rw [(hnew y hy).1, (hnew y hy).2] at hk
      cases hk

theorem node (ht : t.WellFormed) (hm : Sink.Rising t mark)
    (hb : Bounded mark w.inner) {m : List Call} {w₂ : Recording W}
    (hbody : Body t j (before ++ [.start j]) inner under m)
    (ho : ∃ es outer, w₂.outline = (j, .ofKind (t.kind j), es) :: outer)
    (h : Spanned t mark j inner under (Sink.put t w (.start j)) w₂ first new) :
    ∃ new', Spanned t mark i [⟨before, .start j⟩] (under ++ [(j, inner)])
      w (Sink.put t w₂ (.finish j)) first new' := by
  obtain ⟨es, outer, ho⟩ := ho
  have hstart : Advanced mark w.inner (Sink.put t w (.start j)).inner := .put_recording hm hb
  have hfinish : Advanced mark w₂.inner (Sink.put t w₂ (.finish j)).inner :=
    .put_recording hm h.advanced.bounded
  have hfirsts : w₂.firsts = first :: noteAny first w.firsts := by
    rw [h.firsts, firsts_start]
    cases first <;> rfl
  obtain ⟨hf, new', hlocated, hnew, hplaced⟩ := finish_ranges (t := t) (j := j) ho hfirsts
  have hbelow {x : NodeId} (hx : ∃ k ∈ nodesOf inner, t.Below k x) :
      t.Below j x ∧ ¬ t.Below x j := by
    obtain ⟨k, hk, hx⟩ := hx
    exact ⟨(Tree.Below.self.child (hbody.parent hk)).trans hx, fun hxj =>
      ht.not_below_of_parent (hbody.parent hk) (hx.trans hxj)⟩
  refine ⟨new' ++ new, {
    firsts := hf
    located := by rw [hlocated, h.located, put_start.2.2, List.append_assoc]
    advanced := (hstart.trans h.advanced).trans hfinish
    bounds := fun {f} hf => ?_
    word := ?_
    owned := fun {y} hy => ?_
    inside := fun {y} hy he => ?_
    nested := fun {y z} hy hz hk he hb => ?_
    placed := fun {x} hx hk hs => ?_ }⟩
  · exact ⟨hstart.grows.trans (h.bounds hf).1, (h.bounds hf).2.trans hfinish.grows⟩
  · rintro ⟨e, he, s, hs, hc⟩
    have he : e ∈ (j, inner) :: under := by
      rcases List.mem_cons.mp he with rfl | he
      · rw [List.mem_singleton.mp hs] at hc
        cases hc
      · simpa [or_comm] using he
    obtain ⟨r, hr⟩ := h.word ⟨e, he, s, hs, hc⟩
    exact ⟨r, hfinish.between hr⟩
  · refine .inr ⟨j, by simp [nodesOf, Call.node?], ?_⟩
    rcases List.mem_append.mp hy with hy | hy
    · rw [(hnew y hy).1]
      exact .self
    · obtain ⟨hyj, -⟩ | hy := h.owned hy
      · rw [hyj]
        exact .self
      · exact (hbelow hy).1
  · rcases List.mem_append.mp hy with hy | hy
    · exact hfinish.between (hnew y hy).2.1
    · exact hfinish.between (h.inside hy he)
  · rcases List.mem_append.mp hy with hy | hy <;> rcases List.mem_append.mp hz with hz | hz
    · exact (hnew y hy).2.2 _ (hnew z hz).2.1
    · exact (hnew y hy).2.2 _ (h.inside hz he)
    · obtain ⟨hyj, hne⟩ | hy := h.owned hy
      · exact absurd (hyj ▸ hk) hne
      · exact absurd ((hnew z hz).1 ▸ hb) (hbelow hy).2
    · exact h.nested hy hz hk he hb
  · obtain ⟨e, he, hb, hs⟩ := hs
    rcases List.mem_append.mp hx with hx | hx
    · have he : e ∈ under := by
        rcases List.mem_append.mp he with he | he
        · exact he
        · rw [List.mem_singleton.mp he] at hb
          obtain ⟨p, hp, hjp⟩ := hbody.above hx
          exact (ht.not_below_of_parent hp (hb.trans hjp)).elim
      obtain ⟨r, hr⟩ := h.placed hx hk ⟨e, he, hb, hs⟩
      exact ⟨r, List.mem_append_right _ hr⟩
    · cases List.mem_singleton.mp hx
      obtain ⟨r, hr⟩ := h.word ⟨e, by simpa [or_comm] using he, hs⟩
      obtain ⟨r', hr'⟩ := hplaced hk r hr
      exact ⟨r', List.mem_append_left _ hr'⟩

end Spanned

end Recording

variable {W : Type} [Sink W] {t : Tree} {mark : W → Nat} {w₀ : W} {w : Recording W} {i j : NodeId}
  {before l : List Call} {spots : List Spot} {plan : Plan} {c : Call}

def Tree.NamesIn (t : Tree) (calls : List Call) : Prop :=
  ∀ j, .identifier j ∈ calls → ∃ name verbatim, t.kind j = .identifier name verbatim

theorem Tree.Says.writesWord (h : t.Says i c) (hn : t.NamesIn [c]) : c.writesWord t = true := by
  cases h with
  | token | keyword | modifier => rfl
  | @name j hj hr =>
      obtain ⟨name, verbatim, hk⟩ := hn j (List.mem_singleton_self _)
      simp [Call.writesWord, TextSink.identifierText?, hk]

theorem Tree.IsWord.cases (h : t.IsWord i c) :
    c.writesWord t = true ∨ c = .special (.comment .block " error ") := by
  obtain ⟨-, h⟩ := h
  unfold Tree.wordOf? at h
  split at h <;> cases h <;> first | exact .inl rfl | exact .inr rfl

namespace Recording.Spanned

variable (ht : t.WellFormed) (hm : Sink.Rising t mark) (hb : Recording.Bounded mark w.inner)

include hm hb

theorem isWord (hc : t.IsWord i c)
    (ho : ∃ es outer, w.outline = (i, .ofKind (t.kind i), es) :: outer) :
    ∃ first new, Recording.Spanned t mark i [⟨before, c⟩] [] w (Sink.put t w c) first new := by
  rcases hc.cases with hw | rfl
  · exact put (s := ⟨before, c⟩) hm hb hw ho
  · exact placeholder hm hb ho

include ht

theorem leaf (hc : t.IsWord j c) (hw : w.inner = Sink.putAll t w₀ before) :
    ∃ first new, Recording.Spanned t mark i [⟨before, .start j⟩]
      [(j, [⟨before ++ [.start j], c⟩])] w
      (Sink.putAll t w [.start j, c, .finish j]) first new := by
  have hstart : (Sink.put t w (.start j)).inner = Sink.putAll t w₀ (before ++ [.start j]) :=
    Recording.inner_putAll (l := [.start j]) hw
  have hopened : ∃ es outer, (Sink.put t w (.start j)).outline =
    (j, .ofKind (t.kind j), es) :: outer :=
    ⟨_, _, Recording.put_start.1⟩
  obtain ⟨hs, hf, hn⟩ := Recording.wordOf?_ne hc.2
  have hrecorded : Recording.Recorded t w₀ j [⟨before ++ [.start j], c⟩] []
    (Sink.put t w (.start j))
      (Sink.put t (Sink.put t w (.start j)) c) := .put hs hf (hn _) hstart hopened
  have hbounded : Recording.Bounded mark (Sink.put t w (.start j)).inner :=
    (Recording.Advanced.put_recording hm hb).bounded
  obtain ⟨first, new, h⟩ : ∃ first new, Recording.Spanned t mark j [⟨before ++ [.start j], c⟩] []
      (Sink.put t w (.start j)) (Sink.put t (Sink.put t w (.start j)) c) first new :=
        isWord hm hbounded hc hopened
  obtain ⟨new', hnode⟩ := node (i := i) ht hm hb (.word hc) (hrecorded.opened hopened) h
  exact ⟨first, new', hnode⟩

theorem composite {m : List Call} {inner : List Spot} {under : Plan} (hk : t.IsComposite j)
    (hn : (nodesOf inner).Nodup) (hf : Fills t j (before ++ [.start j]) inner under m)
    (hw : w.inner = Sink.putAll t w₀ before)
    (h : ∀ w' : Recording W, w'.inner = Sink.putAll t w₀ (before ++ [.start j]) →
      Recording.Bounded mark w'.inner →
      (∃ es outer, w'.outline = (j, .ofKind (t.kind j), es) :: outer) →
      ∃ first new, Recording.Spanned t mark j inner under w' (Sink.putAll t w' m) first new) :
    ∃ first new, Recording.Spanned t mark i [⟨before, .start j⟩] (under ++ [(j, inner)]) w
      (Sink.putAll t w (.start j :: (m ++ [.finish j]))) first new := by
  have hstart : (Sink.put t w (.start j)).inner = Sink.putAll t w₀ (before ++ [.start j]) :=
    Recording.inner_putAll (l := [.start j]) hw
  have hopened : ∃ es outer, (Sink.put t w (.start j)).outline =
    (j, .ofKind (t.kind j), es) :: outer :=
    ⟨_, _, Recording.put_start.1⟩
  have hbounded : Recording.Bounded mark (Sink.put t w (.start j)).inner :=
    (Recording.Advanced.put_recording hm hb).bounded
  obtain ⟨first, new, hs⟩ := h _ hstart hbounded hopened
  rw [Sink.putAll_cons, Sink.putAll_append]
  exact ⟨_, hs.node ht hm hb (.composite hk hn hf)
    ((hf.recorded ht hn hstart hopened).opened hopened)⟩

end Recording.Spanned

theorem Fills.spanned_append {l' : List Call} {spots' : List Spot} {plan' : Plan}
    (ht : t.WellFormed) (hf : Fills t i before spots plan l)
    (hf' : Fills t i (before ++ l) spots' plan' l') (hn : (nodesOf (spots ++ spots')).Nodup)
    (hw : w.inner = Sink.putAll t w₀ before)
    (ho : ∃ es outer, w.outline = (i, .ofKind (t.kind i), es) :: outer)
    (h : ∃ first new, Recording.Spanned t mark i spots plan w (Sink.putAll t w l) first new)
    (h' : ∀ w' : Recording W, w'.inner = Sink.putAll t w₀ (before ++ l) →
      Recording.Bounded mark w'.inner →
      (∃ es outer, w'.outline = (i, .ofKind (t.kind i), es) :: outer) →
      ∃ first new, Recording.Spanned t mark i spots' plan' w' (Sink.putAll t w' l') first new) :
    ∃ first new,
      Recording.Spanned t mark i (spots ++ spots')
      (plan ++ plan') w (Sink.putAll t w (l ++ l')) first new := by
  obtain ⟨first, new, h⟩ := h
  have hr := hf.recorded ht (List.nodup_append.mp (nodesOf_append ▸ hn)).1 hw ho
  obtain ⟨first', new', h'⟩ := h' _ (Recording.inner_putAll hw) h.advanced.bounded (hr.opened ho)
  rw [Sink.putAll_append]
  exact ⟨_, _, h.trans ht hf hf' hn h'⟩

/-- A recording ranges what fills a node. -/
theorem Fills.spanned (ht : t.WellFormed) (hm : Sink.Rising t mark)
    (h : Fills t i before spots plan l) (hn : (nodesOf spots).Nodup) (hnames : t.NamesIn l)
    (hw : w.inner = Sink.putAll t w₀ before) (hb : Recording.Bounded mark w.inner)
    (ho : ∃ es outer, w.outline = (i, .ofKind (t.kind i), es) :: outer) :
    ∃ first new, Recording.Spanned t mark i spots plan w (Sink.putAll t w l) first new := by
  induction h generalizing w with
  | nil => exact ⟨_, _, .nil hb⟩
  | @blank i before l spots plan c hc h ih =>
      have hfirst : Fills t i before [] [] [c] := .blank hc .nil
      refine hfirst.spanned_append ht h hn hw ho ⟨_, _, .blank hm hb hc⟩ fun w' hw' hb' ho' => ?_
      exact ih hn (fun j hj => hnames j (List.mem_cons_of_mem _ hj)) hw' hb' ho'
  | @word i before l spots plan c hc h ih =>
      have hfirst : Fills t i before [⟨before, c⟩] [] [c] := .word hc .nil
      have hword : c.writesWord t = true := hc.writesWord fun j hj =>
        hnames j (List.mem_singleton.mp hj ▸ List.mem_cons_self)
      refine hfirst.spanned_append ht h hn hw ho
        (Recording.Spanned.put (s := ⟨before, c⟩) hm hb hword ho)
        fun w' hw' hb' ho' => ?_
      exact ih (List.nodup_append.mp (nodesOf_cons ▸ hn)).2.1
        (fun j hj => hnames j (List.mem_cons_of_mem _ hj)) hw' hb'
        ho'
  | @leaf i j before l spots plan c hj hc h ih =>
      have hfirst : Fills t i before [⟨before, .start j⟩] [(j, [⟨before ++ [.start j], c⟩])]
        [.start j, c, .finish j] :=
        .leaf hj hc .nil
      refine hfirst.spanned_append ht h hn hw ho (Recording.Spanned.leaf ht hm hb hc hw)
        fun w' hw' hb' ho' => ?_
      exact ih (List.nodup_append.mp (nodesOf_cons ▸ hn)).2.1 (fun j hj => hnames j (by simp [hj]))
        hw' hb' ho'
  | @child i j before m l inner spots under plan hj hk hinner hm' h ihm ih =>
      have hfirst : Fills t i before [⟨before, .start j⟩] (under ++ [(j, inner)])
        (.start j :: (m ++ [.finish j])) :=
        .child hj hk hinner hm' .nil
      have hchild := Recording.Spanned.composite (i := i) ht hm hb hk hinner hm' hw
        fun w' hw' hb' ho' =>
        ihm hinner (fun x hx => hnames x (by simp [hx])) hw' hb' ho'
      have hall := hfirst.spanned_append ht (by simpa using h) hn hw ho hchild fun w' hw' hb' ho' =>
        ih (List.nodup_append.mp (nodesOf_cons ▸ hn)).2.1 (fun x hx => hnames x (by simp [hx]))
          (by simpa using hw') hb'
          ho'
      simpa using hall

/-- A recording ranges a whole node. -/
theorem Body.spanned (ht : t.WellFormed) (hm : Sink.Rising t mark)
    (h : Body t j (before ++ [.start j]) spots plan l) (hnames : t.NamesIn l)
    (hw : w.inner = Sink.putAll t w₀ before) (hb : Recording.Bounded mark w.inner) :
    ∃ first new, Recording.Spanned t mark i [⟨before, .start j⟩] (plan ++ [(j, spots)]) w
      (Sink.putAll t w (.start j :: (l ++ [.finish j]))) first new := by
  cases h with
  | word hc => exact Recording.Spanned.leaf ht hm hb hc hw
  | composite hk hn hf =>
      exact Recording.Spanned.composite ht hm hb hk hn hf hw fun w' hw' hb' ho' =>
        hf.spanned ht hm hn hnames hw' hb' ho'

end TreeScribe
