import TreeScribe.Proofs.Flow.Assignment.Functions
import TreeScribe.Proofs.Flow.Assignment.Gained

namespace TreeScribe.Flow

open TreeScribe.Tree

structure Graph.Expands (t : Tree) (R : NodeId → Prop) (order : List PointId)
    (g g' : Graph) : Prop where
  extends_ : g.Extends g'
  adjacent : g'.Adjacent
  listed : ListsFrom order g g'
  region {p : Nat} {m : Mark} (hp : g.points.size ≤ p) (hp' : p < g'.points.size)
    (hm : m ∈ (g'.point p).marks) : R m.node
  once {p q : Nat} {m : Mark} (hp : g.points.size ≤ p) (hp' : p < g'.points.size)
    (hq : g.points.size ≤ q) (hq' : q < g'.points.size) (hm : m ∈ (g'.point p).marks)
    (hm' : m ∈ (g'.point q).marks) : p = q
  stated (hg : ∀ m ∈ g.marks, m.Stated t) : ∀ m ∈ g'.marks, m.Stated t
  tested (hg : g.TestsEntered) : g'.TestsEntered
  behind {e : EdgeId} (he : g.edges.size ≤ e) (he' : e < g'.edges.size) :
    g.points.size ≤ (g'.edge e).target
  unentered {p : Nat} {b : NodeId} (hp : g.points.size ≤ p) (hp' : p < g'.points.size)
    (hb : t.IsBody b) (hm : .enter b ∈ (g'.point p).marks) {e : EdgeId} (he : e < g'.edges.size) :
    (g'.edge e).target ≠ p

def Graph.Enters (g : Graph) (b : NodeId) : Prop :=
  ∃ p < g.points.size, .enter b ∈ (g.point p).marks

variable {t : Tree} {root i b : NodeId} {s : Setting} {g g' g'' : Graph}
  {order order' : List PointId} {R R' : NodeId → Prop}

theorem Graph.Enters.mono (h : g.Enters b) (hg : g.Extends g') : g'.Enters b := by
  obtain ⟨p, hp, hm⟩ := h
  exact ⟨p, Nat.lt_of_lt_of_le hp hg.size_le, (marks_congr (hg.place hp)).symm ▸ hm⟩

theorem bodiesAt_congr {x y : Point} (h : x.place = y.place) : bodiesAt t x = bodiesAt t y := by
  obtain ⟨_, _, _, _, _⟩ := x
  obtain ⟨_, _, _, _, _⟩ := y
  cases h
  rfl

theorem mem_bodiesAt {x : Point} :
    b ∈ bodiesAt t x ↔ ∃ i, .enter i ∈ x.marks ∧ b ∈ functionBodies t i := by
  unfold bodiesAt Point.marks
  split <;> simp [*]

namespace Graph.Expands

theorem refl (h : g.Adjacent) : g.Expands t R [] g where
  extends_ := .refl g
  adjacent := h
  listed p := by simp
  region hp hp' := absurd hp' (Nat.not_lt.mpr hp)
  once hp hp' := absurd hp' (Nat.not_lt.mpr hp)
  stated := id
  tested := id
  behind he he' := absurd he' (Nat.not_lt.mpr he)
  unentered hp hp' := absurd hp' (Nat.not_lt.mpr hp)

theorem append {S : NodeId → Prop} (h : g.Expands t R order g') (h' : g'.Expands t R' order' g'')
    (hR : ∀ i, R i → S i) (hR' : ∀ i, R' i → S i)
    (hd : ∀ {p q : Nat} {m : Mark}, g.points.size ≤ p → p < g'.points.size → g'.points.size ≤ q →
      q < g''.points.size →
      m ∈ (g'.point p).marks → m ∉ (g''.point q).marks) : g.Expands t S (order ++ order') g'' := by
  have hsize := h.extends_.size_le
  have hsize' := h'.extends_.size_le
  have hmarks {p : Nat} (hp : p < g'.points.size) : (g''.point p).marks = (g'.point p).marks :=
    marks_congr (h'.extends_.place hp)
  constructor
  · exact h.extends_.trans h'.extends_
  · exact h'.adjacent
  · intro p
    rw [List.count_append, h.listed, h'.listed]
    split_ifs <;> omega
  · intro p m hp hp' hm
    by_cases hlt : p < g'.points.size
    · exact hR _ (h.region hp hlt (hmarks hlt ▸ hm))
    · exact hR' _ (h'.region (Nat.le_of_not_lt hlt) hp' hm)
  · intro p q m hp hp' hq hq' hm hm'
    by_cases hlt : p < g'.points.size
    · rw [hmarks hlt] at hm
      by_cases hlt' : q < g'.points.size
      · exact h.once hp hlt hq hlt' hm (hmarks hlt' ▸ hm')
      · exact absurd hm' (hd hp hlt (Nat.le_of_not_lt hlt') hq' hm)
    · by_cases hlt' : q < g'.points.size
      · exact absurd hm (hd hq hlt' (Nat.le_of_not_lt hlt) hp' (hmarks hlt' ▸ hm'))
      · exact h'.once (Nat.le_of_not_lt hlt) hp' (Nat.le_of_not_lt hlt') hq' hm hm'
  · exact fun hg => h'.stated (h.stated hg)
  · exact fun hg => h'.tested (h.tested hg)
  · intro e he he'
    by_cases hlt : e < g'.edges.size
    · rw [h'.extends_.target_eq hlt]
      exact h.behind he hlt
    · exact Nat.le_trans hsize (h'.behind (Nat.le_of_not_lt hlt) he')
  · intro p b hp hp' hb hm e he
    by_cases hlt : p < g'.points.size
    · by_cases hlt' : e < g'.edges.size
      · rw [h'.extends_.target_eq hlt']
        exact h.unentered hp hlt hb (hmarks hlt ▸ hm) hlt'
      · have htarget : g'.points.size ≤ (g''.edge e).target := h'.behind (Nat.le_of_not_lt hlt') he
        exact Nat.ne_of_gt (Nat.lt_of_lt_of_le hlt htarget)
    · exact h'.unentered (Nat.le_of_not_lt hlt) hp' hb hm he

end Graph.Expands

theorem Graph.Gains.expands (hcode : t.Code root) (hg : g.Adjacent) (hi : t.Below root i)
    (h : g.Gains t i order g') : g.Expands t (t.Inside i) order g' where
  extends_ := h.extends_
  adjacent := h.adjacent
  listed := h.listed
  region hp hp' hm := (h.inside hp hp' hm).1
  once := h.once
  stated := h.stated
  tested := h.tested
  behind he he' := Nat.le_of_lt (h.behind he he')
  unentered {p b} hp hp' hb hm e he := by
    -- only the entry of the graph enters a body
    obtain ⟨hin, hentry⟩ := h.inside hp hp' hm
    have hbi : b = i := hcode.wellFormed.below_antisymm (hcode.below_of_inside hb hi hin .self)
      hin.to_below
    subst hbi
    rw [hentry rfl]
    by_cases hlt : e < g.edges.size
    · rw [h.extends_.target_eq hlt]
      exact Nat.ne_of_lt (hg.target_lt hlt)
    · exact Nat.ne_of_gt (h.behind (Nat.le_of_not_lt hlt) he)

theorem Graph.Gains.enters (h : g.Gains t i order g') : g'.Enters i := by
  refine ⟨g.points.size, h.lt_size, ?_⟩
  rw [marks_congr (y := ⟨.null, i, .start, [], []⟩) h.entry]
  exact List.mem_cons_self

theorem except_bind_eq_ok {α β : Type} {x : Except FlowError α}
    {f : α → Except FlowError β} {y : β} : (x >>= f) = .ok y ↔ ∃ a, x = .ok a ∧ f a = .ok y := by
  cases x <;> simp [bind, Except.bind]

theorem drawAll_cons {bodies : List NodeId} (h : drawAll t s (b :: bodies) g = .ok (order, g')) :
    ∃ first g₁ rest, g.draw t b s = .ok (first, g₁) ∧ drawAll t s bodies g₁ = .ok (rest, g') ∧
      order = first ++ rest := by
  simp only [drawAll, except_bind_eq_ok, Prod.exists] at h
  obtain ⟨first, g₁, hd, rest, g₂, hr, h⟩ := h
  cases h
  exact ⟨first, g₁, rest, hd, hr, rfl⟩

theorem drawAll_expands (hcode : t.Code root) {bodies : List NodeId}
    (hroot : ∀ b ∈ bodies, t.Below root b) (hs : t.Separate bodies) (hg : g.Adjacent)
    (h : drawAll t s bodies g = .ok (order, g')) :
    g.Expands t (fun i => ∃ b ∈ bodies, t.Inside b i) order g' ∧ ∀ b ∈ bodies, g'.Enters b := by
  induction bodies generalizing g order with
  | nil =>
      cases h
      exact ⟨.refl hg, by simp⟩
  | cons b rest ih =>
      obtain ⟨first, g₁, orders, hd, hr, rfl⟩ := drawAll_cons h
      obtain ⟨hs, hb⟩ := hs.of_cons
      have hgains := draw_gains hcode.wellFormed hg hd
      have hfirst := hgains.expands hcode hg (hroot b List.mem_cons_self)
      obtain ⟨hrest, henters⟩ :=
        ih (fun b hb => hroot b (List.mem_cons_of_mem _ hb)) hs hgains.adjacent hr
      refine ⟨hfirst.append hrest (fun i hi => ⟨b, List.mem_cons_self, hi⟩) ?_ ?_, fun b' hb' => ?_⟩
      · rintro i ⟨b', hb', hi⟩
        exact ⟨b', List.mem_cons_of_mem _ hb', hi⟩
      · intro p q m hp hp' hq hq' hm hm'
        obtain ⟨b', hb', hin⟩ := hrest.region hq hq' hm'
        exact hb b' hb' _ (hfirst.region hp hp' hm).to_below hin.to_below
      · rcases List.mem_cons.mp hb' with rfl | hb'
        · exact hgains.enters.mono hrest.extends_
        · exact henters b' hb'

inductive Splices (t : Tree) (s : Setting) : Nat → List PointId → Graph → List PointId →
    Graph → Prop
  | out {order : List PointId} {g : Graph} : Splices t s 0 order g order g
  | nil {fuel : Nat} {g : Graph} : Splices t s (fuel + 1) [] g [] g
  | cons {fuel : Nat} {p : PointId} {rest drawn nested behind : List PointId} {g g₁ g₂ g₃ : Graph}
    (hd : drawAll t s (bodiesAt t (g.point p)) g = .ok (drawn, g₁))
    (hn : Splices t s fuel drawn g₁ nested g₂) (hr : Splices t s (fuel + 1) rest g₂ behind g₃) :
    Splices t s (fuel + 1) (p :: rest) g (p :: (nested ++ behind)) g₃

def spliceStep (t : Tree) (s : Setting) (fuel : Nat) :
    List (List PointId) × Graph → PointId → Except FlowError (List (List PointId) × Graph) :=
  fun (lists, g) p => do
    let (nested, g) ← drawAll t s (bodiesAt t (g.point p)) g
    let (nested, g) ← spliceWithin t s fuel nested g
    return ((p :: nested) :: lists, g)

theorem spliceWithin_succ {fuel : Nat} : spliceWithin t s (fuel + 1) order g =
    (order.foldlM (spliceStep t s fuel) ([], g)).map fun r => (r.1.reverse.flatten, r.2) := rfl

theorem spliceStep_eq_ok {fuel : Nat} {lists lists' : List (List PointId)} {p : PointId}
    (h : spliceStep t s fuel (lists, g) p = .ok (lists', g')) : ∃ drawn g₁ nested,
      drawAll t s (bodiesAt t (g.point p)) g = .ok (drawn, g₁) ∧
      spliceWithin t s fuel drawn g₁ = .ok (nested, g') ∧
        lists' = (p :: nested) :: lists := by
  simp only [spliceStep, except_bind_eq_ok, Prod.exists] at h
  obtain ⟨drawn, g₁, hd, nested, g₂, hn, h⟩ := h
  cases h
  exact ⟨drawn, g₁, nested, hd, hn, rfl⟩

theorem splices_of_run {fuel : Nat} (h : spliceWithin t s fuel order g = .ok (order', g')) :
    Splices t s fuel order g order' g' := by
  induction fuel generalizing order g order' g' with
  | zero =>
      cases h
      exact .out
  | succ fuel ih =>
      -- the lists that have been made so far stay
      have hall {lists lists' : List (List PointId)} {g g' : Graph} {order : List PointId}
          (hf : order.foldlM (spliceStep t s fuel) (lists, g) = .ok (lists', g')) : ∃ behind,
            Splices t s (fuel + 1) order g behind g' ∧
            lists'.reverse.flatten = lists.reverse.flatten ++ behind := by
        induction order generalizing g lists with
        | nil =>
            cases hf
            exact ⟨[], .nil, by simp⟩
        | cons p rest ihr =>
            simp only [List.foldlM_cons, except_bind_eq_ok, Prod.exists] at hf
            obtain ⟨lists₁, g₁, hstep, hf⟩ := hf
            obtain ⟨drawn, g₂, nested, hd, hn, rfl⟩ := spliceStep_eq_ok hstep
            obtain ⟨behind, hs, he⟩ := ihr hf
            refine ⟨p :: (nested ++ behind), .cons hd (ih hn) hs, ?_⟩
            rw [he]
            simp
      rw [spliceWithin_succ] at h
      cases hf : order.foldlM (spliceStep t s fuel) ([], g) with
      | error e =>
          rw [hf] at h
          cases h
      | ok r =>
          rw [hf] at h
          cases h
          obtain ⟨behind, hs, he⟩ := hall hf
          rw [he]
          exact hs

def bodiesOf (t : Tree) (g : Graph) (order : List PointId) : List NodeId :=
  order.flatMap fun p => bodiesAt t (g.point p)

theorem bodiesOf_cons {p : PointId} :
    bodiesOf t g (p :: order) = bodiesAt t (g.point p) ++ bodiesOf t g order :=
  List.flatMap_cons

theorem bodiesOf_append :
    bodiesOf t g (order ++ order') = bodiesOf t g order ++ bodiesOf t g order' :=
  List.flatMap_append

theorem mem_of_listed (h : ListsFrom order g g') {p : Nat} (hp : p ∈ order) :
    g.points.size ≤ p ∧ p < g'.points.size := by
  have hcount := h p
  have hpos := List.count_pos_iff.mpr hp
  by_contra hn
  rw [if_neg hn] at hcount
  omega

theorem nodup_of_listed (h : ListsFrom order g g') : order.Nodup := by
  refine List.nodup_iff_count_le_one.mpr fun p => ?_
  rw [h p]
  split <;> omega

theorem mem_marks {p : PointId} {m : Mark} (hp : p < g.points.size) (hm : m ∈ (g.point p).marks) :
    m ∈ g.marks := by
  rw [marks_eq_flatMap]
  exact List.mem_flatMap.mpr ⟨p, List.mem_range.mpr hp, hm⟩

section

variable {B drawn : List NodeId} {g₁ : Graph} (hcode : t.Code root) (hB : ∀ b ∈ B, t.Below root b)
  (h : g.Expands t (fun i => ∃ b ∈ B, t.Inside b i) order g₁) (hstated : ∀ m ∈ g₁.marks, m.Stated t)
include hcode hB h hstated

/-- What the points of some bodies start is started by a statement inside one of those. -/
theorem startedIn_of_mem (hb : b ∈ bodiesOf t g₁ order) :
    ∃ p ∈ order, ∃ i, .enter i ∈ (g₁.point p).marks ∧
    (t.kind i).isStatement = true ∧ ∃ r ∈ B, t.StartedIn r i b := by
  obtain ⟨p, hp, hb⟩ := List.mem_flatMap.mp hb
  obtain ⟨i, hm, hb⟩ := mem_bodiesAt.mp hb
  obtain ⟨hp', hlt⟩ := mem_of_listed h.listed hp
  obtain ⟨r, hr, hin⟩ := h.region hp' hlt hm
  refine ⟨p, hp, i, hm, ?_, r, hr, hin, (mem_functionBodies hcode.wellFormed).mp hb⟩
  exact (hstated _ (mem_marks hlt hm)).resolve_right
    (hcode.kind_ne_null ((hB r hr).trans hin.to_below))

theorem separate_bodiesOf (hs : t.Separate B) : t.Separate (bodiesOf t g₁ order) := by
  have hw := hcode.wellFormed
  refine ⟨List.nodup_flatMap.mpr ⟨fun p _ => ?_, ?_⟩, fun hb hb' hne => ?_⟩
  · unfold bodiesAt
    split
    · exact nodup_functionBodies hw
    · exact nodup_functionBodies hw
    · exact List.nodup_nil
    · exact List.nodup_nil
  · refine (nodup_of_listed h.listed).imp_of_mem fun {p q} hp hq hne b hb hb' => hne ?_
    -- a body has one owner, and that is entered at one point
    obtain ⟨hp₁, hp₂⟩ := mem_of_listed h.listed hp
    obtain ⟨hq₁, hq₂⟩ := mem_of_listed h.listed hq
    obtain ⟨i, hm, hb⟩ := mem_bodiesAt.mp hb
    obtain ⟨j, hm', hb'⟩ := mem_bodiesAt.mp hb'
    obtain ⟨c, hc, hs⟩ := (mem_functionBodies hw).mp hb
    obtain ⟨c', hc', hs'⟩ := (mem_functionBodies hw).mp hb'
    have hkind {p : Nat} {i : NodeId} (hp : g.points.size ≤ p) (hlt : p < g₁.points.size)
        (hm : .enter i ∈ (g₁.point p).marks) : (t.kind i).isStatement = true := by
      obtain ⟨r, hr, hin⟩ := h.region hp hlt hm
      exact (hstated _ (mem_marks hlt hm)).resolve_right
        (hcode.kind_ne_null ((hB r hr).trans hin.to_below))
    cases hs.owner_eq hw hs' hc hc' (hkind hp₁ hp₂ hm) (hkind hq₁ hq₂ hm')
    exact h.once hp₁ hp₂ hq₁ hq₂ hm hm'
  · obtain ⟨-, -, i, -, -, r, hr, hb⟩ := startedIn_of_mem hcode hB h hstated hb
    obtain ⟨-, -, i', -, -, r', hr', hb'⟩ := startedIn_of_mem hcode hB h hstated hb'
    refine hb.asunder hcode (hB r hr) (hB r' hr') ?_ hb' hne
    by_cases hrr : r = r'
    · exact .inl hrr
    · exact .inr (hs.asunder hr hr' hrr)

end

def Fills (t : Tree) (g : Graph) (order : List PointId) : Prop :=
  ∀ b ∈ bodiesOf t g order, g.Enters b

theorem bodiesOf_congr (h : g.Extends g') (ho : ∀ p ∈ order, p < g.points.size) :
    bodiesOf t g' order = bodiesOf t g order :=
  List.flatMap_congr fun p hp => bodiesAt_congr (h.place (ho p hp))

theorem Fills.mono (h : Fills t g order) (hg : g.Extends g') (ho : ∀ p ∈ order, p < g.points.size) :
    Fills t g' order := by
  intro b hb
  rw [bodiesOf_congr hg ho] at hb
  exact (h b hb).mono hg

/-- Splicing draws all that the points of an order start, and all that is started in there. -/
theorem Splices.expands (hcode : t.Code root) {fuel : Nat} (h : Splices t s fuel order g order' g')
    (hg : g.Adjacent) (ho : ∀ p ∈ order, p < g.points.size)
    (hroot : ∀ b ∈ bodiesOf t g order, t.Below root b) (hs : t.Separate (bodiesOf t g order))
    (hstated : ∀ m ∈ g.marks, m.Stated t)
    (hfuel : ∀ b ∈ bodiesOf t g order, b < t.size ∧ t.size ≤ fuel + t.depth b) :
    ∃ new, order'.Perm (order ++ new) ∧
      g.Expands t (fun i => ∃ b ∈ bodiesOf t g order, t.Below b i) new g' ∧
      Fills t g' order' := by
  have hw := hcode.wellFormed
  induction h with
  | out =>
      refine ⟨[], by simp, .refl hg, fun b hb => ?_⟩
      obtain ⟨hlt, hle⟩ := hfuel b hb
      have := hw.depth_lt hlt
      omega
  | nil => exact ⟨[], by simp, .refl hg, fun b hb => by simp [bodiesOf] at hb⟩
  | @cons fuel p rest drawn nested behind g g₁ g₂ g₃ hd hn hr ihn ihr =>
      have hp := ho p List.mem_cons_self
      have hrest (q : PointId) (hq : q ∈ rest) := ho q (List.mem_cons_of_mem _ hq)
      rw [bodiesOf_cons] at hroot hs hfuel ⊢
      obtain ⟨hsp, hsr, hd'⟩ := Separate.of_append hs
      have hrootp (b : NodeId) (hb : b ∈ bodiesAt t (g.point p)) :=
        hroot b (List.mem_append_left _ hb)
      obtain ⟨hfirst, henters⟩ := drawAll_expands hcode hrootp hsp hg hd
      have hstated₁ := hfirst.stated hstated
      have hstarted {b : NodeId} (hb : b ∈ bodiesOf t g₁ drawn) :
          ∃ r ∈ bodiesAt t (g.point p), ∃ i, t.StartedIn r i b := by
        obtain ⟨_, _, i, _, _, r, hr, hsb⟩ := startedIn_of_mem hcode hrootp hfirst hstated₁ hb
        exact ⟨r, hr, i, hsb⟩
      obtain ⟨new₁, hperm₁, hnested, hfills₁⟩ :=
        ihn hfirst.adjacent (fun q hq => (mem_of_listed hfirst.listed hq).2)
        (fun b hb => by
          obtain ⟨r, hr, i, hsb⟩ := hstarted hb
          exact (hrootp r hr).trans (hsb.to_below hw))
        (separate_bodiesOf hcode hrootp hfirst hstated₁ hsp) hstated₁
        (fun b hb => by
          -- the bodies get deeper as the fuel gets less
          obtain ⟨r, hr, i, hsb⟩ := hstarted hb
          obtain ⟨_, _, _, hstatement⟩ := hsb.isBody
          have hle := (hfuel r (List.mem_append_left _ hr)).2
          have hdepth := hw.depth_le_of_below hsb.1.to_below
          have hlt := hsb.depth_lt hw
          exact ⟨lt_size_of_isStatement hstatement, by omega⟩)
      have hext := hfirst.extends_.trans hnested.extends_
      have hbodies : bodiesOf t g₂ rest = bodiesOf t g rest := bodiesOf_congr hext hrest
      obtain ⟨new₂, hperm₂, hbehind, hfills₂⟩ := ihr hnested.adjacent
        (fun q hq => Nat.lt_of_lt_of_le (hrest q hq) hext.size_le)
        (fun b hb => hroot b (List.mem_append_right _ (hbodies ▸ hb))) (hbodies ▸ hsr)
          (hnested.stated hstated₁)
        (fun b hb => hfuel b (List.mem_append_right _ (hbodies ▸ hb)))
      rw [hbodies] at hbehind
      have hhere : g.Expands t (fun i => ∃ b ∈ bodiesAt t (g.point p), t.Below b i)
          (drawn ++ new₁) g₂ := by
        refine hfirst.append hnested (fun i hi => ?_) (fun i hi => ?_) fun {q q' m} hq hq' hn hn'
          hm hm' => ?_
        · obtain ⟨b, hb, hin⟩ := hi
          exact ⟨b, hb, hin.to_below⟩
        · obtain ⟨b, hb, hbelow⟩ := hi
          obtain ⟨r, hr, _, hsb⟩ := hstarted hb
          exact ⟨r, hr, (hsb.to_below hw).trans hbelow⟩
        · obtain ⟨r, hr, hin⟩ := hfirst.region hq hq' hm
          obtain ⟨b, hb, hbelow⟩ := hnested.region hn hn' hm'
          obtain ⟨r', hr', _, hsb⟩ := hstarted hb
          refine hsb.not_below_inside hcode (hrootp r hr) ?_ hin hbelow
          by_cases hrr : r' = r
          · exact .inl hrr
          · exact .inr (hsp.asunder hr' hr hrr)
      have hall :
          g.Expands t (fun i => ∃ b ∈ bodiesAt t (g.point p) ++ bodiesOf t g rest, t.Below b i)
            (drawn ++ new₁ ++ new₂) g₃ := by
        refine hhere.append hbehind (fun i hi => ?_) (fun i hi => ?_) fun {q q' m} hq hq' hr hr'
          hm hm' => ?_
        · exact hi.imp fun b hb => ⟨List.mem_append_left _ hb.1, hb.2⟩
        · exact hi.imp fun b hb => ⟨List.mem_append_right _ hb.1, hb.2⟩
        · obtain ⟨b, hb, hbelow⟩ := hhere.region hq hq' hm
          obtain ⟨b', hb', hbelow'⟩ := hbehind.region hr hr' hm'
          exact hd' b hb b' hb' _ hbelow hbelow'
      have hnestedLt (q : PointId) (hq : q ∈ nested) : q < g₂.points.size := by
        rcases List.mem_append.mp (hperm₁.mem_iff.mp hq) with hq | hq
        · exact Nat.lt_of_lt_of_le (mem_of_listed hfirst.listed hq).2 hnested.extends_.size_le
        · exact (mem_of_listed hnested.listed hq).2
      refine ⟨drawn ++ new₁ ++ new₂, ?_, hall, fun b hb => ?_⟩
      · refine List.perm_iff_count.mpr fun q => ?_
        have hcount₁ := hperm₁.count_eq q
        have hcount₂ := hperm₂.count_eq q
        simp only [List.count_append, List.count_cons] at hcount₁ hcount₂ ⊢
        omega
      · rw [bodiesOf_cons, bodiesOf_append] at hb
        rcases List.mem_append.mp hb with hb | hb
        · have hext' := hnested.extends_.trans hbehind.extends_
          rw [bodiesAt_congr ((hfirst.extends_.trans hext').place hp)] at hb
          exact (henters b hb).mono hext'
        · rcases List.mem_append.mp hb with hb | hb
          · exact hfills₁.mono hbehind.extends_ hnestedLt b hb
          · exact hfills₂ b hb

end TreeScribe.Flow
