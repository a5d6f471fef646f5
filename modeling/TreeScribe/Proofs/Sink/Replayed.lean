import Mathlib.Data.List.Perm.Basic
import Mathlib.Data.List.TakeWhile
import TreeScribe.Proofs.Layout.Nested
import TreeScribe.Proofs.Sink.Layers

namespace TreeScribe

def starts (calls : List Call) : List NodeId :=
  calls.filterMap fun
    | .start i => some i
    | _ => none

theorem mem_starts {x : NodeId} {l : List Call} : x ∈ starts l ↔ .start x ∈ l := by
  rw [starts, List.mem_filterMap]
  constructor
  · rintro ⟨c, hc, hx⟩
    cases c with
    | start j =>
        cases hx
        exact hc
    | _ => cases hx
  · exact fun h => ⟨_, h, rfl⟩

namespace Tree

def replayed (t : Tree) (i : NodeId) : List Call :=
  match t.kind i with
  | .special k => [.start i, .special k, .finish i]
  | _ => []

def replays (t : Tree) (nodes : List NodeId) : List Call := nodes.flatMap t.replayed

def specials (t : Tree) (nodes : List NodeId) : List NodeId :=
  nodes.filter fun i => (t.kind i).isSpecial

def specialsIn (t : Tree) (i : NodeId) (calls : List Call) : List NodeId :=
  (t.specials (starts calls)).filter fun c => t.parent c = some i

/-- The roles in which a node writes words of its own, or a block, whatever its children there
are. -/
def WritesIn (t : Tree) (i : NodeId) (r : Role) : Prop :=
  r.isToken = true ∨ r = .modifier ∨ r = .identifier ∨ (t.kind i).bracesIn r = true ∨
    r = t.role i ∧ (t.kind i = .expression .thisRef ∨ t.kind i = .expression .baseRef)

instance (t : Tree) (i : NodeId) (r : Role) : Decidable (t.WritesIn i r) :=
  inferInstanceAs (Decidable
      (r.isToken = true ∨ r = .modifier ∨ r = .identifier ∨ (t.kind i).bracesIn r = true ∨
    r = t.role i ∧ (t.kind i = .expression .thisRef ∨ t.kind i = .expression .baseRef)))

/-- No comment or directive stands where its parent writes something else. -/
def SpecialsInPlace (t : Tree) : Prop :=
  ∀ x p, t.parent x = some p → (t.kind x).isSpecial = true → ¬ t.WritesIn p (t.role x)

/-- What the calls around a call must be. A comment or directive is written at once. Any other node
has its comments and directives written in their order, behind its start, up to right behind its
finish. What is written as a comment or directive is the node just started, or stands for an
expression that could not be built. -/
def Tells (t : Tree) (before : List Call) (c : Call) (after : List Call) : Prop :=
  match c with
  | .start i =>
    if (t.kind i).isSpecial then ∃ k rest, t.kind i = .special k ∧
      after = .special k :: .finish i :: rest
    else ∃ inside left rest, after = inside ++ .finish i :: (t.replays left ++ rest) ∧
      t.specialsIn i inside ++ left = t.specials (t.children i)
  | .special k => ∃ rest i, before = rest ++ [.start i] ∧
    (t.kind i = .special k ∨ t.kind i = .expression .error ∧ k = .comment .block " error ")
  | _ => True

def Told (t : Tree) (calls : List Call) : Prop :=
  ∀ before c after, calls = before ++ c :: after → t.Tells before c after

variable {t : Tree} {i j : NodeId} {calls calls' before after : List Call}
  {nodes nodes' : List NodeId} {c : Call}

theorem starts_append : starts (calls ++ calls') = starts calls ++ starts calls' :=
  List.filterMap_append

theorem specials_append : t.specials (nodes ++ nodes') = t.specials nodes ++ t.specials nodes' :=
  List.filter_append ..

theorem specialsIn_append :
    t.specialsIn i (calls ++ calls') = t.specialsIn i calls ++ t.specialsIn i calls' := by
  simp only [specialsIn, starts_append, specials_append, List.filter_append]

theorem replays_append : t.replays (nodes ++ nodes') = t.replays nodes ++ t.replays nodes' :=
  List.flatMap_append

theorem replayed_of_not_special (hi : (t.kind i).isSpecial = false) : t.replayed i = [] := by
  unfold replayed
  cases hk : t.kind i with
  | special k => simp [hk, Kind.isSpecial] at hi
  | _ => rfl

theorem replayed_of_special (hi : (t.kind i).isSpecial = true) :
    ∃ k, t.kind i = .special k ∧ t.replayed i = [.start i, .special k, .finish i] := by
  unfold replayed
  cases hk : t.kind i with
  | special k => exact ⟨k, rfl, rfl⟩
  | _ => simp [hk, Kind.isSpecial] at hi

theorem replays_specials : t.replays (t.specials nodes) = t.replays nodes := by
  induction nodes with
  | nil => rfl
  | cons i nodes ih =>
      rw [specials] at ih ⊢
      cases hi : (t.kind i).isSpecial with
      | true =>
          simp only [List.filter_cons, hi, if_true, replays, List.flatMap_cons] at ih ⊢; rw [ih]
      | false =>
          simp only [List.filter_cons, hi, replays, List.flatMap_cons, replayed_of_not_special hi]
            at ih ⊢
          exact ih

theorem starts_replays : starts (t.replays nodes) = t.specials nodes := by
  induction nodes with
  | nil => rfl
  | cons i nodes ih =>
      rw [replays, List.flatMap_cons, starts_append, ← replays, ih, specials, specials,
        List.filter_cons]
      cases hi : (t.kind i).isSpecial with
      | true =>
          obtain ⟨k, -, hr⟩ := replayed_of_special hi
          rw [hr]
          rfl
      | false =>
          rw [replayed_of_not_special hi]
          rfl

theorem starts_node {nodes : List NodeId} :
    starts (.start i :: (calls ++ .finish i :: t.replays nodes)) = i ::
      (starts calls ++ t.specials nodes) := by
  rw [← starts_replays, ← starts_append]
  simp [starts]

theorem specialsIn_replays (hn : ∀ c ∈ nodes, t.parent c = some i) :
    t.specialsIn i (t.replays nodes) = t.specials nodes := by
  have hs : t.specials (t.specials nodes) = t.specials nodes := by simp [specials]
  rw [specialsIn, starts_replays, hs]
  refine List.filter_eq_self.mpr fun c hc => ?_
  simp [hn c (List.mem_of_mem_filter hc)]

theorem Tells.mono (h : t.Tells before c after) (b a : List Call) :
    t.Tells (b ++ before) c (after ++ a) := by
  cases c with
  | start i =>
      simp only [Tells] at h ⊢
      split at h
      · rename_i hi
        obtain ⟨k, rest, hk, rfl⟩ := h
        rw [if_pos hi]
        exact ⟨k, rest ++ a, hk, rfl⟩
      · rename_i hi
        obtain ⟨inside, left, rest, rfl, hs⟩ := h
        rw [if_neg hi]
        exact ⟨inside, left, rest ++ a, by simp, hs⟩
  | special k =>
      obtain ⟨rest, i, rfl, hi⟩ := h
      exact ⟨b ++ rest, i, by simp, hi⟩
  | _ => trivial

namespace Told

theorem nil : t.Told [] := by simp [Told]

theorem append (h : t.Told calls) (h' : t.Told calls') : t.Told (calls ++ calls') := by
  intro before c after he
  rcases split_append he with ⟨b, rfl, rfl⟩ | ⟨b, rfl, rfl⟩
  · exact (h before c b rfl).mono [] calls'
  · simpa using (h' b c after rfl).mono calls []

theorem word (hs : ∀ i, c ≠ .start i) (hk : ∀ k, c ≠ .special k) : t.Told [c] := by
  intro before d after he
  cases before with
  | nil =>
      cases he
      cases c with
      | start i => exact absurd rfl (hs i)
      | special k => exact absurd rfl (hk k)
      | _ => trivial
  | cons _ before => simp at he

theorem replayed : t.Told (t.replayed i) := by
  intro before c after he
  cases hi : (t.kind i).isSpecial with
  | false =>
      rw [replayed_of_not_special hi] at he
      simp at he
  | true =>
      obtain ⟨k, hk, hr⟩ := replayed_of_special hi
      rw [hr] at he
      rcases before with _ | ⟨_, _ | ⟨_, _ | ⟨_, before⟩⟩⟩
      · cases he
        simp only [Tells, hi, if_true]
        exact ⟨k, [], hk, rfl⟩
      · cases he
        exact ⟨[], i, rfl, .inl hk⟩
      · cases he
        trivial
      · simp at he

theorem replays : t.Told (t.replays nodes) := by
  induction nodes with
  | nil => exact nil
  | cons i nodes ih => exact replayed.append ih

theorem node {inside : List Call} {left : List NodeId} (hi : (t.kind i).isSpecial = false)
    (hinside : ∀ before c after, inside = before ++ c :: after →
      t.Tells (.start i :: before) c after)
    (hs : t.specialsIn i inside ++ t.specials left = t.specials (t.children i)) :
    t.Told (.start i :: (inside ++ .finish i :: t.replays left)) := by
  intro before c after he
  cases before with
  | nil =>
      cases he
      simp only [Tells, hi, Bool.false_eq_true, if_false]
      exact ⟨inside, t.specials left, [], by rw [replays_specials, List.append_nil], hs⟩
  | cons d before =>
      rw [List.cons_append] at he
      obtain ⟨hd, htail⟩ := List.cons.inj he
      subst hd
      rcases split_append htail with ⟨b, rfl, rfl⟩ | ⟨b, hb, rfl⟩
      · simpa using (hinside before c b rfl).mono [] (.finish i :: t.replays left)
      · have hfinish : t.Told (.finish i :: t.replays left) :=
          (word (c := .finish i) (by simp) (by simp)).append replays
        simpa using (hfinish b c after hb).mono (.start i :: inside) []

end Told

end Tree

namespace Replaying

variable {W : Type} [Sink W] {t : Tree} {i : NodeId} {nodes kids : List NodeId} {inner : W}

theorem replay_eq (i : NodeId) : replay t inner i = Sink.putAll t inner (t.replayed i) := by
  unfold replay Tree.replayed
  cases t.kind i <;> rfl

theorem replayAll_eq : replayAll t inner nodes = Sink.putAll t inner (t.replays nodes) := by
  unfold replayAll
  induction nodes generalizing inner with
  | nil => rfl
  | cons i nodes ih =>
      rw [List.foldl_cons, ih, replay_eq]
      simp only [Tree.replays, List.flatMap_cons, Sink.putAll, List.foldl_append]

theorem passTo_split {p : NodeId → Bool} {pre post : List NodeId} {x : NodeId}
    (hpre : ∀ y ∈ pre, p y = false) (hx : p x = true) (outer : List (List NodeId)) :
    passTo t p ⟨inner, (pre ++ x :: post) :: outer⟩ =
      ⟨Sink.putAll t inner (t.replays pre), post :: outer⟩ := by
  have hp : ∀ y ∈ pre, (!p y) = true := fun y hy => by rw [hpre y hy]; rfl
  simp only [passTo, List.dropWhile_append_of_pos hp, List.takeWhile_append_of_pos hp,
    List.dropWhile_cons,
    List.takeWhile_cons, hx, Bool.not_true, Bool.false_eq_true, if_false, List.append_nil,
    replayAll_eq]

theorem passTo_none {p : NodeId → Bool} (h : ∀ y ∈ kids, p y = false) (outer : List (List NodeId)) :
    passTo t p ⟨inner, kids :: outer⟩ = ⟨inner, kids :: outer⟩ := by
  have hp : kids.dropWhile (!p ·) = [] :=
    List.dropWhile_eq_nil_iff.mpr fun y hy => by rw [h y hy]; rfl
  simp only [passTo, hp]

theorem exists_passTo (t : Tree) (p : NodeId → Bool) (kids : List NodeId) :
    ∃ passed rest, passed <+: kids ∧ rest <:+ kids ∧ ∀ {W : Type} [Sink W] (inner : W) outer,
      passTo t p ⟨inner, kids :: outer⟩ =
      ⟨Sink.putAll t inner (t.replays passed), rest :: outer⟩ := by
  cases h : kids.find? p with
  | none =>
      have hnone : ∀ y ∈ kids, p y = false :=
        fun y hy => by simpa using List.find?_eq_none.mp h y hy
      exact ⟨[], kids, List.nil_prefix, List.suffix_refl _,
        fun inner outer => passTo_none hnone outer⟩
  | some x =>
      obtain ⟨hx, pre, post, rfl, hpre⟩ := List.find?_eq_some_iff_append.mp h
      exact ⟨pre, post, List.prefix_append _ _,
        (List.suffix_cons x post).trans (List.suffix_append _ _),
        fun inner outer => passTo_split (fun y hy => by simpa using hpre y hy) hx outer⟩

/-- Passing children up to one that is no comment and no directive replays those that are passed. -/
theorem passTo_eq {p : NodeId → Bool} (hp : ∀ x ∈ kids, p x = true → (t.kind x).isSpecial = false) :
    ∃ passed rest, kids = passed ++ rest ∧ ∀ {W : Type} [Sink W] (inner : W) outer,
      passTo t p ⟨inner, kids :: outer⟩ =
      ⟨Sink.putAll t inner (t.replays passed), rest :: outer⟩ := by
  cases h : kids.find? p with
  | none =>
      have hnone : ∀ y ∈ kids, p y = false :=
        fun y hy => by simpa using List.find?_eq_none.mp h y hy
      exact ⟨[], kids, rfl, fun inner outer => passTo_none hnone outer⟩
  | some x =>
      obtain ⟨hx, pre, post, rfl, hpre⟩ := List.find?_eq_some_iff_append.mp h
      have hxs := hp x (by simp) hx
      refine ⟨pre ++ [x], post, by simp, fun inner outer => ?_⟩
      rw [Tree.replays_append, Tree.replays, Tree.replays, List.flatMap_singleton,
        Tree.replayed_of_not_special hxs, List.append_nil]
      exact passTo_split (fun y hy => by simpa using hpre y hy) hx outer

end Replaying

/-- For the calls `l` of a node, replaying sends `out`, if its children `kids` are not passed before
and `rest` are not passed then. -/
structure Sends (t : Tree) (kids : List NodeId) (l out : List Call)
    (rest : List NodeId) : Prop where
  run {W : Type} [Sink W] (inner : W) (outer : List (List NodeId)) :
    Sink.putAll t (⟨inner, kids :: outer⟩ : Replaying W) l =
      ⟨Sink.putAll t inner out, rest :: outer⟩

namespace Sends

variable {t : Tree} {j : NodeId} {kids rest rest' passed : List NodeId}
  {l l' out out' m : List Call} {c : Call}

theorem refl : Sends t kids [] [] kids := ⟨fun _ _ => rfl⟩

theorem trans (h : Sends t kids l out rest) (h' : Sends t rest l' out' rest') :
    Sends t kids (l ++ l') (out ++ out') rest' := by
  refine ⟨fun inner outer => ?_⟩
  rw [Sink.putAll_append, h.run, h'.run, Sink.putAll_append]

theorem forward (hput : ∀ {W : Type} [Sink W] (w : Replaying W), Sink.put t w c = w.forward t c) :
    Sends t kids [c] [c] kids := ⟨fun _ _ => hput _⟩

theorem pass {p : NodeId → Bool}
    (hput : ∀ {W : Type} [Sink W] (w : Replaying W), Sink.put t w c = (w.passTo t p).forward t c)
    (hpass : ∀ {W : Type} [Sink W] (inner : W) outer, Replaying.passTo t p ⟨inner, kids :: outer⟩ =
      ⟨Sink.putAll t inner (t.replays passed), rest :: outer⟩) :
        Sends t kids [c] (t.replays passed ++ [c]) rest := by
  refine ⟨fun inner outer => ?_⟩
  rw [Sink.putAll_append]
  exact (hput _).trans (by rw [hpass]; rfl)

theorem node (hpass : ∀ {W : Type} [Sink W] (inner : W) outer,
      Replaying.passTo t (· == j) ⟨inner, kids :: outer⟩ =
      ⟨Sink.putAll t inner (t.replays passed), rest' :: outer⟩)
        (h : Sends t (t.children j) m out rest) :
    Sends t kids (.start j :: (m ++ [.finish j]))
      (t.replays passed ++ .start j :: (out ++ .finish j :: t.replays rest)) rest' := by
  refine ⟨fun inner outer => ?_⟩
  have hrun := h.run (Sink.put t (Sink.putAll t inner (t.replays passed)) (.start j))
    (rest' :: outer)
  simp only [Sink.putAll, List.foldl_cons, List.foldl_append, List.foldl_nil] at hrun hpass ⊢
  simp only [Sink.put, Replaying.put, hpass] at hrun ⊢
  rw [hrun]
  simp only [Replaying.forward, Replaying.replayAll_eq, Sink.putAll]

end Sends

/-- For the calls `l` of the node `i`, replaying sends `out`, if the children `kids` are not passed
before and `rest` are not passed then; `nodes` are the nodes that `l` starts. -/
structure Replays (t : Tree) (i : NodeId) (kids : List NodeId) (l : List Call) (nodes : List NodeId)
    (out : List Call) (rest : List NodeId) : Prop where
  run {W : Type} [Sink W] (inner : W) (outer : List (List NodeId)) :
    Sink.putAll t (⟨inner, kids :: outer⟩ : Replaying W) l =
      ⟨Sink.putAll t inner out, rest :: outer⟩
  order : t.specialsIn i out ++ t.specials rest = t.specials kids
  perm : (starts out ++ t.specials rest).Perm
    (t.specials kids ++ nodes.flatMap fun n => n :: t.specials (t.children n))

variable {t : Tree} {i j : NodeId} {kids rest rest' nodes nodes' : List NodeId}
  {l l' out out' m : List Call} {c : Call}
  {r : Role}

namespace Replays

theorem sends (h : Replays t i kids l nodes out rest) : Sends t kids l out rest := ⟨h.run⟩

theorem refl : Replays t i kids [] [] [] kids := ⟨fun _ _ => rfl, rfl, by simp [starts]⟩

theorem trans (h : Replays t i kids l nodes out rest) (h' : Replays t i rest l' nodes' out' rest') :
    Replays t i kids (l ++ l') (nodes ++ nodes') (out ++ out') rest' := by
  refine ⟨(h.sends.trans h'.sends).run, ?_, ?_⟩
  · rw [Tree.specialsIn_append, List.append_assoc, h'.order, h.order]
  · refine List.perm_iff_count.mpr fun n => ?_
    have hn := h.perm.count_eq n
    have hn' := h'.perm.count_eq n
    simp only [Tree.starts_append, List.flatMap_append, List.count_append] at hn hn' ⊢
    omega

theorem forward (hput : ∀ {W : Type} [Sink W] (w : Replaying W), Sink.put t w c = w.forward t c)
    (hs : ∀ j, c ≠ .start j) : Replays t i kids [c] [] [c] kids := by
  have hc : starts [c] = [] := by
    cases c with
    | start j => exact absurd rfl (hs j)
    | _ => rfl
  refine ⟨fun inner outer => hput _, ?_, by simp [hc]⟩
  simp [Tree.specialsIn, hc, Tree.specials]

theorem pass {passed : List NodeId} (hkids : ∀ c ∈ passed, t.parent c = some i) {out : List Call}
    (hs : starts out = []) (h : Sends t (passed ++ rest) l (t.replays passed ++ out) rest) :
    Replays t i (passed ++ rest) l [] (t.replays passed ++ out) rest := by
  refine ⟨h.run, ?_, ?_⟩
  · have hout : t.specialsIn i out = [] := by simp [Tree.specialsIn, hs, Tree.specials]
    rw [Tree.specialsIn_append, Tree.specialsIn_replays hkids, hout, List.append_nil,
      Tree.specials_append]
  · simp [Tree.starts_append, Tree.starts_replays, hs, Tree.specials_append]

theorem node (ht : t.WellFormed) (hkids : ∀ c ∈ kids, t.parent c = some i)
    (hj : t.parent j = some i) (hjs : (t.kind j).isSpecial = false)
    (h : Replays t j (t.children j) m nodes out rest)
    (hn : ∀ n ∈ nodes, ∃ p, t.parent n = some p ∧ t.Below j p) :
    ∃ passed rest', kids = passed ++ rest' ∧
      Replays t i kids (.start j :: (m ++ [.finish j])) (nodes ++ [j])
        (t.replays passed ++ .start j :: (out ++ .finish j :: t.replays rest)) rest' := by
  obtain ⟨passed, rest', rfl, hpass⟩ := Replaying.passTo_eq (t := t) (p := (· == j))
    (show ∀ x ∈ kids, (x == j) = true → (t.kind x).isSpecial = false by simp_all)
  have hinside : ∀ x ∈ starts out ++ t.specials rest, t.parent x ≠ some i := by
    intro x hx hxi
    have hbelow : ∃ p, t.parent x = some p ∧ t.Below j p := by
      rcases List.mem_append.mp (h.perm.mem_iff.mp hx) with hx | hx
      · exact ⟨j, ht.mem_children.mp (List.mem_of_mem_filter hx), .self⟩
      · obtain ⟨n, hm, hx⟩ := List.mem_flatMap.mp hx
        obtain ⟨p, hp, hb⟩ := hn n hm
        rcases List.mem_cons.mp hx with rfl | hx
        · exact ⟨p, hp, hb⟩
        · exact ⟨n, ht.mem_children.mp (List.mem_of_mem_filter hx), hb.child hp⟩
    obtain ⟨p, hp, hb⟩ := hbelow
    cases hxi.symm.trans hp
    exact ht.not_below_of_parent hj hb
  refine ⟨passed, rest', rfl, (Sends.node hpass h.sends).run, ?_, ?_⟩
  · have hnone : t.specialsIn i (.start j :: (out ++ .finish j :: t.replays rest)) = [] := by
      rw [Tree.specialsIn, Tree.starts_node, List.filter_eq_nil_iff]
      intro x hx
      obtain ⟨hx, hxs⟩ := List.mem_filter.mp hx
      rcases List.mem_cons.mp hx with rfl | hx
      · simp [hjs] at hxs
      · simpa using hinside x hx
    rw [Tree.specialsIn_append, hnone,
      Tree.specialsIn_replays fun c hc => hkids c (List.mem_append_left _ hc), List.append_nil,
      Tree.specials_append]
  · refine List.perm_iff_count.mpr fun n => ?_
    have hcount := h.perm.count_eq n
    rw [Tree.starts_append, Tree.starts_replays, Tree.starts_node, Tree.specials_append]
    simp only [List.flatMap_append, List.flatMap_singleton, List.count_append, List.count_cons]
      at hcount ⊢
    omega

end Replays

namespace Tree

theorem SpecialsInPlace.of_writesIn (hs : t.SpecialsInPlace) (hp : t.parent j = some i)
    (hr : t.WritesIn i (t.role j)) : (t.kind j).isSpecial = false := by
  rw [← Bool.not_eq_true]
  exact fun hk => hs j i hp hk hr

theorem not_special_of_isVisited {k : Kind} (h : k.isVisited = true) : k.isSpecial = false := by
  cases k <;> first | rfl | cases h

theorem IsComposite.not_special (hs : t.SpecialsInPlace) (h : t.IsComposite i) :
    (t.kind i).isSpecial = false := by
  rcases h with ⟨p, hp, hb⟩ | ⟨hv, -⟩
  · exact hs.of_writesIn hp (.inr (.inr (.inr (.inl hb))))
  · exact not_special_of_isVisited hv

end Tree

theorem Replays.word (hs : t.SpecialsInPlace) (hkids : ∀ c ∈ kids, t.parent c = some i)
    (hr : t.WritesIn i r) (hput : ∀ {W : Type} [Sink W] (w : Replaying W),
      Sink.put t w c = (w.passToRole t r).forward t c)
    (hc : ∀ j, c ≠ .start j) : ∃ passed rest, kids = passed ++ rest ∧
      Replays t i kids [c] [] (t.replays passed ++ [c]) rest := by
  have hcode : ∀ x ∈ kids, decide (t.role x = r) = true → (t.kind x).isSpecial = false :=
    fun x hx hxr =>
    hs.of_writesIn (hkids x hx) (of_decide_eq_true hxr ▸ hr)
  obtain ⟨passed, rest, rfl, hpass⟩ :=
    Replaying.passTo_eq (t := t) (p := fun x => t.role x = r) hcode
  have hstarts : starts [c] = [] := by
    cases c with
    | start j => exact absurd rfl (hc j)
    | _ => rfl
  exact ⟨passed, rest, rfl,
    .pass (fun c hc => hkids c (List.mem_append_left _ hc)) hstarts (.pass hput hpass)⟩

/-- What a composite node says itself is sent on behind some of its comments. -/
theorem Tree.Says.replays (hs : t.SpecialsInPlace) (hkids : ∀ c ∈ kids, t.parent c = some i)
    (h : t.Says i c) :
    ∃ passed rest, kids = passed ++ rest ∧
      Replays t i kids [c] [] (t.replays passed ++ [c]) rest := by
  cases h with
  | token text => exact Replays.word (r := .token text) hs hkids (.inl rfl) (fun _ => rfl) (by simp)
  | keyword word =>
      exact Replays.word (r := .token word) hs hkids (.inl rfl) (fun _ => rfl) (by simp)
  | modifier m =>
      exact Replays.word (r := .modifier) hs hkids (.inr (.inl rfl)) (fun _ => rfl) (by simp)
  | @name j hj hr =>
      refine Replays.word (r := .identifier) hs hkids (.inr (.inr (.inl rfl)))
        (fun w => ?_) (by simp)
      have hrole : Replaying.identifierRole t j = .identifier := by
        simp [Replaying.identifierRole, hr]
      simp only [Sink.put, Replaying.put, hrole]

theorem Tree.Told.passed {passed : List NodeId} (h : t.Told [c]) :
    t.Told (t.replays passed ++ [c]) :=
  Tree.Told.replays.append h

theorem Tree.Says.told (h : t.Says i c) : t.Told [c] := by
  cases h <;> exact Tree.Told.word (by simp) (by simp)

theorem Tree.IsWord.replays (ht : t.WellFormed) (hs : t.SpecialsInPlace) (hc : t.IsWord i c) :
    ∃ out rest,
      Replays t i (t.children i) [c] [] out rest ∧
        ∀ before d after, out = before ++ d :: after → t.Tells (.start i :: before) d after := by
  have htells {out : List Call} (h : t.Told out) : ∀ before d after, out = before ++ d :: after →
      t.Tells (.start i :: before) d after := fun before d after he => by
    simpa using (h before d after he).mono [.start i] []
  have hkids (c : NodeId) (hc : c ∈ t.children i) : t.parent c = some i := ht.mem_children.mp hc
  have hword := hc.2
  unfold Tree.wordOf? at hword
  split at hword
  · cases hword
    exact ⟨_, _, .forward (fun _ => rfl) (by simp), htells (.word (by simp) (by simp))⟩
  · cases hword
    exact ⟨_, _, .forward (fun _ => rfl) (by simp), htells (.word (by simp) (by simp))⟩
  · rename_i hk
    cases hword
    obtain ⟨passed, rest, -, h⟩ := Replays.word (c := .keyword (t.role i) "this") hs hkids
      (.inr (.inr (.inr (.inr ⟨rfl, .inl hk⟩)))) (fun _ => rfl) (by simp)
    exact ⟨_, rest, h, htells (Tree.Told.passed (.word (by simp) (by simp)))⟩
  · rename_i hk
    cases hword
    obtain ⟨passed, rest, -, h⟩ := Replays.word (c := .keyword (t.role i) "base") hs hkids
      (.inr (.inr (.inr (.inr ⟨rfl, .inr hk⟩)))) (fun _ => rfl) (by simp)
    exact ⟨_, rest, h, htells (Tree.Told.passed (.word (by simp) (by simp)))⟩
  · rename_i hk
    cases hword
    refine ⟨_, _, .forward (fun _ => rfl) (by simp), fun before d after he => ?_⟩
    cases before with
    | nil =>
        cases he
        exact ⟨[], i, rfl, .inr ⟨hk, rfl⟩⟩
    | cons _ before => simp at he
  · cases hword
    exact ⟨_, _, .forward (fun _ => rfl) (by simp), htells (.word (by simp) (by simp))⟩
  · cases hword

/-- Between the start and the finish of a node, and behind the finish, its comments and directives
are replayed. -/
theorem Fills.replays (ht : t.WellFormed)
    (hs : t.SpecialsInPlace) {before : List Call} {spots : List Spot} {plan : Plan}
    (h : Fills t i before spots plan l) (hkids : ∀ c ∈ kids, t.parent c = some i) : ∃ out rest,
      Replays t i kids l (plan.map (·.1)) out rest ∧ t.Told out := by
  induction h generalizing kids with
  | nil => exact ⟨[], kids, .refl, .nil⟩
  | @blank i before l spots plan c hc _ ih =>
      obtain ⟨out, rest, h', hout⟩ := ih hkids
      have hforward : Replays t i kids [c] [] [c] kids :=
        .forward (Replaying.put_of_isBlank hc) (by rintro j rfl; cases hc)
      exact ⟨_, rest, hforward.trans h',
        (Tree.Told.word (by rintro j rfl; cases hc) (by rintro k rfl; cases hc)).append hout⟩
  | word hc _ ih =>
      obtain ⟨passed, rest, rfl, hw⟩ := hc.replays hs hkids
      obtain ⟨out, rest', h', hout⟩ := ih fun c hc => hkids c (List.mem_append_right _ hc)
      exact ⟨_, rest', hw.trans h', (Tree.Told.passed hc.told).append hout⟩
  | @leaf i j before l spots plan c hj hc _ ih =>
      have hjs := Tree.not_special_of_isVisited hc.1
      obtain ⟨inside, left, hb, htells⟩ := hc.replays ht hs
      obtain ⟨passed, rest, rfl, hnode⟩ := Replays.node ht hkids hj hjs hb (by simp)
      obtain ⟨out, rest', h', hout⟩ := ih fun c hc => hkids c (List.mem_append_right _ hc)
      refine ⟨t.replays passed ++ .start j :: (inside ++ .finish j :: t.replays left) ++ out, rest',
        by simpa using hnode.trans h', ?_⟩
      exact (Tree.Told.replays.append (.node hjs htells hb.order)).append hout
  | @child i j before m l inner spots under plan hj hk _ hm _ ihm ih =>
      have hjs := hk.not_special hs
      obtain ⟨inside, left, hb, hinside⟩ := ihm fun c hc => ht.mem_children.mp hc
      obtain ⟨passed, rest, rfl, hnode⟩ := Replays.node ht hkids hj hjs hb fun n hn => by
        obtain ⟨e, he, rfl⟩ := List.mem_map.mp hn
        exact hm.above he
      obtain ⟨out, rest', h', hout⟩ := ih fun c hc => hkids c (List.mem_append_right _ hc)
      refine ⟨t.replays passed ++ .start j :: (inside ++ .finish j :: t.replays left) ++ out, rest',
        by simpa using hnode.trans h', ?_⟩
      refine (Tree.Told.replays.append
        (.node hjs (fun before d after he => ?_) hb.order)).append hout
      simpa using (hinside before d after he).mono [.start j] []

end TreeScribe
