import TreeScribe.Proofs.Layout.Filled
import TreeScribe.Proofs.Render.Formatting
import TreeScribe.Proofs.Sink.Replayed

namespace TreeScribe

variable {t : Tree} {p : Policy} {i : NodeId} {before l out : List Call} {spots : List Spot}
  {plan : Plan}
  {nodes rest : List NodeId}

namespace Body

theorem not_special (hs : t.SpecialsInPlace) (h : Body t i before spots plan l) :
    (t.kind i).isSpecial = false := by
  cases h with
  | word hc => exact Tree.not_special_of_isVisited hc.1
  | composite hk => exact hk.not_special hs

theorem replays (ht : t.WellFormed) (hs : t.SpecialsInPlace) (h : Body t i before spots plan l) :
    ∃ out rest,
      Replays t i (t.children i) l (plan.map (·.1)) out rest ∧
        ∀ before d after, out = before ++ d :: after → t.Tells (.start i :: before) d after := by
  cases h with
  | word hc => exact hc.replays ht hs
  | composite hk _ h =>
      obtain ⟨out, rest, hr, hout⟩ := h.replays ht hs fun c hc => ht.mem_children.mp hc
      exact ⟨out, rest, hr, fun before d after he =>
        by simpa using (hout before d after he).mono [.start i] []⟩

end Body

theorem Tree.WellFormed.nodup_specials (ht : t.WellFormed) (hn : nodes.Nodup)
    (hs : ∀ n ∈ nodes, (t.kind n).isSpecial = false) :
    (nodes.flatMap fun n => n :: t.specials (t.children n)).Nodup := by
  have hspecial {n x : NodeId} (hx : x ∈ t.specials (t.children n)) :
      t.parent x = some n ∧ (t.kind x).isSpecial = true :=
    ⟨ht.mem_children.mp (List.mem_of_mem_filter hx), (List.mem_filter.mp hx).2⟩
  refine List.nodup_flatMap.mpr
    ⟨fun n hm => List.nodup_cons.mpr ⟨fun hx => ?_, (ht.linked.nodup n).filter _⟩, ?_⟩
  · have := (hspecial hx).2
    rw [hs n hm] at this
    cases this
  · refine (List.nodup_iff_pairwise_ne.mp hn).imp_of_mem fun {n n'} hm hm' hne x hx hx' => ?_
    rcases List.mem_cons.mp hx with rfl | hx
    · rcases List.mem_cons.mp hx' with rfl | hx'
      · exact hne rfl
      · have := (hspecial hx').2
        rw [hs x hm] at this
        cases this
    · rcases List.mem_cons.mp hx' with rfl | hx'
      · have := (hspecial hx).2
        rw [hs x hm'] at this
        cases this
      · have hp := (hspecial hx).1
        rw [(hspecial hx').1] at hp
        exact hne (Option.some.inj hp).symm

/-- The nodes started, with the comments and directives replayed, are those of the layout with
theirs. -/
theorem Body.starts_replays (ht : t.WellFormed) (hs : t.SpecialsInPlace)
    (h : Body t i before spots plan l)
    (hr : Replays t i (t.children i) l (plan.map (·.1)) out rest) :
    (starts (.start i :: (out ++ .finish i :: t.replays rest))).Perm
        ((i :: plan.map (·.1)).flatMap fun n => n :: t.specials (t.children n)) ∧
      ((i :: plan.map (·.1)).flatMap fun n => n :: t.specials (t.children n)).Nodup ∧
      ∀ n ∈ i :: plan.map (·.1), (t.kind n).isSpecial = false := by
  have hns : ∀ n ∈ i :: plan.map (·.1), (t.kind n).isSpecial = false := by
    intro n hn
    rcases List.mem_cons.mp hn with rfl | hn
    · exact h.not_special hs
    · obtain ⟨e, he, rfl⟩ := List.mem_map.mp hn
      obtain ⟨_, _, _, hb⟩ := h.body he
      exact hb.not_special hs
  refine ⟨?_, ht.nodup_specials (h.nodup_plan ht) hns, hns⟩
  rw [Tree.starts_node, List.flatMap_cons, List.cons_append]
  exact hr.perm.cons i

theorem Body.putAll_replaying {W : Type} [Sink W] (h : Replays t i (t.children i) l nodes out rest)
    (inner : W) : Sink.putAll t (Replaying.new inner) (.start i :: (l ++ [.finish i])) =
      ⟨Sink.putAll t inner (.start i :: (out ++ .finish i :: t.replays rest)), []⟩ := by
  have hrun := h.run (Sink.put t inner (.start i)) []
  simp only [Sink.putAll, List.foldl_cons, List.foldl_append, List.foldl_nil] at hrun ⊢
  simp only [Sink.put, Replaying.put, Replaying.new, Replaying.passTo] at hrun ⊢
  rw [hrun]
  simp only [Replaying.forward, Replaying.replayAll_eq, Sink.putAll]

namespace Tree

def codeWritten (t : Tree) (p : Policy) (i : NodeId) : List Call :=
  (t.callsWritten p i).filter fun c => !c.isBlank

/-- Writing succeeds whatever the caller would have given up at. -/
theorem write_never {c : Cancellation} {r : Rendering} (hr : t.write p c i = .ok r) :
    (t.writeLogged p i).2 = none ∧ t.write p .never i = .ok r ∧
      t.render p c i (.new (Composed.new p)) = t.render p .never i (.new (Composed.new p)) := by
  rw [write] at hr
  rcases hs : t.render p c i (.new (Composed.new p)) with ⟨s, e⟩
  rw [hs] at hr
  cases e with
  | some e => cases hr
  | none =>
      have hn : t.render p .never i (.new (Composed.new p)) = (s, none) := Progress.run_never hs
      refine ⟨?_, ?_, hn.symm⟩
      · rw [render_unlogged] at hn
        exact congrArg Prod.snd hn
      · rw [write, hn]
        exact hr

theorem codeCalls_ofNode (ht : t.WellFormed) (hf : (Layout.ofNode t p i).failure? = none) :
    (Layout.ofNode t p i).codeCalls = [] ∨ ∃ l spots plan,
      (Layout.ofNode t p i).codeCalls = .start i :: (l ++ [.finish i]) ∧
      Body t i [.start i] spots plan l := by
  rw [← Layout.code_issued (b := true) hf]
  rcases Layout.visits_ofNodeWithin ht t.size i hf true []
    with he | ⟨m, spots, plan, tail, he, hb, htail⟩
  · rw [Layout.ofNode, he]
    exact .inl rfl
  · obtain ⟨spots', plan', hb, -⟩ := hb.code [.start i]
    have hnone : tail.filter (fun c => !c.isBlank) = [] := by
      rw [List.filter_eq_nil_iff]
      intro c hc
      simp [htail c hc]
    refine .inr ⟨_, spots', plan', ?_, hb⟩
    rw [Layout.ofNode, he, List.filter_cons_of_pos rfl, List.filter_append,
      List.filter_cons_of_pos rfl, hnone]

theorem code_writeLogged : (t.writeLogged p i).1.sink.code =
    Sink.putAll t (Replaying.new CallLog.empty) (Layout.ofNode t p i).codeCalls :=
  (Progress.run_code (t := t) LoggedText.skims_code (Layout.ofNode t p i)
    (.new (LoggedText.new p))).1

theorem codeWritten_eq : t.codeWritten p i = (t.writeLogged p i).1.sink.code.inner.calls := by
  rw [codeWritten, callsWritten, Logged.calls, List.filter_reverse]
  rfl

/-- A text consists of the words of the calls of its layout, with the comments and directives
replayed. -/
theorem written_of_write {c : Cancellation} {r : Rendering} (hr : t.write p c i = .ok r) :
    (Layout.ofNode t p i).failure? = none ∧
      Spread p.indentation (Call.words t (LoggedText.limit p) (t.callsWritten p i)) r.text ∧
      t.codeWritten p i =
        (Sink.putAll t (Replaying.new CallLog.empty)
          (Layout.ofNode t p i).codeCalls).inner.calls := by
  obtain ⟨hlogged, hnever, -⟩ := write_never hr
  have hf := fails_writeLogged (t := t) (p := p) (i := i)
  have htext : r.text = (t.writeLogged p i).1.sink.log.inner.output := by
    rw [write_eq_ok hlogged] at hnever
    exact congrArg Rendering.text (Except.ok.inj hnever).symm
  refine ⟨?_, htext ▸ spread_writeLogged, by rw [codeWritten_eq, code_writeLogged]⟩
  rw [hlogged] at hf
  cases hd : (Layout.ofNode t p i).failure? with
  | none => rfl
  | some d =>
      rw [hd] at hf
      obtain ⟨_, hl⟩ := hf
      cases hl

end Tree

/-- Comments and directives are written once. When a tree is written in which none of them stands
where its parent writes something else, the text consists of calls in which no node is started
twice; comments and directives are written as soon as they are started, children of nodes that were
started and nothing else, apart from what stands for expressions that could not be built; and those
of any other node that is started stand in their order behind its start, up to right behind its
finish. In the end no child is left to be passed. -/
theorem write_specials_once (t : Tree) (p : Policy) (c : Cancellation) (i : NodeId) (r : Rendering)
    (ht : t.WellFormed) (hs : t.SpecialsInPlace) (hr : t.write p c i = .ok r) :
    Spread p.indentation (Call.words t (LoggedText.limit p) (t.callsWritten p i)) r.text ∧
      (starts (t.codeWritten p i)).Nodup ∧ t.Told (t.codeWritten p i) ∧
      (∀ x ∈ starts (t.codeWritten p i), (t.kind x).isSpecial = true →
        ∃ n ∈ starts (t.codeWritten p i), t.parent x = some n ∧ (t.kind n).isSpecial = false) ∧
      (t.render p c i (.new (Composed.new p))).1.sink.isBalanced = true := by
  obtain ⟨hfail, hspread, hcode⟩ := Tree.written_of_write hr
  have hbalanced : (t.render p c i (.new (Composed.new p))).1.sink.remaining =
      (t.writeLogged p i).1.sink.code.remaining := by
    rw [(Tree.write_never hr).2.2, Tree.render_unlogged]
    rfl
  rw [hcode, Replaying.isBalanced, hbalanced, Tree.code_writeLogged]
  refine ⟨hspread, ?_⟩
  rcases Tree.codeCalls_ofNode ht hfail with he | ⟨l, spots, plan, he, hb⟩
  · rw [he]
    exact ⟨List.nodup_nil, Tree.Told.nil,
      by simp [starts, Sink.putAll, Replaying.new, CallLog.calls, CallLog.empty], rfl⟩
  · obtain ⟨out, rest, h, htells⟩ := hb.replays ht hs
    rw [he, Body.putAll_replaying h, CallLog.calls_putAll]
    obtain ⟨hperm, hnodup, hplan⟩ := hb.starts_replays ht hs h
    refine ⟨hperm.nodup_iff.mpr hnodup, .node (hb.not_special hs) htells h.order,
      fun x hx hxs => ?_, rfl⟩
    obtain ⟨n, hn, hx⟩ := List.mem_flatMap.mp (hperm.mem_iff.mp hx)
    have hns := hplan n hn
    rcases List.mem_cons.mp hx with rfl | hx
    · rw [hns] at hxs
      cases hxs
    · refine ⟨n, hperm.mem_iff.mpr (List.mem_flatMap.mpr ⟨n, hn, List.mem_cons_self⟩), ?_, hns⟩
      exact ht.mem_children.mp (List.mem_of_mem_filter hx)

/-- `{ /*a*/ return this; }` with a comment inside `this`, one behind it, and a directive at the end
of the block. -/
def commentedBlock : Tree :=
  .planted [.statement .block, .special (.comment .block "a"), .statement .return_,
      .expression .thisRef,
      .special (.comment .block "b"), .special (.comment .block "c"),
      .special (.directive .endRegion "")]
    [(1, .comment, 2), (1, .statement, 3), (1, .directive, 7), (3, .expression, 4),
      (3, .comment, 6), (4, .comment, 5)]

theorem write_specials_once_block : commentedBlock.WellFormed ∧ commentedBlock.SpecialsInPlace ∧
    ∃ r, commentedBlock.write .allman .never 1 = .ok r ∧
      r.text = "\x7b\n\t/*a*/return this/*b*/;\n\t/*c*/\x7d\n#endregion\n\n" ∧
      starts (commentedBlock.codeWritten .allman 1) = [1, 2, 3, 4, 5, 6, 7] ∧
      commentedBlock.Told (commentedBlock.codeWritten .allman 1) := by
  have hw : commentedBlock.WellFormed := Tree.wellFormed_planted _ _
  have hs : commentedBlock.SpecialsInPlace := by
    have hall : ∀ x < 8, ∀ p ∈ commentedBlock.parent x, (commentedBlock.kind x).isSpecial = true →
        ¬ commentedBlock.WritesIn p (commentedBlock.role x) := by decide +kernel
    exact fun x p hp => hall x (Tree.lt_of_parent hp) p hp
  have htext : commentedBlock.text .allman 1 =
      .ok "\x7b\n\t/*a*/return this/*b*/;\n\t/*c*/\x7d\n#endregion\n\n" := by
    decide +kernel
  refine ⟨hw, hs, ?_⟩
  cases hr : commentedBlock.write .allman .never 1 with
  | error e =>
      rw [Tree.text, hr] at htext
      cases htext
  | ok r =>
      rw [Tree.text, hr] at htext
      obtain ⟨-, -, htold, -⟩ := write_specials_once commentedBlock .allman .never 1 r hw hs hr
      exact ⟨r, rfl, Except.ok.inj htext, by decide +kernel, htold⟩

/-- A comment in the role of a keyword, and one in `this` where a comment is expected. -/
def misplacedComments : Tree :=
  .planted [.statement .return_, .special (.comment .block "x"), .statement .block,
      .expression .thisRef,
      .special (.comment .block "y")]
    [(1, .token "return", 2), (3, .comment, 4), (4, .comment, 5)]

/-- Neither comment is written, though the nodes that have them are. -/
theorem write_skips_misplaced : misplacedComments.WellFormed ∧
    (misplacedComments.text .allman 1 = .ok "return;\n" ∧
      misplacedComments.specials (misplacedComments.children 1) = [2] ∧
      starts (misplacedComments.codeWritten .allman 1) = [1]) ∧
    (misplacedComments.text .allman 4 = .ok "this" ∧
      misplacedComments.specials (misplacedComments.children 4) = [5] ∧
      starts (misplacedComments.codeWritten .allman 4) = [4]) :=
  ⟨Tree.wellFormed_planted _ _, by decide +kernel, by decide +kernel⟩

end TreeScribe
