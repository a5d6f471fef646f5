import TreeScribe.Proofs.Render.Specials
import TreeScribe.Proofs.Sink.Sent

namespace TreeScribe

variable {t : Tree} {p : Policy} {i b : NodeId} {l : List Call} {nodes : List NodeId}

namespace Replaying

variable {W : Type} [Sink W]

theorem inner_passTo (t : Tree) (p : NodeId → Bool) (w : Replaying W) :
    ∃ passed, (passTo t p w).inner = Sink.putAll t w.inner (t.replays passed) := by
  rcases w with ⟨inner, _ | ⟨kids, outer⟩⟩
  · exact ⟨[], rfl⟩
  · obtain ⟨passed, rest, -, -, h⟩ := exists_passTo t p kids
    exact ⟨passed, by rw [h]⟩

theorem inner_put (t : Tree) (w : Replaying W) (c : Call) : ∃ passed left,
    (Sink.put t w c).inner = Sink.putAll t w.inner (t.replays passed ++ c :: t.replays left) := by
  have hrole (p : NodeId → Bool)
    (hput : (Sink.put t w c).inner = Sink.put t (passTo t p w).inner c) :
      ∃ passed left, (Sink.put t w c).inner =
        Sink.putAll t w.inner (t.replays passed ++ c :: t.replays left) := by
    obtain ⟨passed, h⟩ := inner_passTo t p w
    exact ⟨passed, [], by rw [hput, h, Sink.putAll_append]; rfl⟩
  cases c with
  | start j => exact hrole (· == j) rfl
  | finish j =>
      rcases w with ⟨inner, _ | ⟨kids, outer⟩⟩
      · exact ⟨[], [], rfl⟩
      · exact ⟨[], kids, replayAll_eq⟩
  | identifier j => exact hrole (fun x => t.role x = identifierRole t j) rfl
  | keyword r _ | token r _ => exact hrole (fun x => t.role x = r) rfl
  | _ => exact ⟨[], [], rfl⟩

theorem put_start (t : Tree) (w : Replaying W) (b : NodeId) : ∃ passed outer,
    Sink.put t w (.start b) =
    ⟨Sink.putAll t w.inner (t.replays passed ++ [.start b]), t.children b :: outer⟩ := by
  obtain ⟨passed, h⟩ := inner_passTo t (· == b) w
  refine ⟨passed, (passTo t (· == b) w).remaining, ?_⟩
  rw [Sink.putAll_append, ← h]
  rfl

theorem put_finish (inner : W) (outer : List (List NodeId)) :
    Sink.put t (⟨inner, nodes :: outer⟩ : Replaying W) (.finish b) =
      ⟨Sink.putAll t inner (.finish b :: t.replays nodes), outer⟩ := by
  simp only [Sink.put, put, forward, replayAll_eq, Sink.putAll_cons]

/-- What replaying sends are the calls, with comments and directives of the tree. -/
theorem exists_sent (t : Tree) (w : Replaying W) (l : List Call) : ∃ out,
    (Sink.putAll t w l).inner = Sink.putAll t w.inner out ∧ ∀ c ∈ out, c ∈ l ∨
    ∃ x, c ∈ t.replayed x := by
  induction l generalizing w with
  | nil => exact ⟨[], rfl, by simp⟩
  | cons d l ih =>
      obtain ⟨passed, left, hput⟩ := inner_put t w d
      obtain ⟨out, h, hout⟩ := ih (Sink.put t w d)
      refine ⟨t.replays passed ++ d :: t.replays left ++ out, ?_, fun c hc => ?_⟩
      · rw [Sink.putAll_cons, h, hput, ← Sink.putAll_append]
      · have hreplayed {nodes : List NodeId} (hc : c ∈ t.replays nodes) :
            ∃ x, c ∈ t.replayed x := by
          obtain ⟨x, -, hx⟩ := List.mem_flatMap.mp hc
          exact ⟨x, hx⟩
        simp only [List.mem_append, List.mem_cons] at hc
        rcases hc with (hc | rfl | hc) | hc
        · exact .inr (hreplayed hc)
        · exact .inl List.mem_cons_self
        · exact .inr (hreplayed hc)
        · exact (hout c hc).imp_left (List.mem_cons_of_mem _)

theorem inner_putAll (t : Tree) (w : Replaying W) (l : List Call) :
    ∃ out, (Sink.putAll t w l).inner = Sink.putAll t w.inner out ∧
      ∀ x ∈ starts out, x ∈ starts l ∨ (t.kind x).isSpecial = true := by
  obtain ⟨out, h, hout⟩ := exists_sent t w l
  refine ⟨out, h, fun x hx => (hout _ (mem_starts.mp hx)).imp mem_starts.mpr ?_⟩
  rintro ⟨y, hy⟩
  unfold Tree.replayed at hy
  split at hy
  · rename_i k hk
    simp only [List.mem_cons, Call.start.injEq, reduceCtorEq, List.not_mem_nil, or_false] at hy
    rw [hy, hk]
    rfl
  · cases hy

end Replaying

theorem Sends.token (text : String) (h : ∀ x ∈ nodes, (t.role x).isToken = false) :
    Sends t nodes [.token (.token text) text] [.token (.token text) text] nodes := by
  have hnone : ∀ x ∈ nodes, decide (t.role x = .token text) = false := by
    intro x hx
    rw [decide_eq_false_iff_not]
    intro hr
    have := h x hx
    rw [hr] at this
    cases this
  have hs : Sends t nodes [.token (.token text) text]
    (t.replays [] ++ [.token (.token text) text]) nodes :=
    Sends.pass (fun _ => rfl) fun _ outer => Replaying.passTo_none hnone outer
  exact hs

/-- A node whose comments and directives are written between braces as far as a statement follows,
and behind them otherwise. -/
def Tree.KeepsInside (t : Tree) (b : NodeId) (calls : List Call) : Prop :=
  ∃ before inside after lead trail, calls = before ++ .start b :: .token (.token "\x7b") "\x7b" ::
      (inside ++ .token (.token "\x7d") "\x7d" :: .finish b :: (t.replays trail ++ after)) ∧
    t.children b = lead ++ trail ∧ (∀ x ∈ trail, t.standsAsStatement x = false) ∧
    (∀ x ∈ lead.getLast?, t.standsAsStatement x = true) ∧
    t.specialsIn b inside = t.specials lead ∧ ∀ x ∈ t.specials lead, t.replayed x <:+: inside

/-- Replaying keeps the comments and directives of a block inside, as far as its statements come. -/
theorem Chain.keepsInside (ht : t.WellFormed) (h : Chain t (t.statementsOf b) l)
    (hb : ∀ x, t.parent x = some b → (t.role x).isToken = false) (before after : List Call) :
    t.KeepsInside b (Sink.putAll t (Replaying.new CallLog.empty)
        (before ++ .start b :: .token (.token "\x7b") "\x7b" ::
      (l ++ .token (.token "\x7d") "\x7d" :: .finish b :: after))).inner.calls := by
  have hkids : ∀ x ∈ t.children b, t.parent x = some b := fun x hx => ht.mem_children.mp hx
  obtain ⟨lead, trail, inside, hsplit, hs, htrail, hlast, horder, hkeep⟩ :=
    h.sends ht rfl hkids (ht.linked.nodup b)
  have hbraced := ((Sends.token "\x7b" fun x hx => hb x (hkids x hx)).trans hs).trans
    (Sends.token "\x7d" fun x hx => hb x (hkids x (hsplit ▸ List.mem_append_right _ hx)))
  obtain ⟨passed, outer, hstart⟩ :=
    Replaying.put_start t (Sink.putAll t (Replaying.new CallLog.empty) before) b
  have hcalls : before ++ .start b :: .token (.token "\x7b") "\x7b" ::
      (l ++ .token (.token "\x7d") "\x7d" :: .finish b :: after) = before ++ .start b ::
        ([.token (.token "\x7b") "\x7b"] ++ l ++ [.token (.token "\x7d") "\x7d"] ++ .finish b ::
          after) := by simp
  rw [hcalls, Sink.putAll_append, Sink.putAll_cons, hstart, Sink.putAll_append, hbraced.run,
    Sink.putAll_cons, Replaying.put_finish]
  obtain ⟨behind, hbehind, -⟩ := Replaying.inner_putAll t (⟨_, outer⟩ : Replaying CallLog) after
  rw [hbehind]
  simp only [CallLog.calls_putAll]
  exact ⟨(Sink.putAll t (Replaying.new CallLog.empty) before).inner.calls ++ t.replays passed,
    inside, behind, lead, trail, by simp, hsplit, htrail, hlast, horder, hkeep⟩

/-- Comments and directives stay in their block as far as a statement follows. Whenever a tree is
written, every block in the text that has no child in the role of a token has those before its last
statement between its braces, and the rest right behind them. -/
theorem write_keeps_inside (t : Tree) (p : Policy) (c : Cancellation) (i : NodeId) (r : Rendering)
    (ht : t.WellFormed) (hr : t.write p c i = .ok r) :
    Spread p.indentation (Call.words t (LoggedText.limit p) (t.callsWritten p i)) r.text ∧
      ∀ b ∈ starts (t.codeWritten p i), t.kind b = .statement .block →
        (∀ x, t.parent x = some b → (t.role x).isToken = false) →
        t.KeepsInside b (t.codeWritten p i) := by
  obtain ⟨hfail, hspread, hcode⟩ := Tree.written_of_write hr
  refine ⟨hspread, fun b hm hk hb => ?_⟩
  have hsaid : Layout.said (Layout.ofNode t p i) = (Layout.ofNode t p i).codeCalls := by
    rw [← Layout.said_eq_filter (b := true), Layout.code_issued hfail]
  rw [hcode, ← hsaid] at hm ⊢
  obtain ⟨out, hout, hstarts⟩ := Replaying.inner_putAll t (Replaying.new CallLog.empty)
    (Layout.said (Layout.ofNode t p i))
  have hs : b ∈ starts (Layout.said (Layout.ofNode t p i)) := by
    rw [hout, CallLog.calls_putAll] at hm
    rcases hstarts b hm with hs | hs
    · exact hs
    · rw [hk] at hs
      cases hs
  obtain ⟨before, l, after, hchain, hsplit⟩ := Layout.exists_block ht hfail hk (mem_starts.mp hs)
  rw [hsplit]
  exact hchain.keepsInside ht hb before after

/-- `{ /*a*/ { /*b*/ } /*c*/ ; /*d*/ }` -/
def nestedComments : Tree :=
  .planted [.statement .block, .special (.comment .block "a"), .statement .block,
      .special (.comment .block "b"),
      .special (.comment .block "c"), .statement .empty, .special (.comment .block "d")]
    [(1, .comment, 2), (1, .statement, 3), (3, .comment, 4), (1, .comment, 5), (1, .statement, 6),
      (1, .comment, 7)]

theorem write_keeps_inside_nested : nestedComments.WellFormed ∧
    (∀ b ∈ [1, 3], nestedComments.kind b = .statement .block ∧
      ∀ x, nestedComments.parent x = some b → (nestedComments.role x).isToken = false) ∧
    ∃ r, nestedComments.write .allman .never 1 = .ok r ∧
      r.text = "\x7b\n\t/*a*/\x7b\n\t\x7d/*b*/\n\t/*c*/;\n\x7d/*d*/\n" ∧
      ∀ b ∈ [1, 3], nestedComments.KeepsInside b (nestedComments.codeWritten .allman 1) := by
  have hw : nestedComments.WellFormed := Tree.wellFormed_planted _ _
  have hroles : ∀ x < 8, (nestedComments.role x).isToken = false := by decide +kernel
  have hb : ∀ b ∈ [1, 3], nestedComments.kind b = .statement .block ∧
      ∀ x, nestedComments.parent x = some b → (nestedComments.role x).isToken = false := by
    refine fun b hb => ⟨?_, fun x hx => hroles x (Tree.lt_of_parent hx)⟩
    revert b
    decide +kernel
  have htext : nestedComments.text .allman 1 =
      .ok "\x7b\n\t/*a*/\x7b\n\t\x7d/*b*/\n\t/*c*/;\n\x7d/*d*/\n" := by
    decide +kernel
  have hstarts : ∀ b ∈ [1, 3], b ∈ starts (nestedComments.codeWritten .allman 1) := by
    decide +kernel
  refine ⟨hw, hb, ?_⟩
  cases hr : nestedComments.write .allman .never 1 with
  | error e =>
      rw [Tree.text, hr] at htext
      cases htext
  | ok r =>
      rw [Tree.text, hr] at htext
      have h := write_keeps_inside nestedComments .allman .never 1 r hw hr
      exact ⟨r, rfl, Except.ok.inj htext, fun b hm => h.2 b (hstarts b hm) (hb b hm).1 (hb b hm).2⟩

/-- `{ #if X ; #endif }` -/
def conditionalBlock : Tree :=
  .planted [.statement .block, .special (.directive .if_ "X"), .statement .empty,
      .special (.directive .endif "")]
    [(1, .directive, 2), (1, .statement, 3), (1, .directive, 4)]

/-- The directive that ends the region is written behind the closing brace of its block. -/
theorem write_moves_region_end :
    conditionalBlock.WellFormed ∧ (∀ x < 5, (conditionalBlock.role x).isToken = false) ∧
    conditionalBlock.kind 1 = .statement .block ∧ conditionalBlock.parent 4 = some 1 ∧
    conditionalBlock.text .allman 1 = .ok "\x7b\n\t#if X\n\t;\n\x7d\n#endif\n\n" ∧
    conditionalBlock.codeWritten .allman 1 = [.start 1, .token (.token "\x7b") "\x7b", .start 2,
      .special (.directive .if_ "X"), .finish 2, .start 3, .token (.token ";") ";", .finish 3,
      .token (.token "\x7d") "\x7d", .finish 1, .start 4, .special (.directive .endif ""),
      .finish 4] :=
  ⟨Tree.wellFormed_planted _ _, by decide +kernel⟩

end TreeScribe
