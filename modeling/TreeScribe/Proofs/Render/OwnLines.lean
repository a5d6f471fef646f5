import TreeScribe.Proofs.Render.Inside
import TreeScribe.Proofs.Sink.LineEnds

namespace TreeScribe

variable {t : Tree} {p : Policy} {i : NodeId} {c : Cancellation} {r : Rendering} {k : SpecialKind}
  {l : List Call}

/-- The sink of a log is what the calls in it make of the sink `s`. -/
def Logged.Retells {W : Type} [Sink W] (t : Tree) (s : W) (w : Logged W) : Prop :=
  w.inner = Sink.putAll t s w.calls

theorem Logged.Retells.put {W : Type} [Sink W] {s : W} {w : Logged W} (h : w.Retells t s)
    (c : Call) : (Sink.put t w c).Retells t s := by
  have hcalls : (Sink.put t w c).calls = w.calls ++ [c] := List.reverse_cons
  rw [Retells, hcalls, Sink.putAll_append, ← h]
  rfl

namespace Tree

def written (t : Tree) (p : Policy) (calls : List Call) : TextSink :=
  Sink.putAll t (.new p.indentation (LoggedText.limit p)) calls

theorem written_append (calls more : List Call) :
    t.written p (calls ++ more) = Sink.putAll t (t.written p calls) more := Sink.putAll_append

theorem text_of_write (hr : t.write p c i = .ok r) :
    r.text = (t.written p (t.callsWritten p i)).output := by
  have hstable : Sink.Stable t fun w : LoggedText =>
    w.log.Retells t (.new p.indentation (LoggedText.limit p)) :=
    Replaying.stable (Spaced.stable fun _ c h => h.put c)
  have hopens : Layout.Opens (fun _ => True) (Layout.ofNode t p i) :=
    Layout.opens_of_forall fun _ => trivial
  have hretells : (t.writeLogged p i).1.sink.log.Retells t
    (.new p.indentation (LoggedText.limit p)) :=
    Progress.run_keeps .never hstable.keeps hopens (p := .new (.new p)) rfl
  obtain ⟨hlogged, hnever, -⟩ := write_never hr
  rw [write_eq_ok hlogged] at hnever
  rw [← Except.ok.inj hnever]
  exact congrArg TextSink.output hretells

theorem Says.not_special {c : Call} (h : t.Says i c) : c ≠ .special k := by
  cases h <;> simp

theorem IsWord.special {c : Call} (h : t.IsWord i c) (hc : c = .special k) :
    k = .comment .block " error " := by
  have hw := h.2
  subst hc
  unfold wordOf? at hw
  split at hw <;> simp_all

end Tree

theorem Fills.special {before : List Call} {spots : List Spot} {plan : Plan}
    (h : Fills t i before spots plan l) (hk : .special k ∈ l) : k = .comment .block " error " := by
  induction h with
  | nil => cases hk
  | blank hc _ ih =>
      rcases List.mem_cons.mp hk with rfl | hk
      · cases hc
      · exact ih hk
  | word hc _ ih =>
      rcases List.mem_cons.mp hk with rfl | hk
      · exact absurd rfl hc.not_special
      · exact ih hk
  | leaf _ hc _ ih =>
      simp only [List.mem_cons, reduceCtorEq, false_or] at hk
      rcases hk with hk | hk
      · exact hc.special hk.symm
      · exact ih hk
  | child _ _ _ _ _ ihm ih =>
      simp only [List.mem_cons, List.mem_append, reduceCtorEq, false_or] at hk
      exact hk.elim ihm ih

theorem Body.special {before : List Call} {spots : List Spot} {plan : Plan}
    (h : Body t i before spots plan l) (hk : .special k ∈ l) : k = .comment .block " error " := by
  cases h with
  | word hc => exact hc.special (List.mem_singleton.mp hk).symm
  | composite _ _ h => exact h.special hk

/-- Comments and directives in the text are those of the tree, and what stands for expressions that
could not be built. -/
theorem Tree.special_of_written (ht : t.WellFormed) (hr : t.write p c i = .ok r)
    (hk : .special k ∈ t.callsWritten p i) :
    k = .comment .block " error " ∨ ∃ x, t.kind x = .special k := by
  obtain ⟨hfail, -, hcode⟩ := written_of_write hr
  have hk : .special k ∈ t.codeWritten p i := List.mem_filter.mpr ⟨hk, rfl⟩
  obtain ⟨out, hout, hsent⟩ :=
    Replaying.exists_sent t (Replaying.new CallLog.empty) (Layout.ofNode t p i).codeCalls
  rw [hcode, hout, CallLog.calls_putAll] at hk
  rcases hsent _ hk with hk | ⟨x, hx⟩
  · rcases codeCalls_ofNode ht hfail with he | ⟨l, spots, plan, he, hb⟩
    · rw [he] at hk
      cases hk
    · rw [he] at hk
      simp only [List.mem_cons, List.mem_append, reduceCtorEq, List.not_mem_nil, false_or, or_false]
        at hk
      exact .inl (hb.special hk)
  · unfold replayed at hx
    split at hx
    · rename_i k' hk'
      simp only [List.mem_cons, Call.special.injEq, reduceCtorEq, List.not_mem_nil, false_or,
        or_false] at hx
      exact .inr ⟨x, hx ▸ hk'⟩
    · cases hx

/-- Directives and line comments own their lines. Wherever a tree is written with blank indentation,
with or without places, its text is what the calls that reach it write. If what its directives and
line comments say stands on one line, then each of them that is among those calls writes its word on
one line, behind what the calls before it wrote, and a line feed right behind it; and on the line of
a directive there are only spaces and tabs before it. -/
theorem write_specials_own_lines (t : Tree) (p : Policy) (c : Cancellation) (i : NodeId)
    (r : Rendering) (ht : t.WellFormed) (hu : ∀ x ∈ p.indentation.toList, x = ' ' ∨ x = '\t')
    (hs : ∀ x k s, t.kind x = .special k → k.line? = some s → '\n' ∉ s.toList)
    (hr : t.write p c i = .ok r ∨ ∃ u, t.writePlaced p c i = .ok (r, u)) :
    r.text = (t.written p (t.callsWritten p i)).output ∧
      ∀ calls k s more, t.callsWritten p i = calls ++ .special k :: more → k.line? = some s →
        ∃ before behind, r.text.toList =
            before ++ (Call.word t (LoggedText.limit p) (.special k)).toList ++ '\n' :: behind ∧
          '\n' ∉ (Call.word t (LoggedText.limit p) (.special k)).toList ∧
          (t.written p calls).output.toList <+: before ∧
          (t.written p (calls ++ [.special k])).output.toList =
            before ++ (Call.word t (LoggedText.limit p) (.special k)).toList ++ ['\n'] ∧
          (k.isDirective = true → OpensLine before) := by
  have hr : t.write p c i = .ok r := by
    rcases hr with hr | ⟨u, hr⟩
    · exact hr
    · exact Tree.write_of_writePlaced ht hr
  have htext := Tree.text_of_write hr
  refine ⟨htext, fun calls k s more hcalls hk => ?_⟩
  have hline : '\n' ∉ s.toList := by
    rcases Tree.special_of_written ht hr (hcalls ▸ List.mem_append_right _ List.mem_cons_self)
      with rfl | ⟨x, hx⟩
    · cases hk
    · exact hs x k s hx hk
  have hlining : TextSink.Lining p.indentation (t.written p calls) :=
    Sink.Stable.putAll (fun _ c h => h.put hu c) TextSink.Lining.new
  obtain ⟨before, hprefix, hput, hopens⟩ := hlining.put_special hu (t := t) (LoggedText.limit p) hk
  have hthrough : t.written p (calls ++ [.special k]) = (t.written p calls).put t (.special k) :=
    Tree.written_append ..
  obtain ⟨behind, hbehind⟩ :
    (t.written p (calls ++ [.special k])).output.toList <+: r.text.toList := by
    have happend : calls ++ .special k :: more = calls ++ [.special k] ++ more :=
      List.append_cons ..
    rw [htext, hcalls, happend, Tree.written_append _ more]
    exact TextSink.stable_starts.putAll (List.prefix_refl _)
  rw [← hthrough] at hput
  refine ⟨before, behind, ?_, SpecialKind.notMem_word hk hline, hprefix, hput, hopens⟩
  rw [← hbehind, hput]
  simp

/-- `{ return this; }` with a line comment and a directive before `this`. -/
def interruptedReturn : Tree :=
  .planted [.statement .block, .statement .return_, .special (.comment .line " why"),
      .special (.directive .region "here"), .expression .thisRef]
    [(1, .statement, 2), (2, .comment, 3), (2, .directive, 4), (2, .expression, 5)]

theorem write_specials_own_lines_return : interruptedReturn.WellFormed ∧
    (∀ x ∈ Policy.allman.indentation.toList, x = ' ' ∨ x = '\t') ∧
    (∀ x k s, interruptedReturn.kind x = .special k → k.line? = some s → '\n' ∉ s.toList) ∧
    ∃ r, interruptedReturn.write .allman .never 1 = .ok r ∧
      r.text = "\x7b\n\treturn // why\n\t#region here\n\tthis;\n\x7d\n" ∧
      ∃ before behind, r.text.toList = before ++ "#region here".toList ++ '\n' :: behind ∧
      OpensLine before := by
  have hw : interruptedReturn.WellFormed := Tree.wellFormed_planted _ _
  have hu : ∀ x ∈ Policy.allman.indentation.toList, x = ' ' ∨ x = '\t' := by
    have htab : Policy.allman.indentation.toList = ['\t'] := by decide +kernel
    intro x hx
    rw [htab, List.mem_singleton] at hx
    exact .inr hx
  have hs : ∀ x k s, interruptedReturn.kind x = .special k → k.line? = some s →
      '\n' ∉ s.toList := by
    have hall : ∀ x < interruptedReturn.size,
      interruptedReturn.kind x ∈ [.null, .statement .block, .statement .return_,
        .special (.comment .line " why"), .special (.directive .region "here"),
        .expression .thisRef] := by
      decide +kernel
    intro x k s hk hs
    have hx := hall x (Tree.lt_of_kind (by rw [hk]; exact Kind.noConfusion))
    simp only [hk, List.mem_cons, Kind.special.injEq, reduceCtorEq, List.not_mem_nil, false_or,
      or_false] at hx
    rcases hx with rfl | rfl <;> cases hs <;> decide +kernel
  have htext : interruptedReturn.text .allman 1 =
      .ok "\x7b\n\treturn // why\n\t#region here\n\tthis;\n\x7d\n" := by decide +kernel
  have hcalls : interruptedReturn.callsWritten .allman 1 =
    (interruptedReturn.callsWritten .allman 1).take 11 ++
      .special (.directive .region "here") :: (interruptedReturn.callsWritten .allman 1).drop 12 :=
      by decide +kernel
  refine ⟨hw, hu, hs, ?_⟩
  cases hr : interruptedReturn.write .allman .never 1 with
  | error e =>
      rw [Tree.text, hr] at htext
      cases htext
  | ok r =>
      rw [Tree.text, hr] at htext
      obtain ⟨before, behind, hsplit, -, -, -, hopens⟩ :=
        (write_specials_own_lines interruptedReturn .allman .never 1 r hw hu hs (.inl hr)).2 _ _ _ _
          hcalls rfl
      exact ⟨r, rfl, Except.ok.inj htext, before, behind, hsplit, hopens rfl⟩

end TreeScribe
