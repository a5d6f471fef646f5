import Mathlib.Data.List.Perm.Basic
import TreeScribe.Proofs.Layout.Balanced
import TreeScribe.Proofs.Render.Materialized
import TreeScribe.Proofs.Sink.Ranged

namespace TreeScribe

def Event.bracePairs (events : List Event) : List (TextRange × TextRange) :=
  events.filterMap fun
    | .bracePair left right _ => some (left, right)
    | _ => none

def PairBefore (x y : TextRange × TextRange) : Prop :=
  x.2.stop.offset ≤ y.1.start.offset ∨ y.1.stop.offset ≤ x.1.start.offset ∧
    x.2.stop.offset ≤ y.2.start.offset

structure Laminar (mark : Nat) (pairs : List (TextRange × TextRange))
    (lefts : List TextRange) : Prop where
  ordered : ∀ x ∈ pairs, x.1.stop.offset ≤ x.2.start.offset ∧ x.2.stop.offset ≤ mark
  behind : ∀ l ∈ lefts, l.stop.offset ≤ mark
  inner : lefts.Pairwise fun l outer => outer.stop.offset ≤ l.start.offset
  apart : ∀ x ∈ pairs, ∀ l ∈ lefts, x.2.stop.offset ≤ l.start.offset ∨
    l.stop.offset ≤ x.1.start.offset
  nested : pairs.Pairwise PairBefore

namespace Laminar

variable {mark mark' : Nat} {pairs : List (TextRange × TextRange)} {lefts : List TextRange}
  {l r : TextRange}

theorem mono (h : Laminar mark pairs lefts) (hm : mark ≤ mark') : Laminar mark' pairs lefts :=
  ⟨fun x hx => ⟨(h.ordered x hx).1, (h.ordered x hx).2.trans hm⟩,
      fun l hl => (h.behind l hl).trans hm, h.inner, h.apart,
    h.nested⟩

theorem opening (h : Laminar mark pairs lefts) (hr : mark ≤ r.start.offset)
    (hm : r.stop.offset ≤ mark') : Laminar mark' pairs (r :: lefts) := by
  have hle : mark ≤ mark' := (hr.trans r.ordered).trans hm
  have h' := h.mono hle
  refine ⟨h'.ordered, List.forall_mem_cons.mpr ⟨hm, h'.behind⟩,
    .cons (fun l hl => (h.behind l hl).trans hr) h.inner,
    fun x hx => List.forall_mem_cons.mpr
    ⟨.inl ((h.ordered x hx).2.trans hr), h.apart x hx⟩, h.nested⟩

theorem closing (h : Laminar mark pairs (l :: lefts)) (hr : mark ≤ r.start.offset)
    (hm : r.stop.offset ≤ mark') : Laminar mark' (pairs ++ [(l, r)]) lefts := by
  have hle : mark ≤ mark' := (hr.trans r.ordered).trans hm
  have h' := h.mono hle
  obtain ⟨hl, hinner⟩ := List.pairwise_cons.mp h.inner
  obtain ⟨hbehind, hlefts⟩ := List.forall_mem_cons.mp h.behind
  refine ⟨List.forall_mem_append.mpr
    ⟨h'.ordered, List.forall_mem_singleton.mpr ⟨hbehind.trans hr, hm⟩⟩,
    (List.forall_mem_cons.mp h'.behind).2, hinner, List.forall_mem_append.mpr ⟨fun x hx => ?_, ?_⟩,
    List.pairwise_append.mpr ⟨h.nested, List.pairwise_singleton _ _, fun x hx y hy => ?_⟩⟩
  · exact (List.forall_mem_cons.mp (h.apart x hx)).2
  · exact List.forall_mem_singleton.mpr fun outer ho => .inr (hl outer ho)
  · cases List.mem_singleton.mp hy
    exact (h.apart x hx l List.mem_cons_self).imp id fun hx' => ⟨hx', (h.ordered x hx).2.trans hr⟩

end Laminar

namespace Nesting

variable {t : Tree} {s s' : Nesting} {c : Call}

theorem braces_of_read? (h : s.read? t c = some s') (ho : c.isTokenOf "\x7b" = false)
    (hc : c.isTokenOf "\x7d" = false) : s'.braces = s.braces := by
  cases reads_of_read? h with
  | opening | closing => simp [Call.isTokenOf] at ho hc
  | _ => rfl

end Nesting

namespace Progress

variable {W : Type} {t : Tree} {cancellation : Cancellation} {p p' p'' : Progress W}
  {mark : W → Nat} {w : W}
  {calls : List Call} {lefts : List TextRange}

def bracePairs (p : Progress W) : List (TextRange × TextRange) := Event.bracePairs p.events

theorem bracePairs_report {e : Event} :
    (p.report e).bracePairs = p.bracePairs ++ Event.bracePairs [e] := by
  rw [bracePairs, events, report, List.reverse_cons, Event.bracePairs, List.filterMap_append]
  rfl

structure Quiet (p p' : Progress W) : Prop where
  braces : p'.braces = p.braces
  bracePairs : p'.bracePairs = p.bracePairs

namespace Quiet

theorem refl : Quiet p p := ⟨rfl, rfl⟩

theorem trans (h : Quiet p p') (h' : Quiet p' p'') : Quiet p p'' :=
  ⟨h'.braces.trans h.braces, h'.bracePairs.trans h.bracePairs⟩

theorem report {e : Event} (he : Event.bracePairs [e] = []) : Quiet p (p.report e) :=
  ⟨rfl, by rw [bracePairs_report, he, List.append_nil]⟩

theorem hear {es : List Event} (he : Event.bracePairs es.reverse = []) :
    Quiet p { p with heard := es ++ p.heard } := by
  refine ⟨rfl, ?_⟩
  change Event.bracePairs (es ++ p.heard).reverse = Event.bracePairs p.heard.reverse
  rw [List.reverse_append, Event.bracePairs, List.filterMap_append]
  exact (congrArg _ he).trans (List.append_nil _)

theorem ite {q : Prop} [Decidable q] (h : Quiet p p') (h' : Quiet p p'') :
    Quiet p (if q then p' else p'') := by
  split <;> assumption

variable [Sink W]

theorem reportName (p : Progress W) (i : NodeId) : Quiet p (p.reportName t i) := by
  obtain ⟨es, h, hes⟩ := Progress.reportName_eq (t := t) p i
  rw [h]
  refine hear (List.filterMap_eq_nil_iff.mpr fun e he => ?_)
  have hname := hes e (List.mem_reverse.mp he)
  cases e with
  | bracePair => cases hname
  | _ => rfl

theorem finish (p : Progress W) (i : NodeId) : Quiet p (p.finish t i) := by
  cases hs : p.starts with
  | nil =>
      rw [Progress.finish, hs]
      exact ⟨rfl, rfl⟩
  | cons start outer =>
      rw [finish_eq hs]
      refine ⟨rfl, (hear ?_).bracePairs⟩
      cases he : sequencePoint? t i start (Sink.lastRange p.sink) with
      | none => rfl
      | some e =>
          obtain ⟨_, _, _, _, _, rfl, _⟩ := sequencePoint?_eq_some he
          rfl

theorem write (p : Progress W) (c : Call) : Quiet p (p.write t c) := by
  cases c with
  | finish i => exact finish p i
  | identifier i =>
      have hput : Quiet p (Progress.put t { p with isLineStart := false } (.identifier i)) :=
        ⟨rfl, rfl⟩
      exact hput.trans (reportName _ i)
  | _ => exact ⟨rfl, rfl⟩

theorem step {c : Command} (ho : ∀ kind, c ≠ .openBrace kind) (hc : c ≠ .closeBrace) :
    Quiet p (p.step t cancellation c).1 := by
  cases c with
  | write c => exact write p c
  | openBrace kind => exact absurd rfl (ho kind)
  | closeBrace => exact absurd rfl hc
  | gap | freshLine => exact ite refl (write p _)
  | reference | separator =>
      simp only [Progress.step]
      split
      · exact report rfl
      · exact refl
  | tick => exact ⟨rfl, rfl⟩
  | fail => exact refl

end Quiet

variable [Sink W]

structure Matched (t : Tree) (mark : W → Nat) (w : W) (calls : List Call) (lefts : List TextRange)
    (p : Progress W) : Prop where
  sink : p.sink = Sink.putAll t w calls
  opened : p.braces.map (·.1) = lefts.map some
  opening : ((p.bracePairs.map Prod.fst ++ lefts).map some).Perm (Sink.tokenRanges t "\x7b" w calls)
  closing : (p.bracePairs.map Prod.snd).map some = Sink.tokenRanges t "\x7d" w calls
  laminar : Laminar (mark p.sink) p.bracePairs lefts

namespace Matched

variable (hmark : Sink.Rising t mark) (h : Matched t mark w calls lefts p)

include hmark h

theorem openBrace (kind : BraceKind) :
    ∃ l, Matched t mark w (calls ++ [.token (.token "\x7b") "\x7b"]) (l :: lefts)
      (p.openBrace t kind) := by
  obtain ⟨l, hl, hstart, hstop⟩ := hmark.word p.sink (c := .token (.token "\x7b") "\x7b") rfl
  have hsink := sink_write (t := t) p (.token (.token "\x7b") "\x7b")
  have hquiet := Quiet.write (t := t) p (.token (.token "\x7b") "\x7b")
  have hpairs : (p.openBrace t kind).bracePairs = p.bracePairs := hquiet.bracePairs
  refine ⟨l, ?_, ?_, ?_, ?_, ?_⟩
  · rw [Sink.putAll_append, ← h.sink]
    exact hsink
  · rw [Progress.openBrace, List.map_cons, hsink, hl, hquiet.braces, h.opened, List.map_cons]
  · rw [hpairs, Sink.tokenRanges_concat, ← h.sink, hl]
    -- pairs are listed as they close, so the left braces are not in the order of the text
    have hperm :
      (p.bracePairs.map Prod.fst ++ l :: lefts).Perm (p.bracePairs.map Prod.fst ++ lefts ++ [l]) :=
      List.perm_middle.trans (List.perm_append_singleton _ _).symm
    refine (hperm.map some).trans ?_
    rw [List.map_append]
    exact h.opening.append_right _
  · rw [hpairs, Sink.tokenRanges_append_of_forall (by simp [Call.isTokenOf])]
    exact h.closing
  · rw [hpairs]
    exact h.laminar.opening hstart (hsink ▸ hstop)

/-- A closing brace makes a pair with the innermost open one. -/
theorem closeBrace {l : TextRange} {outer : List TextRange} (hl : lefts = l :: outer) :
    Matched t mark w (calls ++ [.token (.token "\x7d") "\x7d"]) outer (p.closeBrace t) := by
  obtain ⟨r, hr, hstart, hstop⟩ := hmark.word p.sink (c := .token (.token "\x7d") "\x7d") rfl
  have hsink := sink_write (t := t) p (.token (.token "\x7d") "\x7d")
  have hquiet := Quiet.write (t := t) p (.token (.token "\x7d") "\x7d")
  subst hl
  obtain ⟨⟨left, kind⟩, braces, hbraces, hleft, houter⟩ := List.map_eq_cons_iff.mp h.opened
  cases hleft
  have hclose : p.closeBrace t = { p.write t (.token (.token "\x7d") "\x7d") with
      braces, heard := .bracePair l r kind ::
        (p.write t (.token (.token "\x7d") "\x7d")).heard } := by
    rw [Progress.closeBrace]
    simp only [hquiet.braces, hbraces, hsink, hr]
    rfl
  have hpairs : (p.closeBrace t).bracePairs = p.bracePairs ++ [(l, r)] := by
    rw [hclose, ← hquiet.bracePairs]
    exact bracePairs_report
  refine ⟨?_, ?_, ?_, ?_, ?_⟩
  · rw [Sink.putAll_append, ← h.sink, hclose]
    exact hsink
  · rw [hclose]
    exact houter
  · rw [hpairs, Sink.tokenRanges_append_of_forall (by simp [Call.isTokenOf])]
    simpa using h.opening
  · rw [hpairs, Sink.tokenRanges_concat, ← h.sink, hr, List.map_append, List.map_append, h.closing]
    rfl
  · rw [hpairs, hclose]
    exact h.laminar.closing hstart (hsink ▸ hstop)

theorem quiet {c : Command} (ho : ∀ kind, c ≠ .openBrace kind) (hc : c ≠ .closeBrace)
    (hb : ∀ d ∈ c.issued p.isLineStart, d.isTokenOf "\x7b" = false ∧ d.isTokenOf "\x7d" = false)
    (hs : p.step t cancellation c = (p', none)) :
    Matched t mark w (calls ++ c.issued p.isLineStart) lefts p' := by
  obtain ⟨hsink, -, -⟩ := step_issued hs
  have hquiet : Quiet p p' := by
    have hstep : Quiet p (p.step t cancellation c).1 := Quiet.step ho hc
    rwa [hs] at hstep
  refine ⟨?_, ?_, ?_, ?_, ?_⟩
  · rw [hsink, h.sink, Sink.putAll_append]
  · rw [hquiet.braces]
    exact h.opened
  · rw [hquiet.bracePairs, Sink.tokenRanges_append_of_forall fun d hd => (hb d hd).1]
    exact h.opening
  · rw [hquiet.bracePairs, Sink.tokenRanges_append_of_forall fun d hd => (hb d hd).2]
    exact h.closing
  · rw [hquiet.bracePairs, hsink]
    exact h.laminar.mono hmark.grows_all

theorem step {s s' : Nesting} {c : Command} (hn : lefts.length = s.braces)
    (hc : c.nest? t s = some s') (hs : p.step t cancellation c = (p', none)) :
    ∃ lefts', Matched t mark w (calls ++ c.issued p.isLineStart) lefts' p' ∧
      lefts'.length = s'.braces := by
  cases c with
  | openBrace kind =>
      cases hc
      cases hs
      obtain ⟨l, hl⟩ := h.openBrace hmark kind
      exact ⟨l :: lefts, hl, congrArg (· + 1) hn⟩
  | closeBrace =>
      obtain ⟨b, n, o⟩ := s
      cases b with
      | zero => cases hc
      | succ b =>
          cases hc
          cases hs
          obtain ⟨l, outer, rfl⟩ := List.exists_cons_of_length_eq_add_one hn
          exact ⟨outer, h.closeBrace hmark rfl, Nat.succ.inj hn⟩
  | write d =>
      rw [Command.nest?] at hc
      split at hc
      · cases hc
      · rename_i hb
        rw [Bool.not_eq_true, Bool.or_eq_false_iff] at hb
        refine ⟨lefts, h.quiet hmark (by simp) (by simp) (fun e he => ?_) hs, ?_⟩
        · cases List.mem_singleton.mp he
          exact hb
        · rw [hn, Nesting.braces_of_read? hc hb.1 hb.2]
  | gap | freshLine =>
      cases hc
      refine ⟨lefts, h.quiet hmark (by simp) (by simp) (fun e he => ?_) hs, hn⟩
      rw [Command.issued] at he
      split at he
      · cases he
      · cases List.mem_singleton.mp he
        exact ⟨rfl, rfl⟩
  | reference | separator | tick | fail =>
      cases hc
      exact ⟨lefts, h.quiet hmark (by simp) (by simp) (by simp [Command.issued]) hs, hn⟩

omit h in
theorem run {l : Layout} {s s' : Nesting} (h : Matched t mark w calls lefts p)
    (hn : lefts.length = s.braces) (hl : l.nest? t s = some s')
    (hr : Progress.run t cancellation l p = (p', none)) :
    ∃ lefts', Matched t mark w (calls ++ l.issued p.isLineStart) lefts' p' ∧
      lefts'.length = s'.braces := by
  induction l generalizing p calls lefts s with
  | nil =>
      cases hl
      cases hr
      exact ⟨lefts, by simpa using h, hn⟩
  | cons c l ih =>
      rw [Layout.nest?_cons] at hl
      obtain ⟨s₁, hc, hl⟩ := Option.bind_eq_some_iff.mp hl
      rw [Progress.run] at hr
      rcases hs : p.step t cancellation c with ⟨q, e⟩
      rw [hs] at hr
      cases e with
      | some e => cases hr
      | none =>
          obtain ⟨lefts₁, h₁, hn₁⟩ := h.step hmark hn hc hs
          obtain ⟨lefts', h', hn'⟩ := ih h₁ hn₁ hl hr
          refine ⟨lefts', ?_, hn'⟩
          rw [Layout.issued, ← (step_issued hs).2.1, ← List.append_assoc]
          exact h'

end Matched

end Progress

namespace Tree

variable {t : Tree} {p : Policy} {c : Cancellation} {i : NodeId} {done : Rendering}

/-- Nothing is open any more when a tree has been written. -/
theorem matched_of_write (ht : t.WellFormed) (hd : t.write p c i = .ok done) :
    ∃ s : Progress Composed, Progress.Matched t Composed.mark (Composed.new p)
      (t.callsSent p i) [] s ∧
      s.sink.text = done.text ∧ s.events = done.events := by
  have hcalls := Tree.callsSent_eq (Tree.issued_of_write hd).1
  have hlayout := Layout.nest?_ofNodeWithin (p := p) ht t.size (i := i) (Nat.le_add_right _ _)
    (issued_of_write hd).1 0 0 []
  have hnew : Progress.Matched t Composed.mark (Composed.new p) [] [] (.new (Composed.new p)) :=
    ⟨rfl, rfl, .nil, rfl,
      ⟨by simp [Progress.bracePairs, Progress.new, Progress.events,
      Event.bracePairs], by simp, .nil, by simp, .nil⟩⟩
  rw [write] at hd
  rcases hs : t.render p c i (.new (Composed.new p)) with ⟨s, failed⟩
  rw [hs] at hd
  cases failed with
  | some e => cases hd
  | none =>
      cases hd
      obtain ⟨lefts, hm, hn⟩ := Progress.Matched.run Composed.rising hnew rfl hlayout hs
      rw [List.length_eq_zero_iff.mp hn] at hm
      exact ⟨s, hcalls ▸ hm, rfl, rfl⟩

end Tree

/-- The pairs match the braces of a text: `opening` and `closing` are the ranges of all its braces,
and every pair is one of each, the left one first. A pair that is reported before another one is in
front of it or between its braces. -/
structure BracesMatch (text : String) (opening closing : List (Option TextRange))
    (pairs : List (TextRange × TextRange)) : Prop where
  opening : ((pairs.map Prod.fst).map some).Perm opening
  closing : (pairs.map Prod.snd).map some = closing
  slices : ∀ x ∈ pairs, Position.rangeText? text x.1 = some "\x7b" ∧
    Position.rangeText? text x.2 = some "\x7d" ∧
    x.1.stop.offset ≤ x.2.start.offset
  nested : pairs.Pairwise PairBefore

/-- Whatever is written, the pairs of braces that are reported are those of the text. -/
theorem write_pairs_braces (t : Tree) (p : Policy) (c : Cancellation) (i : NodeId)
    (done : Rendering) (ht : t.WellFormed) (hd : t.write p c i = .ok done) :
    BracesMatch done.text (Sink.tokenRanges t "\x7b" (Composed.new p) (t.callsSent p i))
      (Sink.tokenRanges t "\x7d" (Composed.new p) (t.callsSent p i))
      (Event.bracePairs done.events) := by
  obtain ⟨s, hm, htext, hevents⟩ := Tree.matched_of_write ht hd
  have hopening : (((Event.bracePairs done.events).map Prod.fst).map some).Perm
      (Sink.tokenRanges t "\x7b" (Composed.new p) (t.callsSent p i)) := by
    simpa [Progress.bracePairs, hevents] using hm.opening
  have hclosing : ((Event.bracePairs done.events).map Prod.snd).map some =
      Sink.tokenRanges t "\x7d" (Composed.new p) (t.callsSent p i) := hevents ▸ hm.closing
  have hslice {text : String} {rg : TextRange}
      (hr : some rg ∈ Sink.tokenRanges t text (Composed.new p) (t.callsSent p i)) :
      Position.rangeText? done.text rg = some text := by
    obtain ⟨_, hrg, hholds⟩ := Composed.exists_range_of_token hr
    cases hrg
    rw [← htext, hm.sink]
    exact hholds
  refine ⟨hopening, hclosing, fun x hx => ⟨hslice ?_, hslice ?_, ?_⟩, hevents ▸ hm.laminar.nested⟩
  · exact hopening.mem_iff.mp (List.mem_map_of_mem (List.mem_map_of_mem hx))
  · exact hclosing ▸ List.mem_map_of_mem (List.mem_map_of_mem hx)
  · exact (hm.laminar.ordered x (by rwa [Progress.bracePairs, hevents])).1

def nestedBlocks : Tree :=
  .planted [.statement .block, .statement .block, .statement .block]
    [(1, .statement, 2), (1, .statement, 3)]

/-- The pairs of the inner blocks are reported first. -/
theorem write_pairs_braces_nested : nestedBlocks.WellFormed ∧
    ∃ done, nestedBlocks.write .allman .never 1 = .ok done ∧
      done.text = "\x7b\n\t\x7b\n\t\x7d\n\t\x7b\n\t\x7d\n\x7d\n" ∧
      (Event.bracePairs done.events).map (fun x => (x.1.start.offset, x.2.start.offset)) =
      [(3, 6), (9, 12), (0, 14)] ∧
      BracesMatch done.text (Sink.tokenRanges nestedBlocks "\x7b" (Composed.new .allman)
        (nestedBlocks.callsSent .allman 1))
        (Sink.tokenRanges nestedBlocks "\x7d" (Composed.new .allman)
          (nestedBlocks.callsSent .allman 1))
        (Event.bracePairs done.events) := by
  have hw : nestedBlocks.WellFormed := Tree.wellFormed_planted _ _
  have hwritten : (nestedBlocks.write .allman .never 1).map (fun done => (done.text,
      (Event.bracePairs done.events).map fun x => (x.1.start.offset, x.2.start.offset))) =
      .ok ("\x7b\n\t\x7b\n\t\x7d\n\t\x7b\n\t\x7d\n\x7d\n", [(3, 6), (9, 12), (0, 14)]) := by
      decide +kernel
  cases hd : nestedBlocks.write .allman .never 1 with
  | error e =>
      rw [hd] at hwritten
      cases hwritten
  | ok done =>
      rw [hd] at hwritten
      obtain ⟨htext, hpairs⟩ := Prod.mk.inj (Except.ok.inj hwritten)
      exact ⟨hw, done, rfl, htext, hpairs,
        write_pairs_braces nestedBlocks .allman .never 1 done hw hd⟩

end TreeScribe
