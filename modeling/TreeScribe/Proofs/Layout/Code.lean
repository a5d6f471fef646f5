import TreeScribe.Layout.Node

namespace TreeScribe

def Call.isBlank : Call → Bool
  | .space | .indent | .unindent | .newLine => true
  | _ => false

def Call.isTokenOf (text : String) : Call → Bool
  | .token _ text' => text' = text
  | _ => false

def Command.isBlank : Command → Bool
  | .write c => c.isBlank
  | .gap | .freshLine => true
  | _ => false

/-- What a command says to the sink, unless it is a blank. -/
def Command.call? : Command → Option Call
  | .write c => if c.isBlank then none else some c
  | .openBrace _ => some (.token (.token "\x7b") "\x7b")
  | .closeBrace => some (.token (.token "\x7d") "\x7d")
  | _ => none

def Command.failure? : Command → Option (NodeId × Defect)
  | .fail i d => some (i, d)
  | _ => none

theorem Command.of_isBlank {c : Command} (hc : c.isBlank = true) :
    c.call? = none ∧ c.failure? = none := by
  cases c with
  | write c => exact ⟨if_pos hc, rfl⟩
  | gap | freshLine => exact ⟨rfl, rfl⟩
  | _ => cases hc

namespace Layout

def code (l : Layout) : Layout := l.filter fun c => !c.isBlank

variable {l m : Layout} {i : NodeId}

@[simp] theorem code_nil : code [] = [] := rfl

@[simp] theorem code_append : code (l ++ m) = code l ++ code m := List.filter_append ..

theorem code_cons_of_blank {c : Command} (hc : c.isBlank = true) : code (c :: l) = code l := by
  simp [code, hc]

theorem code_cons {c : Command} (hc : c.isBlank = false) : code (c :: l) = c :: code l := by
  simp [code, hc]

@[simp] theorem code_gap : code (.gap :: l) = code l := code_cons_of_blank rfl

@[simp] theorem code_freshLine : code (.freshLine :: l) = code l := code_cons_of_blank rfl

@[simp] theorem code_openBrace_cons {kind : BraceKind} :
    code (.openBrace kind :: l) = .openBrace kind :: code l :=
  code_cons rfl

@[simp] theorem code_closeBrace_cons : code (.closeBrace :: l) = .closeBrace :: code l :=
  code_cons rfl

@[simp] theorem code_tick : code (.tick :: l) = .tick :: code l := code_cons rfl

theorem code_flatten {ls : List Layout} : code ls.flatten = (ls.map code).flatten :=
  List.filter_flatten

theorem code_flatMap {α : Type} {as : List α} {f : α → Layout} :
    code (as.flatMap f) = as.flatMap fun a => code (f a) := List.filter_flatMap ..

@[simp] theorem code_when {b : Bool} : code (when b l) = when b (code l) := by
  cases b <;> rfl

@[simp] theorem when_nil {b : Bool} : when b [] = [] := by
  cases b <;> rfl

theorem code_ite {p : Prop} [Decidable p] :
    code (if p then l else m) = if p then code l else code m := by
  split <;> rfl

@[simp] theorem code_keyword {word : String} : code (keyword word) = keyword word := rfl

@[simp] theorem code_token {text : String} : code (token text) = token text := rfl

@[simp] theorem code_space : code space = [] := rfl

@[simp] theorem code_newLine : code newLine = [] := rfl

@[simp] theorem code_indent : code indent = [] := rfl

@[simp] theorem code_unindent : code unindent = [] := rfl

@[simp] theorem code_fail {d : Defect} : code (fail i d) = fail i d := rfl

@[simp] theorem code_spaceIf {b : Bool} : code (spaceIf b) = [] := by simp [spaceIf, when_nil]

@[simp] theorem code_newLines {n : Nat} : code (newLines n) = [] := by
  rw [newLines, code_flatten, List.map_replicate, code_newLine]
  simp

@[simp] theorem code_spaced {b : Bool} : code (spaced b l) = code l := by simp [spaced]

@[simp] theorem code_keywordOf {word : String} {o : Option NodeId} :
    code (keywordOf word o) = keywordOf word o := by
  cases o <;> rfl

@[simp] theorem code_openBrace {style : BraceStyle} {kind : BraceKind} {body : Bool} :
    code (openBrace style kind body) = [.openBrace kind] := by
  cases style <;> simp [openBrace, when_nil]

@[simp] theorem code_closeBrace {style : BraceStyle} {body : Bool} :
    code (closeBrace style body) = [.closeBrace] := by
  cases style <;> simp [closeBrace, when_nil]

@[simp] theorem code_keywordPlacement {p : KeywordPlacement} : code (keywordPlacement p) = [] := by
  cases p <;> rfl

namespace Context

@[simp] theorem code_modifiers {ms : Modifiers} :
    code (modifiers ms) = ms.toList.flatMap fun m => [.write (.keyword .modifier m.keyword)] := by
  rw [modifiers, code_flatMap]
  rfl

variable {c d : Context} {r : Role} {nodes : List NodeId}

@[simp] theorem code_need : code (c.need i r) = c.need i r := by simp [need]

@[simp] theorem code_comma {b : Bool} : code (c.comma b) = token "," := by simp [comma]

@[simp] theorem code_equals : code c.equals = token "=" := by simp [equals]

@[simp] theorem code_elementBreak {always : Bool} {n : Nat} :
    code (elementBreak always n) = [] := by
  unfold elementBreak
  split <;> rfl

end Context

def codeCalls : Layout → List Call
  | [] => []
  | c :: l => c.call?.toList ++ if c.failure?.isSome then [] else codeCalls l

def failure? (l : Layout) : Option (NodeId × Defect) := l.findSome? Command.failure?

theorem codeCalls_code : codeCalls (code l) = codeCalls l := by
  induction l with
  | nil => rfl
  | cons c l ih =>
      cases hc : c.isBlank with
      | true =>
          obtain ⟨hcall, hfail⟩ := Command.of_isBlank hc
          rw [code_cons_of_blank hc, ih, codeCalls, hcall, hfail]
          rfl
      | false => rw [code_cons hc, codeCalls, codeCalls, ih]

theorem failure?_code : failure? (code l) = failure? l := by
  induction l with
  | nil => rfl
  | cons c l ih =>
      simp only [failure?] at ih ⊢
      cases hc : c.isBlank with
      | true => rw [code_cons_of_blank hc, ih, List.findSome?_cons, (Command.of_isBlank hc).2]
      | false => rw [code_cons hc, List.findSome?_cons, List.findSome?_cons, ih]

theorem failure?_append : failure? (l ++ m) = (failure? l).or (failure? m) := List.findSome?_append

theorem failure?_append_eq_none :
    failure? (l ++ m) = none ↔ failure? l = none ∧ failure? m = none := by
  rw [failure?_append, Option.or_eq_none_iff]

theorem failure?_cons_eq_none {c : Command} :
    failure? (c :: l) = none ↔ c.failure? = none ∧ failure? l = none := by
  rw [← List.singleton_append, failure?_append_eq_none]
  cases hc : c.failure? <;> simp [failure?, hc]

theorem failure?_node : failure? (node i l) = none ↔ failure? l = none := by
  rw [node, List.cons_append, failure?_cons_eq_none, failure?_append_eq_none]
  exact ⟨fun h => h.2.1, fun h => ⟨rfl, h, rfl⟩⟩

theorem codeCalls_append :
    codeCalls (l ++ m) = codeCalls l ++ if (failure? l).isSome then [] else codeCalls m := by
  induction l with
  | nil => rfl
  | cons c l ih =>
      rw [List.cons_append, codeCalls, codeCalls, ih]
      cases hc : c.failure? with
      | some f => simp [failure?, hc]
      | none => simp [failure?, hc]

end Layout

end TreeScribe
