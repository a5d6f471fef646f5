import TreeScribe.Proofs.Expression.Term

namespace TreeScribe.Grammar

/-- Names, literals, most keywords and three marks can only begin an operand. -/
def beginsOperand : List Lexeme → Bool
  | .name .. :: _ | .literal _ :: _ | .type _ :: _ => true
  | .word w :: _ => w ≠ "is" && w ≠ "as"
  | .mark m :: _ => m = "(" || m = "!" || m = "~"
  | [] => false

/-- Whether an opening parenthesis starts a cast, by what stands behind it. -/
def startsCast : List Lexeme → Bool
  | .type type :: close :: s => close = .mark ")" && (!type.isName || beginsOperand s)
  | _ => false

mutual

/-- `Reads l s e r` says that `s` begins with a term `e` of level `l`, with `r` behind it. Operators
that group to the left extend a term of their own level; the others start a term of their level with
one of a tighter level. -/
inductive Reads : Precedence → List Lexeme → Term → List Lexeme → Prop
  | start {l : Precedence} {s r : List Lexeme} {e : Term} (h : Starts l s e r) : Reads l s e r
  | extend {l : Precedence} {s m r : List Lexeme} {a e : Term} (h : Reads l s a m)
      (hx : Extends l a m e r) :
      Reads l s e r

inductive Starts : Precedence → List Lexeme → Term → List Lexeme → Prop
  | tighter {l : Precedence} {s r : List Lexeme} {e : Term} (hl : l ≠ .primary)
      (h : Reads l.tighter s e r) :
      Starts l s e r
  | name {text : String} {verbatim : Bool} {r : List Lexeme} :
      Starts .primary (.name text verbatim :: r) (.name text verbatim) r
  | typeName {type : TypeLexeme} {r : List Lexeme} (ht : type.isName = true) :
      Starts .primary (.type type :: r) (.typeName type) r
  | literal {value : Literal} {r : List Lexeme} :
      Starts .primary (.literal value :: r) (.literal value) r
  | group {s r : List Lexeme} {e : Term} (hs : startsCast s = false)
      (h : Reads .assignment s e (.mark ")" :: r)) : Starts .primary (.mark "(" :: s) (.group e) r
  | unary {op : UnaryOperator} {s r : List Lexeme} {e : Term} (ho : op.isPrefix = true)
      (h : Reads .unary s e r) : Starts .unary (op.lexeme :: s) (.unary op e) r
  | cast {type : TypeLexeme} {s r : List Lexeme} {e : Term}
      (hs : startsCast (.type type :: .mark ")" :: s) = true) (h : Reads .unary s e r) :
      Starts .unary (.mark "(" :: .type type :: .mark ")" :: s) (.cast type e) r
  | coalesce {s m r : List Lexeme} {a b : Term} (h : Reads .condOr s a (.mark "??" :: m))
      (h' : Reads .coalescing m b r) : Starts .coalescing s (.binary .coalesce a b) r
  | conditional {s m n r : List Lexeme} {c a b : Term} (h : Reads .coalescing s c (.mark "?" :: m))
      (h₁ : Reads .assignment m a (.mark ":" :: n)) (h₂ : Reads .assignment n b r) :
      Starts .conditional s (.conditional c a b) r
  | assign {op : AssignmentOperator} {s m r : List Lexeme} {a b : Term}
      (h : Reads .unary s a (.mark op.token :: m)) (h' : Reads .assignment m b r) :
      Starts .assignment s (.assign op a b) r

inductive Extends : Precedence → Term → List Lexeme → Term → List Lexeme → Prop
  | member {a : Term} {text : String} {verbatim : Bool} {r : List Lexeme} :
      Extends .primary a (.mark "." :: .name text verbatim :: r) (.member a text verbatim) r
  | call {a : Term} {es : List Term} {s r : List Lexeme} (h : Arguments ")" true s es r) :
      Extends .primary a (.mark "(" :: s) (.call a es) r
  | index {a : Term} {es : List Term} {s r : List Lexeme} (h : Arguments "]" true s es r) :
      Extends .primary a (.mark "[" :: s) (.index a es) r
  | binary {op : BinaryOperator} {a b : Term} {s r : List Lexeme} (ho : op ≠ .coalesce)
      (h : Reads (Precedence.ofBinary op).tighter s b r) :
      Extends (.ofBinary op) a (.mark op.token :: s) (.binary op a b) r
  | test {how : TypeTest} {a : Term} {type : TypeLexeme} {r : List Lexeme} :
      Extends .relational a (.word how.word :: .type type :: r) (.test how a type) r

inductive Arguments : String → Bool → List Lexeme → List Term → List Lexeme → Prop
  | close {close : String} {first : Bool} {r : List Lexeme} :
      Arguments close first (.mark close :: r) [] r
  | more {close : String} {first : Bool} {s m r : List Lexeme} {e : Term} {es : List Term}
      (h : Reads .assignment s e m) (hs : Arguments close false m es r) :
      Arguments close first (Term.separator first ++ s) (e :: es) r

end

mutual

theorem Reads.length_lt {l : Precedence} {s r : List Lexeme} {e : Term} :
    Reads l s e r → r.length < s.length
  | .start h => h.length_lt
  | .extend h hx => Nat.lt_trans hx.length_lt h.length_lt

theorem Starts.length_lt {l : Precedence} {s r : List Lexeme} {e : Term} :
    Starts l s e r → r.length < s.length
  | .tighter _ h => h.length_lt
  | .name => Nat.lt_succ_self _
  | .typeName _ => Nat.lt_succ_self _
  | .literal => Nat.lt_succ_self _
  | .group _ h => by have := h.length_lt; simp only [List.length_cons] at *; omega
  | .unary _ h => Nat.lt_succ_of_lt h.length_lt
  | .cast _ h => by have := h.length_lt; simp only [List.length_cons] at *; omega
  | .coalesce h h' =>
      by have := h.length_lt; have := h'.length_lt; simp only [List.length_cons] at *; omega
  | .conditional h h₁ h₂ => by
      have := h.length_lt; have := h₁.length_lt; have :=
        h₂.length_lt; simp only [List.length_cons] at *; omega
  | .assign h h' =>
      by have := h.length_lt; have := h'.length_lt; simp only [List.length_cons] at *; omega

theorem Extends.length_lt {l : Precedence} {a e : Term} {s r : List Lexeme} :
    Extends l a s e r → r.length < s.length
  | .member => by simp only [List.length_cons]; omega
  | .call h => by have := h.length_lt; simp only [List.length_cons] at *; omega
  | .index h => by have := h.length_lt; simp only [List.length_cons] at *; omega
  | .binary _ h => by have := h.length_lt; simp only [List.length_cons] at *; omega
  | .test => by simp only [List.length_cons]; omega

theorem Arguments.length_lt {close : String} {first : Bool} {s r : List Lexeme} {es : List Term} :
    Arguments close first s es r → r.length < s.length
  | .close => by simp
  | .more h hs =>
      by have := h.length_lt; have := hs.length_lt; simp only [List.length_append] at *; omega

end

end TreeScribe.Grammar
