import TreeScribe.Json.Read
import TreeScribe.Policy.Basic

namespace TreeScribe

structure Codec (α : Type) where
  encode : α → Scalar
  decode? : Json → Option α

namespace Codec

/-- The word of a choice may also stand as the only key of an object, with the value null. -/
def word? : Json → Option String
  | .string s => some s
  | .object [(some s, .null)] => some s
  | _ => none

def ofWords {α : Type} (values : List α) (word : α → String) : Codec α where
  encode a := .string (word a)
  decode? j := (word? j).bind fun s => values.find? fun a => word a == s

def braceStyle : Codec BraceStyle :=
  ofWords
    [.endOfLine, .endOfLineWithoutSpace, .nextLine, .nextLineShifted, .nextLineShifted2,
      .bannerStyle]
    fun
      | .endOfLine => "end_of_line"
      | .endOfLineWithoutSpace => "end_of_line_without_space"
      | .nextLine => "next_line"
      | .nextLineShifted => "next_line_shifted"
      | .nextLineShifted2 => "next_line_shifted2"
      | .bannerStyle => "banner_style"

def wrapping : Codec Wrapping :=
  ofWords [.doNotWrap, .wrapAlways, .wrapIfTooLong] fun
    | .doNotWrap => "do_not_wrap"
    | .wrapAlways => "wrap_always"
    | .wrapIfTooLong => "wrap_if_too_long"

def keywordPlacement : Codec KeywordPlacement :=
  ofWords [.sameLine, .newLine] fun
    | .sameLine => "same_line"
    | .newLine => "new_line"

def propertyLayout : Codec PropertyLayout :=
  ofWords [.singleLine, .multipleLines] fun
    | .singleLine => "single_line"
    | .multipleLines => "multiple_lines"

def flag : Codec Bool where
  encode := .bool
  decode?
    | .bool b => some b
    | _ => none

def text : Codec String where
  encode := .string
  decode?
    | .string s => some s
    | _ => none

def count : Codec UInt32 where
  encode n := .natural n.toNat
  decode?
    | .natural n => if n < UInt32.size then some (.ofNat n) else none
    | _ => none

def limit : Codec (Option UInt64) where
  encode
    | some n => .natural n.toNat
    | none => .null
  decode?
    | .null => some none
    | .natural n => if n < UInt64.size then some (some (.ofNat n)) else none
    | _ => none

end Codec

namespace Policy

structure Field where
  name : String
  encode : Policy → Scalar
  decode? : Policy → Json → Option Policy

def Field.of {α : Type} (name : String) (codec : Codec α) (get : Policy → α)
    (set : Policy → α → Policy) : Field where
  name := name
  encode p := codec.encode (get p)
  decode? p j := (codec.decode? j).map (set p)

def fields : List Field :=
  [.of "namespace_brace_style" .braceStyle (·.namespaceBrace)
      fun p v => { p with namespaceBrace := v },
    .of "class_brace_style" .braceStyle (·.classBrace) fun p v => { p with classBrace := v },
    .of "interface_brace_style" .braceStyle (·.interfaceBrace)
      fun p v => { p with interfaceBrace := v },
    .of "struct_brace_style" .braceStyle (·.structBrace) fun p v => { p with structBrace := v },
    .of "enum_brace_style" .braceStyle (·.enumBrace) fun p v => { p with enumBrace := v },
    .of "method_brace_style" .braceStyle (·.methodBrace) fun p v => { p with methodBrace := v },
    .of "constructor_brace_style" .braceStyle (·.constructorBrace)
      fun p v => { p with constructorBrace := v },
    .of "property_brace_style" .braceStyle (·.propertyBrace)
      fun p v => { p with propertyBrace := v },
    .of "accessor_brace_style" .braceStyle (·.accessorBrace)
      fun p v => { p with accessorBrace := v },
    .of "anonymous_method_brace_style" .braceStyle (·.anonymousMethodBrace)
      fun p v => { p with anonymousMethodBrace := v },
    .of "statement_brace_style" .braceStyle (·.statementBrace)
      fun p v => { p with statementBrace := v },
    .of "array_initializer_brace_style" .braceStyle (·.arrayInitializerBrace)
      fun p v => { p with arrayInitializerBrace := v },
    .of "auto_property_formatting" .propertyLayout (·.autoProperty)
      fun p v => { p with autoProperty := v },
    .of "space_before_method_declaration_parentheses" .flag (·.methodDeclarationParens.before)
      fun p v => { p with methodDeclarationParens.before := v },
    .of "space_within_method_declaration_parentheses" .flag (·.methodDeclarationParens.within)
      fun p v => { p with methodDeclarationParens.within := v },
    .of "space_before_method_call_parentheses" .flag (·.methodCallParens.before)
      fun p v => { p with methodCallParens.before := v },
    .of "space_within_method_call_parentheses" .flag (·.methodCallParens.within)
      fun p v => { p with methodCallParens.within := v },
    .of "space_before_if_parentheses" .flag (·.ifParens.before)
      fun p v => { p with ifParens.before := v },
    .of "space_within_if_parentheses" .flag (·.ifParens.within)
      fun p v => { p with ifParens.within := v },
    .of "space_before_while_parentheses" .flag (·.whileParens.before)
      fun p v => { p with whileParens.before := v },
    .of "space_within_while_parentheses" .flag (·.whileParens.within)
      fun p v => { p with whileParens.within := v },
    .of "space_before_for_parentheses" .flag (·.forParens.before)
      fun p v => { p with forParens.before := v },
    .of "space_within_for_parentheses" .flag (·.forParens.within)
      fun p v => { p with forParens.within := v },
    .of "space_before_foreach_parentheses" .flag (·.foreachParens.before)
      fun p v => { p with foreachParens.before := v },
    .of "space_within_foreach_parentheses" .flag (·.foreachParens.within)
      fun p v => { p with foreachParens.within := v },
    .of "space_before_catch_parentheses" .flag (·.catchParens.before)
      fun p v => { p with catchParens.before := v },
    .of "space_within_catch_parentheses" .flag (·.catchParens.within)
      fun p v => { p with catchParens.within := v },
    .of "space_before_switch_parentheses" .flag (·.switchParens.before)
      fun p v => { p with switchParens.before := v },
    .of "space_within_switch_parentheses" .flag (·.switchParens.within)
      fun p v => { p with switchParens.within := v },
    .of "space_before_lock_parentheses" .flag (·.lockParens.before)
      fun p v => { p with lockParens.before := v },
    .of "space_within_lock_parentheses" .flag (·.lockParens.within)
      fun p v => { p with lockParens.within := v },
    .of "space_before_using_parentheses" .flag (·.usingParens.before)
      fun p v => { p with usingParens.before := v },
    .of "space_within_using_parentheses" .flag (·.usingParens.within)
      fun p v => { p with usingParens.within := v },
    .of "space_before_fixed_parentheses" .flag (·.fixedParens.before)
      fun p v => { p with fixedParens.before := v },
    .of "space_within_fixed_parentheses" .flag (·.fixedParens.within)
      fun p v => { p with fixedParens.within := v },
    .of "space_before_checked_parentheses" .flag (·.checkedParens.before)
      fun p v => { p with checkedParens.before := v },
    .of "space_within_checked_parentheses" .flag (·.checkedParens.within)
      fun p v => { p with checkedParens.within := v },
    .of "space_before_typeof_parentheses" .flag (·.typeofParens.before)
      fun p v => { p with typeofParens.before := v },
    .of "space_within_typeof_parentheses" .flag (·.typeofParens.within)
      fun p v => { p with typeofParens.within := v },
    .of "space_within_cast_parentheses" .flag (·.withinCast) fun p v => { p with withinCast := v },
    .of "space_after_cast" .flag (·.afterCast) fun p v => { p with afterCast := v },
    .of "space_within_parentheses" .flag (·.withinParens) fun p v => { p with withinParens := v },
    .of "space_before_brackets" .flag (·.brackets.before)
      fun p v => { p with brackets.before := v },
    .of "space_within_brackets" .flag (·.brackets.within)
      fun p v => { p with brackets.within := v },
    .of "space_around_assignment" .flag (·.aroundAssignment)
      fun p v => { p with aroundAssignment := v },
    .of "space_around_binary_operators" .flag (·.aroundBinary)
      fun p v => { p with aroundBinary := v },
    .of "space_before_conditional_question" .flag (·.question.before)
      fun p v => { p with question.before := v },
    .of "space_after_conditional_question" .flag (·.question.after)
      fun p v => { p with question.after := v },
    .of "space_before_conditional_colon" .flag (·.colon.before)
      fun p v => { p with colon.before := v },
    .of "space_after_conditional_colon" .flag (·.colon.after)
      fun p v => { p with colon.after := v },
    .of "space_around_lambda_arrow" .flag (·.aroundArrow) fun p v => { p with aroundArrow := v },
    .of "space_before_comma" .flag (·.comma.before) fun p v => { p with comma.before := v },
    .of "space_after_comma" .flag (·.comma.after) fun p v => { p with comma.after := v },
    .of "space_before_for_semicolon" .flag (·.forSemicolon.before)
      fun p v => { p with forSemicolon.before := v },
    .of "space_after_for_semicolon" .flag (·.forSemicolon.after)
      fun p v => { p with forSemicolon.after := v },
    .of "else_new_line_placement" .keywordPlacement (·.elsePlacement)
      fun p v => { p with elsePlacement := v },
    .of "catch_new_line_placement" .keywordPlacement (·.catchPlacement)
      fun p v => { p with catchPlacement := v },
    .of "finally_new_line_placement" .keywordPlacement (·.finallyPlacement)
      fun p v => { p with finallyPlacement := v },
    .of "while_new_line_placement" .keywordPlacement (·.whilePlacement)
      fun p v => { p with whilePlacement := v },
    .of "array_initializer_wrapping" .wrapping (·.arrayWrapping)
      fun p v => { p with arrayWrapping := v },
    .of "indentation_string" .text (·.indentation) fun p v => { p with indentation := v },
    .of "indent_namespace_body" .flag (·.indentNamespace)
      fun p v => { p with indentNamespace := v },
    .of "indent_class_body" .flag (·.indentClass) fun p v => { p with indentClass := v },
    .of "indent_switch_body" .flag (·.indentSwitch) fun p v => { p with indentSwitch := v },
    .of "indent_case_body" .flag (·.indentCase) fun p v => { p with indentCase := v },
    .of "blank_lines_after_usings" .count (·.linesAfterUsings)
      fun p v => { p with linesAfterUsings := v },
    .of "blank_lines_between_types" .count (·.linesBetweenTypes)
      fun p v => { p with linesBetweenTypes := v },
    .of "blank_lines_between_members" .count (·.linesBetweenMembers)
      fun p v => { p with linesBetweenMembers := v },
    .of "blank_lines_between_fields" .count (·.linesBetweenFields)
      fun p v => { p with linesBetweenFields := v },
    .of "insert_parentheses_for_readability" .flag (·.readableParens)
      fun p v => { p with readableParens := v },
    .of "max_string_length" .limit (·.stringLimit) fun p v => { p with stringLimit := v }]

def field? (name : String) : Option Field := fields.find? fun f => f.name == name

def setMember? (p : Policy) (name : String) (value : Json) : Option Policy :=
  match field? name with
  | some f => f.decode? p value
  | none => some p

/-- Reads members in turn, `seen` being the fields that were given already. -/
def ofMembers? : List String → Policy → List (Option String × Json) → Option Policy
  | _, p, [] => some p
  | _, _, (none, _) :: _ => none
  | seen, p, (some name, value) :: members =>
    match field? name with
    | none => ofMembers? seen p members
    | some f =>
      if seen.contains name then none
      else (f.decode? p value).bind fun p => ofMembers? (name :: seen) p members

/-- Reads values of consecutive fields; there must be a field for each. -/
def ofItems? : Policy → List Field → List Json → Option Policy
  | p, _, [] => some p
  | _, [], _ :: _ => none
  | p, f :: fields, value :: values => (f.decode? p value).bind fun p => ofItems? p fields values

/-- An object has some of the fields, in any order, and may have other members; an array has the
values of the leading fields. -/
def ofJson? : Json → Option Policy
  | .object members => ofMembers? [] allman members
  | .array items => ofItems? allman fields items
  | _ => none

def read? (text : String) : Option Policy := (Json.read? text).bind ofJson?

def write (p : Policy) : String := Json.writeObject (fields.map fun f => (f.name, f.encode p))

end Policy

/-- A policy file is read as UTF-8 text; the two failures are told apart. -/
inductive PolicyError where
  | unreadable
  | malformed
  deriving DecidableEq, Repr

def Policy.ofBytes (bytes : ByteArray) : Except PolicyError Policy :=
  match String.fromUTF8? bytes with
  | none => .error .unreadable
  | some text =>
    match Policy.read? text with
    | none => .error .malformed
    | some p => .ok p

end TreeScribe
