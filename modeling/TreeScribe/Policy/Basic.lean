namespace TreeScribe

/-- Where braces go. `nextLineShifted` puts both braces one level in, `nextLineShifted2` the body
two, and `bannerStyle` indents the closing brace with the body. -/
inductive BraceStyle where
  | endOfLine | endOfLineWithoutSpace | nextLine | nextLineShifted | nextLineShifted2 | bannerStyle
  deriving DecidableEq, Repr

inductive Wrapping where
  | doNotWrap | wrapAlways | wrapIfTooLong
  deriving DecidableEq, Repr

inductive KeywordPlacement where
  | sameLine | newLine
  deriving DecidableEq, Repr

inductive PropertyLayout where
  | singleLine | multipleLines
  deriving DecidableEq, Repr

structure ParenSpacing where
  before : Bool
  within : Bool
  deriving DecidableEq, Repr

structure SideSpacing where
  before : Bool
  after : Bool
  deriving DecidableEq, Repr

structure Policy where
  namespaceBrace : BraceStyle
  classBrace : BraceStyle
  interfaceBrace : BraceStyle
  structBrace : BraceStyle
  enumBrace : BraceStyle
  methodBrace : BraceStyle
  constructorBrace : BraceStyle
  propertyBrace : BraceStyle
  accessorBrace : BraceStyle
  anonymousMethodBrace : BraceStyle
  statementBrace : BraceStyle
  arrayInitializerBrace : BraceStyle
  autoProperty : PropertyLayout
  methodDeclarationParens : ParenSpacing
  methodCallParens : ParenSpacing
  ifParens : ParenSpacing
  whileParens : ParenSpacing
  forParens : ParenSpacing
  foreachParens : ParenSpacing
  catchParens : ParenSpacing
  switchParens : ParenSpacing
  lockParens : ParenSpacing
  usingParens : ParenSpacing
  fixedParens : ParenSpacing
  /-- of checked and unchecked expressions -/
  checkedParens : ParenSpacing
  /-- of type, size and default value expressions -/
  typeofParens : ParenSpacing
  withinCast : Bool
  afterCast : Bool
  withinParens : Bool
  brackets : ParenSpacing
  aroundAssignment : Bool
  aroundBinary : Bool
  question : SideSpacing
  colon : SideSpacing
  aroundArrow : Bool
  comma : SideSpacing
  forSemicolon : SideSpacing
  elsePlacement : KeywordPlacement
  catchPlacement : KeywordPlacement
  finallyPlacement : KeywordPlacement
  /-- of the condition behind a loop body -/
  whilePlacement : KeywordPlacement
  arrayWrapping : Wrapping
  indentation : String
  indentNamespace : Bool
  indentClass : Bool
  indentSwitch : Bool
  indentCase : Bool
  linesAfterUsings : UInt32
  linesBetweenTypes : UInt32
  linesBetweenMembers : UInt32
  linesBetweenFields : UInt32
  /-- whether to add parentheses that only help readers -/
  readableParens : Bool
  /-- string literals longer than this are cut -/
  stringLimit : Option UInt64
  deriving DecidableEq

namespace Policy

def allman : Policy where
  namespaceBrace := .nextLine
  classBrace := .nextLine
  interfaceBrace := .nextLine
  structBrace := .nextLine
  enumBrace := .nextLine
  methodBrace := .nextLine
  constructorBrace := .nextLine
  propertyBrace := .nextLine
  accessorBrace := .nextLine
  anonymousMethodBrace := .endOfLine
  statementBrace := .nextLine
  arrayInitializerBrace := .nextLine
  autoProperty := .singleLine
  methodDeclarationParens := ⟨false, false⟩
  methodCallParens := ⟨false, false⟩
  ifParens := ⟨true, false⟩
  whileParens := ⟨true, false⟩
  forParens := ⟨true, false⟩
  foreachParens := ⟨true, false⟩
  catchParens := ⟨true, false⟩
  switchParens := ⟨true, false⟩
  lockParens := ⟨true, false⟩
  usingParens := ⟨true, false⟩
  fixedParens := ⟨true, false⟩
  checkedParens := ⟨false, false⟩
  typeofParens := ⟨false, false⟩
  withinCast := false
  afterCast := false
  withinParens := false
  brackets := ⟨false, false⟩
  aroundAssignment := true
  aroundBinary := true
  question := ⟨true, true⟩
  colon := ⟨true, true⟩
  aroundArrow := true
  comma := ⟨false, true⟩
  forSemicolon := ⟨false, true⟩
  elsePlacement := .newLine
  catchPlacement := .newLine
  finallyPlacement := .newLine
  whilePlacement := .newLine
  arrayWrapping := .wrapIfTooLong
  indentation := "\t"
  indentNamespace := true
  indentClass := true
  indentSwitch := true
  indentCase := true
  linesAfterUsings := 1
  linesBetweenTypes := 1
  linesBetweenMembers := 1
  linesBetweenFields := 0
  readableParens := false
  stringLimit := none

def kAndR : Policy :=
  { allman with
    namespaceBrace := .endOfLine
    classBrace := .endOfLine
    interfaceBrace := .endOfLine
    structBrace := .endOfLine
    enumBrace := .endOfLine
    methodBrace := .endOfLine
    constructorBrace := .endOfLine
    propertyBrace := .endOfLine
    accessorBrace := .endOfLine
    statementBrace := .endOfLine
    arrayInitializerBrace := .endOfLine
    elsePlacement := .sameLine
    catchPlacement := .sameLine
    finallyPlacement := .sameLine
    whilePlacement := .sameLine }

def compact : Policy :=
  { kAndR with
    ifParens := ⟨false, false⟩
    whileParens := ⟨false, false⟩
    forParens := ⟨false, false⟩
    foreachParens := ⟨false, false⟩
    catchParens := ⟨false, false⟩
    switchParens := ⟨false, false⟩
    lockParens := ⟨false, false⟩
    usingParens := ⟨false, false⟩
    fixedParens := ⟨false, false⟩
    indentation := "  "
    linesAfterUsings := 0
    linesBetweenTypes := 0
    linesBetweenMembers := 0
    linesBetweenFields := 0 }

end Policy

end TreeScribe
