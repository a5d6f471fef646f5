import TreeScribe.Sink.Call

namespace TreeScribe

inductive BraceKind where
  | namespace_ | type | method | property | accessor | anonymousMethod
  | loop | conditional | switch | try_ | lock | usingResource | fixed | checked | unsafeBlock
  | initializer | block
  deriving DecidableEq, Repr

inductive Defect where
  | missing (role : Role)
  | misplaced (place : String)
  | unknownTarget (name : String)
  | notVisited
  deriving DecidableEq

def Defect.message : Defect → String
  | missing role => "missing required " ++ role.toText ++ " child"
  | misplaced place => "must be a child of " ++ place
  | unknownTarget name => "unknown attribute target '" ++ name ++ "'"
  | notVisited => "written by its parent, not visited"

/-- A `fail` stands where the tree lacks what the construct needs; nothing behind it is carried
out. -/
inductive Command where
  | write (call : Call)
  /-- reports the last token as a keyword that belongs to a node -/
  | reference (node : NodeId)
  | openBrace (kind : BraceKind)
  | closeBrace
  /-- a space, unless at the start of a line -/
  | gap
  /-- a new line, unless at the start of one -/
  | freshLine
  /-- reports that a new group of declarations starts here -/
  | separator
  /-- one step of a long walk, where it may be given up -/
  | tick
  | fail (node : NodeId) (defect : Defect)
  deriving DecidableEq

abbrev Layout := List Command

namespace Layout

def keyword (word : String) : Layout := [.write (.keyword (.token word) word)]

def token (text : String) : Layout := [.write (.token (.token text) text)]

def space : Layout := [.write .space]

def newLine : Layout := [.write .newLine]

def indent : Layout := [.write .indent]

def unindent : Layout := [.write .unindent]

def fail (i : NodeId) (d : Defect) : Layout := [.fail i d]

def when (b : Bool) (l : Layout) : Layout := if b then l else []

def spaceIf (b : Bool) : Layout := when b space

def newLines (n : Nat) : Layout := (List.replicate n newLine).flatten

def node (i : NodeId) (l : Layout) : Layout := .write (.start i) :: l ++ [.write (.finish i)]

def spaced (b : Bool) (l : Layout) : Layout := spaceIf b ++ l ++ spaceIf b

def keywordOf (word : String) : Option NodeId → Layout
  | some i => keyword word ++ [.reference i]
  | none => keyword word

end Layout

end TreeScribe
