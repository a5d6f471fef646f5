import TreeScribe.Sink.Call
import TreeScribe.Text.Position
import TreeScribe.Tree.Keyword

namespace TreeScribe

/-- Indentation is written when the first token of a line arrives, so that an empty line holds no
blanks. Until then it is pending, and counts for the place where the next token would start. -/
structure TextSink where
  output : String
  /-- behind the output -/
  place : Location
  /-- one level of indentation -/
  unit : String
  level : Nat
  /-- whether the indentation of the current line is still to be written -/
  isPending : Bool
  /-- whether the output ends in a line feed or is empty -/
  isFresh : Bool
  /-- string literals longer than this are cut -/
  limit : Option Nat
  last : Option TextRange

namespace TextSink

def new (unit : String) (limit : Option Nat) : TextSink :=
  ⟨"", .first, unit, 0, true, true, limit, none⟩

def indentation (w : TextSink) : String := (List.replicate w.level w.unit).foldl (· ++ ·) ""

def nextPlace (w : TextSink) : Location :=
  if w.isPending then
    ⟨w.place.line, w.place.column + w.level * w.unit.length,
      w.place.offset + w.level * w.unit.utf8ByteSize⟩
  else w.place

def settle (w : TextSink) : TextSink :=
  if w.isPending then
    { w with output := w.output ++ w.indentation, place := w.nextPlace, isPending := false }
  else w

def append (w : TextSink) (text : String) : TextSink :=
  { w with
    output := w.output ++ text
    place := w.place.advance text.toList
    isFresh := if text.isEmpty then w.isFresh else text.toList.getLast? == some '\n' }

def newLine (w : TextSink) : TextSink :=
  { w with
    output := w.output.push '\n', place := w.place.step '\n', isPending := true, isFresh := true }

def word (w : TextSink) (text : String) : TextSink :=
  let w := w.settle
  { w.append text with
    last := some ⟨w.place, w.place.advance text.toList, w.place.offset_le_advance _⟩ }

def identifierText? (t : Tree) (i : NodeId) : Option String :=
  match t.kind i with
  | .identifier name verbatim =>
    some ((if verbatim || Keyword.isKeyword t name i then "@" else "") ++
      Text.escapeIdentifier name)
  | _ => none

def comment (w : TextSink) (kind : CommentKind) (content : String) : TextSink :=
  match kind with
  | .line => (w.settle.append ("//" ++ content)).newLine
  | .documentation => (w.settle.append ("///" ++ content)).newLine
  | .block => w.settle.append ("/*" ++ content ++ "*/")
  | .inactive => w.settle.append content

def directive (w : TextSink) (kind : DirectiveKind) (argument : String) : TextSink :=
  ((if w.isFresh then w else w.newLine).settle.append
    ("#" ++ kind.keyword ++ (if argument.isEmpty then "" else " " ++ argument))).newLine

def put (t : Tree) (w : TextSink) : Call → TextSink
  | .start _ | .finish _ => w
  | .identifier i =>
    match identifierText? t i with
    | some text => w.word text
    | none => w
  | .keyword _ text | .token _ text | .primitiveType text => w.word text
  | .literal v => w.word (v.write w.limit).toText
  | .special (.comment kind content) => w.comment kind content
  | .special (.directive kind argument) => w.directive kind argument
  | .space => w.settle.append " "
  | .indent => { w with level := w.level + 1 }
  | .unindent => { w with level := w.level - 1 }
  | .newLine => w.newLine

end TextSink

instance : Sink TextSink where
  put := TextSink.put
  location w := some w.nextPlace
  lastRange w := w.last

end TreeScribe
