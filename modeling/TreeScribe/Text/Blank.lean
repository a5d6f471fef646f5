namespace TreeScribe.Text

/-- Unicode gives blanks the property White_Space. -/
def isBlank (c : Char) : Bool :=
  let n := c.toNat
  9 ≤ n && n ≤ 13 || n = 0x20 || n = 0x85 || n = 0xa0 || n = 0x1680 || 0x2000 ≤ n && n ≤ 0x200a ||
    n = 0x2028 || n = 0x2029 || n = 0x202f || n = 0x205f || n = 0x3000

def wordsFrom (run : List Char) : List Char → List (List Char)
  | [] => if run.isEmpty then [] else [run.reverse]
  | c :: text =>
    if isBlank c then (if run.isEmpty then wordsFrom [] text else run.reverse :: wordsFrom [] text)
    else wordsFrom (c :: run) text

def words (text : String) : List String := (wordsFrom [] text.toList).map String.ofList

def oneLine (text : String) : String := " ".intercalate (words text)

end TreeScribe.Text
