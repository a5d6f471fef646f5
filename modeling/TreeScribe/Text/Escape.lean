import TreeScribe.Text.Unprintable

namespace TreeScribe.Text

def hexDigit (n : Nat) : Char := if n < 10 then Char.ofNat (48 + n) else Char.ofNat (87 + n)

def hexDigits : Nat → Nat → List Char
  | 0, _ => []
  | width + 1, n => hexDigits width (n / 16) ++ [hexDigit (n % 16)]

def codeEscape (c : Char) : List Char :=
  if c.toNat > 0xFFFF then '\\' :: 'U' :: hexDigits 8 c.toNat
  else '\\' :: 'u' :: hexDigits 4 c.toNat

def escapeLetter? : Char → Option Char
  | '\\' => some '\\'
  | '\x00' => some '0'
  | '\x07' => some 'a'
  | '\x08' => some 'b'
  | '\x0c' => some 'f'
  | '\n' => some 'n'
  | '\r' => some 'r'
  | '\t' => some 't'
  | '\x0b' => some 'v'
  | _ => none

/-- Characters that stand for themselves although their category is hidden. -/
def isAlwaysPlain : Char → Bool
  | ' ' | '_' | '\x60' | '^' => true
  | _ => false

def escapeCharWith (hidden : Char → Bool) (c : Char) : List Char :=
  match escapeLetter? c with
  | some letter => ['\\', letter]
  | none =>
    if isAlwaysPlain c then [c]
    else if c = '\ufffd' ∨ c.toNat > 0xFFFF ∨ hidden c then codeEscape c
    else [c]

def quotedBodyWith (hidden : Char → Bool) (c : Char) : List Char :=
  if c = '\x22' then ['\\', '\x22'] else escapeCharWith hidden c

def tooLongMarker : String := "[...string is too long...]"

def escapeStringWith (hidden : Char → Bool) (limit : Option Nat) (text : List Char) : List Char :=
  match limit with
  | none => text.flatMap (quotedBodyWith hidden)
  | some n =>
    (text.take n).flatMap (quotedBodyWith hidden) ++
    (if text.length ≤ n then [] else tooLongMarker.toList)

def isPlainInIdentifier (hidden : Char → Bool) (c : Char) : Bool :=
  c != '\\' && (isAlwaysPlain c || !hidden c)

def escapeIdentifierWith (hidden : Char → Bool) (text : List Char) : List Char :=
  text.flatMap fun c => if isPlainInIdentifier hidden c then [c] else codeEscape c

def escapeChar (c : Char) : String := String.ofList (escapeCharWith isUnprintable c)

/-- The body of a character literal, where the single quote needs an escape too. -/
def escapeCharLiteral (c : Char) : String :=
  if c = '\x27' then String.ofList ['\\', '\x27'] else escapeChar c

def escapeString (limit : Option Nat) (text : String) : String :=
  String.ofList (escapeStringWith isUnprintable limit text.toList)

def escapeIdentifier (text : String) : String :=
  String.ofList (escapeIdentifierWith isUnprintable text.toList)

end TreeScribe.Text
