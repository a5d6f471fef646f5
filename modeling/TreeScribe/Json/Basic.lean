import TreeScribe.Text.Escape

namespace TreeScribe

/-- Of numbers the whole ones without sign, fraction or exponent are kept, and of strings those that
spell characters, which an escape of half a surrogate pair does not. -/
inductive Json where
  | null
  | bool (value : Bool)
  | natural (value : Nat)
  | otherNumber
  | string (text : String)
  | unpairedString
  | array (items : List Json)
  | object (members : List (Option String × Json))
  deriving Inhabited

inductive Scalar where
  | null
  | bool (value : Bool)
  | natural (value : Nat)
  | string (text : String)
  deriving DecidableEq, Repr

namespace Scalar

def toJson : Scalar → Json
  | null => .null
  | bool b => .bool b
  | natural n => .natural n
  | string s => .string s

def escapeChar (c : Char) : List Char :=
  if c = '\x22' then ['\\', '\x22']
  else if c = '\\' then ['\\', '\\']
  else if c = '\x08' then ['\\', 'b']
  else if c = '\x0c' then ['\\', 'f']
  else if c = '\n' then ['\\', 'n']
  else if c = '\r' then ['\\', 'r']
  else if c = '\t' then ['\\', 't']
  else if c.toNat < 0x20 then '\\' :: 'u' :: Text.hexDigits 4 c.toNat
  else [c]

def quote (text : List Char) : List Char := '\x22' :: text.flatMap escapeChar ++ ['\x22']

def write : Scalar → List Char
  | null => ['n', 'u', 'l', 'l']
  | bool true => ['t', 'r', 'u', 'e']
  | bool false => ['f', 'a', 'l', 's', 'e']
  | natural n => Nat.toDigits 10 n
  | string s => quote s.toList

end Scalar

namespace Json

def writeMember (member : String × Scalar) : List Char :=
  [' ', ' '] ++ Scalar.quote member.1.toList ++ [':', ' '] ++ member.2.write

def writeMembers : List (String × Scalar) → List Char
  | [] => []
  | [m] => writeMember m
  | m :: rest => writeMember m ++ [',', '\n'] ++ writeMembers rest

def writeObject (members : List (String × Scalar)) : String :=
  String.ofList (['\x7b', '\n'] ++ writeMembers members ++ ['\n', '\x7d'])

end Json

end TreeScribe
