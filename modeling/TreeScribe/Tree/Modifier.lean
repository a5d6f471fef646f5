namespace TreeScribe

inductive Modifier where
  | publicAccess | protectedAccess | privateAccess | internalAccess
  | hidingMember | unsafeCode | abstractMember | virtualMember | sealedMember | staticMember
  | overriding
  | readOnly | volatileField | externalCode | partialPart | constant | asyncCode
  deriving DecidableEq, Repr

namespace Modifier

def all : List Modifier :=
  [publicAccess, protectedAccess, privateAccess, internalAccess,
    hidingMember, unsafeCode, abstractMember, virtualMember, sealedMember, staticMember, overriding,
    readOnly, volatileField, externalCode, partialPart, constant, asyncCode]

def keyword : Modifier → String
  | publicAccess => "public"
  | protectedAccess => "protected"
  | privateAccess => "private"
  | internalAccess => "internal"
  | hidingMember => "new"
  | unsafeCode => "unsafe"
  | abstractMember => "abstract"
  | virtualMember => "virtual"
  | sealedMember => "sealed"
  | staticMember => "static"
  | overriding => "override"
  | readOnly => "readonly"
  | volatileField => "volatile"
  | externalCode => "extern"
  | partialPart => "partial"
  | constant => "const"
  | asyncCode => "async"

def ofKeyword? (word : String) : Option Modifier := all.find? (·.keyword == word)

def index : Modifier → Fin 17
  | publicAccess => 0
  | protectedAccess => 1
  | privateAccess => 2
  | internalAccess => 3
  | hidingMember => 4
  | unsafeCode => 5
  | abstractMember => 6
  | virtualMember => 7
  | sealedMember => 8
  | staticMember => 9
  | overriding => 10
  | readOnly => 11
  | volatileField => 12
  | externalCode => 13
  | partialPart => 14
  | constant => 15
  | asyncCode => 16

end Modifier

structure Modifiers where
  bits : BitVec 17
  deriving DecidableEq, Repr

namespace Modifiers

def none : Modifiers := ⟨0⟩

def single (m : Modifier) : Modifiers := ⟨BitVec.twoPow 17 m.index⟩

def union (a b : Modifiers) : Modifiers := ⟨a.bits ||| b.bits⟩

def ofList (l : List Modifier) : Modifiers := l.foldl (fun s m => s.union (single m)) none

def has (s : Modifiers) (m : Modifier) : Bool := s.bits.getLsb m.index

def contains (a b : Modifiers) : Bool := a.bits &&& b.bits == b.bits

def isEmpty (s : Modifiers) : Bool := s.bits == 0

def toList (s : Modifiers) : List Modifier := Modifier.all.filter s.has

def keyword (s : Modifiers) : String :=
  match s.toList with
  | [m] => m.keyword
  | _ => ""

end Modifiers

end TreeScribe
