namespace TreeScribe

inductive BinaryOperator where
  | bitAnd | bitOr | condAnd | condOr | bitXor
  | greater | greaterEqual | equal | notEqual | less | lessEqual
  | add | subtract | multiply | divide | remainder
  | shiftLeft | shiftRight | coalesce
  deriving DecidableEq, Repr

namespace BinaryOperator

def token : BinaryOperator → String
  | bitAnd => "&"
  | bitOr => "|"
  | condAnd => "&&"
  | condOr => "||"
  | bitXor => "^"
  | greater => ">"
  | greaterEqual => ">="
  | equal => "=="
  | notEqual => "!="
  | less => "<"
  | lessEqual => "<="
  | add => "+"
  | subtract => "-"
  | multiply => "*"
  | divide => "/"
  | remainder => "%"
  | shiftLeft => "<<"
  | shiftRight => ">>"
  | coalesce => "??"

def isBitwise : BinaryOperator → Bool
  | bitAnd | bitOr | bitXor => true
  | _ => false

end BinaryOperator

/-- `conditionalAccess` is the mark behind the target of `a?.b`, and `conditionalEnd` the unwritten
end of such a chain. -/
inductive UnaryOperator where
  | not | bitNot | minus | plus
  | increment | decrement | postIncrement | postDecrement
  | dereference | addressOf | await | conditionalAccess | conditionalEnd
  deriving DecidableEq, Repr

namespace UnaryOperator

def token : UnaryOperator → String
  | not => "!"
  | bitNot => "~"
  | minus => "-"
  | plus => "+"
  | increment | postIncrement => "++"
  | decrement | postDecrement => "--"
  | dereference => "*"
  | addressOf => "&"
  | await => "await"
  | conditionalAccess => "?"
  | conditionalEnd => ""

def isPostfix : UnaryOperator → Bool
  | postIncrement | postDecrement | conditionalAccess => true
  | _ => false

end UnaryOperator

inductive AssignmentOperator where
  | assign | add | subtract | multiply | divide | remainder
  | shiftLeft | shiftRight | bitAnd | bitOr | bitXor
  deriving DecidableEq, Repr

def AssignmentOperator.token : AssignmentOperator → String
  | assign => "="
  | add => "+="
  | subtract => "-="
  | multiply => "*="
  | divide => "/="
  | remainder => "%="
  | shiftLeft => "<<="
  | shiftRight => ">>="
  | bitAnd => "&="
  | bitOr => "|="
  | bitXor => "^="

end TreeScribe
