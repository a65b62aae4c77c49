/-
Values: what expressions evaluate to. Only `nil` and `false` count as false; values of different types are never
equal, and numbers are equal as IEEE numbers are.

`isTruthy`, `typeName` and `isEqual` mirror `is_truthy`, `type_name` and `is_equal`; `display` is what `fmt` writes.
-/
import Reckoner.Decimal.Layout

namespace Reckoner

inductive Value where
  | nil
  | bool (b : Bool)
  | number (x : Float)
  | string (s : String)
  deriving Repr

namespace Value

def isTruthy : Value → Bool
  | .nil => false
  | .bool b => b
  | .number _ | .string _ => true

def typeName : Value → String
  | .nil => "nil"
  | .bool _ => "bool"
  | .number _ => "number"
  | .string _ => "string"

def isEqual : Value → Value → Bool
  | .nil, .nil => true
  | .bool a, .bool b => a == b
  | .number x, .number y => x == y
  | .string s, .string t => s == t
  | _, _ => false

def display : Value → String
  | .nil => "nil"
  | .bool b => if b then "true" else "false"
  | .number x => Decimal.numberText x
  | .string s => s

end Value

end Reckoner
