/-
Strength of operators. The binary operators stand on six levels; an operator on a tighter level takes its
operands before one on a looser level, and operators of one level group from the left.

The levels are the operators that `equality`, `comparison`, `logic`, `addition`, `multiplication` and `exponent` each fold.
-/
import Reckoner.Token.Kind

namespace Reckoner

/-- the levels of binary operators, tightest first -/
inductive Level where
  | exponent | product | sum | logic | comparison | equality
  deriving DecidableEq, Repr

namespace Level

def all : List Level :=
  [.exponent, .product, .sum, .logic, .comparison, .equality]

/-- the levels tighter than a level, tightest first -/
def tighter : Level → List Level
  | .exponent => []
  | .product => [.exponent]
  | .sum => [.exponent, .product]
  | .logic => [.exponent, .product, .sum]
  | .comparison => [.exponent, .product, .sum, .logic]
  | .equality => [.exponent, .product, .sum, .logic, .comparison]

end Level

namespace Kind

def level? : Kind → Option Level
  | .starStar => some .exponent
  | .slash | .star => some .product
  | .plus | .minus => some .sum
  | .and | .or | .bitOr | .bitAnd | .bitXor | .bitNand => some .logic
  | .greater | .greaterEqual | .less | .lessEqual => some .comparison
  | .bangEqual | .equalEqual => some .equality
  | _ => none

/-- whether a kind is an operator that stands before its operand -/
def isUnary : Kind → Bool
  | .bang | .minus | .bitNot => true
  | _ => false

end Kind

end Reckoner
