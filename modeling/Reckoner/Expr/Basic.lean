/-
Expression trees. A leaf is a constant; groupings keep the parentheses that were written; operators keep their
token, so that an error can point at it. Two trees have the same shape if they differ at most in where their
operators stand.

`Expr.sameShape` mirrors `same_shape`, `Expr.nodeName` mirrors `node_name`.
-/
import Reckoner.Token.Basic

namespace Reckoner

/-- a constant in a tree; whole and fractional numbers stay apart so that printing can tell them apart -/
inductive Constant where
  | nil
  | bool (b : Bool)
  | integer (n : Int32)
  | double (x : Float)
  | string (s : String)
  deriving BEq, Repr

inductive Expr where
  | literal (value : Constant)
  | grouping (inner : Expr)
  | unary (operator : Token) (operand : Expr)
  | binary (left : Expr) (operator : Token) (right : Expr)
  | ternary (condition thenBranch elseBranch : Expr)
  deriving BEq, Repr

namespace Expr

def nodeName : Expr → String
  | .literal _ => "literal"
  | .grouping _ => "grouping"
  | .unary .. => "unary"
  | .binary .. => "binary"
  | .ternary .. => "ternary"

/-- whether two trees agree in shape, operators and constants, wherever their operators stand -/
def sameShape : Expr → Expr → Bool
  | .literal a, .literal b => a == b
  | .grouping a, .grouping b => a.sameShape b
  | .unary f a, .unary g b => f.sameOperator g && a.sameShape b
  | .binary a f b, .binary c g d => f.sameOperator g && a.sameShape c && b.sameShape d
  | .ternary a b c, .ternary d e f => a.sameShape d && b.sameShape e && c.sameShape f
  | _, _ => false

/-- the trees right below the root, from left to right -/
def parts : Expr → List Expr
  | .literal _ => []
  | .grouping a | .unary _ a => [a]
  | .binary a _ b => [a, b]
  | .ternary a b c => [a, b, c]

/-- the nodes of a tree: a node comes before its children, and children come from left to right -/
def preorder (e : Expr) : List Expr :=
  e :: match e with
    | .literal _ => []
    | .grouping a | .unary _ a => a.preorder
    | .binary a _ b => a.preorder ++ b.preorder
    | .ternary a b c => a.preorder ++ b.preorder ++ c.preorder

/-- what holds of a tree if it holds of its parts holds of every tree -/
theorem parts_induction {motive : Expr → Prop} (step : ∀ e : Expr, (∀ a ∈ e.parts, motive a) → motive e) (e : Expr) :
    motive e := by
  induction e with
  | literal c => exact step _ (by simp [parts])
  | grouping a ih => exact step _ (by simpa [parts] using ih)
  | unary f a ih => exact step _ (by simpa [parts] using ih)
  | binary a f b iha ihb => exact step _ (by simpa [parts] using ⟨iha, ihb⟩)
  | ternary a b c iha ihb ihc => exact step _ (by simpa [parts] using ⟨iha, ihb, ihc⟩)

end Expr

end Reckoner
