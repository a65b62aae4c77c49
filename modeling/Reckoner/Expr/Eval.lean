/-
Evaluation of trees. Operands are evaluated from the left; `and` and `or` stop at the operand that decides and give
its value; a conditional evaluates only the branch it takes. The first operator that rejects its operands ends
the evaluation with an error. `run` gives the result together with the log: each node as it is entered, and each
binary operator as it is applied.

`run` mirrors `evaluate` with what it traces, `applyBinary` mirrors `evaluate_binary_op`, `applyUnary` mirrors
`evaluate_unary_op`, and `toWord` mirrors `to_i32`.
-/
import Reckoner.Event
import Reckoner.Expr.Basic
import Reckoner.RuntimeError
import Reckoner.Value

namespace Reckoner

/-- a value, or the error that ended the evaluation -/
abbrev Result := Except RuntimeError Value

def Constant.value : Constant → Value
  | .nil => .nil
  | .bool b => .bool b
  | .integer n => .number (Float.ofInt n.toInt)
  | .double x => .number x
  | .string s => .string s

/-! ## Operators -/

namespace Value

def mismatch (operator : Token) (expected found : String) : Result :=
  .error (.blaming operator (.operandMismatch expected found))

def types (left right : Value) : String :=
  left.typeName ++ " and " ++ right.typeName

def numeric (operator : Token) (apply : Float → Float → Value) : Value → Value → Result
  | .number x, .number y => .ok (apply x y)
  | left, right => mismatch operator "two numbers" (left.types right)

/-- a number as a 32-bit integer: truncated, the nearest end of the range if it is outside, zero for NaN -/
def toWord (x : Float) : Int32 :=
  match Decimal.Double.of x with
  | .nan => 0
  | .infinite negative => if negative then Int32.minValue else Int32.maxValue
  | .finite negative mantissa exponent => Int32.ofIntClamp (Decimal.Double.truncate negative mantissa exponent)

def ofWord (n : Int32) : Value :=
  .number (Float.ofInt n.toInt)

/-- applies an operation on two 32-bit integers -/
def bitwise (operator : Token) (apply : Int32 → Int32 → Int32) : Value → Value → Result :=
  numeric operator fun x y => ofWord (apply (toWord x) (toWord y))

/-- adds numbers, joins strings, and joins a string with a number's text -/
def plus (operator : Token) : Value → Value → Result
  | .number x, .number y => .ok (.number (x + y))
  | .string s, .string t => .ok (.string (s ++ t))
  | .string s, .number y => .ok (.string (s ++ Decimal.numberText y))
  | .number x, .string t => .ok (.string (Decimal.numberText x ++ t))
  | left, right => mismatch operator "two numbers or a string" (left.types right)

/-- applies a binary operator other than `and` and `or` -/
def applyBinary (operator : Token) : Value → Value → Result :=
  match operator.kind with
  | .plus => plus operator
  | .minus => numeric operator fun x y => .number (x - y)
  | .slash => numeric operator fun x y => .number (x / y)
  | .star => numeric operator fun x y => .number (x * y)
  | .starStar => numeric operator fun x y => .number (x ^ y)
  | .greater => numeric operator fun x y => .bool (x > y)
  | .greaterEqual => numeric operator fun x y => .bool (x ≥ y)
  | .less => numeric operator fun x y => .bool (x < y)
  | .lessEqual => numeric operator fun x y => .bool (x ≤ y)
  | .bitAnd => bitwise operator fun m n => m &&& n
  | .bitOr => bitwise operator fun m n => m ||| n
  | .bitXor => bitwise operator fun m n => m ^^^ n
  | .bitNand => bitwise operator fun m n => ~~~(m &&& n)
  | .equalEqual => fun left right => .ok (.bool (left.isEqual right))
  | .bangEqual => fun left right => .ok (.bool (!left.isEqual right))
  | _ => fun _ _ => .error (.blaming operator .unsupportedOperator)

def numericUnary (operator : Token) (apply : Float → Value) : Value → Result
  | .number x => .ok (apply x)
  | other => mismatch operator "a number" other.typeName

def applyUnary (operator : Token) : Value → Result :=
  match operator.kind with
  | .minus => numericUnary operator fun x => .number (-x)
  | .bang => fun operand => .ok (.bool (!operand.isTruthy))
  | .bitNot => numericUnary operator fun x => ofWord (~~~(toWord x))
  | _ => fun _ => .error (.blaming operator .unsupportedOperator)

/-- whether the left operand alone decides the value: a true one that of `or`, a false one that of `and` -/
def decides (left : Value) : Kind → Bool
  | .or => left.isTruthy
  | .and => !left.isTruthy
  | _ => false

end Value

/-! ## Trees -/

/-- an evaluation: its result, and its log -/
structure Run where
  result : Result
  events : List Event := []

namespace Run

/-- goes on after a value; an error ends the evaluation -/
def andThen (r : Run) (next : Value → Run) : Run :=
  match r.result with
  | .ok v =>
    let s := next v
    ⟨s.result, r.events ++ s.events⟩
  | .error _ => r

/-- an evaluation with one more event in front -/
def after (e : Event) (r : Run) : Run :=
  { r with events := e :: r.events }

end Run

namespace Expr

/-- evaluates a tree, with its log -/
def run (e : Expr) : Run :=
  .after (.visited e.nodeName) <|
    match e with
    | .literal c => ⟨.ok c.value, []⟩
    | .grouping a => a.run
    | .unary f a => a.run.andThen fun v => ⟨v.applyUnary f, []⟩
    | .binary a f b => a.run.andThen fun v =>
      if v.decides f.kind then ⟨.ok v, []⟩
      else if f.kind = .or || f.kind = .and then b.run
      else b.run.andThen fun w => ⟨v.applyBinary f w, [.applied f.lexeme v.typeName w.typeName]⟩
    | .ternary a b c => a.run.andThen fun v => if v.isTruthy then b.run else c.run

def evaluate (e : Expr) : Result :=
  e.run.result

end Expr

/-! ## Results without the log -/

theorem Run.andThen_result (r : Run) (next : Value → Run) :
    (r.andThen next).result = r.result.bind fun v => (next v).result := by
  obtain ⟨result, events⟩ := r
  cases result <;> rfl

namespace Expr

theorem evaluate_literal (c : Constant) : (literal c).evaluate = .ok c.value := rfl

theorem evaluate_grouping (a : Expr) : (grouping a).evaluate = a.evaluate := rfl

theorem evaluate_unary (f : Token) (a : Expr) : (unary f a).evaluate = a.evaluate.bind (·.applyUnary f) :=
  Run.andThen_result _ _

theorem evaluate_binary (a : Expr) (f : Token) (b : Expr) :
    (binary a f b).evaluate = a.evaluate.bind fun v =>
      if v.decides f.kind then .ok v
      else if f.kind = .or || f.kind = .and then b.evaluate
      else b.evaluate.bind fun w => v.applyBinary f w := by
  refine (Run.andThen_result _ _).trans (congrArg (Except.bind a.evaluate) (funext fun v => ?_))
  split
  · rfl
  · split
    · rfl
    · exact Run.andThen_result _ _

theorem evaluate_ternary (a b c : Expr) :
    (ternary a b c).evaluate = a.evaluate.bind fun v => if v.isTruthy then b.evaluate else c.evaluate := by
  refine (Run.andThen_result _ _).trans (congrArg (Except.bind a.evaluate) (funext fun v => ?_))
  split <;> rfl

end Expr

end Reckoner
