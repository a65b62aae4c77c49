/-
Trees that are alike.

Two trees are alike if they have the same nodes in the same places, their operators are related in one way and their
constants in another. What holds of two trees that are alike is proved here once, for whatever ways these are:

- likeness is symmetric and transitive if both ways are;
- `Alike.evaluate_congr`: trees with the same constants, and operators of the same kinds, have the same value, or
  errors that differ at most in what is told of the operators.
-/
import Mathlib.Tactic
import Reckoner.Expr.Eval

namespace Reckoner

/-- The same nodes in the same places, with operators related by `O` and constants by `R`. -/
inductive Expr.Alike (O : Token → Token → Prop) (R : Constant → Constant → Prop) : Expr → Expr → Prop where
  | literal {c d : Constant} (h : R c d) : Alike O R (.literal c) (.literal d)
  | grouping {a b : Expr} (h : Alike O R a b) : Alike O R (.grouping a) (.grouping b)
  | unary {f g : Token} {a b : Expr} (ho : O f g) (h : Alike O R a b) : Alike O R (.unary f a) (.unary g b)
  | binary {f g : Token} {a b a' b' : Expr} (ho : O f g) (hleft : Alike O R a a') (hright : Alike O R b b') :
      Alike O R (.binary a f b) (.binary a' g b')
  | ternary {a b c a' b' c' : Expr} (hcondition : Alike O R a a') (hthen : Alike O R b b') (helse : Alike O R c c') :
      Alike O R (.ternary a b c) (.ternary a' b' c')

/-! ## Evaluating -/

theorem mapError_bind {ε ε' : Type} {α β : Type} (g : ε → ε') (r : Except ε α) (next : α → Except ε β) :
    (r.bind next).mapError g = (r.mapError g).bind fun a => (next a).mapError g := by
  cases r <;> rfl

section
variable {ε : Type} {told : RuntimeError → ε} {f g : Token} (hkind : f.kind = g.kind)
  (htold : ∀ cause, told (.blaming f cause) = told (.blaming g cause))
include hkind htold

/-- operators of one kind reject the same operands, and give the same value for others -/
theorem applyUnary_congr (v : Value) : (v.applyUnary f).mapError told = (v.applyUnary g).mapError told := by
  unfold Value.applyUnary
  rw [hkind]
  generalize g.kind = kind
  cases kind
  case minus | bitNot => cases v <;> first | rfl | exact congrArg Except.error (htold _)
  case bang => rfl
  all_goals exact congrArg Except.error (htold _)

theorem applyBinary_congr (v w : Value) : (v.applyBinary f w).mapError told = (v.applyBinary g w).mapError told := by
  have numeric (apply : Float → Float → Value) :
      (Value.numeric f apply v w).mapError told = (Value.numeric g apply v w).mapError told := by
    cases v <;> cases w <;> first | rfl | exact congrArg Except.error (htold _)
  unfold Value.applyBinary
  rw [hkind]
  generalize g.kind = kind
  cases kind
  case plus => cases v <;> cases w <;> first | rfl | exact congrArg Except.error (htold _)
  case equalEqual | bangEqual => rfl
  all_goals first | exact numeric _ | exact congrArg Except.error (htold _)

end

namespace Expr.Alike

variable {O : Token → Token → Prop} {R : Constant → Constant → Prop} {a b c : Expr}

theorem symm (hO : ∀ f g, O f g → O g f) (hR : ∀ c d, R c d → R d c) (h : a.Alike O R b) : b.Alike O R a := by
  induction h with
  | literal h => exact .literal (hR _ _ h)
  | grouping _ ih => exact .grouping ih
  | unary ho _ ih => exact .unary (hO _ _ ho) ih
  | binary ho _ _ iha ihb => exact .binary (hO _ _ ho) iha ihb
  | ternary _ _ _ iha ihb ihc => exact .ternary iha ihb ihc

theorem trans (hO : ∀ f g h, O f g → O g h → O f h) (hR : ∀ c d e, R c d → R d e → R c e) (h : a.Alike O R b)
    (h' : b.Alike O R c) : a.Alike O R c := by
  induction h generalizing c with
  | literal h =>
    cases h' with
    | literal h' => exact .literal (hR _ _ _ h h')
  | grouping _ ih =>
    cases h' with
    | grouping h' => exact .grouping (ih h')
  | unary ho _ ih =>
    cases h' with
    | unary ho' h' => exact .unary (hO _ _ _ ho ho') (ih h')
  | binary ho _ _ iha ihb =>
    cases h' with
    | binary ho' hleft hright => exact .binary (hO _ _ _ ho ho') (iha hleft) (ihb hright)
  | ternary _ _ _ iha ihb ihc =>
    cases h' with
    | ternary hcondition hthen helse => exact .ternary (iha hcondition) (ihb hthen) (ihc helse)

/-- **Trees with the same constants and operators of the same kinds** have the same value, or errors alike in what is
told of them, if that is the same of related operators. -/
theorem evaluate_congr {ε : Type} {told : RuntimeError → ε} (hkind : ∀ f g, O f g → f.kind = g.kind)
    (htold : ∀ f g, O f g → ∀ cause, told (.blaming f cause) = told (.blaming g cause)) (h : a.Alike O Eq b) :
    a.evaluate.mapError told = b.evaluate.mapError told := by
  induction h with
  | literal h => rw [h]
  | grouping _ ih => exact ih
  | unary ho _ ih =>
    rw [evaluate_unary, evaluate_unary, mapError_bind, mapError_bind, ih]
    simp only [applyUnary_congr (hkind _ _ ho) (htold _ _ ho)]
  | binary ho _ _ iha ihb =>
    rw [evaluate_binary, evaluate_binary, mapError_bind, mapError_bind, iha, hkind _ _ ho]
    congr 1
    funext v
    split
    · rfl
    split
    · exact ihb
    · rw [mapError_bind, mapError_bind, ihb]
      simp only [applyBinary_congr (hkind _ _ ho) (htold _ _ ho)]
  | ternary _ _ _ iha ihb ihc =>
    rw [evaluate_ternary, evaluate_ternary, mapError_bind, mapError_bind, iha]
    congr 1
    funext v
    split
    · exact ihb
    · exact ihc

end Expr.Alike

end Reckoner
