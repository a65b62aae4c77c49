/-
Trees of the same shape.

Two trees have the same shape if they have the same nodes in the same places, the same operators, and constants that
are equal (`Expr.sameShape_iff`). A double is equal to itself unless it is NaN, and the two zeros are equal. So having
the same shape is symmetric and transitive, and a tree has the same shape as itself if no NaN is among its constants.
If there is no negative zero, equal constants are the same (`Constant.eq_of_beq`); then trees of the same shape print
alike, and evaluate alike but for the places that errors tell.

Main statement: `sameShape_respected`.
-/
import Mathlib.Tactic
import Reckoner.Proofs.FloatEquality
import Reckoner.Proofs.Likeness
import Reckoner.Proofs.RoundTrip

namespace Reckoner

/-! ## Constants -/

namespace Constant

def isNaN : Constant → Bool
  | .double x => Decimal.Double.of x = .nan
  | _ => false

def isNegativeZero : Constant → Bool
  | .double x => Decimal.Double.of x = .finite true 0 Decimal.leastExponent
  | _ => false

variable {c d e : Constant}

def Zeros (c d : Constant) : Prop :=
  ∃ x y, c = .double x ∧ d = .double y ∧ Decimal.IsZero x ∧ Decimal.IsZero y

/-- constants that are not doubles are equal if they are the same -/
theorem beq_iff_eq_of_plain (h : ∀ x, c ≠ .double x) : (c == d) = true ↔ c = d := by
  cases c with
  | double x => exact absurd rfl (h x)
  | nil => cases d <;> simp [instBEqConstant.beq, BEq.beq]
  | bool b => cases d <;> simp [instBEqConstant.beq, BEq.beq]
  | integer n => cases d <;> simp [instBEqConstant.beq, BEq.beq]
  | string s => cases d <;> simp [instBEqConstant.beq, BEq.beq]

/-- **Equal constants** are one constant, or both zero, and are not NaN. -/
theorem beq_iff : (c == d) = true ↔ c.isNaN = false ∧ (c = d ∨ c.Zeros d) := by
  cases c with
  | double x =>
    cases d with
    | double y =>
      have hbeq : (Constant.double x == Constant.double y) = (x == y) := rfl
      rw [hbeq, Decimal.beq_iff]
      simp [isNaN, Zeros]
    | _ => exact iff_of_false nofun (by simp [Zeros])
  | _ =>
    rw [beq_iff_eq_of_plain (by simp)]
    simp [isNaN, Zeros]

theorem Zeros.symm (h : c.Zeros d) : d.Zeros c := by
  obtain ⟨x, y, hx, hy, hxzero, hyzero⟩ := h
  exact ⟨y, x, hy, hx, hyzero, hxzero⟩

theorem Zeros.trans (h : c.Zeros d) (h' : d.Zeros e) : c.Zeros e := by
  obtain ⟨x, -, hx, -, hxzero, -⟩ := h
  obtain ⟨-, z, -, hz, -, hzzero⟩ := h'
  exact ⟨x, z, hx, hz, hxzero, hzzero⟩

theorem Zeros.isNaN_eq (h : c.Zeros d) : c.isNaN = false := by
  obtain ⟨x, -, rfl, -, ⟨negative, hx⟩, -⟩ := h
  simp [isNaN, hx]

theorem beq_symm (h : (c == d) = true) : (d == c) = true := by
  obtain ⟨hnan, rfl | hzeros⟩ := beq_iff.1 h
  · exact h
  · exact beq_iff.2 ⟨hzeros.symm.isNaN_eq, .inr hzeros.symm⟩

theorem beq_trans (h : (c == d) = true) (h' : (d == e) = true) : (c == e) = true := by
  obtain ⟨hnan, rfl | hzeros⟩ := beq_iff.1 h
  · exact h'
  · obtain ⟨-, rfl | hzeros'⟩ := beq_iff.1 h'
    · exact h
    · exact beq_iff.2 ⟨hnan, .inr (hzeros.trans hzeros')⟩

theorem beq_self_iff : (c == c) = true ↔ c.isNaN = false :=
  beq_iff.trans (and_iff_left (.inl rfl))

/-- equal constants that are not the negative zero are the same -/
theorem eq_of_beq (h : (c == d) = true) (hc : c.isNegativeZero = false) (hd : d.isNegativeZero = false) : c = d := by
  have hpositive : ∀ x, Decimal.IsZero x → (double x).isNegativeZero = false →
      Decimal.Double.of x = .finite false 0 Decimal.leastExponent := by
    rintro x ⟨negative, hx⟩ hsign
    cases negative with
    | false => exact hx
    | true => simp [isNegativeZero, hx] at hsign
  obtain ⟨-, rfl | ⟨x, y, rfl, rfl, hx, hy⟩⟩ := beq_iff.1 h
  · rfl
  · rw [Decimal.of_injective ((hpositive x hx hc).trans (hpositive y hy hd).symm)]

end Constant

/-! ## Trees -/

theorem Token.sameOperator_iff {f g : Token} : f.sameOperator g = true ↔ f.kind = g.kind ∧ f.lexeme = g.lexeme := by
  simp [sameOperator]

namespace Expr

/-- **The same shape** is likeness, with the same operators and equal constants. -/
theorem sameShape_iff {a b : Expr} :
    a.sameShape b = true ↔ a.Alike (fun f g => f.sameOperator g = true) (fun c d => (c == d) = true) b := by
  constructor
  · intro h
    induction a generalizing b with
    | literal c =>
      cases b with
      | literal d => exact .literal h
      | _ => cases h
    | grouping a ih =>
      cases b with
      | grouping b => exact .grouping (ih h)
      | _ => cases h
    | unary f a ih =>
      cases b with
      | unary g b =>
        simp only [sameShape, Bool.and_eq_true] at h
        exact .unary h.1 (ih h.2)
      | _ => cases h
    | binary a f b iha ihb =>
      cases b with
      | binary c g d =>
        simp only [sameShape, Bool.and_eq_true] at h
        exact .binary h.1.1 (iha h.1.2) (ihb h.2)
      | _ => cases h
    | ternary a b c iha ihb ihc =>
      cases b with
      | ternary a' b' c' =>
        simp only [sameShape, Bool.and_eq_true] at h
        exact .ternary (iha h.1.1) (ihb h.1.2) (ihc h.2)
      | _ => cases h
  · intro h
    induction h with
    | literal h => exact h
    | grouping _ ih => exact ih
    | unary ho _ ih => simp only [sameShape, ho, ih, Bool.and_self]
    | binary ho _ _ iha ihb => simp only [sameShape, ho, iha, ihb, Bool.and_self]
    | ternary _ _ _ iha ihb ihc => simp only [sameShape, iha, ihb, ihc, Bool.and_self]

theorem sameShape_symm {a b : Expr} (h : a.sameShape b = true) : b.sameShape a = true := by
  refine sameShape_iff.2 ((sameShape_iff.1 h).symm (fun f g hfg => ?_) fun c d => Constant.beq_symm)
  rw [Token.sameOperator_iff] at hfg ⊢
  exact ⟨hfg.1.symm, hfg.2.symm⟩

theorem sameShape_trans {a b c : Expr} (h : a.sameShape b = true) (h' : b.sameShape c = true) :
    a.sameShape c = true := by
  refine sameShape_iff.2 ((sameShape_iff.1 h).trans (fun f g k hfg hgk => ?_) (fun c d e => Constant.beq_trans)
    (sameShape_iff.1 h'))
  rw [Token.sameOperator_iff] at hfg hgk ⊢
  exact ⟨hfg.1.trans hgk.1, hfg.2.trans hgk.2⟩

theorem sameShape_self_iff (e : Expr) : e.sameShape e = true ↔ ∀ c ∈ e.constants, c.isNaN = false := by
  have hoperator (f : Token) : f.sameOperator f = true := Token.sameOperator_iff.2 ⟨rfl, rfl⟩
  induction e with
  | literal c => simp [sameShape, constants, Constant.beq_self_iff]
  | grouping a ih => exact ih
  | unary f a ih =>
    rw [sameShape, hoperator, Bool.true_and]
    exact ih
  | binary a f b iha ihb => simp [sameShape, hoperator, iha, ihb, constants, or_imp, forall_and]
  | ternary a b c iha ihb ihc => simp [sameShape, iha, ihb, ihc, constants, or_imp, forall_and, and_assoc]

namespace Alike

variable {O : Token → Token → Prop} {R S : Constant → Constant → Prop} {a b : Expr}

/-- trees that are alike in one way are so in another, if their constants are -/
theorem imp (h : a.Alike O R b) (hRS : ∀ c ∈ a.constants, ∀ d ∈ b.constants, R c d → S c d) : a.Alike O S b := by
  induction h with
  | literal h => exact .literal (hRS _ List.mem_cons_self _ List.mem_cons_self h)
  | grouping _ ih => exact .grouping (ih hRS)
  | unary ho _ ih => exact .unary ho (ih hRS)
  | binary ho _ _ iha ihb =>
    simp only [constants, List.mem_append] at hRS
    exact .binary ho (iha fun c hc d hd => hRS c (.inl hc) d (.inl hd))
      (ihb fun c hc d hd => hRS c (.inr hc) d (.inr hd))
  | ternary _ _ _ iha ihb ihc =>
    simp only [constants, List.mem_append] at hRS
    exact .ternary (iha fun c hc d hd => hRS c (.inl (.inl hc)) d (.inl (.inl hd)))
      (ihb fun c hc d hd => hRS c (.inl (.inr hc)) d (.inl (.inr hd)))
      (ihc fun c hc d hd => hRS c (.inr hc) d (.inr hd))

/-- trees with the same constants, and operators written alike, print alike -/
theorem print_eq (hO : ∀ f g, O f g → f.lexeme = g.lexeme) (h : a.Alike O Eq b) : a.print = b.print := by
  induction h with
  | literal h => rw [h]
  | grouping _ ih => simp only [print, ih]
  | unary ho _ ih => simp only [print, hO _ _ ho, ih]
  | binary ho _ _ iha ihb => simp only [print, hO _ _ ho, iha, ihb]
  | ternary _ _ _ iha ihb ihc => simp only [print, iha, ihb, ihc]

end Alike

end Expr

def RuntimeError.unplaced (err : RuntimeError) : RuntimeError :=
  { err with line := 0, column := 0, span := {} }

/-- **Having the same shape is an equivalence** of the trees without NaN, and printing and evaluating respect it on
those without the negative zero: the texts are the same, and so are the values, or the errors but for their places. -/
theorem sameShape_respected :
    (∀ a b : Expr, a.sameShape b = b.sameShape a) ∧
    (∀ a b c : Expr, a.sameShape b = true → b.sameShape c = true → a.sameShape c = true) ∧
    (∀ a : Expr, a.sameShape a = true ↔ ∀ c ∈ a.constants, c.isNaN = false) ∧
    ∀ a b : Expr, a.sameShape b = true → (∀ c ∈ a.constants ++ b.constants, c.isNegativeZero = false) →
      a.print = b.print ∧
        a.evaluate.mapError RuntimeError.unplaced = b.evaluate.mapError RuntimeError.unplaced := by
  refine ⟨fun a b => ?_, fun a b c => Expr.sameShape_trans, Expr.sameShape_self_iff, fun a b h hzero => ?_⟩
  · exact Bool.eq_iff_iff.2 ⟨Expr.sameShape_symm, Expr.sameShape_symm⟩
  have hsame : a.Alike (fun f g => f.sameOperator g = true) Eq b := (Expr.sameShape_iff.1 h).imp fun c hc d hd hcd =>
    Constant.eq_of_beq hcd (hzero c (List.mem_append_left _ hc)) (hzero d (List.mem_append_right _ hd))
  refine ⟨hsame.print_eq fun f g hfg => (Token.sameOperator_iff.1 hfg).2,
    hsame.evaluate_congr (fun f g hfg => (Token.sameOperator_iff.1 hfg).1) fun f g hfg cause => ?_⟩
  simp [RuntimeError.blaming, RuntimeError.unplaced, (Token.sameOperator_iff.1 hfg).2]

namespace Sample

/-- the difference of one and a half and a text, with its operator on a line -/
def difference (line : Nat) : Expr :=
  .binary (.literal (.double (Float.ofBits 0x3ff8000000000000))) { kind := .minus, lexeme := "-", line }
    (.literal (.string "a"))

end Sample

/-- The errors differ in their places, and in nothing else. -/
theorem sameShape_respected_difference :
    (Sample.difference 1).evaluate ≠ (Sample.difference 2).evaluate ∧
    (Sample.difference 1).sameShape (Sample.difference 2) = true ∧
    (∀ c ∈ (Sample.difference 1).constants ++ (Sample.difference 2).constants, c.isNegativeZero = false) ∧
    (Sample.difference 1).print = (Sample.difference 2).print ∧
    (Sample.difference 1).evaluate.mapError RuntimeError.unplaced =
      (Sample.difference 2).evaluate.mapError RuntimeError.unplaced := by
  have herror (line : Nat) : (Sample.difference line).evaluate =
      .error ⟨.operandMismatch "two numbers" "number and string", "-", line, 0, {}⟩ := rfl
  have hshape : (Sample.difference 1).sameShape (Sample.difference 2) = true := by decide
  have hzero : ∀ c ∈ (Sample.difference 1).constants ++ (Sample.difference 2).constants, c.isNegativeZero = false := by
    decide
  refine ⟨fun h => ?_, hshape, hzero, sameShape_respected.2.2.2 _ _ hshape hzero⟩
  rw [herror, herror] at h
  exact absurd (congrArg RuntimeError.line (Except.error.inj h)) (by decide)

/-- The two zeros are equal and print differently. -/
example : (Constant.double (Float.ofBits 0) == Constant.double (Float.ofBits 0x8000000000000000)) = true ∧
    (Constant.double (Float.ofBits 0)).print = "0.0" ∧
    (Constant.double (Float.ofBits 0x8000000000000000)).print = "-0.0" := by
  decide +kernel

end Reckoner
