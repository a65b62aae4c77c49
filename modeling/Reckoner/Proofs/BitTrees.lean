/-
Trees of bitwise operators.

A tree of bitwise operators and groupings over leaves that are numbers is evaluated in 32-bit words: each leaf is truncated
once, and a word that becomes a double between two operators is the same word for the next one (`evaluate_tree`). In words,
each bit of the result depends on the same bits of the leaves alone (`getLsbD_word`). So trees that agree as Boolean
functions have the same value, however their leaves are truncated (`evaluate_eq_of_bit_eq`), and trees that do not are told
apart by some words (`bit_eq_iff`).

Main statement: `BitTree.evaluated_in_words`.
-/
import Mathlib.Tactic
import Reckoner.Proofs.Conversions

namespace Reckoner

/-! ## Operators -/

/-- the bitwise operators on two operands -/
inductive BitOperator where
  | and | or | xor | nand
  deriving DecidableEq, Repr

namespace BitOperator

def kind : BitOperator → Kind
  | .and => .bitAnd
  | .or => .bitOr
  | .xor => .bitXor
  | .nand => .bitNand

def onWords : BitOperator → Int32 → Int32 → Int32
  | .and, m, n => m &&& n
  | .or, m, n => m ||| n
  | .xor, m, n => m ^^^ n
  | .nand, m, n => ~~~(m &&& n)

def onBits : BitOperator → Bool → Bool → Bool
  | .and, a, b => a && b
  | .or, a, b => a || b
  | .xor, a, b => a ^^ b
  | .nand, a, b => !(a && b)

theorem getLsbD_onWords (op : BitOperator) (m n : Int32) {i : Nat} (hi : i < 32) :
    (op.onWords m n).toBitVec.getLsbD i = op.onBits (m.toBitVec.getLsbD i) (n.toBitVec.getLsbD i) := by
  cases op <;> simp [onWords, onBits, hi]

end BitOperator

namespace Value

variable {f : Token} {x y : Float}

theorem applyUnary_bitNot (hf : f.kind = .bitNot) :
    (Value.number x).applyUnary f = .ok (ofWord (~~~(toWord x))) := by
  simp only [applyUnary, hf, numericUnary]

theorem applyBinary_bitOperator {op : BitOperator} (hf : f.kind = op.kind) :
    (Value.number x).applyBinary f (.number y) = .ok (ofWord (op.onWords (toWord x) (toWord y))) := by
  unfold applyBinary
  rw [hf]
  cases op <;> rfl

end Value

/-! ## Trees -/

abbrev TokenOf (kind : Kind) : Type :=
  { f : Token // f.kind = kind }

/-- trees of bitwise operators and groupings over leaves -/
inductive BitTree (α : Type) where
  | leaf (a : α)
  | grouping (t : BitTree α)
  | complement (f : TokenOf .bitNot) (t : BitTree α)
  | combine (t : BitTree α) (op : BitOperator) (f : TokenOf op.kind) (u : BitTree α)

namespace BitTree

variable {α : Type}

/-- a tree as an expression, given what its leaves are -/
def expr (leaves : α → Expr) : BitTree α → Expr
  | .leaf a => leaves a
  | .grouping t => .grouping (t.expr leaves)
  | .complement f t => .unary f (t.expr leaves)
  | .combine t _ f u => .binary (t.expr leaves) f (u.expr leaves)

/-- a tree as a word, given the words of its leaves -/
def word (words : α → Int32) : BitTree α → Int32
  | .leaf a => words a
  | .grouping t => t.word words
  | .complement _ t => ~~~(t.word words)
  | .combine t op _ u => op.onWords (t.word words) (u.word words)

/-- a tree as a Boolean function of its leaves -/
def bit (bits : α → Bool) : BitTree α → Bool
  | .leaf a => bits a
  | .grouping t => t.bit bits
  | .complement _ t => !t.bit bits
  | .combine t op _ u => op.onBits (t.bit bits) (u.bit bits)

/-- there is at least one operator in the tree -/
def Operates : BitTree α → Prop
  | .leaf _ => False
  | .grouping t => t.Operates
  | .complement .. | .combine .. => True

theorem operates_complement (f : TokenOf .bitNot) (t : BitTree α) : (complement f t).Operates := trivial

theorem operates_combine (t : BitTree α) (op : BitOperator) (f : TokenOf op.kind) (u : BitTree α) :
    (combine t op f u).Operates := trivial

/-! ## Bit by bit -/

/-- a bit of the word depends on the bits of the leaves in its place -/
theorem getLsbD_word (words : α → Int32) {i : Nat} (hi : i < 32) (t : BitTree α) :
    (t.word words).toBitVec.getLsbD i = t.bit fun a => (words a).toBitVec.getLsbD i := by
  induction t with
  | leaf a => rfl
  | grouping t ih => exact ih
  | complement f t ih =>
    rw [word, bit, ← ih]
    simp [hi]
  | combine t op f u iht ihu => rw [word, op.getLsbD_onWords _ _ hi, iht, ihu, bit]

/-- **Trees with the same bits have the same words,** and only those. -/
theorem bit_eq_iff {t u : BitTree α} : (∀ bits, t.bit bits = u.bit bits) ↔ ∀ words, t.word words = u.word words := by
  constructor
  · intro h words
    apply Int32.toBitVec_inj.1
    apply BitVec.eq_of_getLsbD_eq
    intro i hi
    rw [getLsbD_word words hi, getLsbD_word words hi, h]
  · intro h bits
    -- words that repeat the bits of the leaves
    have hlast : ∀ v : BitTree α, (v.word fun a => if bits a then 1 else 0).toBitVec.getLsbD 0 = v.bit bits := by
      intro v
      rw [getLsbD_word _ (by decide)]
      congr 1
      funext a
      cases bits a <;> rfl
    rw [← hlast, ← hlast, h]

/-! ## Evaluation -/

section
variable {leaves : α → Expr} {numbers : α → Float} {words : α → Int32}
  (hleaves : ∀ a, (leaves a).evaluate = .ok (.number (numbers a)))
  (hwords : ∀ a, Decimal.Truncates (numbers a) (words a))
include hleaves hwords

/-- A tree is a number that is truncated to its word. If there is an operator, the number is the word. -/
theorem evaluate_tree (t : BitTree α) : ∃ x, (t.expr leaves).evaluate = .ok (.number x) ∧
    Value.toWord x = t.word words ∧ (t.Operates → Value.number x = Value.ofWord (t.word words)) := by
  induction t with
  | leaf a => exact ⟨_, hleaves a, (Value.eq_toWord_of_truncates (hwords a)).symm, nofun⟩
  | grouping t ih => exact ih
  | complement f t ih =>
    obtain ⟨x, hx, hword, -⟩ := ih
    refine ⟨_, ?_, Value.toWord_ofInt _, fun _ => rfl⟩
    calc (Expr.unary f (t.expr leaves)).evaluate
      _ = (Value.number x).applyUnary f := by rw [Expr.evaluate_unary, hx]; rfl
      _ = .ok (Value.ofWord (~~~(t.word words))) := by rw [Value.applyUnary_bitNot f.2, hword]
  | combine t op f u iht ihu =>
    obtain ⟨x, hx, hxword, -⟩ := iht
    obtain ⟨y, hy, hyword, -⟩ := ihu
    refine ⟨_, ?_, Value.toWord_ofInt _, fun _ => rfl⟩
    -- the left operand alone does not decide
    have hboth : (Value.number x).decides f.1.kind = false ∧ f.1.kind ≠ .or ∧ f.1.kind ≠ .and := by
      rw [f.2]
      cases op <;> exact ⟨rfl, by decide, by decide⟩
    calc (Expr.binary (t.expr leaves) f (u.expr leaves)).evaluate
      _ = (Value.number x).applyBinary f (.number y) := by
        rw [Expr.evaluate_binary, hx, hy]
        simp [Except.bind, hboth]
      _ = .ok (Value.ofWord (op.onWords (t.word words) (u.word words))) := by
        rw [Value.applyBinary_bitOperator f.2, hxword, hyword]

theorem evaluate_of_operates {t : BitTree α} (ht : t.Operates) :
    (t.expr leaves).evaluate = .ok (Value.ofWord (t.word words)) := by
  obtain ⟨x, hx, -, hvalue⟩ := evaluate_tree hleaves hwords t
  rw [hx, hvalue ht]

/-- **Boolean identities hold** between trees with an operator. -/
theorem evaluate_eq_of_bit_eq {t u : BitTree α} (ht : t.Operates) (hu : u.Operates)
    (h : ∀ bits, t.bit bits = u.bit bits) : (t.expr leaves).evaluate = (u.expr leaves).evaluate := by
  rw [evaluate_of_operates hleaves hwords ht, evaluate_of_operates hleaves hwords hu, bit_eq_iff.1 h]

end

/-- **Trees of bitwise operators compute in 32-bit words.** Let every leaf be a number, whichever double it is, and let its
word be what the number is truncated to: toward zero, the nearest end of the range if that is outside, and zero for NaN.
- A tree with an operator is evaluated to the word that the operators make of the words of the leaves. Each bit of it is
  the Boolean function of the tree, of the bits in its place.
- A word as a number is exactly this whole number, and is truncated to the same word.
- Two trees agree as Boolean functions if and only if they make the same words of all words. If they agree and have
  operators, they have the same value.
- So the negation of a conjunction or disjunction goes to the operands; `nand` is the negation of `and`; `and`, `or` and
  `xor` are associative; and `xor` with the same operand twice cancels. -/
theorem evaluated_in_words (leaves : α → Expr) (numbers : α → Float) (words : α → Int32)
    (hleaves : ∀ a, (leaves a).evaluate = .ok (.number (numbers a)))
    (hwords : ∀ a, Decimal.Truncates (numbers a) (words a)) :
    (∀ t : BitTree α, t.Operates → (t.expr leaves).evaluate = .ok (Value.ofWord (t.word words))) ∧
    (∀ (t : BitTree α) (i : Nat), i < 32 →
      (t.word words).toBitVec.getLsbD i = t.bit fun a => (words a).toBitVec.getLsbD i) ∧
    (∀ w : Int32, ∃ x, Value.ofWord w = .number x ∧ Decimal.IsWhole x w.toInt ∧
      ∀ w', Decimal.Truncates x w' ↔ w' = w) ∧
    (∀ t u : BitTree α, (∀ bits, t.bit bits = u.bit bits) ↔ ∀ words, t.word words = u.word words) ∧
    (∀ t u : BitTree α, t.Operates → u.Operates → (∀ bits, t.bit bits = u.bit bits) →
      (t.expr leaves).evaluate = (u.expr leaves).evaluate) ∧
    (∀ (t u : BitTree α) (not notLeft notRight : TokenOf .bitNot) (and : TokenOf BitOperator.and.kind)
      (or : TokenOf BitOperator.or.kind) (nand : TokenOf BitOperator.nand.kind),
      ((complement not (combine t .and and u)).expr leaves).evaluate =
        ((combine (complement notLeft t) .or or (complement notRight u)).expr leaves).evaluate ∧
      ((complement not (combine t .or or u)).expr leaves).evaluate =
        ((combine (complement notLeft t) .and and (complement notRight u)).expr leaves).evaluate ∧
      ((combine t .nand nand u).expr leaves).evaluate = ((complement not (combine t .and and u)).expr leaves).evaluate) ∧
    (∀ (op : BitOperator), op ≠ .nand → ∀ (t u v : BitTree α) (f g f' g' : TokenOf op.kind),
      ((combine (combine t op f u) op g v).expr leaves).evaluate =
        ((combine t op f' (combine u op g' v)).expr leaves).evaluate) ∧
    ∀ (t u : BitTree α) (f g : TokenOf BitOperator.xor.kind),
      ((combine (combine t .xor f u) .xor g u).expr leaves).evaluate = .ok (Value.ofWord (t.word words)) ∧
      ((combine t .xor f t).expr leaves).evaluate = .ok (Value.ofWord 0) := by
  have hsame : ∀ t u : BitTree α, t.Operates → u.Operates → (∀ bits, t.bit bits = u.bit bits) →
      (t.expr leaves).evaluate = (u.expr leaves).evaluate := by
    intro t u ht hu h
    exact evaluate_eq_of_bit_eq hleaves hwords ht hu h
  refine ⟨?_, ?_, ?_, ?_, hsame, ?_, ?_, ?_⟩
  · intro t ht
    exact evaluate_of_operates hleaves hwords ht
  · intro t i hi
    exact getLsbD_word words hi t
  · intro w
    have hlow := w.le_toInt
    have hhigh := w.toInt_lt
    refine ⟨_, rfl, Decimal.isWhole_ofInt (by omega), ?_⟩
    intro w'
    rw [Value.truncates_iff, Value.toWord_ofInt]
  · intro t u
    exact bit_eq_iff
  · intro t u not notLeft notRight and or nand
    refine ⟨?_, ?_, ?_⟩
    · refine hsame _ _ (operates_complement ..) (operates_combine ..) ?_
      intro bits
      exact Bool.not_and ..
    · refine hsame _ _ (operates_complement ..) (operates_combine ..) ?_
      intro bits
      exact Bool.not_or ..
    · refine hsame _ _ (operates_combine ..) (operates_complement ..) ?_
      intro bits
      rfl
  · intro op hop t u v f g f' g'
    refine hsame _ _ (operates_combine ..) (operates_combine ..) ?_
    intro bits
    cases op with
    | and => exact Bool.and_assoc ..
    | or => exact Bool.or_assoc ..
    | xor => exact Bool.xor_assoc ..
    | nand => exact absurd rfl hop
  · intro t u f g
    constructor
    · rw [evaluate_of_operates hleaves hwords (operates_combine ..)]
      simp [word, BitOperator.onWords]
    · rw [evaluate_of_operates hleaves hwords (operates_combine ..)]
      simp [word, BitOperator.onWords]

/-! ## A sample -/

namespace Sample

def token (kind : Kind) : TokenOf kind :=
  ⟨{ kind, lexeme := "" }, rfl⟩

/-- `2.75`, `-10000000000.5`, `1 / 0` and `0 / 0` -/
def leaves : Fin 4 → Expr := ![
  .literal (.double 2.75),
  .unary (token .minus) (.literal (.double 10000000000.5)),
  .binary (.literal (.integer 1)) (token .slash) (.literal (.integer 0)),
  .binary (.literal (.integer 0)) (token .slash) (.literal (.integer 0))]

def numbers : Fin 4 → Float :=
  ![2.75, -10000000000.5, Float.ofInt 1 / Float.ofInt 0, Float.ofInt 0 / Float.ofInt 0]

def words : Fin 4 → Int32 :=
  ![2, -2147483648, 2147483647, 0]

/-- `b_not ((2.75 b_xor -10000000000.5) b_nand (1 / 0)) b_or (0 / 0)` -/
def tree : BitTree (Fin 4) :=
  .combine (.complement (token _) (.grouping (.combine
    (.grouping (.combine (.leaf 0) .xor (token _) (.leaf 1))) .nand (token _) (.leaf 2)))) .or (token _) (.leaf 3)

end Sample

/-- A fraction, a number that is out of range, an infinite one and NaN: the word is 2, and the value is this whole number. -/
theorem sample_evaluated :
    (∀ a, (Sample.leaves a).evaluate = .ok (.number (Sample.numbers a))) ∧
    (∀ a, Decimal.Truncates (Sample.numbers a) (Sample.words a)) ∧
    (Sample.tree.expr Sample.leaves).evaluate = .ok (Value.ofWord 2) := by
  have hleaves : ∀ a, (Sample.leaves a).evaluate = .ok (.number (Sample.numbers a)) := by
    intro a
    fin_cases a <;> rfl
  have hwords : ∀ a, Decimal.Truncates (Sample.numbers a) (Sample.words a) := by
    intro a
    rw [Value.truncates_iff]
    fin_cases a <;> decide +kernel
  exact ⟨hleaves, hwords, (evaluated_in_words Sample.leaves Sample.numbers Sample.words hleaves hwords).1 Sample.tree trivial⟩

end BitTree

end Reckoner
