/-
The grammar of programs, stated apart from how they are read.

A program is `(expression ';')* expression?`. An expression is an equality, or `equality '?' equality ':' equality`.
Six levels of binary operators follow, `equality` the loosest and `exponent` the tightest: on the left of an operator
stands the same level, on its right the next tighter one. Then come unary operators, constants and parentheses.

A `Derivation` shows how tokens follow from a symbol of the grammar. It carries the proof that each token has the
kind its rule asks for, so there are no wrong derivations. `yield` is the token list it derives and `tree` the
expression it stands for: operators keep their token, parentheses become groupings.

Facts, for every derivation:
- `root_level`: an operator at the root of a tree belongs to the symbol it was derived from;
- `length_yield`: the tree alone says how many tokens there are;
- `eq_of_tree_yield`: tree and tokens together determine the derivation.
-/
import Mathlib.Tactic
import Reckoner.Expr.Basic
import Reckoner.Expr.Level

namespace Reckoner

/-! ## Symbols -/

def Level.operators : Level → List Kind
  | .equality => [.bangEqual, .equalEqual]
  | .comparison => [.greater, .greaterEqual, .less, .lessEqual]
  | .logic => [.and, .or, .bitOr, .bitAnd, .bitXor, .bitNand]
  | .sum => [.plus, .minus]
  | .product => [.slash, .star]
  | .exponent => [.starStar]

def unaryOperators : List Kind := [.bang, .minus, .bitNot]

/-- the kinds of tokens that carry their constant with them -/
def carriers : List Kind := [.integer, .double, .string]

inductive Symbol where
  | expression
  | binary (level : Level)
  | unary
  | primary

/-- what stands on the right of an operator of a level: the next tighter one -/
def Level.operand : Level → Symbol
  | .equality => .binary .comparison
  | .comparison => .binary .logic
  | .logic => .binary .sum
  | .sum => .binary .product
  | .product => .binary .exponent
  | .exponent => .unary

/-- the constant that a token stands for -/
inductive Denotes : Token → Constant → Prop where
  | false {t : Token} (h : t.kind = .falseWord) : Denotes t (.bool false)
  | true {t : Token} (h : t.kind = .trueWord) : Denotes t (.bool true)
  | nil {t : Token} (h : t.kind = .nilWord) : Denotes t .nil
  | integer {t : Token} {n : Int32} (h : t.kind ∈ carriers) (hl : t.literal = some (.integer n)) :
      Denotes t (.integer n)
  | double {t : Token} {x : Float} (h : t.kind ∈ carriers) (hl : t.literal = some (.double x)) :
      Denotes t (.double x)
  | string {t : Token} {s : String} (h : t.kind ∈ carriers) (hl : t.literal = some (.text s)) :
      Denotes t (.string s)

/-! ## Derivations -/

/-- how tokens follow from a symbol, rule by rule -/
inductive Derivation : Symbol → Type where
  | plain (d : Derivation (.binary .equality)) : Derivation .expression
  | ternary (condition : Derivation (.binary .equality)) (question : Token)
      (thenBranch : Derivation (.binary .equality)) (colon : Token)
      (elseBranch : Derivation (.binary .equality))
      (hq : question.kind = .question) (hc : colon.kind = .colon) : Derivation .expression
  | operand {l : Level} (d : Derivation l.operand) : Derivation (.binary l)
  | fold {l : Level} (left : Derivation (.binary l)) (operator : Token) (right : Derivation l.operand)
      (h : operator.kind ∈ l.operators) : Derivation (.binary l)
  | bare (d : Derivation .primary) : Derivation .unary
  | sign (operator : Token) (d : Derivation .unary) (h : operator.kind ∈ unaryOperators) :
      Derivation .unary
  | literal (t : Token) (c : Constant) (h : Denotes t c) : Derivation .primary
  | group (opening : Token) (inner : Derivation .expression) (closing : Token)
      (ho : opening.kind = .leftParen) (hc : closing.kind = .rightParen) : Derivation .primary

namespace Derivation

def yield {s : Symbol} : Derivation s → List Token
  | plain d | operand d | bare d => d.yield
  | ternary a question b colon c _ _ => a.yield ++ question :: (b.yield ++ colon :: c.yield)
  | fold a f b _ => a.yield ++ f :: b.yield
  | sign f a _ => f :: a.yield
  | literal t _ _ => [t]
  | group opening a closing _ _ => opening :: (a.yield ++ [closing])

def tree {s : Symbol} : Derivation s → Expr
  | plain d | operand d | bare d => d.tree
  | ternary a _ b _ c _ _ => .ternary a.tree b.tree c.tree
  | fold a f b _ => .binary a.tree f b.tree
  | sign f a _ => .unary f a.tree
  | literal _ c _ => .literal c
  | group _ a _ _ _ => .grouping a.tree

/-- an operand of any level that has no binary operator -/
def lift (d : Derivation .unary) : (l : Level) → Derivation l.operand
  | .exponent => d
  | .product => .operand (l := .exponent) d
  | .sum => .operand (l := .product) (.operand (l := .exponent) d)
  | .logic => .operand (l := .sum) (.operand (l := .product) (.operand (l := .exponent) d))
  | .comparison =>
    .operand (l := .logic) (.operand (l := .sum) (.operand (l := .product) (.operand (l := .exponent) d)))
  | .equality =>
    .operand (l := .comparison)
      (.operand (l := .logic) (.operand (l := .sum) (.operand (l := .product) (.operand (l := .exponent) d))))

@[simp] theorem tree_lift (d : Derivation .unary) (l : Level) : (d.lift l).tree = d.tree := by
  cases l <;> rfl

@[simp] theorem yield_lift (d : Derivation .unary) (l : Level) : (d.lift l).yield = d.yield := by
  cases l <;> rfl

end Derivation

/-- `(expression ';')* expression?`: expressions with the semicolons that end them, and perhaps a last one -/
structure ProgramDerivation where
  ended : List (Derivation .expression × { t : Token // t.kind = .semicolon })
  last : Option (Derivation .expression)

namespace ProgramDerivation

def yield (p : ProgramDerivation) : List Token :=
  p.ended.flatMap (fun s => s.1.yield ++ [s.2.val]) ++ p.last.elim [] Derivation.yield

def trees (p : ProgramDerivation) : List Expr :=
  p.ended.map (·.1.tree) ++ p.last.toList.map Derivation.tree

@[simp] theorem yield_nil (last : Option (Derivation .expression)) :
    yield ⟨[], last⟩ = last.elim [] Derivation.yield := rfl

@[simp] theorem yield_cons (d : Derivation .expression) (t : { t : Token // t.kind = .semicolon })
    (ended : List (Derivation .expression × { t : Token // t.kind = .semicolon }))
    (last : Option (Derivation .expression)) :
    yield ⟨(d, t) :: ended, last⟩ = d.yield ++ t.val :: yield ⟨ended, last⟩ := by
  simp [yield]

end ProgramDerivation

/-! ## Levels -/

theorem Level.mem_operators_iff (l : Level) (k : Kind) : k ∈ l.operators ↔ k.level? = some l := by
  cases l <;> cases k <;> decide

theorem mem_unaryOperators_iff (k : Kind) : k ∈ unaryOperators ↔ k.isUnary = true := by
  cases k <;> decide

/-- the levels whose operators a symbol may have at its root, tightest first -/
def Symbol.levels : Symbol → List Level
  | .binary l => l.tighter ++ [l]
  | .expression | .unary | .primary => []

@[simp] theorem Level.levels_operand (l : Level) : l.operand.levels = l.tighter := by
  cases l <;> rfl

theorem Level.operand_ne_expression (l : Level) : l.operand ≠ .expression := by
  cases l <;> simp [Level.operand]

theorem Level.notMem_tighter (l : Level) : l ∉ l.tighter := by
  cases l <;> decide

namespace Derivation

theorem root_level {s : Symbol} (d : Derivation s) (hs : s ≠ .expression) {a b : Expr} {f : Token}
    (h : d.tree = .binary a f b) : ∃ l ∈ s.levels, f.kind.level? = some l := by
  induction d generalizing a b f with
  | plain | ternary => exact absurd rfl hs
  | @operand l d ih =>
    obtain ⟨l', hl, hf⟩ := ih l.operand_ne_expression h
    rw [Level.levels_operand] at hl
    exact ⟨l', List.mem_append_left _ hl, hf⟩
  | @fold l a' f' b' hop _ _ =>
    simp only [tree, Expr.binary.injEq] at h
    obtain ⟨-, rfl, -⟩ := h
    exact ⟨l, by simp [Symbol.levels], (l.mem_operators_iff _).1 hop⟩
  | bare d ih =>
    obtain ⟨l, hl, -⟩ := ih (by simp) h
    simp [Symbol.levels] at hl
  | sign | literal | group => simp [tree] at h

end Derivation

/-! ## Tree and tokens determine the derivation -/

/-- how many tokens a tree was written with -/
def Expr.width : Expr → Nat
  | .literal _ => 1
  | .grouping a => a.width + 2
  | .unary _ a => a.width + 1
  | .binary a _ b => a.width + b.width + 1
  | .ternary a b c => a.width + b.width + c.width + 2

theorem Expr.width_pos (e : Expr) : 0 < e.width := by
  cases e <;> simp [Expr.width]

namespace Derivation

theorem length_yield {s : Symbol} (d : Derivation s) : d.yield.length = d.tree.width := by
  induction d with
  | plain _ ih | operand _ ih | bare _ ih => exact ih
  | ternary _ _ _ _ _ _ _ iha ihb ihc => simp [yield, tree, Expr.width, iha, ihb, ihc]; omega
  | fold _ _ _ _ iha ihb => simp [yield, tree, Expr.width, iha, ihb]; omega
  | sign _ _ _ ih => simp [yield, tree, Expr.width, ih]
  | literal => rfl
  | group _ _ _ _ _ ih => simp [yield, tree, Expr.width, ih]

/-- the end of the text is part of no derivation -/
theorem kind_ne_eof {s : Symbol} (d : Derivation s) : ∀ t ∈ d.yield, t.kind ≠ .eof := by
  induction d with
  | plain _ ih | operand _ ih | bare _ ih => exact ih
  | ternary a q b k c hq hk iha ihb ihc =>
    intro t ht
    simp only [yield, List.mem_append, List.mem_cons] at ht
    rcases ht with ht | rfl | ht | rfl | ht
    · exact iha t ht
    · simp [hq]
    · exact ihb t ht
    · simp [hk]
    · exact ihc t ht
  | @fold l a f b h iha ihb =>
    intro t ht
    simp only [yield, List.mem_append, List.mem_cons] at ht
    rcases ht with ht | rfl | ht
    · exact iha t ht
    · intro hk
      rw [l.mem_operators_iff, hk] at h
      cases h
    · exact ihb t ht
  | sign f a h ih =>
    intro t ht
    rcases List.mem_cons.1 ht with rfl | ht
    · intro hk
      rw [mem_unaryOperators_iff, hk] at h
      cases h
    · exact ih t ht
  | literal t c h =>
    intro t' ht'
    rw [List.mem_singleton.1 ht']
    intro hk
    cases h with
    | false h | true h | nil h => rw [h] at hk; cases hk
    | integer h | double h | string h => rw [hk] at h; exact absurd h (by decide)
  | group o d k ho hk ih =>
    intro t ht
    simp only [yield, List.mem_append, List.mem_cons, List.not_mem_nil, or_false] at ht
    rcases ht with rfl | ht | rfl
    · simp [ho]
    · exact ih t ht
    · simp [hk]

theorem yield_ne_nil {s : Symbol} (d : Derivation s) : d.yield ≠ [] := by
  intro h
  have hw := d.tree.width_pos
  rw [← d.length_yield, h] at hw
  exact absurd hw (by simp)

/-- the parts of two derivations with one tree have the same length, so equal tokens are divided alike -/
theorem yield_append_inj {s s' : Symbol} {d : Derivation s} {d' : Derivation s'} {us us' : List Token}
    (ht : d.tree = d'.tree) (h : d.yield ++ us = d'.yield ++ us') : d.yield = d'.yield ∧ us = us' :=
  List.append_inj h (by rw [d.length_yield, d'.length_yield, ht])

/-- an operator of a level is at the root of no operand of that level -/
theorem tree_operand_ne {l : Level} (d : Derivation l.operand) {a b : Expr} {f : Token}
    (hf : f.kind ∈ l.operators) : d.tree ≠ .binary a f b := by
  intro h
  obtain ⟨l', hl', hf'⟩ := d.root_level l.operand_ne_expression h
  rw [(l.mem_operators_iff _).1 hf, Option.some.injEq] at hf'
  rw [Level.levels_operand, ← hf'] at hl'
  exact l.notMem_tighter hl'

/-- only an expression is a ternary -/
theorem tree_ne_ternary {s : Symbol} (d : Derivation s) (hs : s ≠ .expression) {a b c : Expr} :
    d.tree ≠ .ternary a b c := by
  induction d with
  | plain | ternary => exact absurd rfl hs
  | @operand l d ih => exact ih l.operand_ne_expression
  | bare d ih => exact ih (by simp)
  | fold | sign | literal | group => simp [tree]

/-- **Tree and tokens determine the derivation.** -/
theorem eq_of_tree_yield {s : Symbol} (d d' : Derivation s) (ht : d.tree = d'.tree) (hy : d.yield = d'.yield) :
    d = d' := by
  induction d with
  | plain d ih =>
    cases d' with
    | plain d' => rw [ih d' ht hy]
    | ternary => exact absurd ht (d.tree_ne_ternary (by simp))
  | ternary a q b k c hq hk iha ihb ihc =>
    cases d' with
    | plain d' => exact absurd ht.symm (d'.tree_ne_ternary (by simp))
    | ternary a' q' b' k' c' hq' hk' =>
      simp only [tree, Expr.ternary.injEq] at ht
      obtain ⟨hta, htb, htc⟩ := ht
      obtain ⟨hya, h1⟩ := yield_append_inj hta hy
      obtain ⟨rfl, h2⟩ := List.cons.inj h1
      obtain ⟨hyb, h3⟩ := yield_append_inj htb h2
      obtain ⟨rfl, hyc⟩ := List.cons.inj h3
      rw [iha a' hta hya, ihb b' htb hyb, ihc c' htc hyc]
  | operand d ih =>
    cases d' with
    | operand d' => rw [ih d' ht hy]
    | fold a' f' b' h' => exact absurd ht (d.tree_operand_ne h')
  | fold a f b h iha ihb =>
    cases d' with
    | operand d' => exact absurd ht.symm (d'.tree_operand_ne h)
    | fold a' f' b' h' =>
      simp only [tree, Expr.binary.injEq] at ht
      obtain ⟨hta, rfl, htb⟩ := ht
      obtain ⟨hya, hyb⟩ := yield_append_inj hta hy
      rw [iha a' hta hya, ihb b' htb (List.cons.inj hyb).2]
  | bare d ih =>
    cases d' with
    | bare d' => rw [ih d' ht hy]
    | sign => cases d <;> simp [tree] at ht
  | sign f d h ih =>
    cases d' with
    | bare d' => cases d' <;> simp [tree] at ht
    | sign f' d' h' =>
      simp only [tree, Expr.unary.injEq] at ht
      obtain ⟨rfl, ht⟩ := ht
      rw [ih d' ht (List.cons.inj hy).2]
  | literal t c h =>
    cases d' with
    | literal t' c' h' =>
      simp only [tree, Expr.literal.injEq] at ht
      simp only [yield, List.cons.injEq, and_true] at hy
      subst ht hy
      rfl
    | group => simp [tree] at ht
  | group o d k ho hk ih =>
    cases d' with
    | literal => simp [tree] at ht
    | group o' d' k' ho' hk' =>
      simp only [tree, Expr.grouping.injEq] at ht
      obtain ⟨rfl, h1⟩ := List.cons.inj hy
      obtain ⟨hyd, h2⟩ := yield_append_inj ht h1
      obtain ⟨rfl, -⟩ := List.cons.inj h2
      rw [ih d' ht hyd]

end Derivation

end Reckoner
