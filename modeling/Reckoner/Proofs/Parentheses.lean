/-
Parentheses say how a tree is built, and nothing else.

A tree of any shape can be written with each of its applications inside parentheses of their own
(`Expr.parenthesised`); whether its operators stand as their levels ask does not matter then. Written so, every part of
the tree is a primary, and a primary may stand wherever the grammar asks for an operand.

- `evaluate_ungrouped`: groupings do not change what a tree evaluates to, neither its value nor its error;
- `parenthesised_derives`: the tokens derive from the grammar, with a tree that is the same up to groupings.

Main statement: `single_parenthesised`.
-/
import Mathlib.Tactic
import Reckoner.Expr.Eval
import Reckoner.Proofs.RoundTrip
import Reckoner.Proofs.ValidPrefix

namespace Reckoner

namespace Expr

/-! ## Trees without groupings -/

def ungrouped : Expr → Expr
  | .literal c => .literal c
  | .grouping a => a.ungrouped
  | .unary f a => .unary f a.ungrouped
  | .binary a f b => .binary a.ungrouped f b.ungrouped
  | .ternary a b c => .ternary a.ungrouped b.ungrouped c.ungrouped

/-- **Groupings do not change the result,** be it a value or an error with all its fields. -/
theorem evaluate_ungrouped (e : Expr) : e.ungrouped.evaluate = e.evaluate := by
  induction e with
  | literal c => rfl
  | grouping a ih => exact ih
  | unary f a ih => rw [ungrouped, evaluate_unary, evaluate_unary, ih]
  | binary a f b iha ihb => rw [ungrouped, evaluate_binary, evaluate_binary, iha, ihb]
  | ternary a b c iha ihb ihc => rw [ungrouped, evaluate_ternary, evaluate_ternary, iha, ihb, ihc]

/-! ## Trees in full -/

/-- every operator of a tree is of a kind that can stand in its place: before its operand, or between two -/
def Operated : Expr → Prop
  | .literal _ => True
  | .grouping a => a.Operated
  | .unary f a => f.kind ∈ unaryOperators ∧ a.Operated
  | .binary a f b => (∃ l : Level, f.kind ∈ l.operators) ∧ a.Operated ∧ b.Operated
  | .ternary a b c => a.Operated ∧ b.Operated ∧ c.Operated

def enclosed (ts : List Token) : List Token :=
  { kind := .leftParen, lexeme := "(" } :: (ts ++ [{ kind := .rightParen, lexeme := ")" }])

/-- The tokens of a tree with every application in its own parentheses. A constant is one token; operators keep their
token. -/
def parenthesised : Expr → List Token
  | .literal c => [c.token]
  | .grouping a => enclosed a.parenthesised
  | .unary f a => enclosed (f :: a.parenthesised)
  | .binary a f b => enclosed (a.parenthesised ++ f :: b.parenthesised)
  | .ternary a b c =>
    enclosed (a.parenthesised ++ { kind := .question, lexeme := "?" } ::
      (b.parenthesised ++ { kind := .colon, lexeme := ":" } :: c.parenthesised))

end Expr

theorem Constant.token_denotes (c : Constant) : Denotes c.token c := by
  apply Constant.denotes_of_bare
  cases c with
  | bool b => cases b <;> rfl
  | nil | integer | double | string => rfl

/-! ## Derivations -/

namespace Derivation

/-- a primary as an expression of the loosest level -/
def loosest (d : Derivation .primary) : Derivation (.binary .equality) :=
  .operand ((bare d).lift .equality)

@[simp] theorem tree_loosest (d : Derivation .primary) : d.loosest.tree = d.tree :=
  tree_lift (bare d) .equality

@[simp] theorem yield_loosest (d : Derivation .primary) : d.loosest.yield = d.yield :=
  yield_lift (bare d) .equality

def enclose (d : Derivation .expression) : Derivation .primary :=
  .group { kind := .leftParen, lexeme := "(" } d { kind := .rightParen, lexeme := ")" } (Eq.refl Kind.leftParen)
    (Eq.refl Kind.rightParen)

end Derivation

/-- tokens between parentheses are a primary if they derive from the loosest level -/
theorem exists_enclosed {e : Expr} {ts : List Token} (d : Derivation (.binary .equality)) (hy : d.yield = ts)
    (ht : d.tree.ungrouped = e.ungrouped) :
    ∃ d' : Derivation .primary, d'.yield = Expr.enclosed ts ∧ d'.tree.ungrouped = e.ungrouped := by
  subst hy
  exact ⟨(Derivation.plain d).enclose, rfl, ht⟩

/-- **Written in full, a tree is a primary.** Its derivation has a tree that differs in groupings only. -/
theorem parenthesised_derives {e : Expr} (h : e.Operated) :
    ∃ d : Derivation .primary, d.yield = e.parenthesised ∧ d.tree.ungrouped = e.ungrouped := by
  induction e with
  | literal c => exact ⟨.literal c.token c c.token_denotes, rfl, rfl⟩
  | grouping a ih =>
    obtain ⟨d, hy, ht⟩ := ih h
    apply exists_enclosed d.loosest
    · rw [Derivation.yield_loosest, hy]
    · rw [Derivation.tree_loosest, ht]
      rfl
  | unary f a ih =>
    obtain ⟨hf, ha⟩ := h
    obtain ⟨d, hy, ht⟩ := ih ha
    apply exists_enclosed (.operand ((Derivation.sign f (.bare d) hf).lift .equality))
    · simp [Derivation.yield, hy]
    · simp [Derivation.tree, Expr.ungrouped, ht]
  | binary a f b iha ihb =>
    obtain ⟨⟨l, hf⟩, ha, hb⟩ := h
    obtain ⟨da, hya, hta⟩ := iha ha
    obtain ⟨db, hyb, htb⟩ := ihb hb
    -- an application of one level, and then up to the loosest
    obtain ⟨ls, hladder⟩ := Reading.exists_ladder l
    obtain ⟨d, hy, ht⟩ := hladder.exists_lift
      (.fold (.operand ((Derivation.bare da).lift l)) f ((Derivation.bare db).lift l) hf)
    apply exists_enclosed d
    · simp [hy, Derivation.yield, hya, hyb]
    · simp [ht, Derivation.tree, Expr.ungrouped, hta, htb]
  | ternary a b c iha ihb ihc =>
    obtain ⟨ha, hb, hc⟩ := h
    obtain ⟨da, hya, hta⟩ := iha ha
    obtain ⟨db, hyb, htb⟩ := ihb hb
    obtain ⟨dc, hyc, htc⟩ := ihc hc
    refine ⟨(Derivation.ternary da.loosest { kind := .question, lexeme := "?" } db.loosest
      { kind := .colon, lexeme := ":" } dc.loosest rfl rfl).enclose, ?_, ?_⟩
    · simp [Derivation.enclose, Derivation.yield, Expr.parenthesised, Expr.enclosed, hya, hyb, hyc]
    · simp [Derivation.enclose, Derivation.tree, Expr.ungrouped, hta, htb, htc]

/-! ## Reading trees in full -/

/-- **Parentheses in full keep structure and meaning.** The tree `e` has any shape and any constants, and operators of
kinds that can stand where they stand. Its tokens with every application in parentheses come first, and if anything
follows, an end-of-text token does. Then, with a limit of as many levels as there are tokens or more, reading one
expression takes all tokens, reports nothing, and gives a tree that is `e` up to groupings and evaluates to the same
value or to the same error. -/
theorem single_parenthesised (e : Expr) (ending : List Token) (limit : Nat) (hoperators : e.Operated)
    (hending : ∀ t ∈ ending.head?, t.kind = .eof) (hlimit : e.parenthesised.length ≤ limit) :
    (Reader.ofTokens (e.parenthesised ++ ending) limit).single.diagnostics = [] ∧
      (Reader.ofTokens (e.parenthesised ++ ending) limit).single.unread = [] ∧
      ∃ e', (Reader.ofTokens (e.parenthesised ++ ending) limit).single.result = some e' ∧
        e'.ungrouped = e.ungrouped ∧ e'.evaluate = e.evaluate := by
  obtain ⟨d, hy, ht⟩ := parenthesised_derives hoperators
  have hwhole : (Derivation.plain d.loosest).yield = e.parenthesised := d.yield_loosest.trans hy
  have htree : (Derivation.plain d.loosest).tree = d.tree := d.tree_loosest
  have hends : ending.takeWhile (·.kind != .eof) = [] := by
    cases ending with
    | nil => rfl
    | cons t more => simp [hending t rfl]
  have hunread : (Reader.ofTokens (e.parenthesised ++ ending) limit).unread = (Derivation.plain d.loosest).yield := by
    rw [Reader.unread_ofTokens_append (hwhole ▸ Derivation.kind_ne_eof _), hends, List.append_nil, hwhole]
  have hcost : (Derivation.plain d.loosest).tree.cost ≤ limit := by
    calc (Derivation.plain d.loosest).tree.cost ≤ (Derivation.plain d.loosest).tree.width := Expr.cost_le_width _
      _ = (Derivation.plain d.loosest).yield.length := (Derivation.length_yield _).symm
      _ = e.parenthesised.length := by rw [hwhole]
      _ ≤ limit := hlimit
  rw [Reader.single_yield _ hunread hcost, htree]
  refine ⟨rfl, rfl, d.tree, rfl, ht, ?_⟩
  calc d.tree.evaluate = d.tree.ungrouped.evaluate := (Expr.evaluate_ungrouped _).symm
    _ = e.ungrouped.evaluate := by rw [ht]
    _ = e.evaluate := Expr.evaluate_ungrouped e

namespace Sample

def times : Token := { kind := .star, lexeme := "*", line := 7, column := 3 }

def negate : Token := { kind := .minus, lexeme := "-", line := 8, column := 1 }

/-- A product whose operands are looser than itself: a difference on the left, a conditional on the right. Without
parentheses this tree is not what its tokens stand for, and it evaluates to an error. -/
def inverted : Expr :=
  .binary (.binary (.literal (.integer 2)) minus (.literal (.integer (-3)))) times
    (.ternary (.literal .nil) (.literal (.bool true)) (.unary negate (.literal (.string "x"))))

end Sample

/-- this tree takes 18 tokens in full, and reading them gives it back with its error, which blames the sign -/
theorem single_parenthesised_inverted :
    Sample.inverted.Operated ∧ Sample.inverted.parenthesised.length = 18 ∧
    (Reader.ofTokens (Sample.inverted.parenthesised ++ []) 18).single.diagnostics = [] ∧
    ∃ e', (Reader.ofTokens (Sample.inverted.parenthesised ++ []) 18).single.result = some e' ∧
      e'.ungrouped = Sample.inverted ∧
      e'.evaluate = .error (.blaming Sample.negate (.operandMismatch "a number" "string")) := by
  have hoperators : Sample.inverted.Operated :=
    ⟨⟨.product, by decide⟩, ⟨⟨.sum, by decide⟩, trivial, trivial⟩, trivial, trivial, by decide, trivial⟩
  obtain ⟨hnone, -, e', hresult, htree, hvalue⟩ :=
    single_parenthesised Sample.inverted [] 18 hoperators (by simp) (by decide)
  exact ⟨hoperators, by decide, hnone, e', hresult, htree, hvalue⟩

end Reckoner
