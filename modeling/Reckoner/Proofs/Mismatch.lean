/-
Runtime errors point at an operator of the source.

An evaluation ends in an error where an operator rejects its operands. The levels of the grammar and the operators that
can be evaluated are listed apart; that every tree that is read has only operators that can be evaluated, each at its
place, is a fact about both lists.

- `applyUnary_mismatch`, `applyBinary_mismatch`: an operator of the grammar that fails rejects its operands, and it is one
  that asks for numbers;
- `Derivation.evaluate_mismatch`: so an error of a derived tree blames one of the tokens it was derived from;
- tokens have their true text and place, and errors copy them.

Main statement: `runtime_error_at_operator`.
-/
import Mathlib.Tactic
import Reckoner.Pipeline
import Reckoner.Proofs.Acceptance
import Reckoner.Proofs.Coverage

namespace Reckoner

/-- an error says that the operator `t` rejects its operands, at the place of `t` -/
def RuntimeError.Mismatches (err : RuntimeError) (t : Token) : Prop :=
  ∃ expected found, err = .blaming t (.operandMismatch expected found)

/-- the operators that do not take every operand -/
def selective : List Kind := [
  .minus, .plus, .star, .slash, .starStar, .less, .lessEqual, .greater, .greaterEqual, .bitAnd, .bitOr, .bitXor,
  .bitNand, .bitNot]

/-- an error says that one of these tokens rejects its operands, and it is an operator that may -/
def RuntimeError.BlamesOneOf (err : RuntimeError) (ts : List Token) : Prop :=
  ∃ t ∈ ts, err.Mismatches t ∧ t.kind ∈ selective

theorem RuntimeError.BlamesOneOf.mono {err : RuntimeError} {ts us : List Token} (h : err.BlamesOneOf ts)
    (hsub : ∀ t ∈ ts, t ∈ us) : err.BlamesOneOf us := by
  obtain ⟨t, ht, hmismatch⟩ := h
  exact ⟨t, hsub t ht, hmismatch⟩

/-! ## One operator -/

namespace Value

section
variable {f : Token} {v w : Value} {err : RuntimeError}

theorem numeric_mismatch {apply : Float → Float → Value} (h : numeric f apply v w = .error err) :
    err.Mismatches f := by
  unfold numeric at h
  split at h
  · cases h
  · cases h
    exact ⟨_, _, rfl⟩

theorem plus_mismatch (h : plus f v w = .error err) : err.Mismatches f := by
  unfold plus at h
  split at h
  all_goals cases h
  exact ⟨_, _, rfl⟩

theorem numericUnary_mismatch {apply : Float → Value} (h : numericUnary f apply v = .error err) :
    err.Mismatches f := by
  unfold numericUnary at h
  split at h
  · cases h
  · cases h
    exact ⟨_, _, rfl⟩

theorem applyUnary_mismatch (hf : f.kind ∈ unaryOperators) (h : v.applyUnary f = .error err) :
    err.Mismatches f ∧ f.kind ∈ selective := by
  unfold applyUnary at h
  simp only [unaryOperators, List.mem_cons, List.not_mem_nil, or_false] at hf
  rcases hf with hf | hf | hf <;> rw [hf] at h ⊢
  · cases h
  · exact ⟨numericUnary_mismatch h, by decide⟩
  · exact ⟨numericUnary_mismatch h, by decide⟩

/-- `and` and `or` are not applied to two values, and any two values can be compared for equality -/
theorem applyBinary_mismatch {l : Level} (hf : f.kind ∈ l.operators) (hor : f.kind ≠ .or) (hand : f.kind ≠ .and)
    (h : v.applyBinary f w = .error err) : err.Mismatches f ∧ f.kind ∈ selective := by
  unfold applyBinary at h
  cases l <;> simp only [Level.operators, List.mem_cons, List.not_mem_nil, or_false] at hf
  case exponent =>
    rw [hf] at h ⊢
    exact ⟨numeric_mismatch h, by decide⟩
  case product => rcases hf with hf | hf <;> rw [hf] at h ⊢ <;> exact ⟨numeric_mismatch h, by decide⟩
  case sum =>
    rcases hf with hf | hf <;> rw [hf] at h ⊢
    · exact ⟨plus_mismatch h, by decide⟩
    · exact ⟨numeric_mismatch h, by decide⟩
  case logic =>
    rcases hf with hf | hf | hf | hf | hf | hf
    · exact absurd hf hand
    · exact absurd hf hor
    all_goals
      rw [hf] at h ⊢
      exact ⟨numeric_mismatch h, by decide⟩
  case comparison => rcases hf with hf | hf | hf | hf <;> rw [hf] at h ⊢ <;> exact ⟨numeric_mismatch h, by decide⟩
  case equality => rcases hf with hf | hf <;> rw [hf] at h <;> cases h

end

end Value

/-! ## Trees -/

/-- where a sequence of two evaluations ends in an error: in the first, or in the second -/
theorem Result.bind_eq_error {r : Result} {next : Value → Result} {err : RuntimeError} (h : r.bind next = .error err) :
    r = .error err ∨ ∃ v, next v = .error err := by
  cases r with
  | error e => exact Or.inl h
  | ok v => exact Or.inr ⟨v, h⟩

/-- **An error of a derived tree blames one of its tokens,** which rejects its operands. By induction on the derivation:
an error comes from a part of the tree or from the operator at its root, and the grammar knows the kind of that. -/
theorem Derivation.evaluate_mismatch {s : Symbol} (d : Derivation s) {err : RuntimeError}
    (h : d.tree.evaluate = .error err) : err.BlamesOneOf d.yield := by
  induction d with
  | plain _ ih | operand _ ih | bare _ ih => exact ih h
  | ternary a q b k c _ _ iha ihb ihc =>
    rw [tree, Expr.evaluate_ternary] at h
    rcases Result.bind_eq_error h with h | ⟨v, h⟩
    · exact (iha h).mono fun t ht => by simp [yield, ht]
    split at h
    · exact (ihb h).mono fun t ht => by simp [yield, ht]
    · exact (ihc h).mono fun t ht => by simp [yield, ht]
  | @fold l a f b hop iha ihb =>
    have right : b.tree.evaluate = .error err → err.BlamesOneOf (fold a f b hop).yield :=
      fun hb => (ihb hb).mono fun t ht => by simp [yield, ht]
    rw [tree, Expr.evaluate_binary] at h
    rcases Result.bind_eq_error h with h | ⟨v, h⟩
    · exact (iha h).mono fun t ht => by simp [yield, ht]
    split at h
    · cases h
    split at h
    · exact right h
    · next hlogic =>
      rcases Result.bind_eq_error h with h | ⟨w, h⟩
      · exact right h
      · simp only [Bool.or_eq_true, decide_eq_true_eq, not_or] at hlogic
        exact ⟨f, by simp [yield], Value.applyBinary_mismatch hop hlogic.1 hlogic.2 h⟩
  | sign f a hop ih =>
    rw [tree, Expr.evaluate_unary] at h
    rcases Result.bind_eq_error h with h | ⟨v, h⟩
    · exact (ih h).mono fun t ht => by simp [yield, ht]
    · exact ⟨f, by simp [yield], Value.applyUnary_mismatch hop h⟩
  | literal t c hc => cases h
  | group o a k _ _ ih => exact (ih h).mono fun t ht => by simp [yield, ht]

/-- an error of a tree that a reader returns blames one of the tokens it was given -/
theorem Reader.Returns.mismatch {r : Reader} {e : Expr} (h : r.Returns e) {err : RuntimeError}
    (herr : e.evaluate = .error err) : err.BlamesOneOf r.unread := by
  obtain ⟨d, rfl, -, hy⟩ := h.derived
  exact (d.evaluate_mismatch herr).mono fun t ht => hy ht

/-! ## Whole sources -/

theorem collectValues_error {es : List Expr} {err : RuntimeError} (h : (collectValues es).result = .error err) :
    ∃ e ∈ es, e.evaluate = .error err := by
  induction es with
  | nil => cases h
  | cons e es ih =>
    rw [collectValues_cons_result] at h
    cases he : e.evaluate with
    | error err' =>
      rw [he] at h
      cases h
      exact ⟨e, List.mem_cons_self, he⟩
    | ok v =>
      rw [he] at h
      cases hrest : (collectValues es).result with
      | error err' =>
        simp only [hrest] at h
        cases h
        obtain ⟨e', he', herr⟩ := ih hrest
        exact ⟨e', List.mem_cons_of_mem e he', herr⟩
      | ok vs =>
        simp only [hrest] at h
        cases h

/-- a source ends in a runtime error if nothing fatal was found in reading it and one of its expressions does -/
theorem evaluateSource_eq_runtime_iff {c : Config} {source : String} {err : RuntimeError} :
    (evaluateSource c source).result = .error (.runtime err) ↔
      hasFatal (parseSource c source).diagnostics = false ∧
        (collectValues (parseSource c source).expressions).result = .error err := by
  simp only [evaluateSource]
  split
  · next hfatal => simp [hfatal]
  · next hfatal =>
    cases (collectValues (parseSource c source).expressions).result with
    | ok vs => simp [Except.mapError]
    | error err' => simp [Except.mapError, hfatal]

/-- the text of a token is the characters of its span, at the end of the source too -/
theorem lexeme_eq_slice {s : Spellings} {source : String} {t : Token} (h : t ∈ (lex s source).tokens)
    (hkind : t.kind ≠ .eof) : t.lexeme = String.ofList (t.span.slice source.toList) := by
  rcases List.mem_append.1 h with h | h
  · obtain ⟨l, hl, hlt⟩ := List.mem_filterMap.1 h
    exact (Placed.token_of_token? (cutFrom_of_mem s [] source.toList hl) hlt).1.lexeme_eq
  · rw [List.mem_singleton.1 h] at hkind
    exact absurd rfl hkind

/-- **A runtime error points at its operator.** For every source and all settings, an error that evaluation ends in says
that operands were rejected. It names a token of the source: it has the text of that token, which is the characters of
its span, and its line, column and span; and the token is an operator that does not take every operand. In general, no
tree that a reader returns, from any tokens and at any limit, evaluates to an error that says that its operator is
none. -/
theorem runtime_error_at_operator :
    (∀ (c : Config) (source : String) (err : RuntimeError),
      (evaluateSource c source).result = .error (.runtime err) →
      (∃ expected found, err.cause = .operandMismatch expected found) ∧
      ∃ t ∈ (lex c.spellings source).tokens, err.operator = t.lexeme ∧
        err.operator = String.ofList (err.span.slice source.toList) ∧ err.span = t.span ∧ err.line = t.line ∧
        err.column = t.column ∧ t.kind ∈ selective) ∧
    (∀ (r : Reader) (e : Expr) (err : RuntimeError), r.Returns e → e.evaluate = .error err →
      err.cause ≠ .unsupportedOperator) := by
  constructor
  · intro c source err h
    obtain ⟨e, he, herr⟩ := collectValues_error (evaluateSource_eq_runtime_iff.1 h).2
    have hreturns : (Reader.ofTokens (lex c.spellings source).tokens c.limit).Returns e := Or.inr he
    obtain ⟨t, ht, ⟨expected, found, rfl⟩, hkind⟩ := hreturns.mismatch herr
    have hmem : t ∈ (lex c.spellings source).tokens := (List.takeWhile_sublist _).subset ht
    have hne : t.kind ≠ .eof := by
      intro heof
      rw [heof] at hkind
      exact absurd hkind (by decide)
    exact ⟨⟨expected, found, rfl⟩, t, hmem, rfl, lexeme_eq_slice hmem hne, rfl, rfl, rfl, hkind⟩
  · intro r e err he herr hcause
    obtain ⟨t, -, ⟨expected, found, rfl⟩, -⟩ := he.mismatch herr
    cases hcause

namespace Sample

/-- the error of a sum of a number and a truth value, on the second line -/
def clash : RuntimeError :=
  { cause := .operandMismatch "two numbers or a string" "number and bool", operator := "+", line := 2, column := 3,
    span := ⟨7, 8⟩ }

def signed : Reader where
  unread := [minus, { kind := .nilWord, lexeme := "nil" }]
  eof := { kind := .eof, lexeme := "" }
  limit := 2

end Sample

/-- `nil; 1 + true` ends in an error at its sum, and `- nil` in an error that is about its operand. -/
theorem runtime_error_at_sum :
    (evaluateSource {} "nil;\n1 + true").result = .error (.runtime Sample.clash) ∧
    (∃ t ∈ (lex .standard "nil;\n1 + true").tokens, "+" = t.lexeme ∧ ⟨7, 8⟩ = t.span ∧ 2 = t.line ∧ 3 = t.column) ∧
    Sample.signed.Returns (.unary Sample.minus (.literal .nil)) ∧
    (RuntimeError.blaming Sample.minus (.operandMismatch "a number" "nil")).cause ≠ .unsupportedOperator := by
  have herror : (evaluateSource {} "nil;\n1 + true").result = .error (.runtime Sample.clash) :=
    Evaluation.error?_eq_some_iff.1 (by decide +kernel)
  have hreturns : Sample.signed.Returns (.unary Sample.minus (.literal .nil)) := Or.inl rfl
  obtain ⟨-, t, ht, hlexeme, -, hspan, hline, hcolumn, -⟩ := runtime_error_at_operator.1 {} _ _ herror
  exact ⟨herror, ⟨t, ht, hlexeme, hspan, hline, hcolumn⟩, hreturns,
    runtime_error_at_operator.2 _ _ _ hreturns rfl⟩

end Reckoner
