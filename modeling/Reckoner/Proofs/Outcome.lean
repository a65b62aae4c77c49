/-
Diagnostics decide the outcome of a source.

Cutting a source reports what it passes over and goes on; reading it reports what it cannot read, and that alone keeps
the source from being evaluated.

- `blamed_sublist`: the tokens that the failures of a program blame are some of its tokens, in their order. After a
  failure, reading goes on behind the token to blame (`Reading.Blames.goes_on`), so no token is blamed twice;
- `tokens_start_lt`: the tokens of a source start one behind the other, and so do the failures of reading it;
- `exists_evaluates`: expressions are evaluated in order, all of them or up to the first error, and
  `Evaluates.collectValues_eq`: their values are collected so.

Main statement: `diagnostics_decide_outcome`.
-/
import Mathlib.Tactic
import Reckoner.Proofs.Blame
import Reckoner.Proofs.Coverage
import Reckoner.Proofs.Relabelling

namespace Reckoner

/-! ## Whom the failures of a program blame -/

/-- After a failure nothing is left and the end was blamed, or reading goes on behind the token that was blamed. -/
theorem Reading.Blames.goes_on {eof : Token} {ts : List Token} {f : Failure} (h : Blames eof Expr ts (.failed f)) :
    f.token = eof ∧ resume f.unread = [] ∨
      ∃ behind, f.token :: behind <:+ ts ∧ resume f.unread <:+ behind := by
  obtain ⟨hsuffix, htoken | ⟨hread, -, -⟩⟩ := h
  · cases hu : f.unread with
    | nil =>
      rw [hu] at htoken
      exact Or.inl ⟨htoken, rfl⟩
    | cons t rest =>
      rw [hu] at htoken hsuffix
      obtain rfl : f.token = t := htoken
      exact Or.inr ⟨rest, hsuffix, resumeAfter_suffix _ rest⟩
  · exact Or.inr ⟨f.unread, hread, resume_suffix _⟩

/-- **No token is blamed twice.** The tokens that are blamed in reading a program are some of its tokens and its end, in
their order. -/
theorem blamed_sublist (eof : Token) (limit : Nat) (ts : List Token) :
    ((Program.read eof limit ts).failures.map (·.token)).Sublist (ts ++ [eof]) := by
  refine Program.read_induction (motive := fun ts p => (p.failures.map (·.token)).Sublist (ts ++ [eof])) ?_ ?_ ?_ ts
  · exact List.nil_sublist _
  · intro ts e rest hr ih
    have hblames := Reading.terminated_blames eof limit ts
    rw [hr] at hblames
    exact ih.trans (hblames.sublist.append_right [eof])
  · intro ts f _ hr ih
    have hblames := Reading.terminated_blames eof limit ts
    rw [hr] at hblames
    change (f.token :: _).Sublist _
    rcases hblames.goes_on with ⟨hend, hnil⟩ | ⟨behind, hbehind, hresume⟩
    · rw [hnil, Program.read_nil, hend]
      exact List.sublist_append_right ts [eof]
    · have hrest := ih.trans (hresume.sublist.append_right [eof])
      exact (hrest.cons_cons f.token).trans (hbehind.sublist.append_right [eof])

/-! ## Tokens of a source -/

section
variable (s : Spellings) (source : String)

/-- the tokens of a source but for the last, which ends it -/
theorem exists_tokens_eq : ∃ (body : List Token) (last : Token), (lex s source).tokens = body ++ [last] ∧
    (∀ t ∈ body, t.kind ≠ .eof ∧ t.span.start < last.span.start) ∧ last.kind = .eof ∧
    body.Pairwise (fun a b => a.span.start < b.span.start) := by
  have hcut : ∀ l ∈ placed {} (lexemes s source.toList), l.CutFrom source.toList := by
    intro l hl
    exact cutFrom_of_mem s [] source.toList hl
  have htoken : ∀ t ∈ (placed {} (lexemes s source.toList)).filterMap (·.token? (sourceLines source.toList)),
      t.CutFrom source.toList := by
    intro t ht
    obtain ⟨l, hl, hlt⟩ := List.mem_filterMap.1 ht
    exact (Placed.token_of_token? (hcut l hl) hlt).1
  refine ⟨_, _, rfl, fun t ht => ⟨(htoken t ht).kind_ne, ?_⟩, rfl, ?_⟩
  · have hlt := (htoken t ht).start_lt_stop
    have hle := (htoken t ht).stop_le
    simp only [endToken, Position.offset_after]
    omega
  · have hord := tokens_ordered (sourceLines source.toList) hcut (placed_ordered {} (lexemes s source.toList))
    exact hord.imp_of_mem fun ha _ h => (htoken _ ha).start_lt_stop.trans_le h

/-- **Tokens start one behind the other,** the end of the source behind all others. -/
theorem tokens_start_lt : (lex s source).tokens.Pairwise (fun a b => a.span.start < b.span.start) := by
  obtain ⟨body, last, htokens, hbody, -, hord⟩ := exists_tokens_eq s source
  rw [htokens, List.pairwise_append]
  refine ⟨hord, List.pairwise_singleton _ _, fun a ha b hb => ?_⟩
  rw [List.mem_singleton.1 hb]
  exact (hbody a ha).2

/-- in reading a source, tokens of it are blamed, in their order -/
theorem blamed_sublist_tokens (limit : Nat) :
    ((Program.ofTokens (lex s source).tokens limit).failures.map (·.token)).Sublist (lex s source).tokens := by
  obtain ⟨body, last, htokens, hbody, hlast, -⟩ := exists_tokens_eq s source
  have hreader := Reader.ofTokens_concat (fun t ht => (hbody t ht).1) hlast limit
  rw [htokens, Program.ofTokens, hreader]
  exact blamed_sublist last limit body

/-! ## Diagnostics of a source -/

def Diagnostic.Before (a b : Diagnostic) : Prop :=
  ∃ i j, a.startsAt i ∧ b.startsAt j ∧ i < j

theorem lex_diagnostics_before : (lex s source).diagnostics.Pairwise Diagnostic.Before := by
  have hord := diagnostics_ordered (sourceLines source.toList)
    (fun l hl => cutFrom_of_mem s [] source.toList hl) (placed_ordered {} (lexemes s source.toList))
  exact hord.imp fun h => h.2

/-- what cutting reports is recoverable, and about characters, strings and comments -/
theorem lex_diagnostics_kind : ∀ d ∈ (lex s source).diagnostics,
    d.severity = .recoverable ∧ 2 ≤ d.kind.code ∧ d.kind.code ≤ 4 := by
  intro d hd
  obtain ⟨l, hl, hld⟩ := List.mem_filterMap.1 hd
  obtain ⟨hseverity, -, -, hstrikes⟩ := Placed.diagnostic_of_diagnostic? (cutFrom_of_mem s [] source.toList hl) hld
  refine ⟨hseverity, ?_⟩
  have hkind : d.kind = .unexpectedCharacter ∨ d.kind = .unterminatedString ∨ d.kind = .unterminatedBlockComment := by
    cases hopen : d.isUnterminated with
    | false =>
      have h := hstrikes hopen
      simp only [Diagnostic.strikes, Bool.and_eq_true, beq_iff_eq] at h
      exact Or.inl h.1
    | true =>
      simp only [Diagnostic.isUnterminated, Bool.or_eq_true, beq_iff_eq] at hopen
      exact Or.inr hopen
  rcases hkind with h | h | h <;> rw [h] <;> decide

theorem Failure.diagnostic_startsAt (f : Failure) : f.diagnostic.startsAt f.token.span.start :=
  ⟨f.token.span, rfl, rfl⟩

theorem Fault.code_bounds (fault : Fault) : 7 ≤ fault.kind.code ∧ fault.kind.code ≤ 11 := by
  cases fault <;> decide

theorem program_diagnostics_before (limit : Nat) :
    (Reader.ofTokens (lex s source).tokens limit).program.diagnostics.Pairwise Diagnostic.Before := by
  have hblamed := (tokens_start_lt s source).sublist (blamed_sublist_tokens s source limit)
  refine List.pairwise_map.2 ((List.pairwise_map.1 hblamed).imp fun {f g} h => ?_)
  exact ⟨_, _, f.diagnostic_startsAt, g.diagnostic_startsAt, h⟩

/-- what reading reports is fatal, and about expressions -/
theorem program_diagnostics_kind (r : Reader) : ∀ d ∈ r.program.diagnostics,
    d.severity = .fatal ∧ 7 ≤ d.kind.code ∧ d.kind.code ≤ 11 := by
  intro d hd
  obtain ⟨f, -, rfl⟩ := List.mem_map.1 hd
  exact ⟨rfl, f.fault.code_bounds⟩

end

/-! ## Evaluating -/

/-- Expressions are evaluated in order, as far as `reached`: all of them, and each has a value; or up to one that ends in
an error, and those before it have values. -/
inductive Evaluates (es : List Expr) : (reached : List Expr) → List Value → Option RuntimeError → Prop where
  | all {vs : List Value} (hvalues : List.Forall₂ (fun e v => e.evaluate = .ok v) es vs) : Evaluates es es vs none
  | upTo {before after : List Expr} {e : Expr} {vs : List Value} {err : RuntimeError} (hes : es = before ++ e :: after)
      (hvalues : List.Forall₂ (fun e v => e.evaluate = .ok v) before vs) (herror : e.evaluate = .error err) :
      Evaluates es (before ++ [e]) vs (some err)

theorem Evaluates.cons {e : Expr} {es reached : List Expr} {v : Value} {vs : List Value} {err? : Option RuntimeError}
    (hv : e.evaluate = .ok v) (h : Evaluates es reached vs err?) :
    Evaluates (e :: es) (e :: reached) (v :: vs) err? := by
  cases h with
  | all hvalues => exact .all (.cons hv hvalues)
  | upTo hes hvalues herror => exact .upTo (congrArg (e :: ·) hes) (.cons hv hvalues) herror

/-- **Expressions are evaluated in order, all of them or up to the first error.** -/
theorem exists_evaluates (es : List Expr) : ∃ reached vs err?, Evaluates es reached vs err? := by
  induction es with
  | nil => exact ⟨[], [], none, .all .nil⟩
  | cons e es ih =>
    cases he : e.evaluate with
    | error err => exact ⟨[] ++ [e], [], some err, .upTo (List.nil_append _).symm .nil he⟩
    | ok v =>
      obtain ⟨reached, vs, err?, h⟩ := ih
      exact ⟨e :: reached, v :: vs, err?, h.cons he⟩

/-- expressions with values are collected in front of all others -/
theorem collectValues_append {front : List Expr} {vs : List Value}
    (h : List.Forall₂ (fun e v => e.evaluate = .ok v) front vs) (back : List Expr) :
    collectValues (front ++ back) = ⟨(collectValues back).result.map (vs ++ ·),
      front.flatMap (·.run.events) ++ (collectValues back).events⟩ := by
  induction h with
  | nil => cases hback : (collectValues back).result <;> simp [Except.map, ← hback]
  | @cons e v front vs hv _ ih =>
    have hresult : e.run.result = .ok v := hv
    rw [List.cons_append, collectValues]
    simp only [hresult, ih, List.flatMap_cons, List.append_assoc]
    cases (collectValues back).result <;> rfl

/-- **All values are collected, or the first error alone,** and the log goes through what was reached. -/
theorem Evaluates.collectValues_eq {es reached : List Expr} {vs : List Value} {err? : Option RuntimeError}
    (h : Evaluates es reached vs err?) :
    collectValues es = ⟨err?.elim (.ok vs) .error, reached.flatMap (·.run.events)⟩ := by
  cases h with
  | all hvalues =>
    have hall := collectValues_append hvalues []
    simpa [collectValues, Except.map] using hall
  | @upTo before after e _ err hes hvalues herror =>
    have hresult : e.run.result = .error err := herror
    rw [hes, collectValues_append hvalues]
    simp [collectValues, hresult, Except.map]

/-! ## The outcome -/

section
variable (c : Config) (source : String)

/-- a source has a fatal diagnostic if reading it reports one -/
theorem hasFatal_parseSource : hasFatal (parseSource c source).diagnostics =
    !(Reader.ofTokens (lex c.spellings source).tokens c.limit).program.diagnostics.isEmpty := by
  rw [hasFatal_eq_filter, fatal_parseSource]

/-- the first fatal diagnostic of a source is the first that reading it reports -/
theorem firstFatal?_parseSource : firstFatal? (parseSource c source).diagnostics =
    (Reader.ofTokens (lex c.spellings source).tokens c.limit).program.diagnostics.head? := by
  rw [← fatal_parseSource, List.head?_filter]
  rfl

/-- the outcome is diagnostics if one of them is fatal, and then it is all of them -/
theorem evaluateSource_eq_diagnostics_iff {all : List Diagnostic} :
    (evaluateSource c source).result = .error (.diagnostics all) ↔
      hasFatal (parseSource c source).diagnostics = true ∧ all = (parseSource c source).diagnostics := by
  simp only [evaluateSource]
  split
  · next hfatal => simp [hfatal, eq_comm]
  · next hfatal => cases (collectValues (parseSource c source).expressions).result <;> simp [Except.mapError, hfatal]

/-- the outcome with fatal diagnostics -/
theorem evaluateSource_of_fatal (hfatal : hasFatal (parseSource c source).diagnostics = true) :
    evaluateSource c source =
      ⟨.error (.diagnostics (parseSource c source).diagnostics), (parseSource c source).events⟩ := by
  simp only [evaluateSource, hfatal, if_true]

/-- the outcome without fatal diagnostics -/
theorem evaluateSource_of_evaluates (hfatal : hasFatal (parseSource c source).diagnostics = false)
    {reached : List Expr} {vs : List Value} {err? : Option RuntimeError}
    (h : Evaluates (parseSource c source).expressions reached vs err?) :
    evaluateSource c source = ⟨err?.elim (.ok vs) (.error ∘ .runtime),
      (parseSource c source).events ++ .entered .evaluating :: reached.flatMap (·.run.events)⟩ := by
  simp only [evaluateSource, hfatal, h.collectValues_eq, Bool.false_eq_true, if_false]
  cases err? <;> rfl

/-- The expressions of a source are evaluated in order, as far as `reached`: the outcome is all their values, or the error
that stopped them, and the log goes through all that were reached. -/
def EvaluatedInOrder : Prop :=
  ∃ reached vs err?, Evaluates (parseSource c source).expressions reached vs err? ∧
    (evaluateSource c source).result = err?.elim (.ok vs) (.error ∘ .runtime) ∧
    (evaluateSource c source).events =
      (parseSource c source).events ++ .entered .evaluating :: reached.flatMap (·.run.events)

theorem evaluateSource_of_not_fatal (hfatal : hasFatal (parseSource c source).diagnostics = false) :
    EvaluatedInOrder c source := by
  obtain ⟨reached, vs, err?, h⟩ := exists_evaluates (parseSource c source).expressions
  have hevaluation := evaluateSource_of_evaluates c source hfatal h
  exact ⟨reached, vs, err?, h, congrArg Evaluation.result hevaluation, congrArg Evaluation.events hevaluation⟩

end

/-- **Diagnostics decide the outcome.** For every source and all settings, the diagnostics are those of cutting the source
and then those of reading it.
- Those of cutting are recoverable and of the kinds 2 to 4; those of reading are fatal and of the kinds 7 to 11; and in
  both lists each starts before those behind it. Reading blames tokens of the source in their order, so none twice.
- The outcome is an error with all the diagnostics if and only if reading reported one. The exit status is then the code
  of the first that reading reported, which starts before its others.
- If reading reported nothing, the expressions are evaluated in order: each of them, unless one before it ends in an
  error, and that is then the outcome. -/
theorem diagnostics_decide_outcome (c : Config) (source : String) :
    let cutting := (lex c.spellings source).diagnostics
    let reading := (Reader.ofTokens (lex c.spellings source).tokens c.limit).program.diagnostics
    (parseSource c source).diagnostics = cutting ++ reading ∧
    (∀ d ∈ cutting, d.severity = .recoverable ∧ 2 ≤ d.kind.code ∧ d.kind.code ≤ 4) ∧
    cutting.Pairwise Diagnostic.Before ∧
    (∀ d ∈ reading, d.severity = .fatal ∧ 7 ≤ d.kind.code ∧ d.kind.code ≤ 11) ∧
    reading.Pairwise Diagnostic.Before ∧
    (∃ blamed : List Token, blamed.Sublist (lex c.spellings source).tokens ∧
      List.Forall₂ (fun t d => d.span = some t.span ∧ d.line = t.line ∧ d.column = t.column ∧
        d.details = [t.sourceLine, t.lexeme]) blamed reading) ∧
    ((evaluateSource c source).result = .error (.diagnostics (cutting ++ reading)) ↔ reading ≠ []) ∧
    (∀ all, (evaluateSource c source).result = .error (.diagnostics all) →
      ∃ first others, reading = first :: others ∧ all = cutting ++ reading ∧ (∀ d ∈ others, first.Before d) ∧
        (PipelineError.diagnostics all).exitCode = first.kind.code ∧ 7 ≤ first.kind.code ∧ first.kind.code ≤ 11) ∧
    (reading = [] → EvaluatedInOrder c source) := by
  intro cutting reading
  have hkind := program_diagnostics_kind (Reader.ofTokens (lex c.spellings source).tokens c.limit)
  have hbefore := program_diagnostics_before c.spellings source c.limit
  have hfatal : hasFatal (parseSource c source).diagnostics = true ↔ reading ≠ [] := by
    rw [hasFatal_parseSource]
    simp [reading]
  refine ⟨rfl, lex_diagnostics_kind _ _, lex_diagnostics_before _ _, hkind, hbefore, ?_, ?_, ?_, ?_⟩
  · refine ⟨_, blamed_sublist_tokens c.spellings source c.limit, ?_⟩
    exact List.forall₂_map_left_iff.2 (List.forall₂_map_right_iff.2 (List.forall₂_same.2 fun f _ => ⟨rfl, rfl, rfl, rfl⟩))
  · rw [evaluateSource_eq_diagnostics_iff, hfatal]
    exact and_iff_left rfl
  · intro all hall
    obtain ⟨hsome, rfl⟩ := (evaluateSource_eq_diagnostics_iff c source).1 hall
    obtain ⟨first, others, hreading⟩ := List.exists_cons_of_ne_nil (hfatal.1 hsome)
    have hhead : firstFatal? (parseSource c source).diagnostics = some first := by
      rw [firstFatal?_parseSource]
      exact congrArg List.head? hreading
    refine ⟨first, others, hreading, rfl, ?_, ?_, (hkind first ?_).2⟩
    · exact (List.pairwise_cons.1 (hreading ▸ hbefore)).1
    · simp only [PipelineError.exitCode, hhead, Option.elim]
    · exact (hreading ▸ List.mem_cons_self : first ∈ reading)
  · intro hnil
    exact evaluateSource_of_not_fatal c source (Bool.eq_false_iff.2 fun h => hfatal.1 h hnil)

/-- `@ (1; 2 +` has a stray character, an open parenthesis and a sum without its end: the parenthesis gives the exit
status. The stray character of `@ 1` alone does not keep the number from being evaluated. -/
theorem diagnostics_decide_outcome_mixed :
    (evaluateSource {} "@ (1; 2 +").result = .error (.diagnostics (parseSource {} "@ (1; 2 +").diagnostics) ∧
    (parseSource {} "@ (1; 2 +").diagnostics.map (·.kind.code) = [2, 7, 8] ∧
    (PipelineError.diagnostics (parseSource {} "@ (1; 2 +").diagnostics).exitCode = 7 ∧
    EvaluatedInOrder {} "@ 1" := by
  obtain ⟨hall, -, -, -, -, -, hiff, hexit, -⟩ := diagnostics_decide_outcome {} "@ (1; 2 +"
  obtain ⟨-, -, -, -, -, -, -, -, honly⟩ := diagnostics_decide_outcome {} "@ 1"
  have hcodes : (Reader.ofTokens (lex .standard "@ (1; 2 +").tokens defaultLimit).program.diagnostics.map (·.kind.code) =
      [7, 8] := by decide +kernel
  have hnil : (Reader.ofTokens (lex .standard "@ 1").tokens defaultLimit).program.diagnostics = [] := by decide +kernel
  have hresult := hiff.2 fun h => by rw [h] at hcodes; cases hcodes
  obtain ⟨first, others, hreading, -, -, hcode, -⟩ := hexit _ hresult
  rw [hreading] at hcodes
  refine ⟨hresult, by decide +kernel, ?_, honly hnil⟩
  rw [hall, hcode]
  exact (List.cons.inj hcodes).1

/-- Not each expression of `@ -nil; 1` is evaluated, though only cutting reports something: the first ends in an error, and
the log does not go through the second. -/
theorem second_not_evaluated :
    (Reader.ofTokens (lex .standard "@ -nil; 1").tokens defaultLimit).program.diagnostics = [] ∧
    (parseSource {} "@ -nil; 1").diagnostics.map (·.kind) = [.unexpectedCharacter] ∧
    (parseSource {} "@ -nil; 1").expressions.map Expr.print = ["(- nil)", "1"] ∧
    (evaluateSource {} "@ -nil; 1").events ≠ (parseSource {} "@ -nil; 1").events ++ .entered .evaluating ::
      (parseSource {} "@ -nil; 1").expressions.flatMap (·.run.events) := by
  refine ⟨by decide +kernel, by decide +kernel, by decide +kernel, fun hall => ?_⟩
  have hlengths := congrArg List.length hall
  revert hlengths
  decide +kernel

end Reckoner
