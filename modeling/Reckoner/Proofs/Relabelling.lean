/-
Reading and evaluating look at the kind of a token and at its constant, and at nothing else.

A relabelling changes tokens and keeps their kinds and constants. Each step of reading gives, from relabelled tokens, the
relabelled result; so whole readings do, and programs. Evaluating a relabelled tree gives the same value, or an error of
the same cause.

- `read_relabel`: the program that relabelled tokens make is the relabelled program;
- `evaluate_relabel`: what a relabelled tree evaluates to;
- `evaluateSource_agree`: so two sources whose tokens have the same kinds and constants have outcomes that agree.
-/
import Mathlib.Tactic
import Reckoner.Pipeline
import Reckoner.Proofs.Likeness

namespace Reckoner

/-- a change of tokens that keeps their kinds and constants -/
structure Relabelling (f : Token → Token) : Prop where
  kind_eq : ∀ t, (f t).kind = t.kind
  literal_eq : ∀ t, (f t).literal = t.literal

/-! ## Relabelled results -/

def Expr.relabel (f : Token → Token) : Expr → Expr
  | .literal c => .literal c
  | .grouping a => .grouping (a.relabel f)
  | .unary op a => .unary (f op) (a.relabel f)
  | .binary a op b => .binary (a.relabel f) (f op) (b.relabel f)
  | .ternary a b c => .ternary (a.relabel f) (b.relabel f) (c.relabel f)

def Failure.relabel (f : Token → Token) (x : Failure) : Failure :=
  ⟨x.fault, f x.token, x.unread.map f⟩

/-- a reading with its tokens changed, and its result by `g` -/
def Reading.relabel {α β : Type} (f : Token → Token) (g : α → β) : Reading α → Reading β
  | .done a rest => .done (g a) (rest.map f)
  | .failed x => .failed (x.relabel f)

def Program.relabel (f : Token → Token) (p : Program) : Program :=
  ⟨p.expressions.map (·.relabel f), p.failures.map (·.relabel f)⟩

section
variable {f : Token → Token} (hf : Relabelling f)
include hf

theorem Relabelling.constant?_eq (t : Token) : (f t).constant? = t.constant? := by
  simp only [Token.constant?, hf.literal_eq]

/-! ## Steps of reading -/

namespace Reading

omit hf in
theorem relabel_andThen {α β γ δ : Type} {g : α → β} {h : γ → δ} {r : Reading α} {r' : Reading β}
    {next : α → List Token → Reading γ} {next' : β → List Token → Reading δ} (hr : r' = r.relabel f g)
    (hn : ∀ a rest, next' (g a) (rest.map f) = (next a rest).relabel f h) :
    r'.andThen next' = (r.andThen next).relabel f h := by
  subst hr
  cases r with
  | done a rest => exact hn a rest
  | failed x => rfl

omit hf in
theorem relabel_fail {α β : Type} (g : α → β) (eof : Token) (fault : Fault) (ts : List Token) :
    fail (f eof) fault (ts.map f) = (fail eof fault ts).relabel f g := by
  cases ts <;> rfl

omit hf in
theorem relabel_carried (f : Token → Token) (t : Token) (rest : List Token) :
    (match t.constant? with
      | some c => done (.literal c) (rest.map f)
      | none => .failed ⟨.expectedExpression, f t, rest.map f⟩) = (match t.constant? with
      | some c => done (.literal c) rest
      | none => .failed ⟨.expectedExpression, t, rest⟩ : Reading Expr).relabel f (·.relabel f) := by
  split
  · rfl
  · rfl

theorem relabel_expect (eof : Token) (kind : Kind) (fault : Fault) (ts : List Token) :
    expect (f eof) kind fault (ts.map f) = (expect eof kind fault ts).relabel f id := by
  cases ts with
  | nil => rfl
  | cons t rest =>
    simp only [List.map_cons, expect, hf.kind_eq]
    split
    · rfl
    · exact relabel_fail id eof fault (t :: rest)

section
variable {eof : Token} {inside inside' operand operand' part part' : List Token → Reading Expr}
  {chain chain' : Level → Expr → List Token → Reading Expr}

theorem relabel_primary (hi : ∀ ts, inside' (ts.map f) = (inside ts).relabel f (·.relabel f)) (ts : List Token) :
    primary (f eof) inside' (ts.map f) = (primary eof inside ts).relabel f (·.relabel f) := by
  cases ts with
  | nil => rfl
  | cons t rest =>
    simp only [List.map_cons, primary, hf.kind_eq, hf.constant?_eq]
    split
    · rfl
    · rfl
    · rfl
    · exact relabel_carried f t rest
    · exact relabel_carried f t rest
    · exact relabel_carried f t rest
    · refine relabel_andThen (hi rest) fun e rest => ?_
      exact relabel_andThen (relabel_expect hf eof _ _ rest) fun _ rest => rfl
    · exact relabel_fail _ eof _ (t :: rest)

theorem relabel_unary (ho : ∀ ts, operand' (ts.map f) = (operand ts).relabel f (·.relabel f))
    (hi : ∀ ts, inside' (ts.map f) = (inside ts).relabel f (·.relabel f)) (ts : List Token) :
    unary (f eof) operand' inside' (ts.map f) = (unary eof operand inside ts).relabel f (·.relabel f) := by
  cases ts with
  | nil => rfl
  | cons t rest =>
    simp only [List.map_cons, unary, hf.kind_eq]
    split
    · exact relabel_andThen (ho rest) fun e rest => rfl
    · exact relabel_primary hf hi (t :: rest)

omit hf in
theorem relabel_climb (ho : ∀ ts, operand' (ts.map f) = (operand ts).relabel f (·.relabel f))
    (hc : ∀ l e ts, chain' l (e.relabel f) (ts.map f) = (chain l e ts).relabel f (·.relabel f)) (levels : List Level)
    (ts : List Token) :
    climb operand' chain' levels (ts.map f) = (climb operand chain levels ts).relabel f (·.relabel f) := by
  refine relabel_andThen (ho ts) fun e rest => ?_
  induction levels generalizing e rest with
  | nil => rfl
  | cons l levels ih => exact relabel_andThen (hc l e rest) ih

theorem relabel_conditional (hp : ∀ ts, part' (ts.map f) = (part ts).relabel f (·.relabel f)) (ts : List Token) :
    conditional (f eof) part' (ts.map f) = (conditional eof part ts).relabel f (·.relabel f) := by
  refine relabel_andThen (hp ts) fun condition ts => ?_
  cases ts with
  | nil => rfl
  | cons t rest =>
    simp only [List.map_cons, hf.kind_eq]
    split
    · refine relabel_andThen (hp rest) fun thenBranch rest => ?_
      refine relabel_andThen (relabel_expect hf eof _ _ rest) fun _ rest => ?_
      exact relabel_andThen (hp rest) fun elseBranch rest => rfl
    · rfl

end

/-- **Operands and chains,** by induction on the room. -/
theorem relabel_of_room (eof : Token) (room : Nat) :
    (∀ ts, operand (f eof) room (ts.map f) = (operand eof room ts).relabel f (·.relabel f)) ∧
    (∀ l e ts, chain (f eof) room l (e.relabel f) (ts.map f) = (chain eof room l e ts).relabel f (·.relabel f)) := by
  induction room with
  | zero =>
    refine ⟨fun ts => relabel_fail _ eof _ ts, fun l e ts => ?_⟩
    cases ts with
    | nil => rfl
    | cons t rest =>
      simp only [List.map_cons, chain, hf.kind_eq]
      split
      · exact relabel_fail _ eof _ rest
      · rfl
  | succ room ih =>
    obtain ⟨ho, hc⟩ := ih
    refine ⟨fun ts => ?_, fun l e ts => ?_⟩
    · simp only [operand]
      exact relabel_unary hf ho (relabel_conditional hf (relabel_climb ho hc Level.all)) ts
    · cases ts with
      | nil => rfl
      | cons t rest =>
        simp only [List.map_cons, chain, hf.kind_eq]
        split
        · exact relabel_andThen (relabel_climb ho hc l.tighter rest) fun right rest => hc l (.binary e t right) rest
        · rfl

theorem relabel_terminated (eof : Token) (limit : Nat) (ts : List Token) :
    terminated (f eof) limit (ts.map f) = (terminated eof limit ts).relabel f (·.relabel f) := by
  obtain ⟨ho, hc⟩ := relabel_of_room hf eof limit
  refine relabel_andThen (relabel_conditional hf (relabel_climb ho hc Level.all) ts) fun e rest => ?_
  cases rest with
  | nil => rfl
  | cons t more =>
    simp only [List.map_cons, hf.kind_eq]
    split <;> rfl

end Reading

/-! ## Programs -/

theorem relabel_resumeAfter (last : Token) (ts : List Token) :
    resumeAfter (f last) (ts.map f) = (resumeAfter last ts).map f := by
  induction ts generalizing last with
  | nil => rfl
  | cons t rest ih =>
    simp only [List.map_cons, resumeAfter, hf.kind_eq]
    split
    · rfl
    · exact ih t

theorem relabel_resume (ts : List Token) : resume (ts.map f) = (resume ts).map f := by
  cases ts with
  | nil => rfl
  | cons t rest => exact relabel_resumeAfter hf t rest

/-- **Relabelled tokens make the relabelled program.** -/
theorem read_relabel (eof : Token) (limit : Nat) (ts : List Token) :
    Program.read (f eof) limit (ts.map f) = (Program.read eof limit ts).relabel f := by
  refine Program.read_induction (motive := fun ts p => Program.read (f eof) limit (ts.map f) = p.relabel f) ?_ ?_ ?_ ts
  · exact Program.read_nil (f eof) limit
  · intro ts e rest hr ih
    have hstep := Reading.relabel_terminated hf eof limit ts
    rw [hr] at hstep
    rw [Program.read_of_done hstep, ih]
    rfl
  · intro ts x hts hr ih
    have hstep := Reading.relabel_terminated hf eof limit ts
    rw [hr] at hstep
    have hne : ts.map f ≠ [] := fun h => hts (List.map_eq_nil_iff.1 h)
    have hunread : resume (x.relabel f).unread = (resume x.unread).map f := relabel_resume hf x.unread
    rw [Program.read_of_failed hne hstep, hunread, ih]
    rfl

/-! ## Evaluation -/

theorem alike_relabel (e : Expr) : (e.relabel f).Alike (fun t u => t.kind = u.kind) Eq e := by
  induction e with
  | literal c => exact .literal rfl
  | grouping a ih => exact .grouping ih
  | unary op a ih => exact .unary (hf.kind_eq op) ih
  | binary a op b iha ihb => exact .binary (hf.kind_eq op) iha ihb
  | ternary a b c iha ihb ihc => exact .ternary iha ihb ihc

/-- **A relabelled tree has the same value, or an error of the same cause.** -/
theorem evaluate_relabel (e : Expr) :
    (e.relabel f).evaluate.mapError (·.cause) = e.evaluate.mapError (·.cause) :=
  (alike_relabel hf e).evaluate_congr (fun _ _ => id) fun _ _ _ _ => rfl

/-- relabelled expressions have the same values, or a first error of the same cause -/
theorem collectValues_relabel (es : List Expr) :
    (collectValues (es.map (·.relabel f))).result.mapError (·.cause) =
      (collectValues es).result.mapError (·.cause) := by
  induction es with
  | nil => rfl
  | cons e es ih =>
    have hcomm (v : Value) (r : Except RuntimeError (List Value)) :
        (r.map (v :: ·)).mapError (·.cause) = (r.mapError (·.cause)).map (v :: ·) := by
      cases r <;> rfl
    rw [List.map_cons, collectValues_cons_result, collectValues_cons_result, mapError_bind, mapError_bind,
      evaluate_relabel hf e]
    refine congrArg (Except.bind _) (funext fun v => ?_)
    rw [hcomm, hcomm, ih]

end

/-! ## Two sources -/

/-- a token with nothing but its kind and its constant -/
def Token.stripped (t : Token) : Token :=
  { kind := t.kind, lexeme := "", literal := t.literal }

theorem relabelling_stripped : Relabelling Token.stripped :=
  ⟨fun _ => rfl, fun _ => rfl⟩

theorem Reader.ofTokens_stripped (tokens : List Token) (limit : Nat) :
    Reader.ofTokens (tokens.map Token.stripped) limit =
      ⟨(Reader.ofTokens tokens limit).unread.map Token.stripped, (Reader.ofTokens tokens limit).eof.stripped, limit⟩ := by
  have hfind : (tokens.map Token.stripped).find? (·.kind == .eof) =
      (tokens.find? (·.kind == .eof)).map Token.stripped := List.find?_map
  have htake : (tokens.map Token.stripped).takeWhile (·.kind != .eof) =
      (tokens.takeWhile (·.kind != .eof)).map Token.stripped := List.takeWhile_map
  simp only [Reader.ofTokens, htake, hfind]
  cases tokens.find? (·.kind == .eof) <;> rfl

/-- the program that a reader of all these tokens reads -/
def Program.ofTokens (tokens : List Token) (limit : Nat) : Program :=
  Program.read (Reader.ofTokens tokens limit).eof limit (Reader.ofTokens tokens limit).unread

/-- tokens of the same kinds and constants make programs that are the same up to their tokens -/
theorem Program.relabel_ofTokens {tokens tokens' : List Token} (limit : Nat)
    (h : tokens'.map Token.stripped = tokens.map Token.stripped) :
    (Program.ofTokens tokens' limit).relabel Token.stripped = (Program.ofTokens tokens limit).relabel Token.stripped := by
  have hreader := Reader.ofTokens_stripped tokens limit
  have hreader' := Reader.ofTokens_stripped tokens' limit
  rw [h, hreader] at hreader'
  obtain ⟨hunread, heof, -⟩ := Reader.mk.inj hreader'
  unfold Program.ofTokens
  rw [← read_relabel relabelling_stripped, ← read_relabel relabelling_stripped, hunread, heof]

/-- the kinds of what is reported in reading such tokens -/
theorem kinds_ofTokens {tokens tokens' : List Token} (limit : Nat)
    (h : tokens'.map Token.stripped = tokens.map Token.stripped) :
    (Reader.ofTokens tokens' limit).program.diagnostics.map (·.kind) =
      (Reader.ofTokens tokens limit).program.diagnostics.map (·.kind) := by
  have hfaults : ∀ p : Program,
      (p.failures.map Failure.diagnostic).map (·.kind) = ((p.relabel Token.stripped).failures.map (·.fault)).map (·.kind) := by
    intro p
    simp [Program.relabel, Failure.relabel, Failure.diagnostic, Function.comp_def]
  have hprogram := Program.relabel_ofTokens limit h
  calc ((Program.ofTokens tokens' limit).failures.map Failure.diagnostic).map (·.kind)
      = (((Program.ofTokens tokens' limit).relabel Token.stripped).failures.map (·.fault)).map (·.kind) := hfaults _
    _ = (((Program.ofTokens tokens limit).relabel Token.stripped).failures.map (·.fault)).map (·.kind) := by rw [hprogram]
    _ = ((Program.ofTokens tokens limit).failures.map Failure.diagnostic).map (·.kind) := (hfaults _).symm

theorem Placed.not_fatal {lines : Array String} {l : Placed} {d : Diagnostic} (h : l.diagnostic? lines = some d) :
    d.isFatal = false := by
  unfold diagnostic? at h
  dsimp only at h
  split at h
  all_goals cases h
  all_goals rfl

/-- cutting a source reports nothing fatal -/
theorem lex_not_fatal (s : Spellings) (source : String) : ∀ d ∈ (lex s source).diagnostics, d.isFatal = false := by
  intro d hd
  obtain ⟨l, -, hl⟩ := List.mem_filterMap.1 hd
  exact Placed.not_fatal hl

/-- the fatal diagnostics of a source are those of reading it -/
theorem fatal_parseSource (c : Config) (source : String) :
    (parseSource c source).diagnostics.filter Diagnostic.isFatal =
      (Reader.ofTokens (lex c.spellings source).tokens c.limit).program.diagnostics := by
  have hread : ∀ d ∈ (Reader.ofTokens (lex c.spellings source).tokens c.limit).program.diagnostics, d.isFatal = true := by
    intro d hd
    obtain ⟨x, -, rfl⟩ := List.mem_map.1 hd
    rfl
  have hcut : (lex c.spellings source).diagnostics.filter Diagnostic.isFatal = [] :=
    List.filter_eq_nil_iff.2 fun d hd => by simp [lex_not_fatal _ _ d hd]
  simp only [parseSource, List.filter_append, hcut, List.nil_append, List.filter_eq_self.2 hread]

theorem hasFatal_eq_filter (ds : List Diagnostic) : hasFatal ds = !(ds.filter Diagnostic.isFatal).isEmpty := by
  rw [Bool.eq_iff_iff]
  simp [hasFatal]

/-- Outcomes of two sources agree: they are the same values, or errors of the same cause, or diagnostics that are alike
in some way. -/
inductive Agree (Alike : List Diagnostic → List Diagnostic → Prop) :
    Except PipelineError (List Value) → Except PipelineError (List Value) → Prop where
  | values (vs : List Value) : Agree Alike (.ok vs) (.ok vs)
  | diagnostics {ds ds' : List Diagnostic} (h : Alike ds ds') :
      Agree Alike (.error (.diagnostics ds)) (.error (.diagnostics ds'))
  | runtime {err err' : RuntimeError} (h : err'.cause = err.cause) :
      Agree Alike (.error (.runtime err)) (.error (.runtime err'))

/-- **Sources whose tokens have the same kinds and constants have outcomes that agree,** as far as their diagnostics
are alike. -/
theorem evaluateSource_agree {Alike : List Diagnostic → List Diagnostic → Prop} {c c' : Config} {source source' : String}
    (hlimit : c'.limit = c.limit)
    (htokens : (lex c'.spellings source').tokens.map Token.stripped = (lex c.spellings source).tokens.map Token.stripped)
    (halike : Alike (parseSource c source).diagnostics (parseSource c' source').diagnostics) :
    Agree Alike (evaluateSource c source).result (evaluateSource c' source').result := by
  have hprogram := Program.relabel_ofTokens c.limit htokens
  have hexpressions : (parseSource c' source').expressions.map (·.relabel Token.stripped) =
      (parseSource c source).expressions.map (·.relabel Token.stripped) := by
    have h := congrArg Program.expressions hprogram
    simp only [parseSource, hlimit]
    exact h
  have hfatal : hasFatal (parseSource c' source').diagnostics = hasFatal (parseSource c source).diagnostics := by
    have hkinds := congrArg List.isEmpty (kinds_ofTokens c.limit htokens)
    rw [List.isEmpty_map, List.isEmpty_map] at hkinds
    rw [hasFatal_eq_filter, hasFatal_eq_filter, fatal_parseSource, fatal_parseSource, hlimit, hkinds]
  have hcollected : (collectValues (parseSource c' source').expressions).result.mapError (·.cause) =
      (collectValues (parseSource c source).expressions).result.mapError (·.cause) := by
    rw [← collectValues_relabel relabelling_stripped, hexpressions, collectValues_relabel relabelling_stripped]
  simp only [evaluateSource, hfatal]
  split
  · exact .diagnostics halike
  · generalize (collectValues (parseSource c' source').expressions).result = r' at hcollected
    generalize (collectValues (parseSource c source).expressions).result = r at hcollected
    cases r with
    | ok vs =>
      cases r' with
      | ok vs' =>
        obtain rfl := Except.ok.inj hcollected
        exact .values _
      | error err' => cases hcollected
    | error err =>
      cases r' with
      | ok vs' => cases hcollected
      | error err' => exact .runtime (Except.error.inj hcollected)

end Reckoner
