/-
Faults do not spread over semicolons.

A program is divided at its semicolons into segments. Each segment makes its own contribution to what is read, and
the contributions follow one another in order:
- a segment that is read alone, to its end and without a diagnostic, contributes its tree;
- any other contributes no tree, one diagnostic for its first fault, and one more for each keyword behind that fault
  that opens a statement, because reading takes up there and fails at once.

The two facts behind this: no reader takes a semicolon, so in front of one it does what it does at the end of the
tokens (`Ext`, `expression_ext`); and taking up after a fault (`synchronize`) never passes the semicolon of the segment
(`read_resumeAfter`).

Main statement: `program_eq_contributions`.
-/
import Mathlib.Tactic
import Reckoner.Program
import Reckoner.Proofs.Acceptance

namespace Reckoner

namespace Reading

/-! ## In front of a semicolon -/

/-- tokens that end a segment: none, or a semicolon comes first -/
def Closed (tail : List Token) : Prop :=
  ∀ t ∈ tail.head?, t.kind = .semicolon

/-- The second reading is the first with `tail` behind the tokens: same result, or same fault at the same place. The
token to blame may be another, since a fault at the end of the first blames what comes next. -/
inductive Ext {α : Type} (tail : List Token) : Reading α → Reading α → Prop where
  | done (a : α) (rest : List Token) : Ext tail (.done a rest) (.done a (rest ++ tail))
  | failed {f f' : Failure} (hf : f'.fault = f.fault) (hu : f'.unread = f.unread ++ tail) :
      Ext tail (.failed f) (.failed f')

section
variable {eof eof' : Token} {tail : List Token}

theorem Ext.andThen {α β : Type} {r r' : Reading α} {next next' : α → List Token → Reading β} (h : Ext tail r r')
    (hn : ∀ a rest, Ext tail (next a rest) (next' a (rest ++ tail))) :
    Ext tail (r.andThen next) (r'.andThen next') := by
  cases h with
  | done a rest => exact hn a rest
  | failed hf hu => exact .failed hf hu

theorem fail_ext {α : Type} (fault : Fault) (ts : List Token) :
    Ext tail (fail eof fault ts : Reading α) (fail eof' fault (ts ++ tail)) :=
  .failed rfl rfl

theorem expect_ext (ht : Closed tail) {kind : Kind} (hk : kind ≠ .semicolon) (fault : Fault) (ts : List Token) :
    Ext tail (expect eof kind fault ts) (expect eof' kind fault (ts ++ tail)) := by
  cases ts with
  | cons t us =>
    simp only [List.cons_append, expect]
    split
    · exact .done () us
    · exact fail_ext fault (t :: us)
  | nil =>
    cases tail with
    | nil => exact fail_ext fault []
    | cons t us =>
      have hne : ¬ t.kind = kind := fun h => hk (h ▸ ht t rfl)
      simp only [List.nil_append, expect, hne, if_false]
      exact fail_ext fault []

theorem primary_ext (ht : Closed tail) {inside inside' : List Token → Reading Expr}
    (hi : ∀ ts, Ext tail (inside ts) (inside' (ts ++ tail))) (ts : List Token) :
    Ext tail (primary eof inside ts) (primary eof' inside' (ts ++ tail)) := by
  cases ts with
  | nil =>
    cases tail with
    | nil => exact fail_ext _ []
    | cons t us =>
      simp only [List.nil_append, primary, ht t rfl]
      exact fail_ext _ []
  | cons t us =>
    simp only [List.cons_append, primary]
    split
    · exact .done _ us
    · exact .done _ us
    · exact .done _ us
    · split
      · exact .done _ us
      · exact .failed rfl rfl
    · split
      · exact .done _ us
      · exact .failed rfl rfl
    · split
      · exact .done _ us
      · exact .failed rfl rfl
    · refine (hi us).andThen fun e rest => ?_
      exact (expect_ext ht (by decide) _ rest).andThen fun _ rest => .done _ rest
    · exact fail_ext _ (t :: us)

theorem unary_ext (ht : Closed tail) {operand operand' inside inside' : List Token → Reading Expr}
    (ho : ∀ ts, Ext tail (operand ts) (operand' (ts ++ tail)))
    (hi : ∀ ts, Ext tail (inside ts) (inside' (ts ++ tail))) (ts : List Token) :
    Ext tail (unary eof operand inside ts) (unary eof' operand' inside' (ts ++ tail)) := by
  cases ts with
  | nil =>
    cases tail with
    | nil => exact primary_ext ht hi []
    | cons t us =>
      have hne : t.kind.isUnary = false := by rw [ht t rfl]; rfl
      simp only [List.nil_append, unary, hne, Bool.false_eq_true, if_false]
      exact primary_ext ht hi []
  | cons t us =>
    simp only [List.cons_append, unary]
    split
    · exact (ho us).andThen fun _ rest => .done _ rest
    · exact primary_ext ht hi (t :: us)

theorem chains_ext {chain chain' : Level → Expr → List Token → Reading Expr}
    (hc : ∀ l e ts, Ext tail (chain l e ts) (chain' l e (ts ++ tail))) (levels : List Level) (e : Expr)
    (ts : List Token) : Ext tail (chains chain levels e ts) (chains chain' levels e (ts ++ tail)) := by
  induction levels generalizing e ts with
  | nil => exact .done e ts
  | cons l levels ih => exact (hc l e ts).andThen ih

theorem climb_ext {operand operand' : List Token → Reading Expr}
    {chain chain' : Level → Expr → List Token → Reading Expr}
    (ho : ∀ ts, Ext tail (operand ts) (operand' (ts ++ tail)))
    (hc : ∀ l e ts, Ext tail (chain l e ts) (chain' l e (ts ++ tail))) (levels : List Level) (ts : List Token) :
    Ext tail (climb operand chain levels ts) (climb operand' chain' levels (ts ++ tail)) :=
  (ho ts).andThen (chains_ext hc levels)

theorem conditional_ext (ht : Closed tail) {part part' : List Token → Reading Expr}
    (hp : ∀ ts, Ext tail (part ts) (part' (ts ++ tail))) (ts : List Token) :
    Ext tail (conditional eof part ts) (conditional eof' part' (ts ++ tail)) := by
  refine (hp ts).andThen fun condition rest => ?_
  cases rest with
  | nil =>
    cases tail with
    | nil => exact .done condition []
    | cons t us =>
      have hne : ¬ t.kind = .question := by rw [ht t rfl]; decide
      simp only [List.nil_append, hne, if_false]
      exact .done condition []
  | cons t us =>
    simp only [List.cons_append]
    split
    · refine (hp us).andThen fun thenBranch rest => ?_
      refine (expect_ext ht (by decide) _ rest).andThen fun _ rest => ?_
      exact (hp rest).andThen fun _ rest => .done _ rest
    · exact .done condition (t :: us)

/-- a semicolon is no operator: a chain stops in front of it, whatever room there is -/
theorem chain_closed (ht : Closed tail) (room : Nat) (l : Level) (e : Expr) :
    chain eof room l e tail = .done e tail := by
  refine chain_of_free room e fun t hm l' _ => ?_
  rw [ht t hm]
  simp [Kind.level?]

theorem ext_of_room (ht : Closed tail) (room : Nat) :
    (∀ ts, Ext tail (operand eof room ts) (operand eof' room (ts ++ tail))) ∧
    (∀ l e ts, Ext tail (chain eof room l e ts) (chain eof' room l e (ts ++ tail))) := by
  have stop : ∀ (room : Nat) (l : Level) (e : Expr),
      Ext tail (chain eof room l e []) (chain eof' room l e ([] ++ tail)) := by
    intro room l e
    rw [List.nil_append, chain_closed ht, chain]
    exact .done e []
  induction room with
  | zero =>
    refine ⟨fun ts => fail_ext _ ts, fun l e ts => ?_⟩
    cases ts with
    | nil => exact stop 0 l e
    | cons t us =>
      simp only [List.cons_append, chain]
      split
      · exact fail_ext _ us
      · exact .done e (t :: us)
  | succ room ih =>
    obtain ⟨ho, hc⟩ := ih
    constructor
    · intro ts
      simp only [operand]
      exact unary_ext ht ho (conditional_ext ht (climb_ext ho hc Level.all)) ts
    · intro l e ts
      cases ts with
      | nil => exact stop (room + 1) l e
      | cons t us =>
        simp only [List.cons_append, chain]
        split
        · exact (climb_ext ho hc l.tighter us).andThen fun right rest => hc l _ rest
        · exact .done e (t :: us)

variable (eof eof')

/-- **In front of a semicolon an expression is read as at the end.** -/
theorem expression_ext (ht : Closed tail) (limit : Nat) (ts : List Token) :
    Ext tail (expression eof limit ts) (expression eof' limit (ts ++ tail)) :=
  have ⟨ho, hc⟩ := ext_of_room ht limit
  conditional_ext ht (climb_ext ho hc Level.all) ts

/-- tokens without a semicolon, and what closes them: both readings end there, or both fail at the same place -/
theorem terminated_closed (ht : Closed tail) {ts : List Token} (hts : ∀ t ∈ ts, t.kind ≠ .semicolon) (limit : Nat) :
    (∃ e, terminated eof limit ts = .done e [] ∧ terminated eof' limit (ts ++ tail) = .done e tail.tail) ∨
    ∃ f f', terminated eof limit ts = .failed f ∧ terminated eof' limit (ts ++ tail) = .failed f' ∧
      f'.fault = f.fault ∧ f'.unread = f.unread ++ tail := by
  have hstays := expression_advances eof limit ts
  have hext := expression_ext eof eof' ht limit ts
  unfold terminated
  generalize expression eof limit ts = r at *
  generalize expression eof' limit (ts ++ tail) = r' at *
  cases hext with
  | failed hf hu => exact Or.inr ⟨_, _, rfl, rfl, hf, hu⟩
  | done e rest =>
    cases rest with
    | nil =>
      refine Or.inl ⟨e, rfl, ?_⟩
      cases tail with
      | nil => rfl
      | cons t us => simp only [done_andThen, List.nil_append, ht t rfl, if_true, List.tail_cons]
    | cons t us =>
      -- the token that is left over is one of `ts`
      have hne : t.kind ≠ .semicolon := hts t (hstays.1.subset List.mem_cons_self)
      refine Or.inr ⟨⟨.expectedSemicolon, t, t :: us⟩, ⟨.expectedSemicolon, t, t :: us ++ tail⟩, ?_, ?_, rfl, rfl⟩
      · simp only [done_andThen, hne, if_false]
      · simp only [done_andThen, List.cons_append, hne, if_false]

/-- a keyword that opens a statement begins no expression: reading fails in front of it -/
theorem terminated_of_startsStatement {t : Token} (h : t.kind.startsStatement = true) (limit : Nat)
    (us : List Token) : ∃ f, terminated eof limit (t :: us) = .failed f ∧ f.unread = t :: us := by
  cases limit with
  | zero => exact ⟨_, rfl, rfl⟩
  | succ room =>
    have hu : t.kind.isUnary = false := by
      cases hk : t.kind <;> simp_all [Kind.startsStatement, Kind.isUnary]
    have hp : ∀ inside, primary eof inside (t :: us) = fail eof .expectedExpression (t :: us) := by
      intro inside
      cases hk : t.kind <;> simp_all [Kind.startsStatement, primary]
    refine ⟨⟨.expectedExpression, t, t :: us⟩, ?_, rfl⟩
    simp only [terminated, expression, conditional, climb, operand, unary, hu, Bool.false_eq_true, if_false, hp]
    rfl

end

end Reading

/-! ## Taking up again stays in the segment -/

theorem resumeAfter_of_semicolon {last : Token} (h : last.kind = .semicolon) (ts : List Token) :
    resumeAfter last ts = ts := by
  cases ts with
  | nil => rfl
  | cons t us => simp only [resumeAfter, h, decide_true, Bool.true_or, if_true]

theorem resumeAfter_closed {last : Token} (h : last.kind ≠ .semicolon) {tail : List Token}
    (ht : Reading.Closed tail) : resumeAfter last tail = tail.tail := by
  cases tail with
  | nil => rfl
  | cons t us =>
    have hk : t.kind = .semicolon := ht t rfl
    simp only [resumeAfter, h, hk, Kind.startsStatement, decide_false, Bool.or_self, Bool.false_eq_true, if_false,
      List.tail_cons]
    exact resumeAfter_of_semicolon hk us

def Program.pushFailures (fs : List Failure) (p : Program) : Program :=
  { p with failures := fs ++ p.failures }

/-- the keywords that open a statement among the tokens -/
def openings (ts : List Token) : Nat :=
  ts.countP (·.kind.startsStatement)

/-- The tokens `ts` without a semicolon stand after one that was passed over: each keyword that opens a statement
gives one failure, nothing is read, and reading goes on behind the semicolon. -/
theorem read_resumeAfter (eof : Token) (limit : Nat) {tail : List Token} (ht : Reading.Closed tail)
    {last : Token} (hl : last.kind ≠ .semicolon) {ts : List Token} (hts : ∀ t ∈ ts, t.kind ≠ .semicolon) :
    ∃ fs : List Failure, fs.length = openings ts ∧
      Program.read eof limit (resumeAfter last (ts ++ tail)) = (Program.read eof limit tail.tail).pushFailures fs := by
  induction ts generalizing last with
  | nil =>
    refine ⟨[], rfl, ?_⟩
    rw [List.nil_append, resumeAfter_closed hl ht]
    rfl
  | cons t us ih =>
    have hk : t.kind ≠ .semicolon := hts t List.mem_cons_self
    obtain ⟨fs, hlen, hread⟩ := ih hk fun u hu => hts u (List.mem_cons_of_mem t hu)
    by_cases hs : t.kind.startsStatement = true
    · -- reading takes up at the keyword, fails there, and passes over it
      obtain ⟨f, hf, hu⟩ := Reading.terminated_of_startsStatement eof hs limit (us ++ tail)
      refine ⟨f :: fs, by simp [openings, hs, hlen], ?_⟩
      have hstop : resumeAfter last (t :: us ++ tail) = t :: (us ++ tail) := by simp [resumeAfter, hs]
      rw [hstop, Program.read_of_failed (List.cons_ne_nil _ _) hf, hu, resume, hread]
      rfl
    · refine ⟨fs, by simp [openings, hs, hlen], ?_⟩
      have hpass : resumeAfter last (t :: us ++ tail) = resumeAfter t (us ++ tail) := by
        simp [resumeAfter, hl, hs]
      rw [hpass, hread]

theorem read_resume (eof : Token) (limit : Nat) {tail : List Token} (ht : Reading.Closed tail) {ts : List Token}
    (hts : ∀ t ∈ ts, t.kind ≠ .semicolon) :
    ∃ fs : List Failure, fs.length = openings ts.tail ∧
      Program.read eof limit (resume (ts ++ tail)) = (Program.read eof limit tail.tail).pushFailures fs := by
  cases ts with
  | nil =>
    refine ⟨[], rfl, ?_⟩
    cases tail with
    | nil => rfl
    | cons t us =>
      rw [List.nil_append, resume, resumeAfter_of_semicolon (ht t rfl)]
      rfl
  | cons t us =>
    exact read_resumeAfter eof limit ht (hts t List.mem_cons_self) fun u hu => hts u (List.mem_cons_of_mem t hu)

/-! ## Segments -/

/-- The tokens, divided at the semicolons. What stands after the last semicolon is a segment unless it is empty. -/
def segments (ts : List Token) : List (List Token) :=
  let parts := ts.splitOnP (·.kind == .semicolon)
  if parts.getLast?.any List.isEmpty then parts.dropLast else parts

theorem segments_nil : segments [] = [] := rfl

theorem segments_of_last {ts : List Token} (hne : ts ≠ []) (hts : ∀ t ∈ ts, t.kind ≠ .semicolon) :
    segments ts = [ts] := by
  have hparts : ts.splitOnP (·.kind == .semicolon) = [ts] := List.splitOnP_eq_singleton (by simpa using hts)
  simp [segments, hparts, hne]

theorem segments_append_semicolon {ts : List Token} (hts : ∀ t ∈ ts, t.kind ≠ .semicolon) {t : Token}
    (ht : t.kind = .semicolon) (rest : List Token) : segments (ts ++ t :: rest) = ts :: segments rest := by
  have hparts : (ts ++ t :: rest).splitOnP (·.kind == .semicolon) = ts :: rest.splitOnP (·.kind == .semicolon) :=
    List.splitOnP_append_cons_of_forall_mem (by simpa using hts) t (by simp [ht]) rest
  obtain ⟨part, parts, hrest⟩ := List.exists_cons_of_ne_nil (List.splitOnP_ne_nil (·.kind == .semicolon) rest)
  simp only [segments, hparts, hrest, List.getLast?_cons_cons, List.dropLast_cons_cons]
  split <;> rfl

/-- tokens begin with a segment and what closes it -/
theorem exists_first_segment (ts : List Token) :
    ∃ first tail, ts = first ++ tail ∧ (∀ t ∈ first, t.kind ≠ .semicolon) ∧ Reading.Closed tail := by
  induction ts with
  | nil => exact ⟨[], [], rfl, by simp, by simp [Reading.Closed]⟩
  | cons t us ih =>
    by_cases hk : t.kind = .semicolon
    · exact ⟨[], t :: us, rfl, by simp, by simpa [Reading.Closed] using hk⟩
    · obtain ⟨first, tail, rfl, hfirst, ht⟩ := ih
      exact ⟨t :: first, tail, rfl, List.forall_mem_cons.2 ⟨hk, hfirst⟩, ht⟩

/-! ## Contributions -/

/-- what a stretch of tokens adds to a program: its trees and its diagnostics -/
structure Contribution where
  trees : List Expr
  diagnostics : List Diagnostic

/-- alone in front of the end, the tokens are read as `e`: nothing is reported and nothing is left -/
def Whole (eof : Token) (limit : Nat) (ts : List Token) (e : Expr) : Prop :=
  let alone := (Reader.ofTokens (ts ++ [eof]) limit).single
  alone.result = some e ∧ alone.diagnostics = [] ∧ alone.unread = []

/-- What a segment contributes. One that is whole: its tree. Any other: no tree, and fatal diagnostics, the first for
the fault `f` at which reading the segment to its end fails, and one for each keyword that opens a statement behind
the token where that fault is raised. -/
def Contributes (eof : Token) (limit : Nat) (ts : List Token) (c : Contribution) : Prop :=
  (∀ e, Whole eof limit ts e → c = ⟨[e], []⟩) ∧
  ((∀ e, ¬ Whole eof limit ts e) → c.trees = [] ∧ (∀ d ∈ c.diagnostics, d.isFatal = true) ∧
    ∃ f, Reading.terminated eof limit ts = .failed f ∧
      c.diagnostics.head?.map (·.kind) = some f.fault.kind ∧
      c.diagnostics.length = 1 + openings f.unread.tail)

theorem whole_iff {eof : Token} (heof : eof.kind = .eof) {limit : Nat} {ts : List Token}
    (heof' : ∀ t ∈ ts, t.kind ≠ .eof) (hts : ∀ t ∈ ts, t.kind ≠ .semicolon) {e : Expr} :
    Whole eof limit ts e ↔ Reading.terminated eof limit ts = .done e [] := by
  have hstays := Reading.expression_advances eof limit ts
  simp only [Whole, Reader.ofTokens_concat heof' heof, Reader.single, Reading.terminated]
  cases hr : Reading.expression eof limit ts with
  | failed f => simp [Reading.andThen]
  | done e' rest =>
    cases rest with
    | nil => simp [Reading.andThen, Reader.skipSemicolon]
    | cons t us =>
      rw [hr] at hstays
      have hne : t.kind ≠ .semicolon := hts t (hstays.1.subset List.mem_cons_self)
      simp [Reading.andThen, Reader.skipSemicolon, hne]

/-- **One segment.** A segment and what closes it: the segment makes its contribution, and what follows is read as if
the segment had not been there. -/
theorem read_segment {eof : Token} (heof : eof.kind = .eof) (limit : Nat) {ts tail : List Token}
    (heof' : ∀ t ∈ ts, t.kind ≠ .eof) (hts : ∀ t ∈ ts, t.kind ≠ .semicolon) (ht : Reading.Closed tail)
    (hne : ts ++ tail ≠ []) :
    ∃ c : Contribution, Contributes eof limit ts c ∧
      (Program.read eof limit (ts ++ tail)).expressions =
        c.trees ++ (Program.read eof limit tail.tail).expressions ∧
      (Program.read eof limit (ts ++ tail)).failures.map Failure.diagnostic =
        c.diagnostics ++ (Program.read eof limit tail.tail).failures.map Failure.diagnostic := by
  obtain ⟨e, h1, h2⟩ | ⟨f, f', h1, h2, hfault, hunread⟩ :=
    Reading.terminated_closed eof eof ht hts limit
  · refine ⟨⟨[e], []⟩, ⟨fun e' he' => ?_, fun h => absurd ((whole_iff heof heof' hts).2 h1) (h e)⟩, ?_⟩
    · rw [whole_iff heof heof' hts, h1] at he'
      cases he'
      rfl
    · rw [Program.read_of_done h2]
      exact ⟨rfl, rfl⟩
  · have hstays := Reading.terminated_advances eof limit ts
    rw [h1] at hstays
    obtain ⟨fs, hlen, hread⟩ := read_resume eof limit ht fun t hm => hts t (hstays.subset hm)
    refine ⟨⟨[], (f' :: fs).map Failure.diagnostic⟩, ⟨fun e he => ?_, fun _ => ⟨rfl, ?_, f, h1, ?_, ?_⟩⟩, ?_⟩
    · rw [whole_iff heof heof' hts, h1] at he
      cases he
    · intro d hd
      obtain ⟨g, -, rfl⟩ := List.mem_map.1 hd
      rfl
    · rw [← hfault]
      rfl
    · rw [List.length_map, List.length_cons, hlen]
      omega
    · rw [Program.read_of_failed hne h2, hunread, hread]
      refine ⟨rfl, ?_⟩
      simp only [Program.pushFailure, Program.pushFailures, List.map_cons, List.map_append, List.cons_append]

theorem read_eq_contributions {eof : Token} (heof : eof.kind = .eof) (limit : Nat) (ts : List Token)
    (hts : ∀ t ∈ ts, t.kind ≠ .eof) :
    ∃ cs : List Contribution, List.Forall₂ (Contributes eof limit) (segments ts) cs ∧
      (Program.read eof limit ts).expressions = cs.flatMap (·.trees) ∧
      (Program.read eof limit ts).failures.map Failure.diagnostic = cs.flatMap (·.diagnostics) := by
  -- on the number of tokens: the first segment and its semicolon are taken off
  induction hn : ts.length using Nat.strongRecOn generalizing ts with
  | ind n ih =>
    subst hn
    by_cases hne : ts = []
    · subst hne
      rw [segments_nil, Program.read_nil]
      exact ⟨[], .nil, rfl, rfl⟩
    obtain ⟨first, tail, rfl, hfirst, ht⟩ := exists_first_segment ts
    have h1 : ∀ t ∈ first, t.kind ≠ .eof := fun t hm => hts t (List.mem_append_left tail hm)
    have h2 : ∀ t ∈ tail.tail, t.kind ≠ .eof := fun t hm => hts t (List.mem_append_right first (List.mem_of_mem_tail hm))
    obtain ⟨c, hc, htrees, hdiagnostics⟩ := read_segment heof limit h1 hfirst ht hne
    have hlt : tail.tail.length < (first ++ tail).length := by
      have := List.length_pos_iff.2 hne
      simp only [List.length_append, List.length_tail] at this ⊢
      omega
    obtain ⟨cs, hcs, htrees', hdiagnostics'⟩ := ih _ hlt tail.tail h2 rfl
    have hsegments : segments (first ++ tail) = first :: segments tail.tail := by
      cases tail with
      | nil =>
        rw [List.append_nil] at hne ⊢
        exact segments_of_last hne hfirst
      | cons t us => exact segments_append_semicolon hfirst (ht t rfl) us
    refine ⟨c :: cs, hsegments ▸ .cons hc hcs, ?_, ?_⟩
    · rw [htrees, htrees', List.flatMap_cons]
    · rw [hdiagnostics, hdiagnostics', List.flatMap_cons]

/-- **Faults do not spread over semicolons.** The tokens `body` come before their only end-of-text token. What is
read from them, at any limit, is made of one contribution for each segment, in the order of the segments: the trees
are those of the contributions, and so are the diagnostics. -/
theorem program_eq_contributions (body : List Token) (eof : Token) (limit : Nat)
    (hbody : ∀ t ∈ body, t.kind ≠ .eof) (heof : eof.kind = .eof) :
    ∃ cs : List Contribution, List.Forall₂ (Contributes eof limit) (segments body) cs ∧
      (Reader.ofTokens (body ++ [eof]) limit).program.result = cs.flatMap (·.trees) ∧
      (Reader.ofTokens (body ++ [eof]) limit).program.diagnostics = cs.flatMap (·.diagnostics) := by
  rw [Reader.ofTokens_concat hbody heof]
  exact read_eq_contributions heof limit body hbody

namespace Sample

def plus : Token := { kind := .plus, lexeme := "+" }

def semicolon : Token := { kind := .semicolon, lexeme := ";" }

def print : Token := { kind := .printWord, lexeme := "print" }

/-- the tokens of `1 + ; print 2 print ; 3` -/
def faulty : List Token :=
  [number 1 "1", plus, semicolon, print, number 2 "2", print, semicolon, number 3 "3"]

end Sample

/-- `1 + ; print 2 print ; 3` gives one diagnostic for the first segment, two for the second, and the tree of the
third. -/
theorem program_eq_contributions_faulty :
    (∀ t ∈ Sample.faulty, t.kind ≠ .eof) ∧
    (Reader.ofTokens (Sample.faulty ++ [{ kind := .eof, lexeme := "" }]) 8).program.result =
      [.literal (.integer 3)] ∧
    (Reader.ofTokens (Sample.faulty ++ [{ kind := .eof, lexeme := "" }]) 8).program.diagnostics.length = 3 := by
  have hbody : ∀ t ∈ Sample.faulty, t.kind ≠ .eof := by decide
  obtain ⟨cs, hcs, htrees, hdiagnostics⟩ :=
    program_eq_contributions Sample.faulty { kind := .eof, lexeme := "" } 8 hbody rfl
  have hsegments : segments Sample.faulty = [[Sample.number 1 "1", Sample.plus],
    [Sample.print, Sample.number 2 "2", Sample.print], [Sample.number 3 "3"]] := by rfl
  rw [hsegments] at hcs
  obtain _ | ⟨⟨-, h1⟩, _ | ⟨⟨-, h2⟩, _ | ⟨⟨h3, -⟩, ⟨⟩⟩⟩⟩ := hcs
  obtain ⟨ht1, -, f1, hf1, -, hl1⟩ := h1 fun e h => by cases h.1
  obtain ⟨ht2, -, f2, hf2, -, hl2⟩ := h2 fun e h => by cases h.1
  obtain rfl := h3 (.literal (.integer 3)) ⟨rfl, rfl, rfl⟩
  obtain rfl := Reading.failed.inj hf1
  obtain rfl := Reading.failed.inj hf2
  refine ⟨hbody, ?_, ?_⟩
  · rw [htrees, List.flatMap_cons, List.flatMap_cons, ht1, ht2]
    rfl
  · rw [hdiagnostics, List.flatMap_cons, List.flatMap_cons, List.length_append, List.length_append, hl1, hl2]
    rfl

end Reckoner
