/-
Reading whole programs. A `Reader` holds the tokens that were not read yet; it reads one expression at a time
(`Reader.single`) or everything up to the end (`Reader.program`). A program is expressions divided by semicolons.
Where one cannot be read, the failure is reported, the tokens up to the next statement are passed over
(`resume`), and reading goes on; so one bad stretch never hides what comes after it.

`Reader.ofTokens` mirrors the parser's `new`, `Reader.single` mirrors `parse`, `Reader.program` with `Program.read` mirrors
`parse_program`, `resume` mirrors `synchronize`, and `Failure.diagnostic` mirrors `error`.
-/
import Reckoner.Event
import Reckoner.Expr.Reader

namespace Reckoner

def Fault.kind : Fault → Diagnostic.Kind
  | .unclosedParenthesis => .unclosedParenthesis
  | .expectedExpression => .expectedExpression
  | .unterminatedTernary => .unterminatedTernary
  | .expectedSemicolon => .expectedSemicolon
  | .nestingTooDeep => .nestingTooDeep

/-- the fatal diagnostic for a failure, at the token to blame -/
def Failure.diagnostic (f : Failure) : Diagnostic where
  kind := f.fault.kind
  severity := .fatal
  details := [f.token.sourceLine, f.token.lexeme]
  line := f.token.line
  column := f.token.column
  span := some f.token.span

/-! ## Taking up again after a failure -/

/-- the tokens from the next statement on, when `last` has just been passed over -/
def resumeAfter : (last : Token) → List Token → List Token
  | _, [] => []
  | last, t :: rest =>
    if last.kind = .semicolon || t.kind.startsStatement then t :: rest else resumeAfter t rest

/-- Passes over one token at least, and then all up to just past a semicolon or just before a keyword that opens
a statement. -/
def resume : List Token → List Token
  | [] => []
  | t :: rest => resumeAfter t rest

theorem resumeAfter_suffix (last : Token) (ts : List Token) : resumeAfter last ts <:+ ts := by
  induction ts generalizing last with
  | nil => exact List.suffix_refl []
  | cons t rest ih =>
    unfold resumeAfter
    split
    · exact List.suffix_refl _
    · exact (ih t).trans (List.suffix_cons t rest)

theorem resume_suffix (ts : List Token) : resume ts <:+ ts := by
  cases ts with
  | nil => exact List.suffix_refl []
  | cons t rest => exact (resumeAfter_suffix t rest).trans (List.suffix_cons t rest)

theorem length_lt_of_terminated {eof : Token} {limit : Nat} {ts rest : List Token} {e : Expr}
    (h : Reading.terminated eof limit ts = .done e rest) : rest.length < ts.length := by
  have ha := Reading.terminated_advances eof limit ts
  rw [h] at ha
  exact ha.2

theorem length_resume_lt {us ts : List Token} (h : us <:+ ts) (hts : ts ≠ []) :
    (resume us).length < ts.length := by
  cases us with
  | nil => exact List.length_pos_iff.2 hts
  | cons t rest =>
    have h1 := (resumeAfter_suffix t rest).length_le
    have h2 := h.length_le
    simp only [resume, List.length_cons] at h2 ⊢
    omega

theorem length_resume_of_terminated {eof : Token} {limit : Nat} {ts : List Token} {f : Failure}
    (h : Reading.terminated eof limit ts = .failed f) (hts : ts ≠ []) :
    (resume f.unread).length < ts.length := by
  have ha := Reading.terminated_advances eof limit ts
  rw [h] at ha
  exact length_resume_lt ha hts

/-! ## Programs -/

/-- the expressions of a program, and the failures met on the way, in order -/
structure Program where
  expressions : List Expr := []
  failures : List Failure := []

def Program.push (e : Expr) (p : Program) : Program :=
  { p with expressions := e :: p.expressions }

def Program.pushFailure (f : Failure) (p : Program) : Program :=
  { p with failures := f :: p.failures }

/-- the program that the tokens before `eof` make, with expressions that nest at most `limit` levels -/
def Program.read (eof : Token) (limit : Nat) : List Token → Program
  | [] => {}
  | t :: ts =>
    match h : Reading.terminated eof limit (t :: ts) with
    | .done e rest =>
      have := length_lt_of_terminated h
      .push e (Program.read eof limit rest)
    | .failed f =>
      have := length_resume_of_terminated h (List.cons_ne_nil t ts)
      .pushFailure f (Program.read eof limit (resume f.unread))
termination_by ts => ts.length
decreasing_by all_goals exact this

theorem Program.read_nil (eof : Token) (limit : Nat) : Program.read eof limit [] = {} := by
  rw [Program.read]

/-- one step of reading a program, where an expression is read -/
theorem Program.read_of_done {eof : Token} {limit : Nat} {ts rest : List Token} {e : Expr}
    (h : Reading.terminated eof limit ts = .done e rest) :
    Program.read eof limit ts = .push e (Program.read eof limit rest) := by
  cases ts with
  | nil => exact absurd (length_lt_of_terminated h) (Nat.not_lt_zero _)
  | cons t ts =>
    rw [Program.read]
    split
    · next e' rest' h' =>
      obtain ⟨rfl, rfl⟩ := Reading.done.inj (h'.symm.trans h)
      rfl
    · next f h' => cases h'.symm.trans h

/-- one step of reading a program, where reading fails -/
theorem Program.read_of_failed {eof : Token} {limit : Nat} {ts : List Token} {f : Failure} (hts : ts ≠ [])
    (h : Reading.terminated eof limit ts = .failed f) :
    Program.read eof limit ts = .pushFailure f (Program.read eof limit (resume f.unread)) := by
  cases ts with
  | nil => exact absurd rfl hts
  | cons t ts =>
    rw [Program.read]
    split
    · next e' rest' h' => cases h'.symm.trans h
    · next f' h' =>
      obtain rfl := Reading.failed.inj (h'.symm.trans h)
      rfl

/-- what holds of the empty program and is kept by both steps holds of every program that is read -/
theorem Program.read_induction {eof : Token} {limit : Nat} {motive : List Token → Program → Prop}
    (nil : motive [] {})
    (done : ∀ ts e rest, Reading.terminated eof limit ts = .done e rest →
      motive rest (Program.read eof limit rest) → motive ts (.push e (Program.read eof limit rest)))
    (failed : ∀ ts f, ts ≠ [] → Reading.terminated eof limit ts = .failed f →
      motive (resume f.unread) (Program.read eof limit (resume f.unread)) →
      motive ts (.pushFailure f (Program.read eof limit (resume f.unread))))
    (ts : List Token) : motive ts (Program.read eof limit ts) := by
  -- the tokens that are left get fewer with each step
  induction hn : ts.length using Nat.strongRecOn generalizing ts with
  | ind n ih =>
    subst hn
    cases ts with
    | nil => rw [Program.read_nil]; exact nil
    | cons t us =>
      cases hr : Reading.terminated eof limit (t :: us) with
      | done e rest =>
        rw [Program.read_of_done hr]
        exact done _ e rest hr (ih _ (length_lt_of_terminated hr) rest rfl)
      | failed f =>
        have hne := List.cons_ne_nil t us
        rw [Program.read_of_failed hne hr]
        exact failed _ f hne hr (ih _ (length_resume_of_terminated hr hne) _ rfl)

/-! ## Readers -/

def defaultLimit : Nat := 128

/-- tokens not read yet, the token that ends them, and how deep expressions may nest -/
structure Reader where
  unread : List Token
  eof : Token
  limit : Nat := defaultLimit

/-- what one call on a reader gives: a result, diagnostics, log events, and the tokens still unread -/
structure Outcome (α : Type) where
  result : α
  diagnostics : List Diagnostic
  events : List Event
  unread : List Token

namespace Reader

/-- A reader at the start of the tokens. The first end-of-text token ends them, whatever stands after it; one
without a place is supplied if there is none. -/
def ofTokens (tokens : List Token) (limit : Nat) : Reader where
  unread := tokens.takeWhile (·.kind != .eof)
  eof := (tokens.find? (·.kind == .eof)).getD { kind := .eof, lexeme := "" }
  limit := limit

theorem ofTokens_concat {body : List Token} {eof : Token} (hbody : ∀ t ∈ body, t.kind ≠ .eof)
    (heof : eof.kind = .eof) (limit : Nat) : ofTokens (body ++ [eof]) limit = ⟨body, eof, limit⟩ := by
  have h1 : (body ++ [eof]).takeWhile (·.kind != .eof) = body := by
    rw [List.takeWhile_append_of_pos (by simpa using hbody)]
    simp [heof]
  have h2 : (body ++ [eof]).find? (·.kind == .eof) = some eof := by
    rw [List.find?_append, List.find?_eq_none.2 (by simpa using hbody)]
    simp [heof]
  simp only [ofTokens, h1, h2, Option.getD_some]

/-- the tokens after one semicolon, if the next token is one -/
def skipSemicolon : List Token → List Token
  | [] => []
  | t :: rest => if t.kind = .semicolon then rest else t :: rest

/-- reads one expression and the semicolon after it, if there is one; after a failure nothing is passed over -/
def single (r : Reader) : Outcome (Option Expr) :=
  match Reading.expression r.eof r.limit r.unread with
  | .done e rest =>
    let unread := skipSemicolon rest
    { result := some e, diagnostics := [], events := unread.head?.toList.map .ignored, unread }
  | .failed f =>
    { result := none, diagnostics := [f.diagnostic], events := [.reported f.diagnostic], unread := f.unread }

/-- reads all the expressions up to the end -/
def program (r : Reader) : Outcome (List Expr) :=
  let p := Program.read r.eof r.limit r.unread
  let diagnostics := p.failures.map Failure.diagnostic
  { result := p.expressions, diagnostics,
    events := diagnostics.map .reported ++ [.parsed p.expressions.length], unread := [] }

/-- the reader after a call: it goes on where the call stopped -/
def resumeFrom {α : Type} (r : Reader) (outcome : Outcome α) : Reader :=
  { r with unread := outcome.unread }

end Reader

end Reckoner
