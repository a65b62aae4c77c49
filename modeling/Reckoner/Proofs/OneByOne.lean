/-
Expressions read one by one, and all at once.

A reader gives one expression at a time (`parse`), or all up to the end (`parse_program`). The two ways treat semicolons,
faults and what is left over differently. But they begin with the same expression, so from tokens that are left there are
three cases (`Begins`):
- the expression cannot be read: both report the same fault first;
- it ends at a semicolon or at the end of the tokens: it comes first in the program too, and what follows it in the
  program is what is read where the call left off;
- it ends in front of another token: the call leaves off there, and the program reports first that a semicolon is missing
  there.

A program without a fault is in the second case until its end is reached, so calls give its expressions one by one
(`replies_of_program`).

Main statement: `calls_agree_with_program`.
-/
import Mathlib.Tactic
import Reckoner.Proofs.Acceptance
import Reckoner.Proofs.Cursor

namespace Reckoner

namespace Reader

/-! ## The first expression -/

/-- how a single call and a program begin on the same tokens -/
inductive Begins (r : Reader) : Prop where
  | fails (d : Diagnostic) (none : r.single.result = none) (reported : r.single.diagnostics = [d])
      (first : r.program.diagnostics.head? = some d)
  | ends (e : Expr) (read : r.single.result = some e) (silent : r.single.diagnostics = [])
      (expressions : r.program.result = e :: (r.afterCall .single).program.result)
      (diagnostics : r.program.diagnostics = (r.afterCall .single).program.diagnostics)
  | runsOn (e : Expr) (t : Token) (read : r.single.result = some e) (silent : r.single.diagnostics = [])
      (stops : r.single.unread.head? = some t) (other : t.kind ≠ .semicolon)
      (first : r.program.diagnostics.head? = some (Failure.diagnostic ⟨.expectedSemicolon, t, r.single.unread⟩))

theorem begins (r : Reader) (hne : r.unread ≠ []) : Begins r := by
  cases hread : Reading.expression r.eof r.limit r.unread with
  | failed f =>
    have hterminated : Reading.terminated r.eof r.limit r.unread = .failed f := by
      simp only [Reading.terminated, hread, Reading.andThen]
    refine .fails f.diagnostic ?_ ?_ ?_
    · simp only [single, hread]
    · simp only [single, hread]
    · simp only [program, Program.read_of_failed hne hterminated]
      rfl
  | done e rest =>
    have hresult : r.single.result = some e := by simp only [single, hread]
    have hsilent : r.single.diagnostics = [] := by simp only [single, hread]
    have hunread : r.single.unread = skipSemicolon rest := by simp only [single, hread]
    -- what the call leaves is what the program reads next, if a semicolon or nothing comes
    have hends : Reading.terminated r.eof r.limit r.unread = .done e (skipSemicolon rest) → Begins r := by
      intro hterminated
      refine .ends e hresult hsilent ?_ ?_
      · simp only [program, afterCall, resumeFrom, hunread, Program.read_of_done hterminated]
        rfl
      · simp only [program, afterCall, resumeFrom, hunread, Program.read_of_done hterminated]
        rfl
    cases rest with
    | nil =>
      apply hends
      simp only [Reading.terminated, hread, Reading.done_andThen, skipSemicolon]
    | cons t more =>
      by_cases hkind : t.kind = .semicolon
      · apply hends
        simp only [Reading.terminated, hread, Reading.done_andThen, skipSemicolon, hkind, if_true]
      · have hstops : r.single.unread = t :: more := by rw [hunread, skipSemicolon, if_neg hkind]
        have hterminated : Reading.terminated r.eof r.limit r.unread =
            .failed ⟨.expectedSemicolon, t, t :: more⟩ := by
          simp only [Reading.terminated, hread, Reading.done_andThen, hkind, if_false]
        refine .runsOn e t hresult hsilent ?_ hkind ?_
        · rw [hstops, List.head?_cons]
        · simp only [program, Program.read_of_failed hne hterminated, hstops]
          rfl

/-! ## Calls one after the other -/

def afterCalls (r : Reader) (calls : List Call) : Reader :=
  calls.foldl afterCall r

/-- **A program without a fault is read one by one too.** As many single calls as it has expressions give these in order,
report nothing, and leave no token. By induction on the expressions: the first call gives the first one, and leaves a
reader whose program has the others. -/
theorem replies_of_program (es : List Expr) (r : Reader) (hsilent : r.program.diagnostics = [])
    (hresult : r.program.result = es) :
    (r.replies (List.replicate es.length .single)).map (fun x => (x.expressions, x.diagnostics)) =
        es.map (fun e => ([e], [])) ∧
      (r.afterCalls (List.replicate es.length .single)).unread = [] := by
  induction es generalizing r with
  | nil =>
    refine ⟨rfl, ?_⟩
    by_contra hne
    cases r.begins hne with
    | fails d _ _ first => simp [hsilent] at first
    | ends e _ _ expressions => simp [hresult] at expressions
    | runsOn e t _ _ _ _ first => simp [hsilent] at first
  | cons e es ih =>
    have hne : r.unread ≠ [] := by
      intro hnil
      simp [program, hnil, Program.read_nil] at hresult
    cases r.begins hne with
    | fails d _ _ first => simp [hsilent] at first
    | runsOn e' t _ _ _ _ first => simp [hsilent] at first
    | ends e' read silent expressions diagnostics =>
      rw [hresult, List.cons.injEq] at expressions
      obtain ⟨rfl, hothers⟩ := expressions
      obtain ⟨hreplies, hunread⟩ := ih (r.afterCall .single) (diagnostics.symm.trans hsilent) hothers.symm
      refine ⟨?_, hunread⟩
      have hfirst : (r.reply .single).expressions = [e] ∧ (r.reply .single).diagnostics = [] := by
        simp only [reply, read, silent, Option.toList_some, and_self]
      rw [List.length_cons, List.replicate_succ, replies, List.map_cons, hreplies, hfirst.1, hfirst.2, List.map_cons]

end Reader

/-- **Single calls and programs agree.** On any tokens of which the first does not end the text, and at any limit:
- if the program has no fault, as many single calls as it has expressions give these in order, without a diagnostic, and
  leave no token in front of the end;
- a single call that gives nothing reports one diagnostic, which is the first of the program;
- if a single call gives an expression, either this comes first in the program and nothing is reported up to where the
  call left off, so that the rest of the program is read from there, or the program reports first that a semicolon is
  missing at the token where the call left off. -/
theorem calls_agree_with_program (t : Token) (ts : List Token) (limit : Nat) (ht : t.kind ≠ .eof) :
    let r := Reader.ofTokens (t :: ts) limit
    (r.program.diagnostics = [] →
      (r.replies (List.replicate r.program.result.length .single)).map (fun x => (x.expressions, x.diagnostics)) =
          r.program.result.map (fun e => ([e], [])) ∧
        (r.afterCalls (List.replicate r.program.result.length .single)).unread = []) ∧
    (r.single.result = none →
      ∃ d, r.single.diagnostics = [d] ∧ r.program.diagnostics.head? = some d) ∧
    ∀ e : Expr, r.single.result = some e → r.single.diagnostics = [] ∧
      (r.program.result = e :: (r.resumeFrom r.single).program.result ∧
          r.program.diagnostics = (r.resumeFrom r.single).program.diagnostics ∨
        ∃ (next : Token) (f : Failure), r.single.unread.head? = some next ∧
          r.program.diagnostics.head? = some f.diagnostic ∧ f.fault = .expectedSemicolon ∧ f.token = next) := by
  intro r
  have hne : r.unread ≠ [] := by
    have hunread : r.unread = t :: ts.takeWhile (·.kind != .eof) := by simp [r, Reader.ofTokens, ht]
    rw [hunread]
    exact List.cons_ne_nil _ _
  refine ⟨fun hsilent => Reader.replies_of_program _ r hsilent rfl, ?_, ?_⟩
  · intro hnone
    cases r.begins hne with
    | fails d _ reported first => exact ⟨d, reported, first⟩
    | ends e read => simp [hnone] at read
    | runsOn e next read => simp [hnone] at read
  · intro e he
    cases r.begins hne with
    | fails d hnone => simp [he] at hnone
    | ends e' read silent expressions diagnostics =>
      obtain rfl := Option.some.inj (he.symm.trans read)
      exact ⟨silent, Or.inl ⟨expressions, diagnostics⟩⟩
    | runsOn e' next read silent stops other first =>
      exact ⟨silent, Or.inr ⟨next, _, stops, first, rfl, rfl⟩⟩

/-- `2 - 3 - 1; (nil)` is read by two calls. In `2 3` a call leaves off at `3`, where a program misses a semicolon; and a
sign with nothing behind it is no expression for the one or the other. -/
theorem calls_agree_with_program_samples :
    ((Reader.ofTokens Sample.body 10).program.diagnostics = [] ∧
      ((Reader.ofTokens Sample.body 10).afterCalls [.single, .single]).unread = []) ∧
    ((Reader.ofTokens [Sample.number 2 "2", Sample.number 3 "3"] 10).single.result = some (.literal (.integer 2)) ∧
      (Reader.ofTokens [Sample.number 2 "2", Sample.number 3 "3"] 10).program.diagnostics.head?.map (·.kind) =
        some .expectedSemicolon) ∧
    ((Reader.ofTokens [Sample.minus] 10).single.result = none ∧
      (Reader.ofTokens [Sample.minus] 10).program.diagnostics.head?.map (·.kind) = some .expectedExpression) := by
  refine ⟨?_, ?_, ?_⟩
  · have hsilent : (Reader.ofTokens Sample.body 10).program.diagnostics = [] := by cbv
    have htwo : (Reader.ofTokens Sample.body 10).program.result.length = 2 := by cbv
    obtain ⟨-, hend⟩ := (calls_agree_with_program (Sample.number 2 "2") Sample.body.tail 10 (by decide)).1 hsilent
    have hcalls := congrArg (fun n => ((Reader.ofTokens Sample.body 10).afterCalls (List.replicate n .single)).unread) htwo
    exact ⟨hsilent, hcalls.symm.trans hend⟩
  · have hread : (Reader.ofTokens [Sample.number 2 "2", Sample.number 3 "3"] 10).single.result =
        some (.literal (.integer 2)) := rfl
    have hresult : (Reader.ofTokens [Sample.number 2 "2", Sample.number 3 "3"] 10).program.result = [] := by cbv
    obtain ⟨-, ⟨hmore, -⟩ | ⟨next, f, -, hfirst, hfault, -⟩⟩ :=
      (calls_agree_with_program (Sample.number 2 "2") [Sample.number 3 "3"] 10 (by decide)).2.2 _ hread
    · exact absurd (hresult.symm.trans hmore) (List.cons_ne_nil _ _).symm
    · exact ⟨hread, by rw [hfirst, Option.map_some, Failure.diagnostic, hfault]; rfl⟩
  · have hnone : (Reader.ofTokens [Sample.minus] 10).single.result = none := rfl
    obtain ⟨d, hd, hfirst⟩ := (calls_agree_with_program Sample.minus [] 10 (by decide)).2.1 hnone
    rw [hfirst]
    obtain rfl := List.singleton_inj.1 hd
    exact ⟨hnone, rfl⟩

end Reckoner
