/-
Where a reading stops, whom its failure blames, and how far ahead it looks.

Readers are put together from a few steps: give a result, fail at the next token, take a token, go on after a success.
What all these steps keep, whole readings keep (`Kept.terminated`).

- `terminated_blames`, `failures_blame`: a failure blames the first token that was not read, or the end-of-text token
  if all were read. The one exception is a token of a literal kind that carries no constant: it is blamed itself, and it
  was read.
- `terminated_alike`, `read_alike`: a reading looks at no token behind the first one that it does not read. With other
  tokens behind that one, it stops at the same place for the same reason.
-/
import Mathlib.Tactic
import Reckoner.Program
import Reckoner.Proofs.Reading

namespace Reckoner

namespace Reading

/-! ## What every step keeps -/

/-- a property of readings of tokens that every step of a reader keeps -/
structure Kept (eof : Token) (P : (α : Type) → List Token → Reading α → Prop) : Prop where
  done : ∀ {α : Type} (a : α) (ts : List Token), P α ts (.done a ts)
  fail : ∀ {α : Type} (fault : Fault) (ts : List Token), P α ts (fail eof fault ts)
  /-- a token of a literal kind without its constant is taken, and then blamed -/
  hollow : ∀ {t : Token} (rest : List Token), t.kind ∈ carriers → t.constant? = none →
    P Expr (t :: rest) (.failed ⟨.expectedExpression, t, rest⟩)
  take : ∀ {α : Type} (t : Token) {rest : List Token} {r : Reading α}, P α rest r → P α (t :: rest) r
  andThen : ∀ {α β : Type} {ts : List Token} {r : Reading α} {next : α → List Token → Reading β}, P α ts r →
    (∀ a rest, P β rest (next a rest)) → P β ts (r.andThen next)

namespace Kept

section
variable {eof : Token} {P : (α : Type) → List Token → Reading α → Prop} (h : Kept eof P)

include h

theorem expect (kind : Kind) (fault : Fault) (ts : List Token) : P Unit ts (expect eof kind fault ts) := by
  cases ts with
  | nil => exact h.fail fault []
  | cons t rest =>
    simp only [Reading.expect]
    split
    · exact h.take t (h.done () rest)
    · exact h.fail fault (t :: rest)

theorem carried {t : Token} (ht : t.kind ∈ carriers) (rest : List Token) :
    P Expr (t :: rest) (match t.constant? with
      | some c => .done (.literal c) rest
      | none => .failed ⟨.expectedExpression, t, rest⟩) := by
  split
  · exact h.take t (h.done _ rest)
  · next hc => exact h.hollow rest ht hc

theorem primary {inside : List Token → Reading Expr} (hi : ∀ ts, P Expr ts (inside ts)) (ts : List Token) :
    P Expr ts (primary eof inside ts) := by
  cases ts with
  | nil => exact h.fail _ []
  | cons t rest =>
    simp only [Reading.primary]
    split
    · exact h.take t (h.done _ rest)
    · exact h.take t (h.done _ rest)
    · exact h.take t (h.done _ rest)
    · next hk => exact h.carried (by simp [hk, carriers]) rest
    · next hk => exact h.carried (by simp [hk, carriers]) rest
    · next hk => exact h.carried (by simp [hk, carriers]) rest
    · refine h.take t (h.andThen (hi rest) fun e rest => ?_)
      exact h.andThen (h.expect _ _ rest) fun _ rest => h.done _ rest
    · exact h.fail _ (t :: rest)

theorem unary {operand inside : List Token → Reading Expr} (ho : ∀ ts, P Expr ts (operand ts))
    (hi : ∀ ts, P Expr ts (inside ts)) (ts : List Token) : P Expr ts (unary eof operand inside ts) := by
  cases ts with
  | nil => exact h.primary hi []
  | cons t rest =>
    simp only [Reading.unary]
    split
    · exact h.take t (h.andThen (ho rest) fun _ rest => h.done _ rest)
    · exact h.primary hi (t :: rest)

theorem climb {operand : List Token → Reading Expr} {chain : Level → Expr → List Token → Reading Expr}
    (ho : ∀ ts, P Expr ts (operand ts)) (hc : ∀ l e ts, P Expr ts (chain l e ts)) (levels : List Level)
    (ts : List Token) : P Expr ts (climb operand chain levels ts) := by
  refine h.andThen (ho ts) fun e rest => ?_
  induction levels generalizing e rest with
  | nil => exact h.done e rest
  | cons l levels ih => exact h.andThen (hc l e rest) ih

theorem conditional {part : List Token → Reading Expr} (hp : ∀ ts, P Expr ts (part ts)) (ts : List Token) :
    P Expr ts (conditional eof part ts) := by
  refine h.andThen (hp ts) fun condition ts => ?_
  cases ts with
  | nil => exact h.done condition []
  | cons t rest =>
    dsimp only
    split
    · refine h.take t (h.andThen (hp rest) fun thenBranch rest => ?_)
      refine h.andThen (h.expect _ _ rest) fun _ rest => ?_
      exact h.andThen (hp rest) fun _ rest => h.done _ rest
    · exact h.done condition (t :: rest)

theorem of_room (room : Nat) :
    (∀ ts, P Expr ts (operand eof room ts)) ∧ (∀ l e ts, P Expr ts (chain eof room l e ts)) := by
  induction room with
  | zero =>
    refine ⟨fun ts => h.fail _ ts, fun l e ts => ?_⟩
    cases ts with
    | nil => exact h.done e []
    | cons t rest =>
      simp only [chain]
      split
      · exact h.take t (h.fail _ rest)
      · exact h.done e (t :: rest)
  | succ room ih =>
    obtain ⟨ho, hc⟩ := ih
    refine ⟨fun ts => h.unary ho (h.conditional (h.climb ho hc Level.all)) ts, fun l e ts => ?_⟩
    cases ts with
    | nil => exact h.done e []
    | cons t rest =>
      simp only [chain]
      split
      · exact h.take t (h.andThen (h.climb ho hc l.tighter rest) fun right rest => hc l _ rest)
      · exact h.done e (t :: rest)

theorem expression (room : Nat) (ts : List Token) : P Expr ts (expression eof room ts) :=
  have ⟨ho, hc⟩ := h.of_room room
  h.conditional (h.climb ho hc Level.all) ts

/-- **What every step keeps, reading an expression to its end keeps.** -/
theorem terminated (room : Nat) (ts : List Token) : P Expr ts (terminated eof room ts) := by
  refine h.andThen (h.expression room ts) fun e rest => ?_
  cases rest with
  | nil => exact h.done e []
  | cons t more =>
    dsimp only
    split
    · exact h.take t (h.done e more)
    · exact h.fail .expectedSemicolon (t :: more)

end

end Kept

/-! ## Whom a failure blames -/

/-- A reading of `ts` leaves a suffix of it. A failure blames the first token that is left, `eof` if none is, or a token
of a literal kind that was read and carries no constant. -/
def Blames (eof : Token) (α : Type) (ts : List Token) : Reading α → Prop
  | .done _ rest => rest <:+ ts
  | .failed f => f.unread <:+ ts ∧ (f.token = f.unread.headD eof ∨
      f.token :: f.unread <:+ ts ∧ f.token.kind ∈ carriers ∧ f.token.literal = none)

theorem Blames.mono {eof : Token} {α : Type} {ts us : List Token} {r : Reading α} (h : Blames eof α ts r)
    (hs : ts <:+ us) : Blames eof α us r := by
  cases r with
  | done a rest => exact List.IsSuffix.trans h hs
  | failed f =>
    obtain ⟨hsuffix, htoken | ⟨hread, hkind, hnone⟩⟩ := h
    · exact ⟨hsuffix.trans hs, Or.inl htoken⟩
    · exact ⟨hsuffix.trans hs, Or.inr ⟨hread.trans hs, hkind, hnone⟩⟩

theorem kept_blames (eof : Token) : Kept eof (Blames eof) where
  done _ ts := List.suffix_refl ts
  fail _ ts := ⟨List.suffix_refl ts, Or.inl rfl⟩
  hollow rest hk hc := ⟨List.suffix_cons _ rest, Or.inr ⟨List.suffix_refl _, hk, Option.map_eq_none_iff.1 hc⟩⟩
  take t _ _ hr := hr.mono (List.suffix_cons t _)
  andThen {_ _ _ r _} hr hn := by
    cases r with
    | done a rest => exact (hn a rest).mono hr
    | failed f => exact hr

theorem terminated_blames (eof : Token) (limit : Nat) (ts : List Token) :
    Blames eof Expr ts (terminated eof limit ts) :=
  (kept_blames eof).terminated limit ts

theorem Blames.mem {eof : Token} {α : Type} {ts : List Token} {f : Failure}
    (h : Blames eof α ts (.failed f)) : f.token ∈ ts ++ [eof] := by
  obtain ⟨hsuffix, htoken | ⟨hread, -⟩⟩ := h
  · cases hu : f.unread with
    | nil => simp [htoken, hu]
    | cons t rest =>
      rw [hu] at hsuffix
      have ht : t ∈ ts := hsuffix.subset List.mem_cons_self
      simp [htoken, hu, ht]
  · exact List.mem_append_left _ (hread.subset List.mem_cons_self)

/-! ## How far a reading looks -/

def unread {α : Type} : Reading α → List Token
  | .done _ rest => rest
  | .failed f => f.unread

/-- Two readings of tokens with different tails stop at the same place before the tails, for the same reason, or the
first goes into its tail. -/
inductive Alike (tail tail' : List Token) {α : Type} : Reading α → Reading α → Prop where
  | done (a : α) (us : List Token) : Alike tail tail' (.done a (us ++ tail)) (.done a (us ++ tail'))
  | failed (fault : Fault) (token : Token) (us : List Token) :
      Alike tail tail' (.failed ⟨fault, token, us ++ tail⟩) (.failed ⟨fault, token, us ++ tail'⟩)
  | beyond {r : Reading α} (r' : Reading α) (h : r.unread.length < tail.length) : Alike tail tail' r r'

theorem Stays.length_unread_le {α : Type} {ts : List Token} {r : Reading α} (h : Stays ts r) :
    r.unread.length ≤ ts.length := by
  cases r with
  | done a rest => exact List.IsSuffix.length_le h
  | failed f => exact List.IsSuffix.length_le h

section
variable {eof eof' : Token} {t : Token} {more more' : List Token}

theorem Alike.andThen {α β : Type} {r r' : Reading α} {next next' : α → List Token → Reading β}
    (h : Alike (t :: more) (t :: more') r r') (hs : ∀ a rest, Stays rest (next a rest))
    (hn : ∀ a us, Alike (t :: more) (t :: more') (next a (us ++ t :: more)) (next' a (us ++ t :: more'))) :
    Alike (t :: more) (t :: more') (r.andThen next) (r'.andThen next') := by
  cases h with
  | done a us => exact hn a us
  | failed fault token us => exact .failed fault token us
  | beyond _ h =>
    refine .beyond _ ?_
    cases r with
    | done a rest => exact (hs a rest).length_unread_le.trans_lt h
    | failed f => exact h

/-- where the first reading stops right before its tail, the second stops right before its own -/
theorem Alike.failed_of_head {α : Type} {r r' : Reading α} {fault : Fault} {token : Token}
    (h : Alike (t :: more) (t :: more') r r') (hr : r = .failed ⟨fault, token, t :: more⟩) :
    r' = .failed ⟨fault, token, t :: more'⟩ := by
  cases h with
  | done a us => cases hr
  | failed _ _ us =>
    simp only [Reading.failed.injEq, Failure.mk.injEq, List.append_left_eq_self] at hr
    obtain ⟨rfl, rfl, rfl⟩ := hr
    rfl
  | beyond _ h =>
    rw [hr] at h
    exact absurd h (lt_irrefl _)

/-- once the first token of the tail is taken, nothing is asked any more -/
theorem Alike.taken {α : Type} {r : Reading α} (r' : Reading α) (h : Stays more r) :
    Alike (t :: more) (t :: more') r r' :=
  .beyond r' (Nat.lt_succ_of_le h.length_unread_le)

/-- a failure at the next token, which both tails have in common -/
theorem fail_alike {α : Type} (fault : Fault) (us : List Token) :
    Alike (t :: more) (t :: more') (fail eof fault (us ++ t :: more) : Reading α)
      (fail eof' fault (us ++ t :: more')) := by
  cases us with
  | nil => exact .failed fault t []
  | cons u us => exact .failed fault u (u :: us)

theorem expect_alike (kind : Kind) (fault : Fault) (us : List Token) :
    Alike (t :: more) (t :: more') (expect eof kind fault (us ++ t :: more))
      (expect eof' kind fault (us ++ t :: more')) := by
  cases us with
  | nil =>
    simp only [List.nil_append, expect]
    split
    · exact .taken _ (List.suffix_refl more)
    · exact fail_alike fault []
  | cons u us =>
    simp only [List.cons_append, expect]
    split
    · exact .done () us
    · exact fail_alike fault (u :: us)

theorem expect_stays (kind : Kind) (fault : Fault) (ts : List Token) : Stays ts (expect eof kind fault ts) :=
  (expect_advances eof kind fault ts).stays

section
variable {inside inside' operand operand' part part' : List Token → Reading Expr}
  {chain chain' : Level → Expr → List Token → Reading Expr}

theorem close_stays (e : Expr) (rest : List Token) :
    Stays rest ((expect eof .rightParen .unclosedParenthesis rest).andThen fun _ rest => done (Expr.grouping e) rest) :=
  stays_andThen (expect_stays _ _ rest) fun _ rest => List.suffix_refl rest

theorem primary_alike (hs : ∀ ts, Stays ts (inside ts))
    (hi : ∀ us, Alike (t :: more) (t :: more') (inside (us ++ t :: more)) (inside' (us ++ t :: more')))
    (us : List Token) :
    Alike (t :: more) (t :: more') (primary eof inside (us ++ t :: more)) (primary eof' inside' (us ++ t :: more')) := by
  cases us with
  | nil =>
    have take {e : Expr} (r' : Reading Expr) : Alike (t :: more) (t :: more') (.done e more) r' :=
      .taken r' (List.suffix_refl more)
    have carried (r' : Reading Expr) : Alike (t :: more) (t :: more') (match t.constant? with
        | some c => .done (.literal c) more
        | none => .failed ⟨.expectedExpression, t, more⟩) r' := by
      split
      · exact take r'
      · exact .taken r' (List.suffix_refl more)
    simp only [List.nil_append, primary]
    split
    · exact take _
    · exact take _
    · exact take _
    · exact carried _
    · exact carried _
    · exact carried _
    · exact .taken _ (stays_andThen (hs more) close_stays)
    · exact fail_alike _ []
  | cons u us =>
    have carried : Alike (t :: more) (t :: more') (match u.constant? with
        | some c => .done (Expr.literal c) (us ++ t :: more)
        | none => .failed ⟨.expectedExpression, u, us ++ t :: more⟩) (match u.constant? with
        | some c => .done (Expr.literal c) (us ++ t :: more')
        | none => .failed ⟨.expectedExpression, u, us ++ t :: more'⟩) := by
      split
      · exact .done _ us
      · exact .failed _ u us
    simp only [List.cons_append, primary]
    split
    · exact .done _ us
    · exact .done _ us
    · exact .done _ us
    · exact carried
    · exact carried
    · exact carried
    · refine (hi us).andThen close_stays fun e us => ?_
      exact (expect_alike _ _ us).andThen (fun _ rest => List.suffix_refl rest) fun _ us => .done _ us
    · exact fail_alike _ (u :: us)

theorem unary_alike (hso : ∀ ts, Stays ts (operand ts)) (hsi : ∀ ts, Stays ts (inside ts))
    (ho : ∀ us, Alike (t :: more) (t :: more') (operand (us ++ t :: more)) (operand' (us ++ t :: more')))
    (hi : ∀ us, Alike (t :: more) (t :: more') (inside (us ++ t :: more)) (inside' (us ++ t :: more')))
    (us : List Token) :
    Alike (t :: more) (t :: more') (unary eof operand inside (us ++ t :: more))
      (unary eof' operand' inside' (us ++ t :: more')) := by
  cases us with
  | nil =>
    simp only [List.nil_append, unary]
    split
    · exact .taken _ (stays_andThen (hso more) fun _ rest => List.suffix_refl rest)
    · exact primary_alike hsi hi []
  | cons u us =>
    simp only [List.cons_append, unary]
    split
    · exact (ho us).andThen (fun _ rest => List.suffix_refl rest) fun _ us => .done _ us
    · exact primary_alike hsi hi (u :: us)

theorem climb_alike (hsc : ∀ l e ts, Stays ts (chain l e ts))
    (ho : ∀ us, Alike (t :: more) (t :: more') (operand (us ++ t :: more)) (operand' (us ++ t :: more')))
    (hc : ∀ l e us, Alike (t :: more) (t :: more') (chain l e (us ++ t :: more)) (chain' l e (us ++ t :: more')))
    (levels : List Level) (us : List Token) :
    Alike (t :: more) (t :: more') (climb operand chain levels (us ++ t :: more))
      (climb operand' chain' levels (us ++ t :: more')) := by
  refine (ho us).andThen (chains_stay hsc levels) fun e us => ?_
  induction levels generalizing e us with
  | nil => exact .done e us
  | cons l levels ih => exact (hc l e us).andThen (chains_stay hsc levels) ih

/-- what follows the question mark of a conditional -/
theorem branches_stay (hs : ∀ ts, Stays ts (part ts)) (condition : Expr) (ts : List Token) :
    Stays ts ((part ts).andThen fun thenBranch rest =>
      (expect eof .colon .unterminatedTernary rest).andThen fun _ rest =>
        (part rest).andThen fun elseBranch rest => done (Expr.ternary condition thenBranch elseBranch) rest) := by
  refine stays_andThen (hs ts) fun thenBranch rest => ?_
  refine stays_andThen (expect_stays _ _ rest) fun _ rest => ?_
  exact stays_andThen (hs rest) fun _ rest => List.suffix_refl rest

theorem conditional_alike (hs : ∀ ts, Stays ts (part ts))
    (hp : ∀ us, Alike (t :: more) (t :: more') (part (us ++ t :: more)) (part' (us ++ t :: more')))
    (us : List Token) :
    Alike (t :: more) (t :: more') (conditional eof part (us ++ t :: more))
      (conditional eof' part' (us ++ t :: more')) := by
  refine (hp us).andThen (fun condition rest => ?_) fun condition us => ?_
  · cases rest with
    | nil => exact List.suffix_refl []
    | cons u rest =>
      dsimp only
      split
      · exact (branches_stay hs condition rest).mono (List.suffix_cons u rest)
      · exact List.suffix_refl _
  cases us with
  | nil =>
    simp only [List.nil_append]
    split
    · exact .taken _ (branches_stay hs condition more)
    · exact .done condition []
  | cons u us =>
    simp only [List.cons_append]
    split
    · refine (hp us).andThen (fun thenBranch rest => ?_) fun thenBranch us => ?_
      · refine stays_andThen (expect_stays _ _ rest) fun _ rest => ?_
        exact stays_andThen (hs rest) fun _ rest => List.suffix_refl rest
      refine (expect_alike _ _ us).andThen (fun _ rest => ?_) fun _ us => ?_
      · exact stays_andThen (hs rest) fun _ rest => List.suffix_refl rest
      exact (hp us).andThen (fun _ rest => List.suffix_refl rest) fun _ us => .done _ us
    · exact .done condition (u :: us)

end

variable (eof eof' t more more')

theorem alike_of_room (room : Nat) :
    (∀ us, Alike (t :: more) (t :: more') (operand eof room (us ++ t :: more)) (operand eof' room (us ++ t :: more'))) ∧
    (∀ l e us, Alike (t :: more) (t :: more') (chain eof room l e (us ++ t :: more))
      (chain eof' room l e (us ++ t :: more'))) := by
  induction room with
  | zero =>
    refine ⟨fun us => fail_alike _ us, fun l e us => ?_⟩
    cases us with
    | nil =>
      simp only [List.nil_append, chain]
      split
      · exact .taken _ (stays_fail eof _ more)
      · exact .done e []
    | cons u us =>
      simp only [List.cons_append, chain]
      split
      · exact fail_alike _ us
      · exact .done e (u :: us)
  | succ room ih =>
    obtain ⟨ho, hc⟩ := ih
    obtain ⟨hao, hsc⟩ := advances_of_room eof room
    have hso : ∀ ts, Stays ts (operand eof room ts) := fun ts => (hao ts).stays
    have hstays := climb_advances hao hsc
    refine ⟨fun us => ?_, fun l e us => ?_⟩
    · simp only [operand]
      exact unary_alike hso (fun ts => (conditional_advances eof (hstays Level.all) ts).stays) ho
        (conditional_alike (fun ts => (hstays Level.all ts).stays) (climb_alike hsc ho hc Level.all)) us
    · cases us with
      | nil =>
        simp only [List.nil_append, chain]
        split
        · exact .taken _ (stays_andThen (hstays l.tighter more).stays fun right rest => hsc l _ rest)
        · exact .done e []
      | cons u us =>
        simp only [List.cons_append, chain]
        split
        · exact (climb_alike hsc ho hc l.tighter us).andThen (fun right rest => hsc l _ rest) fun right us => hc l _ us
        · exact .done e (u :: us)

/-- **Reading an expression to its end looks at no token behind the first one that it leaves.** -/
theorem terminated_alike (limit : Nat) (us : List Token) :
    Alike (t :: more) (t :: more') (terminated eof limit (us ++ t :: more)) (terminated eof' limit (us ++ t :: more')) := by
  obtain ⟨ho, hc⟩ := alike_of_room eof eof' t more more' limit
  obtain ⟨hao, hsc⟩ := advances_of_room eof limit
  have hexpression : Alike (t :: more) (t :: more') (expression eof limit (us ++ t :: more))
      (expression eof' limit (us ++ t :: more')) :=
    conditional_alike (fun ts => (climb_advances hao hsc Level.all ts).stays) (climb_alike hsc ho hc Level.all) us
  refine hexpression.andThen (fun e rest => ?_) fun e us => ?_
  · cases rest with
    | nil => exact List.suffix_refl []
    | cons u rest =>
      dsimp only
      split
      · exact List.suffix_cons u rest
      · exact List.suffix_refl _
  cases us with
  | nil =>
    simp only [List.nil_append]
    split
    · exact .taken _ (List.suffix_refl more)
    · exact .failed _ t []
  | cons u us =>
    simp only [List.cons_append]
    split
    · exact .done e us
    · exact .failed _ u (u :: us)

end

end Reading

/-! ## Whole programs -/

/-- the failures of a program blame tokens of it, or its end -/
theorem failures_blame (eof : Token) (limit : Nat) (ts : List Token) :
    ∀ f ∈ (Program.read eof limit ts).failures, Reading.Blames eof Expr ts (.failed f) := by
  refine Program.read_induction (motive := fun ts p => ∀ f ∈ p.failures, Reading.Blames eof Expr ts (.failed f))
    ?_ ?_ ?_ ts
  · intro f hf
    cases hf
  · intro ts e rest hr ih f hf
    have hblames := Reading.terminated_blames eof limit ts
    rw [hr] at hblames
    exact (ih f hf).mono hblames
  · intro ts f _ hr ih g hg
    have hblames := Reading.terminated_blames eof limit ts
    rw [hr] at hblames
    rcases List.mem_cons.1 hg with rfl | hg
    · exact hblames
    · exact (ih g hg).mono ((resume_suffix _).trans hblames.1)

/-- **The first failure of a program is settled by the tokens up to the one where it stops.** -/
theorem read_alike {eof : Token} (eof' : Token) {limit : Nat} {t : Token} {more : List Token} (more' : List Token)
    {us : List Token} {fault : Fault} {token : Token}
    (h : (Program.read eof limit (us ++ t :: more)).failures.head? = some ⟨fault, token, t :: more⟩) :
    (Program.read eof' limit (us ++ t :: more')).failures.head? = some ⟨fault, token, t :: more'⟩ := by
  generalize hts : us ++ t :: more = ts at h
  revert us h
  refine Program.read_induction (motive := fun ts p => ∀ {us}, us ++ t :: more = ts →
    p.failures.head? = some ⟨fault, token, t :: more⟩ →
    (Program.read eof' limit (us ++ t :: more')).failures.head? = some ⟨fault, token, t :: more'⟩) ?_ ?_ ?_ ts
  · intro us hts _
    simp at hts
  · rintro _ e rest hr ih us rfl hhead
    have halike := Reading.terminated_alike eof eof' t more more' limit us
    -- the failure stops at `t` or behind it, so the expression before ends before it
    have hsuffix := (failures_blame eof limit rest _ (List.mem_of_mem_head? hhead)).1
    rw [hr] at halike
    generalize hr' : Reading.terminated eof' limit (us ++ t :: more') = r' at halike
    cases halike with
    | done _ vs =>
      rw [Program.read_of_done hr']
      exact ih rfl hhead
    | beyond _ hlt => exact absurd hsuffix.length_le (not_le.2 hlt)
  · rintro _ f hne hr - us rfl hhead
    have halike := Reading.terminated_alike eof eof' t more more' limit us
    obtain rfl := Option.some.inj hhead
    rw [Program.read_of_failed (by simp) (halike.failed_of_head hr)]
    rfl

end Reckoner
