/-
Reading an expression from tokens. An operand is a constant, a parenthesised expression, or an operator and its
operand; a level's expression is an operand followed by the chains of the tighter levels and its own, each chain
taking in `operator operand` pairs from the left; a conditional may follow the loosest level.

Reading is given `room`: how many more levels the tree may nest. An operand takes one level for what is inside
it, and each pair that a chain takes in takes one more until the chain ends. Without room, reading fails, so
it ends on every input.

Main fact: what is left unread is a suffix of the tokens given, and an expression that was read took at least
one token (`expression_advances`).

`terminated`, `conditional` and `primary` mirror `terminated_expression`, `conditional` and `primary`. `operand` mirrors
`unary`, with what `descend` counts as its room, and `unary` mirrors `prefix`. `climb` mirrors the functions of the levels,
and `chain` mirrors `fold_left`.
-/
import Reckoner.Expr.Basic
import Reckoner.Expr.Level

namespace Reckoner

inductive Fault where
  | unclosedParenthesis | expectedExpression | unterminatedTernary | expectedSemicolon | nestingTooDeep
  deriving DecidableEq, Repr

/-- reading stopped: the reason, the token to blame, and the tokens that were not read -/
structure Failure where
  fault : Fault
  token : Token
  unread : List Token
  deriving Repr

/-- what reading gives: a result and the tokens after it, or a failure -/
inductive Reading (α : Type) where
  | done (result : α) (unread : List Token)
  | failed (failure : Failure)
  deriving Repr

def Token.constant? (t : Token) : Option Constant :=
  t.literal.map fun
    | .integer n => .integer n
    | .double x => .double x
    | .text s => .string s

namespace Reading

/-- goes on reading after a success -/
def andThen {α β : Type} (r : Reading α) (next : α → List Token → Reading β) : Reading β :=
  match r with
  | .done a ts => next a ts
  | .failed f => .failed f

/-- a failure that blames the next token, `eof` if there is none -/
def fail {α : Type} (eof : Token) (fault : Fault) (ts : List Token) : Reading α :=
  .failed ⟨fault, ts.headD eof, ts⟩

/-- takes one token of the given kind, which must come next -/
def expect (eof : Token) (kind : Kind) (fault : Fault) (ts : List Token) : Reading Unit :=
  match ts with
  | [] => fail eof fault []
  | t :: rest => if t.kind = kind then .done () rest else fail eof fault (t :: rest)

/-- a constant, or an expression in parentheses; `inside` reads what stands in the parentheses -/
def primary (eof : Token) (inside : List Token → Reading Expr) : List Token → Reading Expr
  | [] => fail eof .expectedExpression []
  | t :: rest =>
    match t.kind with
    | .falseWord => .done (.literal (.bool false)) rest
    | .trueWord => .done (.literal (.bool true)) rest
    | .nilWord => .done (.literal .nil) rest
    | .integer | .double | .string =>
      match t.constant? with
      | some c => .done (.literal c) rest
      | none => .failed ⟨.expectedExpression, t, rest⟩
    | .leftParen =>
      (inside rest).andThen fun e rest =>
        (expect eof .rightParen .unclosedParenthesis rest).andThen fun _ rest =>
          .done (.grouping e) rest
    | _ => fail eof .expectedExpression (t :: rest)

/-- a unary operator and its operand, or a primary; `operand` reads the operand -/
def unary (eof : Token) (operand inside : List Token → Reading Expr) : List Token → Reading Expr
  | [] => primary eof inside []
  | t :: rest =>
    if t.kind.isUnary then (operand rest).andThen fun e rest => .done (.unary t e) rest
    else primary eof inside (t :: rest)

/-- the chains of the given levels, one after the other, onto the expression read so far -/
def chains (chain : Level → Expr → List Token → Reading Expr) :
    List Level → Expr → List Token → Reading Expr
  | [], e, ts => .done e ts
  | l :: levels, e, ts => (chain l e ts).andThen (chains chain levels)

/-- an operand and the chains of the given levels -/
def climb (operand : List Token → Reading Expr) (chain : Level → Expr → List Token → Reading Expr)
    (levels : List Level) (ts : List Token) : Reading Expr :=
  (operand ts).andThen (chains chain levels)

/-- an expression of the loosest level, or a conditional of three of them; `part` reads one -/
def conditional (eof : Token) (part : List Token → Reading Expr) (ts : List Token) : Reading Expr :=
  (part ts).andThen fun condition ts =>
    match ts with
    | [] => .done condition []
    | t :: rest =>
      if t.kind = .question then
        (part rest).andThen fun thenBranch rest =>
          (expect eof .colon .unterminatedTernary rest).andThen fun _ rest =>
            (part rest).andThen fun elseBranch rest =>
              .done (.ternary condition thenBranch elseBranch) rest
      else .done condition (t :: rest)

mutual

/-- an operand that nests at most `room` levels -/
def operand (eof : Token) : (room : Nat) → List Token → Reading Expr
  | 0, ts => fail eof .nestingTooDeep ts
  | room + 1, ts =>
    unary eof (operand eof room)
      (conditional eof (climb (operand eof room) (chain eof room) Level.all)) ts

/-- the operators of one level, from the left, with the operands on their right -/
def chain (eof : Token) : (room : Nat) → Level → Expr → List Token → Reading Expr
  | _, _, left, [] => .done left []
  | 0, level, left, t :: rest =>
    if t.kind.level? = some level then fail eof .nestingTooDeep rest else .done left (t :: rest)
  | room + 1, level, left, t :: rest =>
    if t.kind.level? = some level then
      (climb (operand eof room) (chain eof room) level.tighter rest).andThen fun right rest =>
        chain eof room level (.binary left t right) rest
    else .done left (t :: rest)

end

def expression (eof : Token) (room : Nat) (ts : List Token) : Reading Expr :=
  conditional eof (climb (operand eof room) (chain eof room) Level.all) ts

/-- an expression that ends at a semicolon, which is taken, or at the end of the tokens -/
def terminated (eof : Token) (room : Nat) (ts : List Token) : Reading Expr :=
  (expression eof room ts).andThen fun e rest =>
    match rest with
    | [] => .done e []
    | t :: more =>
      if t.kind = .semicolon then .done e more else .failed ⟨.expectedSemicolon, t, t :: more⟩

/-! ## What is left unread -/

/-- a reading of `ts` leaves a suffix of it, a shorter one on success -/
def Advances {α : Type} (ts : List Token) : Reading α → Prop
  | .done _ rest => rest <:+ ts ∧ rest.length < ts.length
  | .failed f => f.unread <:+ ts

/-- a reading of `ts` leaves a suffix of it -/
def Stays {α : Type} (ts : List Token) : Reading α → Prop
  | .done _ rest => rest <:+ ts
  | .failed f => f.unread <:+ ts

theorem Advances.stays {α : Type} {ts : List Token} {r : Reading α} (h : Advances ts r) : Stays ts r := by
  cases r with
  | done a rest => exact h.1
  | failed f => exact h

theorem Stays.mono {α : Type} {ts us : List Token} {r : Reading α} (h : Stays ts r) (hs : ts <:+ us) :
    Stays us r := by
  cases r with
  | done a rest => exact List.IsSuffix.trans h hs
  | failed f => exact List.IsSuffix.trans h hs

theorem Stays.advances {α : Type} {ts us : List Token} {r : Reading α} (h : Stays ts r) (hs : ts <:+ us)
    (hl : ts.length < us.length) : Advances us r := by
  cases r with
  | done a rest => exact ⟨List.IsSuffix.trans h hs, Nat.lt_of_le_of_lt (List.IsSuffix.length_le h) hl⟩
  | failed f => exact List.IsSuffix.trans h hs

theorem stays_andThen {α β : Type} {ts : List Token} {r : Reading α} {next : α → List Token → Reading β}
    (h : Stays ts r) (hn : ∀ a rest, Stays rest (next a rest)) : Stays ts (r.andThen next) := by
  cases r with
  | done a rest => exact (hn a rest).mono h
  | failed f => exact h

theorem advances_andThen {α β : Type} {ts : List Token} {r : Reading α} {next : α → List Token → Reading β}
    (h : Advances ts r) (hn : ∀ a rest, Stays rest (next a rest)) : Advances ts (r.andThen next) := by
  cases r with
  | done a rest => exact (hn a rest).advances h.1 h.2
  | failed f => exact h

theorem stays_fail {α : Type} (eof : Token) (fault : Fault) (ts : List Token) :
    Stays ts (fail eof fault ts : Reading α) :=
  List.suffix_refl ts

theorem advances_fail {α : Type} (eof : Token) (fault : Fault) (ts : List Token) :
    Advances ts (fail eof fault ts : Reading α) :=
  List.suffix_refl ts

theorem advances_done_cons {α : Type} (a : α) (t : Token) (rest : List Token) :
    Advances (t :: rest) (.done a rest : Reading α) :=
  ⟨List.suffix_cons t rest, Nat.lt_succ_self _⟩

theorem Stays.advances_cons {α : Type} {t : Token} {rest : List Token} {r : Reading α} (h : Stays rest r) :
    Advances (t :: rest) r :=
  h.advances (List.suffix_cons t rest) (Nat.lt_succ_self _)

theorem expect_advances (eof : Token) (kind : Kind) (fault : Fault) (ts : List Token) :
    Advances ts (expect eof kind fault ts) := by
  unfold expect
  split
  · exact advances_fail eof fault []
  · split
    · exact advances_done_cons () _ _
    · exact advances_fail eof fault _

theorem primary_advances (eof : Token) {inside : List Token → Reading Expr}
    (hi : ∀ ts, Advances ts (inside ts)) (ts : List Token) : Advances ts (primary eof inside ts) := by
  unfold primary
  split
  · exact advances_fail eof _ []
  · split
    · exact advances_done_cons _ _ _
    · exact advances_done_cons _ _ _
    · exact advances_done_cons _ _ _
    · split
      · exact advances_done_cons _ _ _
      · exact List.suffix_cons _ _
    · split
      · exact advances_done_cons _ _ _
      · exact List.suffix_cons _ _
    · split
      · exact advances_done_cons _ _ _
      · exact List.suffix_cons _ _
    · refine Stays.advances_cons (stays_andThen (hi _).stays fun e rest => ?_)
      exact stays_andThen (expect_advances eof _ _ rest).stays fun _ rest => List.suffix_refl rest
    · exact advances_fail eof _ _

theorem unary_advances (eof : Token) {operand inside : List Token → Reading Expr}
    (ho : ∀ ts, Advances ts (operand ts)) (hi : ∀ ts, Advances ts (inside ts)) (ts : List Token) :
    Advances ts (unary eof operand inside ts) := by
  unfold unary
  split
  · exact primary_advances eof hi []
  · split
    · exact Stays.advances_cons (stays_andThen (ho _).stays fun _ rest => List.suffix_refl rest)
    · exact primary_advances eof hi _

theorem chains_stay {chain : Level → Expr → List Token → Reading Expr}
    (hc : ∀ l e ts, Stays ts (chain l e ts)) (levels : List Level) (e : Expr) (ts : List Token) :
    Stays ts (chains chain levels e ts) := by
  induction levels generalizing e ts with
  | nil => exact List.suffix_refl ts
  | cons l levels ih => exact stays_andThen (hc l e ts) ih

theorem climb_advances {operand : List Token → Reading Expr} {chain : Level → Expr → List Token → Reading Expr}
    (ho : ∀ ts, Advances ts (operand ts)) (hc : ∀ l e ts, Stays ts (chain l e ts)) (levels : List Level)
    (ts : List Token) : Advances ts (climb operand chain levels ts) :=
  advances_andThen (ho ts) (chains_stay hc levels)

theorem conditional_advances (eof : Token) {part : List Token → Reading Expr}
    (hp : ∀ ts, Advances ts (part ts)) (ts : List Token) : Advances ts (conditional eof part ts) := by
  refine advances_andThen (hp ts) fun condition ts => ?_
  split
  · exact List.suffix_refl []
  · split
    · refine (Stays.advances_cons (stays_andThen (hp _).stays fun thenBranch rest => ?_)).stays
      refine stays_andThen (expect_advances eof _ _ rest).stays fun _ rest => ?_
      exact stays_andThen (hp rest).stays fun _ rest => List.suffix_refl rest
    · exact List.suffix_refl _

/-- Reading an operand or a chain leaves a suffix of the tokens, and an operand takes at least one. -/
theorem advances_of_room (eof : Token) (room : Nat) :
    (∀ ts, Advances ts (operand eof room ts)) ∧ (∀ l e ts, Stays ts (chain eof room l e ts)) := by
  induction room with
  | zero =>
    refine ⟨fun ts => advances_fail eof _ ts, fun l e ts => ?_⟩
    cases ts with
    | nil => exact List.suffix_refl []
    | cons t rest =>
      simp only [chain]
      split
      · exact (stays_fail eof _ rest).mono (List.suffix_cons t rest)
      · exact List.suffix_refl _
  | succ room ih =>
    have hc := climb_advances ih.1 ih.2
    refine ⟨fun ts => unary_advances eof ih.1 (conditional_advances eof (hc Level.all)) ts, fun l e ts => ?_⟩
    cases ts with
    | nil => exact List.suffix_refl []
    | cons t rest =>
      simp only [chain]
      split
      · refine Stays.mono (stays_andThen (hc l.tighter rest).stays fun right rest => ?_) (List.suffix_cons t rest)
        exact ih.2 l _ rest
      · exact List.suffix_refl _

theorem expression_advances (eof : Token) (room : Nat) (ts : List Token) :
    Advances ts (expression eof room ts) :=
  have h := advances_of_room eof room
  conditional_advances eof (climb_advances h.1 h.2 Level.all) ts

theorem terminated_advances (eof : Token) (room : Nat) (ts : List Token) :
    Advances ts (terminated eof room ts) := by
  refine advances_andThen (expression_advances eof room ts) fun e rest => ?_
  split
  · exact List.suffix_refl []
  · split
    · exact List.suffix_cons _ _
    · exact List.suffix_refl _

end Reading

end Reckoner
