/-
Reading with a cursor.

A `Reader` takes its list of tokens apart. The same reading can be done in place: the tokens stay where they are, a cursor
moves along them, and a counter keeps how deep reading is nested. That is cheaper, and more can go wrong. A token is found
by its index, which may be out of bounds. The counter goes up where an operand begins or an operator is taken, and down at
the end of the operand or of the chain, on success and on failure; it may miss its way back, or go below zero. Loops and
recursion may go on for ever.

A `Step` works on a `Cursor`. Where something of this happens, the step is `broken`; where the tokens are wrong, it
`failed`, and the cursor stays where it was then. Loops and recursion are given `time`, and break when it is over.

Facts, for a cursor that stands on a tape of tokens (`On`): what each step does there (`On.peek`, `On.matchKinds_cons`,
`On.descend`, ...).

The cursor is the parser itself, with its `tokens`, `current` and `depth`. `peek`, `previous`, `isAtEnd`, `check`, `advance`,
`matchKinds`, `consume`, `descend` and `synchronize` mirror the functions of these names. `unary` mirrors `unary`, `signed`
mirrors `prefix`, `leftAssociative` with `pairs` mirrors `left_associative` with `fold_left`, and `call` mirrors `parse` and
`parse_program`.
-/
import Mathlib.Tactic
import Reckoner.Program
import Reckoner.Proofs.Grammar

namespace Reckoner

/-- Tokens, how far reading has come in them, and how deep it is nested. All the places `(current, depth)` where it was
are kept in `trail`, the last one first; no step looks at them. -/
structure Cursor where
  tokens : List Token
  limit : Nat
  current : Nat := 0
  depth : Nat := 0
  trail : List (Nat × Nat) := [(0, 0)]

namespace Cursor

/-- what must never happen -/
inductive Break where
  /-- a token is looked up where there is none -/
  | outOfBounds
  /-- the depth is counted down from zero -/
  | underflow
  /-- a loop or recursion goes on for longer than it is given time -/
  | outOfTime
  deriving DecidableEq, Repr

/-- what a step gives: a result or a failure with its token, and the cursor after it -/
inductive Moved (α : Type) where
  | done (result : α) (c : Cursor)
  | failed (fault : Fault) (token : Token) (c : Cursor)
  | broken (why : Break)

def Step (α : Type) : Type := Cursor → Moved α

def Moved.andThen {α β : Type} (m : Moved α) (next : α → Step β) : Moved β :=
  match m with
  | .done a c => next a c
  | .failed fault token c => .failed fault token c
  | .broken why => .broken why

instance : Monad Step where
  pure a := fun c => .done a c
  bind x next := fun c => (x c).andThen next

section
variable {α β : Type}

@[simp] theorem pure_apply (a : α) (c : Cursor) : (pure a : Step α) c = .done a c := rfl

@[simp] theorem bind_apply (x : Step α) (next : α → Step β) (c : Cursor) : (x >>= next) c = (x c).andThen next := rfl

@[simp] theorem done_andThen (a : α) (c : Cursor) (next : α → Step β) :
    (Moved.done a c).andThen next = next a c := rfl

@[simp] theorem failed_andThen (fault : Fault) (token : Token) (c : Cursor) (next : α → Step β) :
    (Moved.failed fault token c).andThen next = .failed fault token c := rfl

@[simp] theorem ite_apply (p : Prop) [Decidable p] (x y : Step α) (c : Cursor) :
    (if p then x else y : Step α) c = if p then x c else y c := by
  split <;> rfl

end

/-! ## Single steps -/

section
variable {α : Type}

def halt (why : Break) : Step α :=
  fun _ => .broken why

def blame (fault : Fault) (token : Token) : Step α :=
  fun c => .failed fault token c

@[simp] theorem blame_apply (fault : Fault) (token : Token) (c : Cursor) :
    (blame fault token : Step α) c = .failed fault token c := rfl

def place (c : Cursor) (current depth : Nat) : Cursor :=
  { c with current, depth, trail := (current, depth) :: c.trail }

@[simp] theorem place_depth (c : Cursor) (current depth : Nat) : (c.place current depth).depth = depth := rfl

def lookUp (index : Nat) : Step Token := fun c =>
  match c.tokens[index]? with
  | some t => .done t c
  | none => .broken .outOfBounds

def peek : Step Token := fun c => lookUp c.current c

/-- the token before the next one, and the first one at the start -/
def previous : Step Token := fun c => lookUp (c.current - 1) c

def isAtEnd : Step Bool := do
  let t ← peek
  return t.kind == .eof

/-- whether a token of the given kind comes next; the end of the text is of no kind -/
def check (kind : Kind) : Step Bool := do
  if ← isAtEnd then return false
  else
    let t ← peek
    return t.kind == kind

def forward : Step Unit := fun c => .done () (c.place (c.current + 1) c.depth)

/-- the next token, which is passed over; at the end of the text nothing is -/
def advance : Step Token := do
  if ← isAtEnd then previous
  else
    forward
    previous

/-- passes over the next token if it is of one of the given kinds, and tells whether it was -/
def matchKinds : List Kind → Step Bool
  | [] => return false
  | kind :: kinds => do
    if ← check kind then
      let _ ← advance
      return true
    else matchKinds kinds

def blameNext (fault : Fault) : Step α := do
  let t ← peek
  blame fault t

/-- passes over the next token, which must be of the given kind -/
def consume (kind : Kind) (fault : Fault) : Step Unit := do
  if ← check kind then
    let _ ← advance
  else blameNext fault

/-- counts the depth up, which must stay within the limit -/
def descend : Step Unit := fun c =>
  if c.limit ≤ c.depth then blameNext .nestingTooDeep c else .done () (c.place c.current (c.depth + 1))

def ascend : Step Unit := fun c =>
  if c.depth = 0 then .broken .underflow else .done () (c.place c.current (c.depth - 1))

theorem ascend_of_eq {c : Cursor} {depth : Nat} (h : c.depth = depth + 1) :
    ascend c = .done () (c.place c.current depth) := by
  simp only [ascend, h, Nat.add_sub_cancel, Nat.succ_ne_zero, if_false]

def returnTo (depth : Nat) : Step Unit := fun c => .done () (c.place c.current depth)

/-- takes one step and then, whether it succeeded or failed, another -/
def lastly (step : Step α) (last : Step Unit) : Step α := fun c =>
  match step c with
  | .done a c => (last c).andThen fun _ c => .done a c
  | .failed fault token c => (last c).andThen fun _ c => .failed fault token c
  | .broken why => .broken why

/-- takes a step, and makes a diagnostic of its failure -/
def attempt (step : Step α) : Step (Except Diagnostic α) := fun c =>
  match step c with
  | .done a c => .done (.ok a) c
  | .failed fault token c => .done (.error (Failure.diagnostic ⟨fault, token, []⟩)) c
  | .broken why => .broken why

end

/-! ## Expressions -/

/-- the constant that a token holds -/
def constantOf (t : Token) : Step Expr := fun c =>
  match t.constant? with
  | some constant => .done (.literal constant) c
  | none => .failed .expectedExpression t c

/-- a constant, or an expression in parentheses; `inside` reads what stands in the parentheses -/
def primary (inside : Step Expr) : Step Expr := do
  if ← matchKinds [.falseWord] then return .literal (.bool false)
  else if ← matchKinds [.trueWord] then return .literal (.bool true)
  else if ← matchKinds [.nilWord] then return .literal .nil
  else if ← matchKinds carriers then
    let t ← previous
    constantOf t
  else if ← matchKinds [.leftParen] then
    let e ← inside
    consume .rightParen .unclosedParenthesis
    return .grouping e
  else blameNext .expectedExpression

/-- a unary operator and its operand, or a primary -/
def signed (operand inside : Step Expr) : Step Expr := do
  if ← matchKinds unaryOperators then
    let operator ← previous
    let e ← operand
    return .unary operator e
  else primary inside

/-- An operand, and the pairs that are folded onto it. However deep the pairs have counted, the depth is set back to what
it was. -/
def leftAssociative (operand : Step Expr) (pairs : Expr → Step Expr) : Step Expr := fun c =>
  lastly (do let e ← operand; pairs e) (returnTo c.depth) c

/-- an expression of the first of the levels, which stand loosest first -/
def climb (unary : Step Expr) (pairs : Level → Expr → Step Expr) : List Level → Step Expr
  | [] => unary
  | l :: tighter => leftAssociative (climb unary pairs tighter) (pairs l)

/-- an expression of the loosest level, or a conditional of three of them -/
def conditional (part : Step Expr) : Step Expr := do
  let condition ← part
  if ← matchKinds [.question] then
    let thenBranch ← part
    consume .colon .unterminatedTernary
    let elseBranch ← part
    return .ternary condition thenBranch elseBranch
  else return condition

mutual

/-- an operand: one level deeper than what is around it -/
def unary : (time : Nat) → Step Expr
  | 0 => halt .outOfTime
  | time + 1 => do
    descend
    lastly (signed (unary time) (conditional (climb (unary time) (pairs time) Level.all.reverse))) ascend

/-- the operators of a level, from the left, with the operands on their right, each one level deeper than the one before -/
def pairs : (time : Nat) → Level → Expr → Step Expr
  | 0, _, _ => halt .outOfTime
  | time + 1, l, left => do
    if ← matchKinds l.operators then
      let operator ← previous
      descend
      let right ← climb (unary time) (pairs time) l.tighter.reverse
      pairs time l (.binary left operator right)
    else return left

end

def expression (time : Nat) : Step Expr :=
  conditional (climb (unary time) (pairs time) Level.all.reverse)

/-- an expression that ends at a semicolon, which is passed over, or at the end of the text -/
def terminated (time : Nat) : Step Expr := do
  let e ← expression time
  if ← matchKinds [.semicolon] then return e
  else if ← isAtEnd then return e
  else blameNext .expectedSemicolon

/-! ## Programs -/

/-- passes over tokens up to just past a semicolon, or just before a keyword that opens a statement -/
def skip : (time : Nat) → Step Unit
  | 0 => halt .outOfTime
  | time + 1 => do
    if ← isAtEnd then return
    else
      let last ← previous
      if last.kind = .semicolon then return
      else
        let next ← peek
        if next.kind.startsStatement then return
        else
          let _ ← advance
          skip time

/-- takes up again after a failure: passes over one token at least -/
def synchronize (time : Nat) : Step Unit := do
  let _ ← advance
  skip time

/-- Reads expressions up to the end of the text, and adds them and the diagnostics to those there are. Each expression is
given the time `each`. -/
def readAll (each : Nat) : (time : Nat) → List Expr → List Diagnostic → Step (List Expr × List Diagnostic)
  | 0, _, _ => halt .outOfTime
  | time + 1, es, ds => do
    if ← isAtEnd then return (es, ds)
    else
      match ← attempt (terminated each) with
      | .ok e => readAll each time (es ++ [e]) ds
      | .error d =>
        synchronize each
        readAll each time es (ds ++ [d])

end Cursor

/-! ## Calls -/

/-- what can be asked of a reader -/
inductive Call where
  /-- one expression -/
  | single
  /-- everything up to the end -/
  | program
  deriving DecidableEq, Repr

/-- what a call gives: the expressions that were read, at most one of a single call, with diagnostics and log events -/
structure Reply where
  expressions : List Expr
  diagnostics : List Diagnostic
  events : List Event

namespace Reader

def reply (r : Reader) : Call → Reply
  | .single => ⟨r.single.result.toList, r.single.diagnostics, r.single.events⟩
  | .program => ⟨r.program.result, r.program.diagnostics, r.program.events⟩

def afterCall (r : Reader) : Call → Reader
  | .single => r.resumeFrom r.single
  | .program => r.resumeFrom r.program

def replies (r : Reader) : List Call → List Reply
  | [] => []
  | first :: more => r.reply first :: (r.afterCall first).replies more

end Reader

namespace Cursor

/-- the log of what is not read -/
def ignored : Step (List Event) := do
  if ← isAtEnd then return []
  else
    let next ← peek
    return [.ignored next]

def call (time : Nat) : Call → Step Reply
  | .single => do
    match ← attempt (expression time) with
    | .ok e =>
      let _ ← matchKinds [.semicolon]
      let events ← ignored
      return ⟨[e], [], events⟩
    | .error d => return ⟨[], [d], [.reported d]⟩
  | .program => do
    let (es, ds) ← readAll time time [] []
    return ⟨es, ds, ds.map .reported ++ [.parsed es.length]⟩

def calls (time : Nat) : List Call → Step (List Reply)
  | [] => return []
  | first :: more => do
    let reply ← call time first
    let replies ← calls time more
    return reply :: replies

/-- A cursor at the start of the tokens. If the last token is not one that ends a text, such a token is added. -/
def ofTokens (tokens : List Token) (limit : Nat) : Cursor where
  tokens := if tokens.getLast?.map (·.kind) = some .eof then tokens else tokens ++ [{ kind := .eof, lexeme := "" }]
  limit := limit

end Cursor

/-! ## A cursor on a tape -/

/-- tokens up to the first that ends a text, and whatever stands behind it -/
structure Tape where
  body : List Token
  eof : Token
  rest : List Token
  limit : Nat
  body_plain : ∀ t ∈ body, t.kind ≠ .eof
  eof_kind : eof.kind = .eof

namespace Cursor

/-- No place is behind `last` or deeper than `limit`, and none is in front of an earlier one. Later places stand first. -/
structure Tracked (last limit : Nat) (trail : List (Nat × Nat)) : Prop where
  current_le : ∀ p ∈ trail, p.1 ≤ last
  depth_le : ∀ p ∈ trail, p.2 ≤ limit
  ordered : trail.Pairwise fun later earlier => earlier.1 ≤ later.1

/-- The cursor stands on the tape, with the tokens `ts` in front of the end of the text, and all the places where it was
are as they should be. -/
structure On (v : Tape) (c : Cursor) (ts : List Token) : Prop where
  tokens_eq : c.tokens = v.body ++ v.eof :: v.rest
  limit_eq : c.limit = v.limit
  current_le : c.current ≤ v.body.length
  depth_le : c.depth ≤ v.limit
  unread : v.body.drop c.current = ts
  trail_eq : ∃ older, c.trail = (c.current, c.depth) :: older
  tracked : Tracked v.body.length v.limit c.trail

namespace On

variable {v : Tape} {c : Cursor} {t : Token} {ts rest : List Token}

/-- a cursor that moves on, or changes its depth -/
theorem place (h : c.On v ts) {current depth : Nat} (hle : c.current ≤ current) (hcurrent : current ≤ v.body.length)
    (hdepth : depth ≤ v.limit) : (c.place current depth).On v (v.body.drop current) := by
  obtain ⟨older, htrail⟩ := h.trail_eq
  refine ⟨h.tokens_eq, h.limit_eq, hcurrent, hdepth, rfl, ⟨c.trail, rfl⟩, ?_, ?_, ?_⟩
  · intro p hp
    rcases List.mem_cons.1 hp with rfl | hp
    · exact hcurrent
    · exact h.tracked.current_le p hp
  · intro p hp
    rcases List.mem_cons.1 hp with rfl | hp
    · exact hdepth
    · exact h.tracked.depth_le p hp
  · -- the last place is behind all the earlier ones, and the new one is not in front of it
    apply List.Pairwise.cons _ h.tracked.ordered
    intro p hp
    have hordered := h.tracked.ordered
    rw [htrail] at hp hordered
    rcases List.mem_cons.1 hp with rfl | hp
    · exact hle
    · exact ((List.pairwise_cons.1 hordered).1 p hp).trans hle

/-- a cursor at another depth -/
theorem at_depth (h : c.On v ts) {depth : Nat} (hdepth : depth ≤ v.limit) : (c.place c.current depth).On v ts := by
  have hplace := h.place le_rfl h.current_le hdepth
  rwa [h.unread] at hplace

theorem getElem?_current (h : c.On v ts) : c.tokens[c.current]? = some (ts.headD v.eof) := by
  rw [h.tokens_eq, ← h.unread]
  rcases Nat.lt_or_ge c.current v.body.length with hlt | hge
  · rw [List.getElem?_append_left hlt, List.getElem?_eq_getElem hlt, List.drop_eq_getElem_cons hlt, List.headD_cons]
  · rw [le_antisymm h.current_le hge, List.getElem?_append_right le_rfl, List.drop_length, Nat.sub_self]
    rfl

theorem kind_ne_eof (h : c.On v (t :: rest)) : t.kind ≠ .eof := by
  apply v.body_plain
  apply List.mem_of_mem_drop (i := c.current)
  rw [h.unread]
  exact List.mem_cons_self

theorem current_lt (h : c.On v (t :: rest)) : c.current < v.body.length := by
  by_contra hge
  have hnil := List.drop_eq_nil_of_le (not_lt.1 hge)
  rw [h.unread] at hnil
  cases hnil

/-- the cursor behind the next token -/
theorem next (h : c.On v (t :: rest)) : (c.place (c.current + 1) c.depth).On v rest := by
  have hplace := h.place (Nat.le_succ _) h.current_lt h.depth_le
  rwa [Nat.succ_eq_add_one, ← List.drop_drop, h.unread] at hplace

theorem peek (h : c.On v ts) : Cursor.peek c = .done (ts.headD v.eof) c := by
  simp only [Cursor.peek, lookUp, h.getElem?_current]

theorem isAtEnd_nil (h : c.On v []) : isAtEnd c = .done true c := by
  simp [isAtEnd, h.peek, v.eof_kind]

theorem isAtEnd_cons (h : c.On v (t :: rest)) : isAtEnd c = .done false c := by
  simp [isAtEnd, h.peek, h.kind_ne_eof]

/-- there is a token before the next one, at the start as well -/
theorem exists_previous (h : c.On v ts) : ∃ t, previous c = .done t c := by
  have hlt : c.current - 1 < c.tokens.length := by
    have hle := h.current_le
    rw [h.tokens_eq, List.length_append, List.length_cons]
    omega
  exact ⟨c.tokens[c.current - 1], by simp only [previous, lookUp, List.getElem?_eq_getElem hlt]⟩

theorem previous_next (h : c.On v (t :: rest)) :
    previous (c.place (c.current + 1) c.depth) = .done t (c.place (c.current + 1) c.depth) := by
  have hlook := h.getElem?_current
  simp only [previous, lookUp, Cursor.place, Nat.add_sub_cancel, hlook, List.headD_cons]

theorem check_nil (h : c.On v []) (kind : Kind) : check kind c = .done false c := by
  simp [check, h.isAtEnd_nil]

theorem check_cons (h : c.On v (t :: rest)) (kind : Kind) : check kind c = .done (t.kind == kind) c := by
  simp [check, h.isAtEnd_cons, h.peek]

theorem advance (h : c.On v (t :: rest)) :
    Cursor.advance c = .done t (c.place (c.current + 1) c.depth) := by
  simp [Cursor.advance, h.isAtEnd_cons, forward, h.previous_next]

theorem matchKinds_nil (h : c.On v []) (kinds : List Kind) : matchKinds kinds c = .done false c := by
  induction kinds with
  | nil => rfl
  | cons kind kinds ih => simp [matchKinds, h.check_nil, ih]

theorem matchKinds_cons (h : c.On v (t :: rest)) (kinds : List Kind) :
    matchKinds kinds c = if t.kind ∈ kinds then .done true (c.place (c.current + 1) c.depth) else .done false c := by
  induction kinds with
  | nil => rfl
  | cons kind kinds ih =>
    by_cases hkind : t.kind = kind
    · simp [matchKinds, h.check_cons, h.advance, hkind]
    · simp [matchKinds, h.check_cons, hkind, ih]

section
variable {α : Type} (kinds : List Kind) (yes no : Step α)

/-- at the end of the text, no token is one of those looked for -/
theorem branch_nil (h : c.On v []) : (do if ← matchKinds kinds then yes else no : Step α) c = no c := by
  simp [h.matchKinds_nil]

/-- a step that depends on the next token, which it passes over if it is one of those looked for -/
theorem branch_cons (h : c.On v (t :: rest)) :
    (do if ← matchKinds kinds then yes else no : Step α) c =
      if t.kind ∈ kinds then yes (c.place (c.current + 1) c.depth) else no c := by
  by_cases hkind : t.kind ∈ kinds
  · simp [h.matchKinds_cons, hkind]
  · simp [h.matchKinds_cons, hkind]

end

theorem blameNext {α : Type} (h : c.On v ts) (fault : Fault) :
    (Cursor.blameNext fault c : Moved α) = .failed fault (ts.headD v.eof) c := by
  simp [Cursor.blameNext, h.peek]

theorem descend_of_lt (h : c.On v ts) (hlt : c.depth < v.limit) :
    descend c = .done () (c.place c.current (c.depth + 1)) := by
  have hlimit : ¬ c.limit ≤ c.depth := by
    rw [h.limit_eq]
    omega
  simp only [descend, hlimit, if_false]

theorem descend_of_eq (h : c.On v ts) (heq : c.depth = v.limit) :
    descend c = .failed .nestingTooDeep (ts.headD v.eof) c := by
  have hlimit : c.limit ≤ c.depth := by rw [h.limit_eq, heq]
  simp only [descend, hlimit, if_true, h.blameNext]

end On

end Cursor

end Reckoner
