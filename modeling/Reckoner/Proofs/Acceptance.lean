/-
Programs are read, by `parse_program`, exactly as the grammar derives them.

Results:
- `program_sound`: a program that was read without a failure has a derivation, with the trees that were read;
- `program_complete`: the tokens of a derivation are read without a failure, given as many levels as tokens;
- `program_derivation_unique`: tokens have one derivation as a program at most;
- `program_accepts_iff_derives`: for tokens that end in their only end-of-text token, a reader reports nothing and
  gives `es` if and only if the tokens before the end have a derivation with the trees `es`.

Tokens of a literal kind that carry no constant need no exception: the grammar derives them from nothing, and
reading refuses them.
-/
import Mathlib.Tactic
import Reckoner.Program
import Reckoner.Proofs.Reading

namespace Reckoner

/-! ## One expression and its end -/

theorem stops_semicolon {t : Token} (h : t.kind = .semicolon) (ts : List Token) : Reading.Stops (t :: ts) :=
  Reading.stops_cons ts (by simp [h, Kind.level?]) (by simp [h])

/-- an expression that ended is derived from the tokens up to its semicolon, or from all of them -/
theorem terminated_sound {eof : Token} {limit : Nat} {ts : List Token} {e : Expr} {rest : List Token}
    (h : Reading.terminated eof limit ts = .done e rest) :
    ∃ d : Derivation .expression, d.tree = e ∧ e.cost ≤ limit ∧
      (d.yield = ts ∧ rest = [] ∨ ∃ t : Token, t.kind = .semicolon ∧ d.yield ++ t :: rest = ts) := by
  obtain ⟨a, mid, ha, h1⟩ := Reading.andThen_eq_done_iff.1 h
  obtain ⟨d, rfl, rfl, hc⟩ := Reading.expression_sound ha
  cases mid with
  | nil =>
    cases h1
    exact ⟨d, rfl, hc, Or.inl ⟨by simp, rfl⟩⟩
  | cons t us =>
    simp only at h1
    split at h1
    · next ht =>
      cases h1
      exact ⟨d, rfl, hc, Or.inr ⟨t, ht, rfl⟩⟩
    · cases h1

theorem terminated_of_end (eof : Token) {limit : Nat} (d : Derivation .expression) (hc : d.tree.cost ≤ limit) :
    Reading.terminated eof limit d.yield = .done d.tree [] := by
  have h := Reading.expression_complete eof limit [] d hc Reading.stops_nil
  rw [List.append_nil] at h
  simp only [Reading.terminated, h, Reading.done_andThen]

theorem terminated_of_semicolon (eof : Token) {limit : Nat} (d : Derivation .expression) {t : Token}
    (ht : t.kind = .semicolon) (rest : List Token) (hc : d.tree.cost ≤ limit) :
    Reading.terminated eof limit (d.yield ++ t :: rest) = .done d.tree rest := by
  have h := Reading.expression_complete eof limit (t :: rest) d hc (stops_semicolon ht rest)
  simp only [Reading.terminated, h, Reading.done_andThen, ht, if_true]

/-! ## Whole programs -/

theorem program_sound {eof : Token} {limit : Nat} (ts : List Token)
    (h : (Program.read eof limit ts).failures = []) :
    ∃ p : ProgramDerivation, p.yield = ts ∧ p.trees = (Program.read eof limit ts).expressions := by
  revert h
  refine Program.read_induction (motive := fun ts p => p.failures = [] →
    ∃ d : ProgramDerivation, d.yield = ts ∧ d.trees = p.expressions) ?_ ?_ ?_ ts
  · intro _
    exact ⟨⟨[], none⟩, rfl, rfl⟩
  · intro ts e rest hr ih h
    obtain ⟨d, rfl, -, ⟨hy, rfl⟩ | ⟨t, ht, hy⟩⟩ := terminated_sound hr
    · refine ⟨⟨[], some d⟩, hy, ?_⟩
      rw [Program.read_nil]
      rfl
    · obtain ⟨p, hp, htrees⟩ := ih h
      refine ⟨⟨(d, ⟨t, ht⟩) :: p.ended, p.last⟩, ?_, ?_⟩
      · rw [← hy, ← hp, ProgramDerivation.yield_cons]
      · simp only [Program.push, ← htrees]
        rfl
  · intro ts f _ _ _ h
    cases h

theorem program_complete (eof : Token) {limit : Nat} (p : ProgramDerivation) (h : p.yield.length ≤ limit) :
    Program.read eof limit p.yield = ⟨p.trees, []⟩ := by
  obtain ⟨ended, last⟩ := p
  have hcost : ∀ d : Derivation .expression, d.yield.length ≤ limit → d.tree.cost ≤ limit := by
    intro d hd
    have := d.tree.cost_le_width
    rw [d.length_yield] at hd
    omega
  induction ended with
  | nil =>
    cases last with
    | none => exact Program.read_nil eof limit
    | some d =>
      have hd := terminated_of_end eof d (hcost d h)
      rw [ProgramDerivation.yield_nil, Option.elim, Program.read_of_done hd, Program.read_nil]
      rfl
  | cons s more ih =>
    obtain ⟨d, t, ht⟩ := s
    rw [ProgramDerivation.yield_cons] at h ⊢
    rw [List.length_append, List.length_cons] at h
    have hd := terminated_of_semicolon eof d ht (ProgramDerivation.yield ⟨more, last⟩) (hcost d (by omega))
    rw [Program.read_of_done hd, ih (by omega)]
    rfl

/-- the last expression of a program has no semicolon after it, so it is not the first of several -/
theorem yield_last_ne {last last' : Option (Derivation .expression)} {d : Derivation .expression}
    {t : { t : Token // t.kind = .semicolon }}
    {ended : List (Derivation .expression × { t : Token // t.kind = .semicolon })} :
    ProgramDerivation.yield ⟨[], last⟩ ≠ ProgramDerivation.yield ⟨(d, t) :: ended, last'⟩ := by
  intro h
  rw [ProgramDerivation.yield_nil, ProgramDerivation.yield_cons] at h
  cases last with
  | none => exact absurd h (by simp)
  | some d' =>
    rw [Option.elim, ← List.append_nil d'.yield] at h
    have h1 := (Reading.derivation_unique Reading.stops_nil (stops_semicolon t.property _) h).2
    cases h1

/-- **No ambiguity.** Tokens have one derivation as a program at most. -/
theorem program_derivation_unique (p p' : ProgramDerivation) (h : p.yield = p'.yield) : p = p' := by
  obtain ⟨ended, last⟩ := p
  obtain ⟨ended', last'⟩ := p'
  induction ended generalizing ended' with
  | nil =>
    cases ended' with
    | cons s more => exact absurd h yield_last_ne
    | nil =>
      simp only [ProgramDerivation.yield_nil] at h
      rcases last with _ | d <;> rcases last' with _ | d'
      · rfl
      · exact absurd h.symm d'.yield_ne_nil
      · exact absurd h d.yield_ne_nil
      · rw [Option.elim, Option.elim, ← List.append_nil d.yield, ← List.append_nil d'.yield] at h
        rw [(Reading.derivation_unique Reading.stops_nil Reading.stops_nil h).1]
  | cons s more ih =>
    obtain ⟨d, t⟩ := s
    cases ended' with
    | nil => exact absurd h.symm yield_last_ne
    | cons s' more' =>
      obtain ⟨d', t'⟩ := s'
      rw [ProgramDerivation.yield_cons, ProgramDerivation.yield_cons] at h
      obtain ⟨rfl, h1⟩ := Reading.derivation_unique (stops_semicolon t.property _) (stops_semicolon t'.property _) h
      obtain ⟨ht, h2⟩ := List.cons.inj h1
      obtain rfl := Subtype.ext ht
      obtain ⟨rfl, rfl⟩ := ProgramDerivation.mk.inj (ih more' h2)
      rfl

/-! ## What readers return -/

/-- the trees that a reader returns: by reading one expression, or all of them -/
def Reader.Returns (r : Reader) (e : Expr) : Prop :=
  r.single.result = some e ∨ e ∈ r.program.result

/-- **Every tree that is returned is derived from tokens of the reader and fits the limit,** also from tokens with
faults elsewhere. -/
theorem Reader.Returns.derived {r : Reader} {e : Expr} (h : r.Returns e) :
    ∃ d : Derivation .expression, d.tree = e ∧ e.cost ≤ r.limit ∧ d.yield ⊆ r.unread := by
  rcases h with h | h
  · unfold Reader.single at h
    split at h
    · next e' rest he =>
      cases h
      obtain ⟨d, hy, ht, hc⟩ := Reading.expression_sound he
      exact ⟨d, ht, hc, hy ▸ List.subset_append_left _ _⟩
    · cases h
  · revert h
    refine Program.read_induction (motive := fun ts p => e ∈ p.expressions →
      ∃ d : Derivation .expression, d.tree = e ∧ e.cost ≤ r.limit ∧ d.yield ⊆ ts) ?_ ?_ ?_ r.unread
    · intro h
      cases h
    · intro ts e' rest hr ih h
      rcases List.mem_cons.1 h with rfl | h
      · obtain ⟨d, ht, hc, ⟨hy, -⟩ | ⟨t, -, hy⟩⟩ := terminated_sound hr
        · exact ⟨d, ht, hc, hy ▸ List.Subset.refl _⟩
        · exact ⟨d, ht, hc, hy ▸ List.subset_append_left _ _⟩
      · have hadvances := Reading.terminated_advances r.eof r.limit ts
        rw [hr] at hadvances
        obtain ⟨d, ht, hc, hy⟩ := ih h
        exact ⟨d, ht, hc, List.Subset.trans hy hadvances.1.subset⟩
    · intro ts f _ hr ih h
      have hadvances := Reading.terminated_advances r.eof r.limit ts
      rw [hr] at hadvances
      obtain ⟨d, ht, hc, hy⟩ := ih h
      exact ⟨d, ht, hc, List.Subset.trans hy ((resume_suffix _).trans hadvances).subset⟩

/-- **A program is accepted exactly if the grammar derives it.** The tokens `body` come before their only
end-of-text token, and the limit allows as many levels as there are tokens. Nothing is reported and the expressions
are `es` if and only if `body` has a derivation with the trees `es`; and it has one derivation at most. -/
theorem program_accepts_iff_derives (body : List Token) (eof : Token) (limit : Nat)
    (hbody : ∀ t ∈ body, t.kind ≠ .eof) (heof : eof.kind = .eof) (hlimit : (body ++ [eof]).length ≤ limit) :
    (∀ es : List Expr,
      ((Reader.ofTokens (body ++ [eof]) limit).program.diagnostics = [] ∧
        (Reader.ofTokens (body ++ [eof]) limit).program.result = es) ↔
      ∃ p : ProgramDerivation, p.yield = body ∧ p.trees = es) ∧
    ∀ p p' : ProgramDerivation, p.yield = body → p'.yield = body → p = p' := by
  refine ⟨fun es => ?_, fun p p' hp hp' => program_derivation_unique p p' (hp.trans hp'.symm)⟩
  rw [Reader.ofTokens_concat hbody heof]
  simp only [Reader.program, List.map_eq_nil_iff]
  constructor
  · rintro ⟨h, rfl⟩
    exact program_sound body h
  · rintro ⟨p, rfl, rfl⟩
    rw [List.length_append] at hlimit
    rw [program_complete eof p (by omega)]
    exact ⟨rfl, rfl⟩

namespace Sample

def number (n : Int32) (text : String) : Token := { kind := .integer, lexeme := text, literal := some (.integer n) }

def minus : Token := { kind := .minus, lexeme := "-" }

/-- the tokens of `2 - 3 - 1; (nil)` -/
def body : List Token :=
  [number 2 "2", minus, number 3 "3", minus, number 1 "1", { kind := .semicolon, lexeme := ";" },
    { kind := .leftParen, lexeme := "(" }, { kind := .nilWord, lexeme := "nil" }, { kind := .rightParen, lexeme := ")" }]

def operand (n : Int32) (text : String) : Derivation (.binary .product) :=
  (Derivation.bare (.literal (number n text) (.integer n) (.integer (by simp [number, carriers]) rfl))).lift .sum

/-- the derivation of `2 - 3 - 1`: the left difference is the operand of the right one -/
def differences : Derivation .expression :=
  .plain (.operand (l := .equality) (.operand (l := .comparison) (.operand (l := .logic)
    (.fold (l := .sum)
      (.fold (l := .sum) (.operand (operand 2 "2")) minus (operand 3 "3") (by decide))
      minus (operand 1 "1") (by decide)))))

/-- the derivation of `(nil)` -/
def group : Derivation .expression :=
  .plain (.operand (l := .equality) (Derivation.lift (.bare (.group { kind := .leftParen, lexeme := "(" }
    (.plain (.operand (l := .equality) (Derivation.lift
      (.bare (.literal { kind := .nilWord, lexeme := "nil" } .nil (.nil rfl))) .equality)))
    { kind := .rightParen, lexeme := ")" } rfl rfl)) .equality))

end Sample

/-- `2 - 3 - 1; (nil)` is accepted with the trees of its derivation: differences group from the left. -/
theorem program_accepts_differences :
    (∀ t ∈ Sample.body, t.kind ≠ .eof) ∧
    (Reader.ofTokens (Sample.body ++ [{ kind := .eof, lexeme := "" }]) 10).program.diagnostics = [] ∧
    (Reader.ofTokens (Sample.body ++ [{ kind := .eof, lexeme := "" }]) 10).program.result =
      [.binary (.binary (.literal (.integer 2)) Sample.minus (.literal (.integer 3))) Sample.minus
        (.literal (.integer 1)), .grouping (.literal .nil)] := by
  have hbody : ∀ t ∈ Sample.body, t.kind ≠ .eof := by decide
  refine ⟨hbody, ?_⟩
  refine ((program_accepts_iff_derives Sample.body { kind := .eof, lexeme := "" } 10 hbody rfl (by decide)).1 _).2 ?_
  exact ⟨⟨[(Sample.differences, ⟨{ kind := .semicolon, lexeme := ";" }, rfl⟩)], some Sample.group⟩, rfl, rfl⟩

end Reckoner
