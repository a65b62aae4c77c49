/-
Reading an expression and deriving it are the same, up to the room that the tree takes.

`Expr.cost` is the room of a tree: a constant takes one level, a grouping or unary operator one more than what is in
it, and an operator that is the i-th of its chain takes `i` levels on top of its right operand. What stands on the
left of an operator is read before the operator takes its level, so it is not charged for it.

- `expression_sound`: an expression that was read has a derivation of the tokens taken, and its tree costs at most
  the room given;
- `expression_complete`: what has a derivation that fits the room is read, whatever follows, unless that goes on the
  expression;
- `derivation_unique`: tokens before such a follower have one derivation at most.

Reading climbs the levels from the tightest to the loosest. Soundness follows the ladder of levels upwards
(`Ladder`), with one induction on the room for operands and chains together. Completeness is by induction on the
derivation; for a level it says what is left to do for the chain (`Reads`), because the left operand of an operator
is followed by that operator and never ends the chain.
-/
import Mathlib.Tactic
import Reckoner.Expr.Reader
import Reckoner.Proofs.Grammar

namespace Reckoner

/-! ## The room that a tree takes -/

namespace Expr

/-- how many operators of one level are at the root of a tree and down its left side without a break -/
def folds (level? : Option Level) : Expr → Nat
  | .binary a f _ => if f.kind.level? = level? then a.folds level? + 1 else 0
  | .literal _ | .grouping _ | .unary .. | .ternary .. => 0

/-- the room that a tree takes -/
def cost : Expr → Nat
  | .literal _ => 1
  | .grouping a | .unary _ a => a.cost + 1
  | .binary a f b => max a.cost (a.folds f.kind.level? + 1 + b.cost)
  | .ternary a b c => max a.cost (max b.cost c.cost)

theorem cost_pos (e : Expr) : 0 < e.cost := by
  induction e with
  | literal | grouping | unary => simp [cost]
  | binary _ _ _ iha _ => simp only [cost]; omega
  | ternary _ _ _ iha _ _ => simp only [cost]; omega

theorem folds_lt_width (level? : Option Level) (e : Expr) : e.folds level? < e.width := by
  induction e with
  | literal | grouping | unary | ternary => simp [folds, width]
  | binary a f b iha _ =>
    have := b.width_pos
    simp only [folds, width]
    split <;> omega

/-- a tree takes no more room than it has tokens -/
theorem cost_le_width (e : Expr) : e.cost ≤ e.width := by
  induction e with
  | literal => simp [cost, width]
  | grouping | unary => simp only [cost, width]; omega
  | binary a f b iha ihb =>
    have := a.folds_lt_width f.kind.level?
    simp only [cost, width]
    omega
  | ternary => simp only [cost, width]; omega

end Expr

theorem Derivation.folds_operand {l : Level} (d : Derivation l.operand) : d.tree.folds (some l) = 0 := by
  cases h : d.tree with
  | binary a f b =>
    have hf : ¬ f.kind.level? = some l := fun hf => d.tree_operand_ne ((l.mem_operators_iff _).2 hf) h
    simp only [Expr.folds, hf, if_false]
  | literal | grouping | unary | ternary => rfl

namespace Reading

/-! ## What sequences and single steps give -/

theorem andThen_eq_done_iff {α β : Type} {r : Reading α} {next : α → List Token → Reading β} {b : β}
    {rest : List Token} :
    r.andThen next = .done b rest ↔ ∃ a mid, r = .done a mid ∧ next a mid = .done b rest := by
  cases r with
  | done a mid => simp [andThen]
  | failed f => simp [andThen]

@[simp] theorem done_andThen {α β : Type} (a : α) (ts : List Token) (next : α → List Token → Reading β) :
    (done a ts).andThen next = next a ts := rfl

theorem andThen_assoc {α β γ : Type} (r : Reading α) (f : α → List Token → Reading β)
    (g : β → List Token → Reading γ) :
    (r.andThen f).andThen g = r.andThen fun a ts => (f a ts).andThen g := by
  cases r <;> rfl

theorem andThen_done {α : Type} (r : Reading α) : r.andThen .done = r := by
  cases r <;> rfl

theorem chains_append (chain : Level → Expr → List Token → Reading Expr) (ls ms : List Level) (e : Expr)
    (ts : List Token) : chains chain (ls ++ ms) e ts = (chains chain ls e ts).andThen (chains chain ms) := by
  induction ls generalizing e ts with
  | nil => rfl
  | cons l ls ih =>
    simp only [List.cons_append, chains, andThen_assoc]
    congr 1
    funext a us
    exact ih a us

/-- the loosest of some levels comes last -/
theorem climb_concat (operand : List Token → Reading Expr) (chain : Level → Expr → List Token → Reading Expr)
    (ls : List Level) (l : Level) (ts : List Token) :
    climb operand chain (ls ++ [l]) ts = (climb operand chain ls ts).andThen (chain l) := by
  have h : ∀ e us, chains chain (ls ++ [l]) e us = (chains chain ls e us).andThen (chain l) := by
    intro e us
    rw [chains_append]
    congr 1
    funext a vs
    exact andThen_done (chain l a vs)
  simp only [climb, andThen_assoc]
  congr 1
  funext a us
  exact h a us

theorem expect_eq_done_iff {eof : Token} {kind : Kind} {fault : Fault} {ts rest : List Token} {u : Unit} :
    expect eof kind fault ts = .done u rest ↔ ∃ t, t.kind = kind ∧ ts = t :: rest := by
  cases ts with
  | nil => simp [expect, fail]
  | cons t more =>
    by_cases h : t.kind = kind
    · simp [expect, h]
    · simp only [expect, h, if_false, fail, reduceCtorEq, false_iff, not_exists, not_and]
      rintro t' ht' heq
      obtain ⟨rfl, -⟩ := List.cons.inj heq
      exact h ht'

/-! ## Soundness -/

/-- levels that are climbed one by one, from one symbol up to another -/
inductive Ladder : Symbol → List Level → Symbol → Prop where
  | nil (s : Symbol) : Ladder s [] s
  | cons {l : Level} {ls : List Level} {s : Symbol} (h : Ladder (.binary l) ls s) : Ladder l.operand (l :: ls) s

theorem Ladder.concat {s : Symbol} {ls : List Level} {l : Level} (h : Ladder s ls l.operand) :
    Ladder s (ls ++ [l]) (.binary l) := by
  generalize hs : l.operand = s' at h
  induction h with
  | nil s => subst hs; exact .cons (.nil _)
  | cons _ ih => exact .cons (ih hs)

theorem ladder_tighter (l : Level) : Ladder .unary l.tighter l.operand := by
  have h1 : Ladder .unary [] Level.exponent.operand := .nil _
  have h2 : Ladder .unary Level.product.tighter Level.product.operand := h1.concat
  have h3 : Ladder .unary Level.sum.tighter Level.sum.operand := h2.concat
  have h4 : Ladder .unary Level.logic.tighter Level.logic.operand := h3.concat
  have h5 : Ladder .unary Level.comparison.tighter Level.comparison.operand := h4.concat
  have h6 : Ladder .unary Level.equality.tighter Level.equality.operand := h5.concat
  cases l <;> assumption

theorem ladder_all : Ladder .unary Level.all (.binary .equality) :=
  (ladder_tighter .equality).concat

theorem exists_ladder (l : Level) : ∃ ls, Ladder (.binary l) ls (.binary .equality) := by
  have h1 : Ladder (.binary .equality) [] (.binary .equality) := .nil _
  have h2 : Ladder (.binary .comparison) [.equality] (.binary .equality) := .cons (l := .equality) h1
  have h3 : Ladder (.binary .logic) [.comparison, .equality] (.binary .equality) := .cons (l := .comparison) h2
  have h4 : Ladder (.binary .sum) [.logic, .comparison, .equality] (.binary .equality) := .cons (l := .logic) h3
  have h5 : Ladder (.binary .product) [.sum, .logic, .comparison, .equality] (.binary .equality) := .cons (l := .sum) h4
  cases l with
  | exponent => exact ⟨_, .cons (l := .product) h5⟩
  | product => exact ⟨_, h5⟩
  | sum => exact ⟨_, h4⟩
  | logic => exact ⟨_, h3⟩
  | comparison => exact ⟨_, h2⟩
  | equality => exact ⟨_, h1⟩

/-- what is derived from the lower end of a ladder is derived from its upper end -/
theorem Ladder.exists_lift {s s' : Symbol} {ls : List Level} (h : Ladder s ls s') (d : Derivation s) :
    ∃ d' : Derivation s', d'.yield = d.yield ∧ d'.tree = d.tree := by
  induction h with
  | nil s => exact ⟨d, rfl, rfl⟩
  | cons _ ih => exact ih (.operand d)

/-- reading gave `e` and left `rest`: there is a derivation of the tokens taken, and it fits the room -/
def Derived (s : Symbol) (room : Nat) (ts : List Token) (e : Expr) (rest : List Token) : Prop :=
  ∃ d : Derivation s, d.yield ++ rest = ts ∧ d.tree = e ∧ e.cost ≤ room

/-- a token that carries its constant denotes it -/
theorem denotes_of_constant? {t : Token} {c : Constant} (hk : t.kind ∈ carriers) (h : t.constant? = some c) :
    Denotes t c := by
  obtain ⟨l, hl, rfl⟩ := Option.map_eq_some_iff.1 h
  cases l with
  | text s => exact .string hk hl
  | integer n => exact .integer hk hl
  | double x => exact .double hk hl

/-- the kinds that carry their constant are read as that constant, or not at all -/
theorem primary_carried {eof : Token} {inside : List Token → Reading Expr} {t : Token} (hk : t.kind ∈ carriers)
    {us : List Token} {e : Expr} {rest : List Token} (h : primary eof inside (t :: us) = .done e rest) :
    ∃ c, t.constant? = some c ∧ e = .literal c ∧ rest = us := by
  simp only [carriers, List.mem_cons, List.not_mem_nil, or_false] at hk
  cases hc : t.constant? with
  | none => rcases hk with hk | hk | hk <;> simp [primary, hk, hc] at h
  | some c =>
    rcases hk with hk | hk | hk <;> simp only [primary, hk, hc, done.injEq] at h <;>
      exact ⟨c, rfl, h.1.symm, h.2.symm⟩

theorem primary_sound {eof : Token} {room : Nat} {inside : List Token → Reading Expr}
    (hi : ∀ ts e rest, inside ts = .done e rest → Derived .expression room ts e rest)
    {ts : List Token} {e : Expr} {rest : List Token} (h : primary eof inside ts = .done e rest) :
    Derived .primary (room + 1) ts e rest := by
  have leaf : ∀ {t : Token} {c : Constant}, Denotes t c → Derived .primary (room + 1) (t :: rest) (.literal c) rest :=
    fun ht => ⟨.literal _ _ ht, rfl, rfl, by simp [Expr.cost]⟩
  cases ts with
  | nil => simp [primary, fail] at h
  | cons t us =>
    by_cases hcarrier : t.kind ∈ carriers
    · obtain ⟨c, hc, rfl, rfl⟩ := primary_carried hcarrier h
      exact leaf (denotes_of_constant? hcarrier hc)
    simp only [primary] at h
    split at h
    · next hk => cases h; exact leaf (.false hk)
    · next hk => cases h; exact leaf (.true hk)
    · next hk => cases h; exact leaf (.nil hk)
    · next hk => exact absurd (by simp [hk, carriers]) hcarrier
    · next hk => exact absurd (by simp [hk, carriers]) hcarrier
    · next hk => exact absurd (by simp [hk, carriers]) hcarrier
    · next hk =>
      obtain ⟨a, mid, ha, h1⟩ := andThen_eq_done_iff.1 h
      obtain ⟨_, _, hc, h2⟩ := andThen_eq_done_iff.1 h1
      obtain ⟨closing, hck, rfl⟩ := expect_eq_done_iff.1 hc
      cases h2
      obtain ⟨d, rfl, rfl, hcost⟩ := hi _ _ _ ha
      exact ⟨.group t d closing hk hck, by simp [Derivation.yield], rfl, by simpa [Expr.cost] using hcost⟩
    · cases h

theorem unary_sound {eof : Token} {room : Nat} {operand inside : List Token → Reading Expr}
    (ho : ∀ ts e rest, operand ts = .done e rest → Derived .unary room ts e rest)
    (hi : ∀ ts e rest, inside ts = .done e rest → Derived .expression room ts e rest)
    {ts : List Token} {e : Expr} {rest : List Token} (h : unary eof operand inside ts = .done e rest) :
    Derived .unary (room + 1) ts e rest := by
  have plain : primary eof inside ts = .done e rest → Derived .unary (room + 1) ts e rest := by
    intro hp
    obtain ⟨d, hy, ht, hc⟩ := primary_sound hi hp
    exact ⟨.bare d, hy, ht, hc⟩
  cases ts with
  | nil => exact plain h
  | cons t us =>
    simp only [unary] at h
    split at h
    · next hk =>
      obtain ⟨a, mid, ha, h1⟩ := andThen_eq_done_iff.1 h
      cases h1
      obtain ⟨d, rfl, rfl, hc⟩ := ho _ _ _ ha
      exact ⟨.sign t d ((mem_unaryOperators_iff _).2 hk), rfl, rfl, by simpa [Expr.cost] using hc⟩
    · exact plain h

/-- what a chain that started from `a` gives: a derivation that goes on `a`, within the room that the chain had
before it took in the operators of `a` -/
def ChainDerived (room : Nat) {l : Level} (a : Derivation (.binary l)) (ts : List Token) (e : Expr)
    (rest : List Token) : Prop :=
  ∃ d : Derivation (.binary l), d.yield ++ rest = a.yield ++ ts ∧ d.tree = e ∧
    e.cost ≤ a.tree.folds (some l) + room

def OperandSound (eof : Token) (room : Nat) : Prop :=
  ∀ ts e rest, operand eof room ts = .done e rest → Derived .unary room ts e rest

def ChainSound (eof : Token) (room : Nat) : Prop :=
  ∀ (l : Level) (a : Derivation (.binary l)) (ts : List Token) (e : Expr) (rest : List Token),
    a.tree.cost ≤ a.tree.folds (some l) + room → chain eof room l a.tree ts = .done e rest →
    ChainDerived room a ts e rest

/-- up the ladder: each level starts from what the tighter ones gave, with no operator of its own yet -/
theorem chains_sound {eof : Token} {room : Nat} (hc : ChainSound eof room) {s s' : Symbol} {ls : List Level}
    (hl : Ladder s ls s') (d : Derivation s) {ts : List Token} {e : Expr} {rest : List Token}
    (hd : d.tree.cost ≤ room) (h : chains (chain eof room) ls d.tree ts = .done e rest) :
    Derived s' room (d.yield ++ ts) e rest := by
  induction hl generalizing ts with
  | nil s =>
    cases h
    exact ⟨d, rfl, rfl, hd⟩
  | @cons l ls s' _ ih =>
    obtain ⟨a, mid, ha, h1⟩ := andThen_eq_done_iff.1 h
    have h0 := d.folds_operand
    obtain ⟨d1, hy, rfl, hcost⟩ := hc l (.operand d) ts a mid (Nat.le_add_left_of_le hd) ha
    have hcost : d1.tree.cost ≤ room := by simpa [Derivation.tree, h0] using hcost
    obtain ⟨d2, hy2, ht2, hc2⟩ := ih d1 hcost h1
    exact ⟨d2, hy2.trans hy, ht2, hc2⟩

theorem climb_sound {eof : Token} {room : Nat} (ho : OperandSound eof room) (hc : ChainSound eof room)
    {s : Symbol} {ls : List Level} (hl : Ladder .unary ls s) {ts : List Token} {e : Expr} {rest : List Token}
    (h : climb (operand eof room) (chain eof room) ls ts = .done e rest) : Derived s room ts e rest := by
  obtain ⟨a, mid, ha, h1⟩ := andThen_eq_done_iff.1 h
  obtain ⟨d, rfl, rfl, hd⟩ := ho _ _ _ ha
  exact chains_sound hc hl d hd h1

theorem conditional_sound {eof : Token} {room : Nat} {part : List Token → Reading Expr}
    (hp : ∀ ts e rest, part ts = .done e rest → Derived (.binary .equality) room ts e rest)
    {ts : List Token} {e : Expr} {rest : List Token} (h : conditional eof part ts = .done e rest) :
    Derived .expression room ts e rest := by
  obtain ⟨a, mid, ha, h1⟩ := andThen_eq_done_iff.1 h
  obtain ⟨da, rfl, rfl, hca⟩ := hp _ _ _ ha
  have plain : ∀ us, Derived .expression room (da.yield ++ us) da.tree us :=
    fun us => ⟨.plain da, rfl, rfl, hca⟩
  cases mid with
  | nil => cases h1; exact plain []
  | cons t us =>
    simp only at h1
    split at h1
    · next hq =>
      obtain ⟨b, mid, hb, h2⟩ := andThen_eq_done_iff.1 h1
      obtain ⟨_, _, hk, h3⟩ := andThen_eq_done_iff.1 h2
      obtain ⟨colon, hck, rfl⟩ := expect_eq_done_iff.1 hk
      obtain ⟨c, _, hc, h4⟩ := andThen_eq_done_iff.1 h3
      cases h4
      obtain ⟨db, rfl, rfl, hcb⟩ := hp _ _ _ hb
      obtain ⟨dc, rfl, rfl, hcc⟩ := hp _ _ _ hc
      refine ⟨.ternary da t db colon dc hq hck, by simp [Derivation.yield], rfl, ?_⟩
      simp only [Expr.cost]
      omega
    · cases h1; exact plain (t :: us)

/-- **Operands and chains are sound,** by induction on the room: what is inside an operand and what an operator
takes on its right are read with one level less. -/
theorem sound_of_room (eof : Token) (room : Nat) : OperandSound eof room ∧ ChainSound eof room := by
  induction room with
  | zero =>
    refine ⟨fun ts e rest h => by simp [operand, fail] at h, fun l a ts e rest ha h => ?_⟩
    cases ts with
    | nil => simp only [chain] at h; cases h; exact ⟨a, rfl, rfl, ha⟩
    | cons t us =>
      simp only [chain] at h
      split at h
      · simp [fail] at h
      · cases h; exact ⟨a, rfl, rfl, ha⟩
  | succ room ih =>
    obtain ⟨ho, hc⟩ := ih
    constructor
    · intro ts e rest h
      simp only [operand] at h
      exact unary_sound ho (fun _ _ _ => conditional_sound fun _ _ _ => climb_sound ho hc ladder_all) h
    · intro l a ts e rest ha h
      cases ts with
      | nil => simp only [chain] at h; cases h; exact ⟨a, rfl, rfl, ha⟩
      | cons t us =>
        simp only [chain] at h
        split at h
        · next hk =>
          obtain ⟨b, mid, hb, h1⟩ := andThen_eq_done_iff.1 h
          obtain ⟨db, rfl, rfl, hcb⟩ := climb_sound ho hc (ladder_tighter l) hb
          -- the chain goes on from `a t b`, one level down and one operator further
          have hop : t.kind ∈ l.operators := (l.mem_operators_iff _).2 hk
          have hf : (Derivation.fold a t db hop).tree.folds (some l) = a.tree.folds (some l) + 1 := by
            simp [Derivation.tree, Expr.folds, hk]
          have hcost : (Derivation.fold a t db hop).tree.cost ≤ a.tree.folds (some l) + 1 + room := by
            simp only [Derivation.tree, Expr.cost, hk]
            omega
          obtain ⟨d, hy, ht, hd⟩ := hc l (.fold a t db hop) mid e rest (by rw [hf]; exact hcost) h1
          rw [hf] at hd
          exact ⟨d, by simpa [Derivation.yield] using hy, ht, by omega⟩
        · cases h; exact ⟨a, rfl, rfl, ha⟩

/-- **Soundness.** An expression that was read has a derivation of the tokens taken, and fits the room. -/
theorem expression_sound {eof : Token} {room : Nat} {ts : List Token} {e : Expr} {rest : List Token}
    (h : expression eof room ts = .done e rest) : Derived .expression room ts e rest :=
  have ⟨ho, hc⟩ := sound_of_room eof room
  conditional_sound (fun _ _ _ => climb_sound ho hc ladder_all) h

/-! ## Completeness -/

/-- tokens that do not begin with an operator of the given levels -/
def Free (levels : List Level) (ts : List Token) : Prop :=
  ∀ t ∈ ts.head?, ∀ l ∈ levels, t.kind.level? ≠ some l

/-- tokens that do not go on an expression: no binary operator comes first, and no question mark -/
def Stops (ts : List Token) : Prop :=
  ∀ t ∈ ts.head?, t.kind.level? = none ∧ t.kind ≠ .question

theorem Stops.free {ts : List Token} (h : Stops ts) (levels : List Level) : Free levels ts := by
  intro t ht l _ hl
  rw [(h t ht).1] at hl
  cases hl

theorem stops_nil : Stops [] := by
  intro t ht
  cases ht

theorem stops_cons {t : Token} (ts : List Token) (hl : t.kind.level? = none) (hq : t.kind ≠ .question) :
    Stops (t :: ts) := by
  intro t' ht'
  cases ht'
  exact ⟨hl, hq⟩

theorem chain_of_free {eof : Token} (room : Nat) {l : Level} (e : Expr) {ts : List Token} (h : Free [l] ts) :
    chain eof room l e ts = .done e ts := by
  cases ts with
  | nil => simp [chain]
  | cons t us =>
    have ht : ¬ t.kind.level? = some l := h t rfl l (by simp)
    cases room <;> simp [chain, ht]

/-- What reading does with the tokens of a derivation. At a level the chain is still open: it goes on after the
tokens, with the room that the operators so far have left. -/
def Reads (eof : Token) : (s : Symbol) → Derivation s → Prop
  | .expression, d => ∀ (room : Nat) (rest : List Token), d.tree.cost ≤ room → Stops rest →
      expression eof room (d.yield ++ rest) = .done d.tree rest
  | .binary l, d => ∀ (room : Nat) (rest : List Token), d.tree.cost ≤ room → Free l.tighter rest →
      climb (operand eof room) (chain eof room) (l.tighter ++ [l]) (d.yield ++ rest) =
        chain eof (room - d.tree.folds (some l)) l d.tree rest
  | .unary, d => ∀ (room : Nat) (rest : List Token), d.tree.cost ≤ room →
      operand eof room (d.yield ++ rest) = .done d.tree rest
  | .primary, d => ∀ (room : Nat) (rest : List Token), d.tree.cost ≤ room + 1 →
      primary eof (expression eof room) (d.yield ++ rest) = .done d.tree rest

/-- a level is read to its end if none of its operators follows -/
theorem Reads.level {eof : Token} {l : Level} {d : Derivation (.binary l)} (h : Reads eof (.binary l) d)
    (room : Nat) (rest : List Token) (hc : d.tree.cost ≤ room) (hf : Free (l.tighter ++ [l]) rest) :
    climb (operand eof room) (chain eof room) (l.tighter ++ [l]) (d.yield ++ rest) = .done d.tree rest := by
  have h1 : Free l.tighter rest := fun t ht l' hl' => hf t ht l' (List.mem_append_left _ hl')
  have h2 : Free [l] rest := fun t ht l' hl' => hf t ht l' (List.mem_append_right _ hl')
  rw [h room rest hc h1, chain_of_free _ _ h2]

theorem Reads.operand {eof : Token} {l : Level} {d : Derivation l.operand} (h : Reads eof l.operand d)
    (room : Nat) (rest : List Token) (hc : d.tree.cost ≤ room) (hf : Free l.tighter rest) :
    climb (operand eof room) (chain eof room) l.tighter (d.yield ++ rest) = .done d.tree rest := by
  cases l with
  | exponent =>
    have h1 : Reading.operand eof room (d.yield ++ rest) = .done d.tree rest := h room rest hc
    simp only [climb, Level.tighter, h1, done_andThen, chains]
  | product => exact Reads.level (l := .exponent) h room rest hc hf
  | sum => exact Reads.level (l := .product) h room rest hc hf
  | logic => exact Reads.level (l := .sum) h room rest hc hf
  | comparison => exact Reads.level (l := .logic) h room rest hc hf
  | equality => exact Reads.level (l := .comparison) h room rest hc hf

/-- a token that denotes a constant is read as it -/
theorem primary_denotes {eof : Token} {inside : List Token → Reading Expr} {t : Token} {c : Constant}
    (h : Denotes t c) (rest : List Token) : primary eof inside (t :: rest) = .done (.literal c) rest := by
  have carried : ∀ {c : Constant}, t.kind ∈ carriers → t.constant? = some c →
      primary eof inside (t :: rest) = .done (.literal c) rest := by
    intro c hk hc
    simp only [carriers, List.mem_cons, List.not_mem_nil, or_false] at hk
    rcases hk with hk | hk | hk <;> simp [primary, hk, hc]
  cases h with
  | false hk => simp [primary, hk]
  | true hk => simp [primary, hk]
  | nil hk => simp [primary, hk]
  | integer hk hl => exact carried hk (by simp [Token.constant?, hl])
  | double hk hl => exact carried hk (by simp [Token.constant?, hl])
  | string hk hl => exact carried hk (by simp [Token.constant?, hl])

/-- a primary does not begin with a unary operator -/
theorem unary_primary {eof : Token} {operand inside : List Token → Reading Expr} (d : Derivation .primary)
    (rest : List Token) : unary eof operand inside (d.yield ++ rest) = primary eof inside (d.yield ++ rest) := by
  cases d with
  | literal t c h =>
    have hk : t.kind.isUnary = false := by
      cases h with
      | false hk | true hk | nil hk => simp [hk, Kind.isUnary]
      | integer hk | double hk | string hk =>
        simp only [carriers, List.mem_cons, List.not_mem_nil, or_false] at hk
        rcases hk with hk | hk | hk <;> simp [hk, Kind.isUnary]
    simp [Derivation.yield, unary, hk]
  | group o d k ho hk => simp [Derivation.yield, unary, ho, Kind.isUnary]

theorem conditional_plain {eof : Token} {part : List Token → Reading Expr} {ts rest : List Token} {e : Expr}
    (h : part ts = .done e rest) (hs : Stops rest) : conditional eof part ts = .done e rest := by
  simp only [conditional, h, done_andThen]
  cases rest with
  | nil => rfl
  | cons t us => simp [(hs t rfl).2]

/-- **Completeness,** rule by rule: a derivation that fits the room is read. -/
theorem reads (eof : Token) {s : Symbol} (d : Derivation s) : Reads eof s d := by
  induction d with
  | plain d ih =>
    intro room rest hc hs
    exact conditional_plain (Reads.level (l := .equality) ih room rest hc (hs.free _)) hs
  | ternary a q b k c hq hk iha ihb ihc =>
    intro room rest hcost hs
    simp only [Derivation.tree, Expr.cost] at hcost
    have hfq : ∀ us, Free Level.all (q :: us) := fun us t ht l _ => by cases ht; simp [hq, Kind.level?]
    have hfk : ∀ us, Free Level.all (k :: us) := fun us t ht l _ => by cases ht; simp [hk, Kind.level?]
    have part : ∀ (d : Derivation (.binary .equality)) us, Reads eof (.binary .equality) d → d.tree.cost ≤ room →
        Free Level.all us →
        climb (Reading.operand eof room) (chain eof room) Level.all (d.yield ++ us) = .done d.tree us :=
      fun d us hd hc hf => hd.level room us hc hf
    have ha := part a (q :: (b.yield ++ k :: (c.yield ++ rest))) iha (by omega) (hfq _)
    have hb := part b (k :: (c.yield ++ rest)) ihb (by omega) (hfk _)
    have hc := part c rest ihc (by omega) (hs.free _)
    simp only [Derivation.yield, Derivation.tree, List.append_assoc, List.cons_append, expression, conditional, ha,
      hb, hc, done_andThen, hq, hk, if_true, expect]
  | operand d ih =>
    intro room rest hc hf
    have h1 := Reads.operand ih room rest hc hf
    have h0 := d.folds_operand
    rw [climb_concat]
    simp only [Derivation.yield, Derivation.tree, h0, h1, done_andThen, Nat.sub_zero]
  | @fold l a f b h iha ihb =>
    intro room rest hc hf
    have hl : f.kind.level? = some l := (l.mem_operators_iff _).1 h
    simp only [Derivation.tree, Expr.cost, hl] at hc
    have hfl : Free l.tighter (f :: (b.yield ++ rest)) := by
      intro t ht l' hl' heq
      cases ht
      rw [hl, Option.some.injEq] at heq
      exact l.notMem_tighter (heq ▸ hl')
    have ha := iha room (f :: (b.yield ++ rest)) (by omega) hfl
    -- the operators of `a` leave room for one more and for `b` on its right
    obtain ⟨left, hleft⟩ : ∃ left, room - a.tree.folds (some l) = left + 1 :=
      ⟨room - a.tree.folds (some l) - 1, by omega⟩
    have hb := Reads.operand ihb left rest (by omega) hf
    have hroom : room - (a.tree.folds (some l) + 1) = left := by omega
    simp only [Derivation.yield, Derivation.tree, List.append_assoc, List.cons_append, ha, hleft, chain, hl,
      if_true, hb, done_andThen, Expr.folds, hroom]
  | bare d ih =>
    intro room rest hc
    have hpos := d.tree.cost_pos
    simp only [Derivation.tree] at hc
    obtain ⟨room, rfl⟩ : ∃ r, room = r + 1 := ⟨room - 1, by omega⟩
    simp only [operand]
    exact (unary_primary d rest).trans (ih room rest hc)
  | sign f d h ih =>
    intro room rest hc
    simp only [Derivation.tree, Expr.cost] at hc
    obtain ⟨room, rfl⟩ : ∃ r, room = r + 1 := ⟨room - 1, by omega⟩
    have hd := ih room rest (by omega)
    simp [operand, Derivation.yield, Derivation.tree, unary, (mem_unaryOperators_iff _).1 h, hd]
  | literal t c h =>
    intro room rest _
    exact primary_denotes h rest
  | group o d k ho hk ih =>
    intro room rest hc
    simp only [Derivation.tree, Expr.cost] at hc
    have hd := ih room (k :: rest) (by omega) (stops_cons rest (by simp [hk, Kind.level?]) (by simp [hk]))
    simp [Derivation.yield, Derivation.tree, primary, ho, hd, expect, hk]

/-- **Completeness.** What has a derivation that fits the room is read, unless what follows goes on it. -/
theorem expression_complete (eof : Token) (room : Nat) (rest : List Token) (d : Derivation .expression)
    (hc : d.tree.cost ≤ room) (hs : Stops rest) : expression eof room (d.yield ++ rest) = .done d.tree rest :=
  reads eof d room rest hc hs

/-- **No ambiguity.** Tokens before a follower have one derivation at most. -/
theorem derivation_unique {d d' : Derivation .expression} {rest rest' : List Token} (hs : Stops rest)
    (hs' : Stops rest') (h : d.yield ++ rest = d'.yield ++ rest') : d = d' ∧ rest = rest' := by
  -- both are what reading gives, with room for either
  have eof : Token := { kind := .eof, lexeme := "" }
  have hr := expression_complete eof (max d.tree.cost d'.tree.cost) rest d (le_max_left _ _) hs
  have hr' := expression_complete eof (max d.tree.cost d'.tree.cost) rest' d' (le_max_right _ _) hs'
  rw [h, hr'] at hr
  obtain ⟨ht, rfl⟩ := done.inj hr
  exact ⟨d.eq_of_tree_yield d' ht.symm (List.append_cancel_right h), rfl⟩

end Reading

end Reckoner
