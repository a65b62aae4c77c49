/-
How deep the trees are that a limit lets through.

The room of a tree (`Expr.cost`) is what the limit bounds, and a tree may be much deeper than its room: the left side
of an operator is read before the operator takes its level, and the six levels of operators take theirs one after
the other. `Expr.depth w` counts the nodes on the longest way down a tree, where a ternary counts `w`.

- `depth_le_of_cost`: with room `m`, at most `deepest w m` nodes, the number that `deepest_closed` gives as
  `3 m² - 2 m + w m`;
- `Deep.within_nested`: for every `m` a tree with room `m + 1` reaches it, by chains of `m` operators on each level,
  one around the other, around a parenthesis that does the same with one operator less;
- `levels_of_limit`: without ternaries, the deepest tree that a limit lets through has `3 limit² - 2 limit` levels,
  so the limit bounds the levels only if it is 0 or 1. `sign_and_sum_exceed_two` is the least tree beyond;
- `height_of_limit`: with ternaries, the highest tree that a limit lets through has a height of `3 limit² - limit`.
-/
import Mathlib.Tactic
import Reckoner.Proofs.Acceptance

namespace Reckoner

/-! ## The bound -/

/-- the number of nodes on the longest way from the root to a leaf, where a ternary counts `w` -/
def Expr.depth (w : Nat) : Expr → Nat
  | .literal _ => 1
  | .grouping a | .unary _ a => a.depth w + 1
  | .binary a _ b => max (a.depth w) (b.depth w) + 1
  | .ternary a b c => max (a.depth w) (max (b.depth w) (c.depth w)) + w

/-- the depth that room for `m` levels allows: one operand, six chains of operators around it, a ternary -/
def deepest (w : Nat) : Nat → Nat
  | 0 => 0
  | m + 1 => deepest w m + 1 + 6 * m + w

theorem deepest_closed (w m : Nat) : deepest w m + 2 * m = 3 * m ^ 2 + w * m := by
  induction m with
  | zero => rfl
  | succ m ih =>
    calc deepest w (m + 1) + 2 * (m + 1) = (deepest w m + 2 * m) + (6 * m + 3 + w) := by
          simp only [deepest]; ring
      _ = 3 * m ^ 2 + w * m + (6 * m + 3 + w) := by rw [ih]
      _ = 3 * (m + 1) ^ 2 + w * (m + 1) := by ring

theorem Expr.folds_lt_cost (level? : Option Level) (e : Expr) : e.folds level? < e.cost := by
  cases e with
  | binary a f b =>
    have := b.cost_pos
    simp only [folds, cost]
    split
    · next h => subst h; omega
    · omega
  | literal | grouping | unary | ternary => simpa [folds] using Expr.cost_pos _

/-- The depth of what a symbol derives with room for `m + 1` levels. On a level, each of the tighter levels has had
its `m` operators, and the level itself those that are there. -/
def DepthBound (w : Nat) : (s : Symbol) → Derivation s → Prop
  | .expression, d => ∀ m, d.tree.cost ≤ m + 1 → d.tree.depth w ≤ deepest w (m + 1)
  | .binary l, d => ∀ m, d.tree.cost ≤ m + 1 →
      d.tree.depth w ≤ deepest w m + 1 + l.tighter.length * m + d.tree.folds (some l)
  | .unary, d => ∀ m, d.tree.cost ≤ m + 1 → d.tree.depth w ≤ deepest w m + 1
  | .primary, d => ∀ m, d.tree.cost ≤ m + 1 → d.tree.depth w ≤ deepest w m + 1

/-- an operand of a level is as deep as the tighter levels make it -/
theorem DepthBound.operand {w : Nat} {l : Level} {d : Derivation l.operand} (h : DepthBound w l.operand d)
    (m : Nat) (hc : d.tree.cost ≤ m + 1) : d.tree.depth w ≤ deepest w m + 1 + l.tighter.length * m := by
  have level : ∀ (k : Level) (a : Derivation (.binary k)), DepthBound w (.binary k) a → a.tree.cost ≤ m + 1 →
      a.tree.depth w ≤ deepest w m + 1 + (k.tighter.length + 1) * m := by
    intro k a ha hca
    have h1 := ha m hca
    have h2 := a.tree.folds_lt_cost (some k)
    rw [Nat.add_one_mul]
    omega
  cases l with
  | exponent => exact Nat.le_add_right_of_le (h m hc)
  | product => exact level .exponent d h hc
  | sum => exact level .product d h hc
  | logic => exact level .sum d h hc
  | comparison => exact level .logic d h hc
  | equality => exact level .comparison d h hc

theorem depth_bound (w : Nat) {s : Symbol} (d : Derivation s) : DepthBound w s d := by
  induction d with
  | plain d ih =>
    intro m hc
    have h1 := ih m hc
    have h2 := d.tree.folds_lt_cost (some .equality)
    simp only [Derivation.tree, Level.tighter, List.length_cons, List.length_nil, deepest] at hc h1 ⊢
    omega
  | ternary a q b k c _ _ iha ihb ihc =>
    intro m hc
    simp only [Derivation.tree, Expr.cost] at hc
    have ha := iha m (by omega)
    have hb := ihb m (by omega)
    have hc' := ihc m (by omega)
    have ha2 := a.tree.folds_lt_cost (some .equality)
    have hb2 := b.tree.folds_lt_cost (some .equality)
    have hc2 := c.tree.folds_lt_cost (some .equality)
    simp only [Level.tighter, List.length_cons, List.length_nil] at ha hb hc'
    simp only [Derivation.tree, Expr.depth, deepest]
    omega
  | operand d ih =>
    intro m hc
    exact Nat.le_add_right_of_le (DepthBound.operand ih m hc)
  | @fold l a f b h iha ihb =>
    intro m hc
    have hl : f.kind.level? = some l := (l.mem_operators_iff _).1 h
    simp only [Derivation.tree, Expr.cost, hl] at hc
    have ha := iha m (by omega)
    have hb := DepthBound.operand ihb m (by omega)
    simp only [Derivation.tree, Expr.depth, Expr.folds, hl, if_true]
    omega
  | bare d ih => exact ih
  | sign f d _ ih =>
    intro m hc
    have hpos := d.tree.cost_pos
    simp only [Derivation.tree, Expr.cost] at hc
    obtain ⟨m, rfl⟩ : ∃ k, m = k + 1 := ⟨m - 1, by omega⟩
    have h1 := ih m (by omega)
    simp only [Derivation.tree, Expr.depth, deepest]
    omega
  | literal => intro m _; simp [Derivation.tree, Expr.depth]
  | group o d k _ _ ih =>
    intro m hc
    have hpos := d.tree.cost_pos
    simp only [Derivation.tree, Expr.cost] at hc
    obtain ⟨m, rfl⟩ : ∃ k, m = k + 1 := ⟨m - 1, by omega⟩
    have h1 := ih m (by omega)
    simp only [Derivation.tree, Expr.depth]
    omega

/-- **The bound.** What is derived with room for `m` levels is at most `deepest w m` deep. -/
theorem depth_le_of_cost (w : Nat) (d : Derivation .expression) {m : Nat} (hc : d.tree.cost ≤ m) :
    d.tree.depth w ≤ deepest w m := by
  have hpos := d.tree.cost_pos
  obtain ⟨m, rfl⟩ : ∃ k, m = k + 1 := ⟨m - 1, by omega⟩
  exact depth_bound w d m hc

/-! ## The bound is reached -/

namespace Deep

def word : Token := { kind := .nilWord, lexeme := "nil" }

def opening : Token := { kind := .leftParen, lexeme := "(" }

def closing : Token := { kind := .rightParen, lexeme := ")" }

def leaf : Derivation .unary :=
  .bare (.literal word .nil (.nil rfl))

def operator : Level → Token
  | .equality => { kind := .equalEqual, lexeme := "==" }
  | .comparison => { kind := .less, lexeme := "<" }
  | .logic => { kind := .and, lexeme := "and" }
  | .sum => { kind := .plus, lexeme := "+" }
  | .product => { kind := .star, lexeme := "*" }
  | .exponent => { kind := .starStar, lexeme := "**" }

theorem operator_mem (l : Level) : (operator l).kind ∈ l.operators := by
  cases l <;> decide

/-- a chain of `k` operators of one level, with `nil` on the right of each -/
def run (l : Level) (d : Derivation l.operand) : Nat → Derivation (.binary l)
  | 0 => .operand d
  | k + 1 => .fold (run l d k) (operator l) (leaf.lift l) (operator_mem l)

/-- chains of `k` operators on every level around an operand, and a ternary around them -/
def tower (k : Nat) (d : Derivation .unary) : Derivation .expression :=
  .ternary
    (run .equality (run .comparison (run .logic (run .sum (run .product (run .exponent d k) k) k) k) k) k)
    { kind := .question, lexeme := "?" } (.operand (leaf.lift .equality))
    { kind := .colon, lexeme := ":" } (.operand (leaf.lift .equality)) rfl rfl

def group (d : Derivation .expression) : Derivation .unary :=
  .bare (.group opening d closing rfl rfl)

/-- towers in parentheses inside towers; each holds one operator more on every level than the one inside it -/
def nested : Nat → Derivation .expression
  | 0 => tower 0 leaf
  | m + 1 => tower (m + 1) (group (nested m))

theorem folds_run (l : Level) (d : Derivation l.operand) (k : Nat) : (run l d k).tree.folds (some l) = k := by
  induction k with
  | zero => exact d.folds_operand
  | succ k ih =>
    have hl : (operator l).kind.level? = some l := (l.mem_operators_iff _).1 (operator_mem l)
    simp only [run, Derivation.tree, Expr.folds, hl, if_true, ih]

/-- a tree that takes room `c` at most and is exactly `p + 1` deep -/
def Within (w c p : Nat) (e : Expr) : Prop :=
  e.cost ≤ c ∧ e.depth w = p + 1

theorem within_leaf (w c : Nat) : Within w (c + 1) 0 leaf.tree :=
  ⟨by simp [leaf, Derivation.tree, Expr.cost], rfl⟩

/-- `k` operators take a tree `k` deeper, in the same room if it holds them -/
theorem within_run {w c p : Nat} (l : Level) (d : Derivation l.operand) {k : Nat} (h : Within w c p d.tree)
    (hk : k < c) : Within w c (p + k) (run l d k).tree := by
  obtain ⟨hc, hd⟩ := h
  have hl : (operator l).kind.level? = some l := (l.mem_operators_iff _).1 (operator_mem l)
  have hleaf : (leaf.lift l).tree = leaf.tree := leaf.tree_lift l
  obtain ⟨hleafc, hleafd⟩ := within_leaf w 0
  induction k with
  | zero => exact ⟨hc, hd⟩
  | succ k ih =>
    obtain ⟨ihc, ihd⟩ := ih (by omega)
    constructor
    · simp only [run, Derivation.tree, Expr.cost, hl, folds_run, hleaf]
      omega
    · simp only [run, Derivation.tree, Expr.depth, hleaf, ihd, hleafd]
      omega

theorem within_tower {w c p : Nat} (d : Derivation .unary) {k : Nat} (h : Within w c p d.tree) (hk : k < c) :
    Within w c (p + 6 * k + w) (tower k d).tree := by
  have h1 := within_run .exponent d h hk
  have h2 := within_run .product (run .exponent d k) h1 hk
  have h3 := within_run .sum _ h2 hk
  have h4 := within_run .logic _ h3 hk
  have h5 := within_run .comparison _ h4 hk
  obtain ⟨hc, hd⟩ := within_run .equality _ h5 hk
  have hleaf : leaf.tree.cost ≤ c := (within_leaf w 0).1.trans (by omega)
  constructor
  · exact max_le hc (max_le hleaf hleaf)
  · change max (Expr.depth w _) (max (leaf.tree.depth w) (leaf.tree.depth w)) + w = _
    rw [hd, (within_leaf w 0).2]
    omega

theorem within_nested (w m : Nat) : Within w (m + 1) (deepest w m + 6 * m + w) (nested m).tree := by
  induction m with
  | zero =>
    have h := within_tower leaf (within_leaf w 0) (Nat.lt_succ_self 0)
    simpa [deepest, nested] using h
  | succ m ih =>
    obtain ⟨hc, hd⟩ := ih
    have h : Within w (m + 2) (deepest w (m + 1)) (group (nested m)).tree := by
      constructor
      · simp only [group, Derivation.tree, Expr.cost]
        omega
      · simp only [group, Derivation.tree, Expr.depth, hd, deepest]
        omega
    exact within_tower (group (nested m)) h (Nat.lt_succ_self _)

end Deep

/-! ## What a limit lets through -/

theorem depth_le_of_returns (w : Nat) {r : Reader} {e : Expr} (h : r.Returns e) : e.depth w ≤ deepest w r.limit := by
  obtain ⟨d, rfl, hc, -⟩ := h.derived
  exact depth_le_of_cost w d hc

/-- the number of constants, groupings, unary and binary operators on the longest way down a tree -/
def Expr.levels (e : Expr) : Nat := e.depth 0

theorem deepest_zero_eq (m : Nat) : deepest 0 m = 3 * m ^ 2 - 2 * m := by
  have h := deepest_closed 0 m
  omega

/-- what the tower of towers is written with is read back as it -/
theorem single_nested (m : Nat) {eof : Token} (heof : eof.kind = .eof) :
    (Reader.ofTokens ((Deep.nested m).yield ++ [eof]) (m + 1)).single.result = some (Deep.nested m).tree := by
  have h := Reading.expression_complete eof (m + 1) [] (Deep.nested m) (Deep.within_nested 0 m).1 Reading.stops_nil
  rw [List.append_nil] at h
  rw [Reader.ofTokens_concat (Deep.nested m).kind_ne_eof heof]
  simp only [Reader.single, h]

/-- a limit of at least one level lets a tree through that is as deep as the limit allows -/
theorem exists_depth_eq (w : Nat) {limit : Nat} (hpos : 0 < limit) : ∃ (tokens : List Token) (e : Expr),
    (Reader.ofTokens tokens limit).single.result = some e ∧ e.depth w = deepest w limit := by
  obtain ⟨m, rfl⟩ : ∃ m, limit = m + 1 := ⟨limit - 1, by omega⟩
  have heof : ({ kind := .eof, lexeme := "" } : Token).kind = .eof := rfl
  refine ⟨_, _, single_nested m heof, ?_⟩
  exact (Deep.within_nested w m).2.trans (by simp only [deepest]; omega)

theorem exists_levels_eq {limit : Nat} (hpos : 0 < limit) : ∃ (tokens : List Token) (e : Expr),
    (Reader.ofTokens tokens limit).single.result = some e ∧ e.levels = 3 * limit ^ 2 - 2 * limit := by
  rw [← deepest_zero_eq]
  exact exists_depth_eq 0 hpos

/-- **How deep a limit lets trees grow.** The trees of every reader have at most `3 limit² - 2 limit` levels. For
each limit but 0 some tokens are read as a tree that has as many. So the limit itself bounds the levels exactly if
it is 0 or 1. -/
theorem levels_of_limit (limit : Nat) :
    (∀ (unread : List Token) (eof : Token) (e : Expr), Reader.Returns ⟨unread, eof, limit⟩ e →
      e.levels ≤ 3 * limit ^ 2 - 2 * limit) ∧
    (0 < limit → ∃ (tokens : List Token) (e : Expr),
      (Reader.ofTokens tokens limit).single.result = some e ∧ e.levels = 3 * limit ^ 2 - 2 * limit) ∧
    ((∀ (tokens : List Token) (e : Expr), (Reader.ofTokens tokens limit).Returns e → e.levels ≤ limit) ↔
      limit ≤ 1) := by
  have bound : ∀ (unread : List Token) (eof : Token) (e : Expr), Reader.Returns ⟨unread, eof, limit⟩ e →
      e.levels ≤ 3 * limit ^ 2 - 2 * limit := by
    intro unread eof e h
    rw [← deepest_zero_eq]
    exact depth_le_of_returns 0 h
  refine ⟨bound, exists_levels_eq, ?_, ?_⟩
  · intro h
    by_contra hlimit
    obtain ⟨tokens, e, he, hlevels⟩ := exists_levels_eq (show 0 < limit by omega)
    have hle := h tokens e (Or.inl he)
    have hsq : 2 * limit ≤ limit ^ 2 := by nlinarith
    omega
  · intro hlimit tokens e h
    have hle := bound _ _ e h
    interval_cases limit <;> simpa using hle

/-- **A limit of 2 lets 3 levels through.** `-nil + nil` is read, and its tree is a sum of a sign and a constant. The
sign is done with before the sum takes its level. -/
theorem sign_and_sum_exceed_two :
    (Reader.ofTokens [{ kind := .minus, lexeme := "-" }, { kind := .nilWord, lexeme := "nil" },
        { kind := .plus, lexeme := "+" }, { kind := .nilWord, lexeme := "nil" }, { kind := .eof, lexeme := "" }]
      2).Returns
        (.binary (.unary { kind := .minus, lexeme := "-" } (.literal .nil)) { kind := .plus, lexeme := "+" }
          (.literal .nil)) ∧
    ¬ Expr.levels (.binary (.unary { kind := .minus, lexeme := "-" } (.literal .nil))
        { kind := .plus, lexeme := "+" } (.literal .nil)) ≤ 2 := by
  constructor
  · left
    rfl
  · decide

/-! ## Heights -/

/-- the number of nodes, of whatever kind, on the longest way down a tree -/
def Expr.height (e : Expr) : Nat := e.depth 1

theorem deepest_one_eq (m : Nat) : deepest 1 m = 3 * m ^ 2 - m := by
  have h := deepest_closed 1 m
  omega

/-- **How high a limit lets trees grow.** The trees of every reader have a height of `3 limit² - limit` at most. For
each limit but 0 some tokens are read as a tree of just this height, and at the limit 0 no tree is returned. -/
theorem height_of_limit (limit : Nat) :
    (∀ (unread : List Token) (eof : Token) (e : Expr), Reader.Returns ⟨unread, eof, limit⟩ e →
      e.height ≤ 3 * limit ^ 2 - limit) ∧
    (0 < limit → ∃ (tokens : List Token) (e : Expr),
      (Reader.ofTokens tokens limit).single.result = some e ∧ e.height = 3 * limit ^ 2 - limit) ∧
    (limit = 0 → ∀ (unread : List Token) (eof : Token) (e : Expr), ¬ Reader.Returns ⟨unread, eof, limit⟩ e) := by
  rw [← deepest_one_eq]
  refine ⟨fun unread eof e h => depth_le_of_returns 1 h, exists_depth_eq 1, ?_⟩
  rintro rfl unread eof e h
  obtain ⟨-, -, hcost, -⟩ := h.derived
  exact absurd hcost (not_le.2 e.cost_pos)

end Reckoner
