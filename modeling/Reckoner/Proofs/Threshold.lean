/-
What a limit cuts off.

The same tokens are read with more and with less room. A reading with less room does what the other does, until a token
would take it one level too deep; there it stops, and says so. `Cut` compares the two readings step by step. Where the
first one stops,
- it has taken a token for each level of its room, so a limit of more levels than there are tokens stops nothing;
- what the second gives takes more than that room (`Expr.cost`): an operand that did not fit is part of it, and trees
  only grow as they are read on (`cost_le_of_chain`).

- `terminated_cut`: whole expressions are so compared, by one induction on the room;
- `expression_threshold`: an expression is read if and only if the room holds its cost, whatever follows it;
- `read_of_limit`: a program in which nothing is too deep is read alike at every greater limit.

Main statement: `limit_only_cuts_off`.
-/
import Mathlib.Data.List.TakeWhile
import Mathlib.Tactic
import Reckoner.Proofs.Acceptance
import Reckoner.Proofs.Cursor

namespace Reckoner

namespace Reading

/-! ## Trees only grow -/

section
variable {eof : Token} {room : Nat} {a e : Expr} {ts rest : List Token}

/-- an operator that a chain takes stays in its tree, behind the operators of `a` -/
theorem folds_lt_of_chain {l : Level} {t : Token} (ht : t.kind.level? = some l)
    (h : chain eof (room + 1) l a (t :: ts) = .done e rest)
    (hgrows : ∀ b mid, chain eof room l (.binary a t b) mid = .done e rest → (Expr.binary a t b).cost ≤ e.cost) :
    a.cost ≤ e.cost ∧ a.folds (some l) < e.cost := by
  simp only [chain, ht, if_true] at h
  obtain ⟨b, mid, -, h⟩ := andThen_eq_done_iff.1 h
  have hcost := hgrows b mid h
  simp only [Expr.cost, ht] at hcost
  omega

/-- what a chain gives costs no less than what it started from -/
theorem cost_le_of_chain {l : Level} (h : chain eof room l a ts = .done e rest) : a.cost ≤ e.cost := by
  induction room generalizing a ts with
  | zero =>
    cases ts with
    | nil =>
      simp only [chain] at h
      cases h
      exact le_rfl
    | cons t us =>
      simp only [chain] at h
      split at h
      · cases h
      · cases h
        exact le_rfl
  | succ room ih =>
    cases ts with
    | nil =>
      simp only [chain] at h
      cases h
      exact le_rfl
    | cons t us =>
      by_cases ht : t.kind.level? = some l
      · exact (folds_lt_of_chain ht h fun _ _ => ih).1
      · simp only [chain, ht, if_false] at h
        cases h
        exact le_rfl

theorem cost_le_of_chains {levels : List Level} (h : chains (chain eof room) levels a ts = .done e rest) :
    a.cost ≤ e.cost := by
  induction levels generalizing a ts with
  | nil =>
    cases h
    exact le_rfl
  | cons l levels ih =>
    obtain ⟨b, mid, hb, h⟩ := andThen_eq_done_iff.1 h
    exact (cost_le_of_chain hb).trans (ih h)

end

/-! ## Less room and more -/

/-- Two readings of `ts` are the same, or `room` stopped the first one. Then it had taken a token for each level, and
what the second one gives costs more than `c`. -/
inductive Cut (room c : Nat) (ts : List Token) : Reading Expr → Reading Expr → Prop where
  | done (e : Expr) {rest : List Token} (hrest : rest.length ≤ ts.length) : Cut room c ts (.done e rest) (.done e rest)
  | failed {f : Failure} (hf : f.fault ≠ .nestingTooDeep) : Cut room c ts (.failed f) (.failed f)
  | stopped {f : Failure} {r : Reading Expr} (hf : f.fault = .nestingTooDeep)
      (hspent : room + f.unread.length ≤ ts.length) (hcost : ∀ e rest, r = .done e rest → c < e.cost) :
      Cut room c ts (.failed f) r

section
variable {eof : Token} {room c c' : Nat} {ts us : List Token} {r r' : Reading Expr}

theorem Cut.mono (h : Cut room c ts r r') (hc : c' ≤ c) (hts : ts.length ≤ us.length) : Cut room c' us r r' := by
  cases h with
  | done e hrest => exact .done e (hrest.trans hts)
  | failed hf => exact .failed hf
  | stopped hf hspent hcost => exact .stopped hf (hspent.trans hts) fun e rest h => hc.trans_lt (hcost e rest h)

theorem Cut.eq_of_not_tooDeep (h : Cut room c ts r r') (hr : ∀ f, r = .failed f → f.fault ≠ .nestingTooDeep) :
    r' = r := by
  cases h with
  | done e hrest => rfl
  | failed hf => rfl
  | stopped hf hspent hcost => exact absurd hf (hr _ rfl)

/-- all the room was taken by tokens -/
theorem Cut.limit_le {f : Failure} (h : Cut room c ts r r') (hr : r = .failed f) (hf : f.fault = .nestingTooDeep) :
    room ≤ ts.length := by
  subst hr
  cases h with
  | failed hf' => exact absurd hf hf'
  | stopped hf hspent hcost => omega

/-- one token more pays for one level more -/
theorem Cut.nest (h : Cut room c ts r r') (t : Token) : Cut (room + 1) c (t :: ts) r r' := by
  cases h with
  | done e hrest => exact .done e (Nat.le_succ_of_le hrest)
  | failed hf => exact .failed hf
  | stopped hf hspent hcost =>
    refine .stopped hf ?_ hcost
    rw [List.length_cons]
    omega

theorem Cut.andThen {next next' : Expr → List Token → Reading Expr} (h : Cut room c ts r r')
    (hn : ∀ e rest, Cut room c' rest (next e rest) (next' e rest))
    (hcost : ∀ a mid e rest, c < a.cost → next' a mid = .done e rest → c' < e.cost) :
    Cut room c' ts (r.andThen next) (r'.andThen next') := by
  cases h with
  | done e hrest => exact (hn e _).mono le_rfl hrest
  | failed hf => exact .failed hf
  | stopped hf hspent hc =>
    refine .stopped hf hspent fun e rest h => ?_
    obtain ⟨a, mid, ha, h⟩ := andThen_eq_done_iff.1 h
    exact hcost a mid e rest (hc a mid ha) h

/-- a token that must come next is taken or missed by both -/
theorem expect_cut {kind : Kind} {fault : Fault} (hfault : fault ≠ .nestingTooDeep)
    {next next' : Unit → List Token → Reading Expr} (hn : ∀ rest, Cut room c rest (next () rest) (next' () rest)) :
    Cut room c ts ((expect eof kind fault ts).andThen next) ((expect eof kind fault ts).andThen next') := by
  cases ts with
  | nil => exact .failed hfault
  | cons t rest =>
    simp only [expect]
    split
    · exact (hn rest).mono le_rfl (Nat.le_succ _)
    · exact .failed hfault

section
variable {operand operand' inside inside' part part' : List Token → Reading Expr}

theorem primary_cut (hi : ∀ ts, Cut room room ts (inside ts) (inside' ts)) (ts : List Token) :
    Cut (room + 1) (room + 1) ts (primary eof inside ts) (primary eof inside' ts) := by
  have hexpected : Fault.expectedExpression ≠ .nestingTooDeep := by decide
  cases ts with
  | nil => exact .failed hexpected
  | cons t rest =>
    simp only [primary]
    split
    · exact .done _ (Nat.le_succ _)
    · exact .done _ (Nat.le_succ _)
    · exact .done _ (Nat.le_succ _)
    · split
      · exact .done _ (Nat.le_succ _)
      · exact .failed hexpected
    · split
      · exact .done _ (Nat.le_succ _)
      · exact .failed hexpected
    · split
      · exact .done _ (Nat.le_succ _)
      · exact .failed hexpected
    · refine ((hi rest).andThen (fun e rest => ?_) fun a mid e rest' hc h => ?_).nest t
      · exact expect_cut (by decide) fun rest => .done _ le_rfl
      · obtain ⟨_, _, -, h⟩ := andThen_eq_done_iff.1 h
        cases h
        simpa [Expr.cost] using hc
    · exact .failed hexpected

theorem unary_cut (ho : ∀ ts, Cut room room ts (operand ts) (operand' ts))
    (hi : ∀ ts, Cut room room ts (inside ts) (inside' ts)) (ts : List Token) :
    Cut (room + 1) (room + 1) ts (unary eof operand inside ts) (unary eof operand' inside' ts) := by
  cases ts with
  | nil => exact primary_cut hi []
  | cons t rest =>
    simp only [unary]
    split
    · refine ((ho rest).andThen (fun e rest => .done _ le_rfl) fun a mid e rest' hc h => ?_).nest t
      cases h
      simpa [Expr.cost] using hc
    · exact primary_cut hi (t :: rest)

theorem conditional_cut (hp : ∀ ts, Cut room c ts (part ts) (part' ts)) (ts : List Token) :
    Cut room c ts (conditional eof part ts) (conditional eof part' ts) := by
  refine (hp ts).andThen (fun condition ts => ?_) fun condition ts e rest hc h => ?_
  · cases ts with
    | nil => exact .done condition le_rfl
    | cons t rest =>
      dsimp only
      split
      · refine ((hp rest).andThen (fun thenBranch rest => ?_) fun thenBranch mid e rest' hc h => ?_).mono le_rfl
          (Nat.le_succ _)
        · refine expect_cut (by decide) fun rest => ?_
          refine (hp rest).andThen (fun elseBranch rest => .done _ le_rfl) fun elseBranch mid e rest' hc h => ?_
          cases h
          exact lt_max_of_lt_right (lt_max_of_lt_right hc)
        · obtain ⟨_, _, -, h⟩ := andThen_eq_done_iff.1 h
          obtain ⟨_, _, -, h⟩ := andThen_eq_done_iff.1 h
          cases h
          exact lt_max_of_lt_right (lt_max_of_lt_left hc)
      · exact .done condition le_rfl
  · cases ts with
    | nil =>
      cases h
      exact hc
    | cons t us =>
      dsimp only at h
      split at h
      · obtain ⟨_, _, -, h⟩ := andThen_eq_done_iff.1 h
        obtain ⟨_, _, -, h⟩ := andThen_eq_done_iff.1 h
        obtain ⟨_, _, -, h⟩ := andThen_eq_done_iff.1 h
        cases h
        exact lt_max_of_lt_left hc
      · cases h
        exact hc

end

/-- operands are cut off as the room says -/
def OperandCut (eof : Token) (room room' : Nat) : Prop :=
  ∀ ts, Cut room room ts (operand eof room ts) (operand eof room' ts)

/-- so are chains, on top of the room that their operators so far have taken -/
def ChainCut (eof : Token) (room room' : Nat) : Prop :=
  ∀ (l : Level) (a : Expr) (ts : List Token),
    Cut room (a.folds (some l) + room) ts (chain eof room l a ts) (chain eof room' l a ts)

theorem climb_cut {room' : Nat} (ho : OperandCut eof room room') (hc : ChainCut eof room room') (levels : List Level)
    (ts : List Token) :
    Cut room room ts (climb (operand eof room) (chain eof room) levels ts)
      (climb (operand eof room') (chain eof room') levels ts) := by
  have hchains : ∀ (levels : List Level) (e : Expr) (ts : List Token),
      Cut room room ts (chains (chain eof room) levels e ts) (chains (chain eof room') levels e ts) := by
    intro levels
    induction levels with
    | nil => exact fun e ts => .done e le_rfl
    | cons l levels ih =>
      intro e ts
      refine ((hc l e ts).mono (Nat.le_add_left _ _) le_rfl).andThen ih fun a mid e rest hlt h => ?_
      exact hlt.trans_le (cost_le_of_chains h)
  exact (ho ts).andThen (hchains levels) fun a mid e rest hlt h => hlt.trans_le (cost_le_of_chains h)

/-- **Less room and more.** By induction on the lesser room: what is inside an operand and what an operator takes on its
right have one level less, in either reading. -/
theorem cut_of_room (eof : Token) {room room' : Nat} (h : room ≤ room') :
    OperandCut eof room room' ∧ ChainCut eof room room' := by
  induction room generalizing room' with
  | zero =>
    refine ⟨fun ts => .stopped rfl (Nat.zero_add _).le fun e rest _ => e.cost_pos, fun l a ts => ?_⟩
    cases ts with
    | nil =>
      simp only [chain]
      exact .done a le_rfl
    | cons t us =>
      by_cases ht : t.kind.level? = some l
      · rw [chain, if_pos ht]
        refine .stopped rfl (by simp) fun e rest hdone => ?_
        cases room' with
        | zero =>
          rw [chain, if_pos ht] at hdone
          cases hdone
        | succ room' => exact (folds_lt_of_chain ht hdone fun _ _ => cost_le_of_chain).2
      · rw [chain, if_neg ht]
        cases room' <;> rw [chain, if_neg ht] <;> exact .done a le_rfl
  | succ room ih =>
    obtain ⟨room', rfl⟩ : ∃ k, room' = k + 1 := ⟨room' - 1, by omega⟩
    obtain ⟨ho, hc⟩ := ih (Nat.le_of_succ_le_succ h)
    constructor
    · intro ts
      simp only [operand]
      exact unary_cut ho (conditional_cut (climb_cut ho hc Level.all)) ts
    · intro l a ts
      cases ts with
      | nil =>
        simp only [chain]
        exact .done a le_rfl
      | cons t us =>
        by_cases ht : t.kind.level? = some l
        · simp only [chain, ht, if_true]
          -- the operator takes its level; behind its right operand the chain goes on with one level less
          refine ((climb_cut ho hc l.tighter us).andThen (fun b mid => ?_) fun b mid e rest hlt hdone => ?_).nest t
          · refine (hc l (.binary a t b) mid).mono ?_ le_rfl
            simp only [Expr.folds, ht, if_true]
            omega
          · have hcost := cost_le_of_chain hdone
            simp only [Expr.cost, ht] at hcost
            omega
        · simp only [chain, ht, if_false]
          exact .done a le_rfl

end

/-! ## Expressions -/

section
variable {eof : Token} {limit limit' : Nat}

theorem expression_cut (eof : Token) (h : limit ≤ limit') (ts : List Token) :
    Cut limit limit ts (expression eof limit ts) (expression eof limit' ts) :=
  have ⟨ho, hc⟩ := cut_of_room eof h
  conditional_cut (climb_cut ho hc Level.all) ts

theorem terminated_cut (eof : Token) (h : limit ≤ limit') (ts : List Token) :
    Cut limit limit ts (terminated eof limit ts) (terminated eof limit' ts) := by
  have hsemicolon : Fault.expectedSemicolon ≠ .nestingTooDeep := by decide
  refine (expression_cut eof h ts).andThen (fun e rest => ?_) fun a mid e rest hc hdone => ?_
  · cases rest with
    | nil => exact .done e le_rfl
    | cons t more =>
      dsimp only
      split
      · exact .done e (Nat.le_succ _)
      · exact .failed hsemicolon
  · cases mid with
    | nil =>
      cases hdone
      exact hc
    | cons t more =>
      dsimp only at hdone
      split at hdone
      · cases hdone
        exact hc
      · cases hdone

/-- **The threshold.** What one limit lets through is read at another limit too if that holds its cost, and otherwise is
too deep for it. -/
theorem expression_threshold {ts rest : List Token} {e : Expr} (h : expression eof limit ts = .done e rest)
    (limit' : Nat) :
    (e.cost ≤ limit' → expression eof limit' ts = .done e rest) ∧
    (limit' < e.cost → ∃ f, expression eof limit' ts = .failed f ∧ f.fault = .nestingTooDeep) := by
  obtain ⟨-, -, -, hcost⟩ := expression_sound h
  rcases le_total limit limit' with hle | hle
  · have hcut := expression_cut eof hle ts
    rw [h] at hcut
    generalize expression eof limit' ts = read at hcut ⊢
    cases hcut
    exact ⟨fun _ => rfl, fun hlt => by omega⟩
  · have hcut := expression_cut eof hle ts
    rw [h] at hcut
    cases hread : expression eof limit' ts with
    | done a mid =>
      rw [hread] at hcut
      cases hcut
      obtain ⟨-, -, -, hcost'⟩ := expression_sound hread
      exact ⟨fun _ => rfl, fun hlt => by omega⟩
    | failed f =>
      rw [hread] at hcut
      cases hcut with
      | stopped hf hspent hlt => exact ⟨fun hle => absurd (hlt e rest rfl) (not_lt.2 hle), fun _ => ⟨f, rfl, hf⟩⟩

end

end Reading

/-! ## Readers -/

theorem Failure.tooDeep_iff (f : Failure) : f.diagnostic.kind = .nestingTooDeep ↔ f.fault = .nestingTooDeep := by
  change f.fault.kind = .nestingTooDeep ↔ f.fault = .nestingTooDeep
  cases f.fault <;> decide

/-- a program in which nothing is too deep is read alike at every greater limit -/
theorem read_of_limit {eof : Token} {limit limit' : Nat} (hle : limit ≤ limit') (ts : List Token)
    (h : ∀ f ∈ (Program.read eof limit ts).failures, f.fault ≠ .nestingTooDeep) :
    Program.read eof limit' ts = Program.read eof limit ts := by
  revert h
  refine Program.read_induction (motive := fun ts p =>
    (∀ f ∈ p.failures, f.fault ≠ .nestingTooDeep) → Program.read eof limit' ts = p) ?_ ?_ ?_ ts
  · intro _
    exact Program.read_nil eof limit'
  · intro ts e rest hread ih h
    have hread' := (Reading.terminated_cut eof hle ts).eq_of_not_tooDeep (by simp [hread])
    rw [Program.read_of_done (hread'.trans hread), ih h]
  · intro ts f hne hread ih h
    obtain ⟨hf, hmore⟩ := List.forall_mem_cons.1 h
    have hread' : Reading.terminated eof limit' ts = Reading.terminated eof limit ts := by
      apply (Reading.terminated_cut eof hle ts).eq_of_not_tooDeep
      intro g hg
      cases hread.symm.trans hg
      exact hf
    rw [Program.read_of_failed hne (hread'.trans hread), ih hmore]

/-- a program is nowhere too deep for a limit of more levels than it has tokens -/
theorem read_not_tooDeep {eof : Token} {limit : Nat} (ts : List Token) (h : ts.length < limit) :
    ∀ f ∈ (Program.read eof limit ts).failures, f.fault ≠ .nestingTooDeep := by
  revert h
  refine Program.read_induction (motive := fun ts p =>
    ts.length < limit → ∀ f ∈ p.failures, f.fault ≠ .nestingTooDeep) ?_ ?_ ?_ ts
  · intro _ f hf
    cases hf
  · intro ts e rest hread ih h
    exact ih ((length_lt_of_terminated hread).trans h)
  · intro ts f hne hread ih h
    refine List.forall_mem_cons.2 ⟨?_, ih ((length_resume_of_terminated hread hne).trans h)⟩
    intro hf
    have hspent := (Reading.terminated_cut eof le_rfl ts).limit_le hread hf
    omega

namespace Reader

variable {r : Reader} {limit' : Nat}

theorem single_of_limit (hle : r.limit ≤ limit') (h : ∀ d ∈ r.single.diagnostics, d.kind ≠ .nestingTooDeep) :
    single { r with limit := limit' } = r.single := by
  have hread : Reading.expression r.eof limit' r.unread = Reading.expression r.eof r.limit r.unread := by
    apply (Reading.expression_cut r.eof hle r.unread).eq_of_not_tooDeep
    intro f hf
    apply mt f.tooDeep_iff.2
    exact h f.diagnostic (by simp [single, hf])
  simp only [single, hread]

theorem program_of_limit (hle : r.limit ≤ limit') (h : ∀ d ∈ r.program.diagnostics, d.kind ≠ .nestingTooDeep) :
    program { r with limit := limit' } = r.program := by
  have hread : Program.read r.eof limit' r.unread = Program.read r.eof r.limit r.unread := by
    apply read_of_limit hle
    intro f hf
    apply mt f.tooDeep_iff.2
    exact h f.diagnostic (List.mem_map_of_mem hf)
  simp only [program, hread]

/-- a single expression is read if and only if the limit holds its cost -/
theorem single_threshold {e : Expr} (h : r.single.result = some e) (limit' : Nat) :
    (e.cost ≤ limit' → single { r with limit := limit' } = r.single ∧ r.single.diagnostics = []) ∧
    (limit' < e.cost → (single { r with limit := limit' }).result = none ∧
      ∃ d, (single { r with limit := limit' }).diagnostics = [d] ∧ d.kind = .nestingTooDeep) := by
  cases hread : Reading.expression r.eof r.limit r.unread with
  | failed f =>
    simp only [single, hread] at h
    cases h
  | done a rest =>
    simp only [single, hread] at h
    cases h
    obtain ⟨hfits, hcut⟩ := Reading.expression_threshold hread limit'
    constructor
    · intro hle
      simp only [single, hread, hfits hle, and_self]
    · intro hlt
      obtain ⟨f, hf, hdeep⟩ := hcut hlt
      simp only [single, hf]
      exact ⟨trivial, f.diagnostic, rfl, f.tooDeep_iff.2 hdeep⟩

/-- nothing is too deep for a limit of more levels than there are tokens left -/
theorem reply_not_tooDeep (h : r.unread.length < r.limit) (k : Call) :
    ∀ d ∈ (r.reply k).diagnostics, d.kind ≠ .nestingTooDeep := by
  cases k with
  | single =>
    cases hread : Reading.expression r.eof r.limit r.unread with
    | done e rest => simp [reply, single, hread]
    | failed f =>
      have hdeep : f.fault ≠ .nestingTooDeep := by
        intro hf
        have hspent := (Reading.expression_cut r.eof le_rfl r.unread).limit_le hread hf
        omega
      simpa [reply, single, hread] using mt f.tooDeep_iff.1 hdeep
  | program =>
    intro d hd
    obtain ⟨f, hf, rfl⟩ := List.mem_map.1 hd
    exact mt f.tooDeep_iff.1 (read_not_tooDeep r.unread h f hf)

theorem length_skipSemicolon_le (ts : List Token) : (skipSemicolon ts).length ≤ ts.length := by
  cases ts with
  | nil => exact le_rfl
  | cons t rest =>
    simp only [skipSemicolon]
    split
    · exact Nat.le_succ _
    · exact le_rfl

theorem length_afterCall_le (r : Reader) (k : Call) : (r.afterCall k).unread.length ≤ r.unread.length := by
  cases k with
  | single =>
    have hadvances := Reading.expression_advances r.eof r.limit r.unread
    cases hread : Reading.expression r.eof r.limit r.unread with
    | done e rest =>
      rw [hread] at hadvances
      simpa [afterCall, resumeFrom, single, hread] using (length_skipSemicolon_le rest).trans hadvances.2.le
    | failed f =>
      rw [hread] at hadvances
      simpa [afterCall, resumeFrom, single, hread] using List.IsSuffix.length_le hadvances
  | program => exact Nat.zero_le _

theorem replies_not_tooDeep (ks : List Call) (h : r.unread.length < r.limit) :
    ∀ reply ∈ r.replies ks, ∀ d ∈ reply.diagnostics, d.kind ≠ .nestingTooDeep := by
  induction ks generalizing r with
  | nil =>
    intro reply hreply
    cases hreply
  | cons k ks ih =>
    refine List.forall_mem_cons.2 ⟨reply_not_tooDeep h k, ih ?_⟩
    have hlimit : (r.afterCall k).limit = r.limit := by cases k <;> rfl
    rw [hlimit]
    exact (length_afterCall_le r k).trans_lt h

/-- an end-of-text token among the tokens is not one of those to be read -/
theorem length_unread_ofTokens (tokens : List Token) (limit : Nat) :
    (ofTokens tokens limit).unread.length ≤ tokens.length ∧
    ((∃ t ∈ tokens, t.kind = .eof) → (ofTokens tokens limit).unread.length < tokens.length) := by
  have hbody := List.takeWhile_prefix (l := tokens) (·.kind != .eof)
  refine ⟨hbody.length_le, ?_⟩
  rintro ⟨t, ht, hkind⟩
  apply lt_of_le_of_ne hbody.length_le
  intro heq
  have hall := List.takeWhile_eq_self_iff.1 (hbody.eq_of_length heq) t ht
  simp [hkind] at hall

end Reader

/-- **A limit only cuts off, at the cost of a tree.**
- Where a reader reads a tree, it reads it alike, without a diagnostic, at every limit that holds its cost; at every
  lesser limit it gives nothing, and reports that the nesting is too deep, once.
- Where a reader, in the one way or in the other, does not report this, it gives the same at every greater limit.
- In no calls, one after the other, it is reported if the limit is greater than the number of the tokens. One of these
  may be an end of the text; then a limit as great as their number will do. -/
theorem limit_only_cuts_off (r : Reader) (limit' : Nat) :
    (∀ e : Expr, r.single.result = some e →
      (e.cost ≤ limit' → Reader.single { r with limit := limit' } = r.single ∧ r.single.diagnostics = []) ∧
      (limit' < e.cost → (Reader.single { r with limit := limit' }).result = none ∧
        ∃ d, (Reader.single { r with limit := limit' }).diagnostics = [d] ∧ d.kind = .nestingTooDeep)) ∧
    (r.limit ≤ limit' →
      ((∀ d ∈ r.single.diagnostics, d.kind ≠ .nestingTooDeep) →
        Reader.single { r with limit := limit' } = r.single) ∧
      ((∀ d ∈ r.program.diagnostics, d.kind ≠ .nestingTooDeep) →
        Reader.program { r with limit := limit' } = r.program)) ∧
    ∀ tokens : List Token, (tokens.length < limit' ∨ tokens.length ≤ limit' ∧ ∃ t ∈ tokens, t.kind = .eof) →
      ∀ (calls : List Call), ∀ reply ∈ (Reader.ofTokens tokens limit').replies calls,
        ∀ d ∈ reply.diagnostics, d.kind ≠ .nestingTooDeep := by
  refine ⟨fun e he => Reader.single_threshold he limit', fun hle => ?_, fun tokens hlimit calls => ?_⟩
  · exact ⟨Reader.single_of_limit hle, Reader.program_of_limit hle⟩
  · obtain ⟨hle, hlt⟩ := Reader.length_unread_ofTokens tokens limit'
    apply Reader.replies_not_tooDeep
    rcases hlimit with hmore | ⟨hall, heof⟩
    · exact hle.trans_lt hmore
    · exact (hlt heof).trans_le hall

/-- `2 - 3 - 1` costs three levels: it is read at the limit 3, which is less than its number of tokens, and at the limit
2 it is too deep. -/
theorem differences_cost_three :
    (Reader.single ⟨Sample.body.take 5, { kind := .eof, lexeme := "" }, 5⟩).result = some Sample.differences.tree ∧
    (Reader.single ⟨Sample.body.take 5, { kind := .eof, lexeme := "" }, 3⟩).result = some Sample.differences.tree ∧
    (Reader.single ⟨Sample.body.take 5, { kind := .eof, lexeme := "" }, 2⟩).result = none := by
  let r : Reader := ⟨Sample.body.take 5, { kind := .eof, lexeme := "" }, 5⟩
  have hread : r.single.result = some Sample.differences.tree := rfl
  have hfits := ((limit_only_cuts_off r 3).1 _ hread).1 (by decide)
  have hcut := ((limit_only_cuts_off r 2).1 _ hread).2 (by decide)
  refine ⟨hread, ?_, hcut.1⟩
  exact (congrArg Outcome.result hfits.1).trans hread

/-- **The end of the text counts.** A lone sign is one token. At the limit 1 nothing is left for its operand, before it
is found that there is none. -/
theorem lone_sign_too_deep : [Sample.minus].length ≤ 1 ∧
    (Reader.ofTokens [Sample.minus] 1).single.diagnostics.map (·.kind) = [.nestingTooDeep] := by
  decide

end Reckoner
