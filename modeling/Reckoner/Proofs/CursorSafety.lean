/-
A cursor reads what a reader reads, and nothing breaks.

`Agrees` compares a step on a tape with a reading of the tokens in front of the end of the text: both succeed with the same
result or both fail at the same token, and the cursor stands at the tokens that the reading left. `Tracks` says so of a step
that comes back to the depth where it began. Both ways of reading are built from the same parts:

- `primary_tracks`, `signed_tracks`, `conditional_tracks`: each part tracks its counterpart if what it calls does;
- `climb_tracks`: so do the levels, which come back to their depth however deep their operators counted;
- `nested_tracks`, `tracks_of_room`: so do operands and chains, which are read one level deeper, by induction on the levels
  that are left to nest;
- `readAll_agrees`, `call_agrees`, `calls_agree`: so do whole programs, and calls one after the other.

A step that agrees is not broken, and leaves the cursor on its tape with all the places where it was in bounds.

Main statement: `cursor_safe`.
-/
import Mathlib.Data.List.TakeWhile
import Mathlib.Tactic
import Reckoner.Proofs.Cursor
import Reckoner.Proofs.Reading
import Reckoner.Proofs.ValidPrefix

namespace Reckoner

namespace Cursor

/-! ## Steps and readings -/

/-- A step on a tape and a reading give the same, and the step ends at one of `depths`. -/
inductive Agrees (v : Tape) (depths : Nat → Prop) {α : Type} : Moved α → Reading α → Prop where
  | done {a : α} {c : Cursor} {ts : List Token} (h : c.On v ts) (hdepth : depths c.depth) :
      Agrees v depths (.done a c) (.done a ts)
  | failed {fault : Fault} {token : Token} {c : Cursor} {ts : List Token} (h : c.On v ts) (hdepth : depths c.depth) :
      Agrees v depths (.failed fault token c) (.failed ⟨fault, token, ts⟩)

/-- At depth `d` the step agrees with the reading, and comes back to this depth. -/
def Tracks (v : Tape) (d : Nat) {α : Type} (step : Step α) (reading : List Token → Reading α) : Prop :=
  ∀ c ts, c.On v ts → c.depth = d → Agrees v (· = d) (step c) (reading ts)

variable {v : Tape} {d : Nat} {depths depths' : Nat → Prop}

section
variable {α β : Type}

/-- steps and readings that agree, one after the other -/
theorem Agrees.andThen {m : Moved α} {r : Reading α} {next : α → Step β} {next' : α → List Token → Reading β}
    (h : Agrees v depths m r) (hd : ∀ d, depths d → depths' d)
    (hnext : ∀ a c ts, c.On v ts → depths c.depth → Agrees v depths' (next a c) (next' a ts)) :
    Agrees v depths' (m.andThen next) (r.andThen next') := by
  rcases h with ⟨hon, hdepth⟩ | ⟨hon, hdepth⟩
  · exact hnext _ _ _ hon hdepth
  · exact .failed hon (hd _ hdepth)

/-- a step that sets the depth back at the end, whatever happened before -/
theorem Agrees.lastly {step : Step α} {r : Reading α} {last : Step Unit} {c : Cursor} (h : Agrees v depths (step c) r)
    (hlast : ∀ c ts, c.On v ts → depths c.depth → ∃ c', last c = .done () c' ∧ c'.On v ts ∧ depths' c'.depth) :
    Agrees v depths' (Cursor.lastly step last c) r := by
  unfold Cursor.lastly
  generalize step c = m at h
  rcases h with ⟨hon, hdepth⟩ | ⟨hon, hdepth⟩
  all_goals
    obtain ⟨c', hc', hon', hdepth'⟩ := hlast _ _ hon hdepth
    simp only [hc']
  · exact .done hon' hdepth'
  · exact .failed hon' hdepth'

theorem On.blameNext_agrees {c : Cursor} {ts : List Token} (h : c.On v ts) (hd : depths c.depth) (fault : Fault) :
    Agrees v depths (Cursor.blameNext fault c : Moved α) (Reading.fail v.eof fault ts) := by
  rw [h.blameNext]
  exact .failed h hd

end

/-! ## Parts of expressions -/

theorem consume_tracks (kind : Kind) (fault : Fault) :
    Tracks v d (consume kind fault) (Reading.expect v.eof kind fault) := by
  intro c ts h hd
  rcases ts with _ | ⟨t, rest⟩
  · simp only [consume, bind_apply, h.check_nil, done_andThen, ite_apply, Bool.false_eq_true, if_false]
    exact h.blameNext_agrees hd fault
  · by_cases hkind : t.kind = kind
    · simp only [consume, bind_apply, h.check_cons, done_andThen, ite_apply, hkind, beq_self_eq_true, if_true, h.advance,
        Reading.expect]
      exact .done h.next hd
    · simp only [consume, bind_apply, h.check_cons, done_andThen, ite_apply, hkind, beq_iff_eq, if_false, Reading.expect]
      exact h.blameNext_agrees hd fault

/-- reading a primary, as the kinds of its first token that are looked for one after the other -/
theorem primary_branches (eof : Token) (inside : List Token → Reading Expr) (t : Token) (rest : List Token) :
    Reading.primary eof inside (t :: rest) =
      if t.kind ∈ [.falseWord] then .done (.literal (.bool false)) rest
      else if t.kind ∈ [.trueWord] then .done (.literal (.bool true)) rest
      else if t.kind ∈ [.nilWord] then .done (.literal .nil) rest
      else if t.kind ∈ carriers then
        match t.constant? with
        | some constant => .done (.literal constant) rest
        | none => .failed ⟨.expectedExpression, t, rest⟩
      else if t.kind ∈ [.leftParen] then
        (inside rest).andThen fun e rest =>
          (Reading.expect eof .rightParen .unclosedParenthesis rest).andThen fun _ rest => .done (.grouping e) rest
      else Reading.fail eof .expectedExpression (t :: rest) := by
  unfold Reading.primary
  dsimp only
  generalize t.kind = kind
  cases kind <;> rfl

theorem primary_tracks {inside : Step Expr} {inside' : List Token → Reading Expr} (hi : Tracks v d inside inside') :
    Tracks v d (primary inside) (Reading.primary v.eof inside') := by
  intro c ts h hd
  rcases ts with _ | ⟨t, rest⟩
  · simp only [primary, h.branch_nil]
    exact h.blameNext_agrees hd _
  · have hnext : (c.place (c.current + 1) c.depth).depth = d := hd
    simp only [primary, h.branch_cons, primary_branches]
    split_ifs
    · exact .done h.next hnext
    · exact .done h.next hnext
    · exact .done h.next hnext
    · rw [bind_apply, h.previous_next, done_andThen]
      rcases hconstant : t.constant? with _ | constant
      all_goals simp only [constantOf, hconstant]
      · exact .failed h.next hnext
      · exact .done h.next hnext
    · apply (hi _ _ h.next hnext).andThen fun _ => id
      intro e c ts h hd
      apply (consume_tracks _ _ c ts h hd).andThen fun _ => id
      intro _ c ts h hd
      exact .done h hd
    · exact h.blameNext_agrees hd _

theorem signed_tracks {operand inside : Step Expr} {operand' inside' : List Token → Reading Expr}
    (ho : Tracks v d operand operand') (hi : Tracks v d inside inside') :
    Tracks v d (signed operand inside) (Reading.unary v.eof operand' inside') := by
  intro c ts h hd
  rcases ts with _ | ⟨t, rest⟩
  · simp only [signed, h.branch_nil]
    exact primary_tracks hi c [] h hd
  · have hnext : (c.place (c.current + 1) c.depth).depth = d := hd
    simp only [signed, h.branch_cons, Reading.unary, mem_unaryOperators_iff]
    split_ifs
    · rw [bind_apply, h.previous_next, done_andThen]
      apply (ho _ _ h.next hnext).andThen fun _ => id
      intro e c ts h hd
      exact .done h hd
    · exact primary_tracks hi c (t :: rest) h hd

theorem conditional_tracks {part : Step Expr} {part' : List Token → Reading Expr} (hp : Tracks v d part part') :
    Tracks v d (conditional part) (Reading.conditional v.eof part') := by
  intro c ts h hd
  apply (hp c ts h hd).andThen fun _ => id
  intro condition c ts h hd
  rcases ts with _ | ⟨t, rest⟩
  · rw [h.branch_nil]
    exact .done h hd
  · have hnext : (c.place (c.current + 1) c.depth).depth = d := hd
    simp only [h.branch_cons, List.mem_singleton]
    split_ifs
    · apply (hp _ _ h.next hnext).andThen fun _ => id
      intro thenBranch c ts h hd
      apply (consume_tracks _ _ c ts h hd).andThen fun _ => id
      intro _ c ts h hd
      apply (hp c ts h hd).andThen fun _ => id
      intro elseBranch c ts h hd
      exact .done h hd
    · exact .done h hd

/-! ## Levels -/

/-- Pairs that agree with a chain wherever they end: the level they are folded at comes back to its depth. -/
theorem leftAssociative_tracks {operand : Step Expr} {operand' : List Token → Reading Expr}
    {pairs : Expr → Step Expr} {chain : Expr → List Token → Reading Expr} (ho : Tracks v d operand operand')
    (hpairs : ∀ e c ts, c.On v ts → c.depth = d → Agrees v (fun _ => True) (pairs e c) (chain e ts)) :
    Tracks v d (leftAssociative operand pairs) fun ts => (operand' ts).andThen chain := by
  intro c ts h hd
  have hfold : Agrees v (fun _ => True) ((operand >>= pairs) c) ((operand' ts).andThen chain) :=
    (ho c ts h hd).andThen (fun _ _ => trivial) hpairs
  apply hfold.lastly
  intro c' ts' h' _
  exact ⟨_, rfl, h'.at_depth h.depth_le, hd⟩

theorem climb_tracks {unary : Step Expr} {operand : List Token → Reading Expr}
    {pairs : Level → Expr → Step Expr} {chain : Level → Expr → List Token → Reading Expr} (hu : Tracks v d unary operand)
    (hpairs : ∀ l e c ts, c.On v ts → c.depth = d → Agrees v (fun _ => True) (pairs l e c) (chain l e ts))
    (levels : List Level) :
    Tracks v d (climb unary pairs levels) (Reading.climb operand chain levels.reverse) := by
  induction levels with
  | nil =>
    intro c ts h hd
    have hdone : Reading.climb operand chain [] ts = operand ts := Reading.andThen_done (operand ts)
    rw [List.reverse_nil, hdone]
    exact hu c ts h hd
  | cons l tighter ih =>
    intro c ts h hd
    rw [List.reverse_cons, Reading.climb_concat]
    exact leftAssociative_tracks ih (hpairs l) c ts h hd

/-! ## Nesting -/

/-- a step that is taken one level deeper, and comes back from there -/
theorem nested_tracks {step : Step Expr} {reading : List Token → Reading Expr} (hs : Tracks v (d + 1) step reading)
    (hd : d < v.limit) : Tracks v d (do descend; lastly step ascend) reading := by
  intro c ts h hdepth
  have hlt : c.depth < v.limit := by rwa [hdepth]
  have hdeeper : (c.place c.current (c.depth + 1)).On v ts := h.at_depth hlt
  rw [bind_apply, h.descend_of_lt hlt, done_andThen]
  apply (hs _ ts hdeeper (by rw [place_depth, hdepth])).lastly
  intro c' ts' h' hdepth'
  exact ⟨_, ascend_of_eq hdepth', h'.at_depth hd.le, place_depth _ _ _⟩

/-- where no level is left to nest, operands fail, and so does a chain that goes on -/
theorem tracks_at_limit {time : Nat} (htime : 0 < time) (hd : d = v.limit) :
    Tracks v d (unary time) (Reading.operand v.eof 0) ∧
    ∀ l e c ts, c.On v ts → c.depth = d →
      Agrees v (fun _ => True) (pairs time l e c) (Reading.chain v.eof 0 l e ts) := by
  obtain ⟨time, rfl⟩ := Nat.exists_eq_add_one.2 htime
  constructor
  · intro c ts h hdepth
    rw [unary, bind_apply, h.descend_of_eq (hdepth.trans hd), failed_andThen]
    exact .failed h hdepth
  · intro l e c ts h hdepth
    rcases ts with _ | ⟨t, rest⟩
    · rw [pairs, h.branch_nil]
      exact .done h trivial
    · have hfull : (c.place (c.current + 1) c.depth).depth = v.limit := hdepth.trans hd
      simp only [pairs, h.branch_cons, Level.mem_operators_iff, Reading.chain]
      split_ifs
      · rw [bind_apply, h.previous_next, done_andThen, bind_apply, h.next.descend_of_eq hfull, failed_andThen]
        exact .failed h.next trivial
      · exact .done h trivial

/-- **Operands and chains.** With time for more levels than are left to nest, an operand tracks its reading, and the pairs of
a level agree with its chain. -/
theorem tracks_of_room (v : Tape) (room : Nat) : ∀ time d, room < time → d + room = v.limit →
    Tracks v d (unary time) (Reading.operand v.eof room) ∧
    ∀ l e c ts, c.On v ts → c.depth = d →
      Agrees v (fun _ => True) (pairs time l e c) (Reading.chain v.eof room l e ts) := by
  induction room with
  | zero =>
    intro time d htime hd
    exact tracks_at_limit htime hd
  | succ room ih =>
    intro time d htime hd
    obtain ⟨time, rfl⟩ := Nat.exists_eq_add_one.2 (Nat.zero_lt_of_lt htime)
    -- one level deeper there is room for one level less
    obtain ⟨hunary, hpairs⟩ := ih time (d + 1) (Nat.lt_of_succ_lt_succ htime) (by omega)
    have hclimb : ∀ levels, Tracks v (d + 1) (climb (unary time) (pairs time) levels.reverse)
        (Reading.climb (Reading.operand v.eof room) (Reading.chain v.eof room) levels) := by
      intro levels
      have h := climb_tracks hunary hpairs levels.reverse
      rwa [List.reverse_reverse] at h
    have hlt : d < v.limit := by omega
    constructor
    · exact nested_tracks (signed_tracks hunary (conditional_tracks (hclimb Level.all))) hlt
    · intro l e c ts h hdepth
      rcases ts with _ | ⟨t, rest⟩
      · rw [pairs, h.branch_nil]
        exact .done h trivial
      · have hnext : (c.place (c.current + 1) c.depth).depth < v.limit := by rwa [place_depth, hdepth]
        simp only [pairs, h.branch_cons, Level.mem_operators_iff, Reading.chain]
        split_ifs
        · rw [bind_apply, h.previous_next, done_andThen, bind_apply, h.next.descend_of_lt hnext, done_andThen]
          have hright := hclimb l.tighter _ rest (h.next.at_depth hnext) (by rw [place_depth, place_depth, hdepth])
          apply hright.andThen fun _ _ => trivial
          intro right c ts h hdepth
          exact hpairs l _ c ts h hdepth
        · exact .done h trivial

/-! ## Expressions -/

section
variable {time : Nat} (htime : v.limit < time)
include htime

theorem expression_tracks : Tracks v 0 (expression time) (Reading.expression v.eof v.limit) := by
  obtain ⟨hunary, hpairs⟩ := tracks_of_room v v.limit time 0 htime (Nat.zero_add _)
  have hclimb := climb_tracks hunary hpairs Level.all.reverse
  rw [List.reverse_reverse] at hclimb
  exact conditional_tracks hclimb

theorem terminated_tracks : Tracks v 0 (terminated time) (Reading.terminated v.eof v.limit) := by
  intro c ts h hd
  apply (expression_tracks htime c ts h hd).andThen fun _ => id
  intro e c ts h hd
  rcases ts with _ | ⟨t, rest⟩
  · rw [h.branch_nil, bind_apply, h.isAtEnd_nil, done_andThen]
    exact .done h hd
  · simp only [h.branch_cons, List.mem_singleton]
    split_ifs
    · exact .done h.next hd
    · rw [bind_apply, h.isAtEnd_cons, done_andThen]
      exact h.blameNext_agrees hd .expectedSemicolon

end

/-! ## Programs -/

theorem On.skip {c : Cursor} {ts : List Token} (h : c.On v ts) {last : Token} (hlast : previous c = .done last c)
    {time : Nat} (htime : ts.length < time) :
    ∃ c', Cursor.skip time c = .done () c' ∧ c'.On v (resumeAfter last ts) ∧ c'.depth = c.depth := by
  induction ts generalizing c last time with
  | nil =>
    obtain ⟨time, rfl⟩ := Nat.exists_eq_add_one.2 htime
    exact ⟨c, by simp [Cursor.skip, h.isAtEnd_nil], h, rfl⟩
  | cons t rest ih =>
    obtain ⟨time, rfl⟩ := Nat.exists_eq_add_one.2 (Nat.zero_lt_of_lt htime)
    by_cases hstop : last.kind = .semicolon ∨ t.kind.startsStatement = true
    · refine ⟨c, ?_, ?_, rfl⟩
      · rcases hstop with hstop | hstop
        · simp [Cursor.skip, h.isAtEnd_cons, hlast, hstop]
        · simp [Cursor.skip, h.isAtEnd_cons, hlast, h.peek, hstop]
      · rw [resumeAfter, if_pos (by simpa using hstop)]
        exact h
    · obtain ⟨c', hc', hon, hdepth⟩ := ih h.next h.previous_next (Nat.lt_of_succ_lt_succ htime)
      rw [not_or] at hstop
      refine ⟨c', ?_, ?_, hdepth⟩
      · simp [Cursor.skip, h.isAtEnd_cons, hlast, h.peek, h.advance, hstop, hc']
      · rw [resumeAfter, if_neg (by simpa using hstop)]
        exact hon

theorem On.synchronize {c : Cursor} {ts : List Token} (h : c.On v ts) {time : Nat} (htime : ts.length < time) :
    ∃ c', Cursor.synchronize time c = .done () c' ∧ c'.On v (resume ts) ∧ c'.depth = c.depth := by
  rcases ts with _ | ⟨t, rest⟩
  · -- at the end nothing is passed over
    obtain ⟨last, hlast⟩ := h.exists_previous
    obtain ⟨c', hc', hon, hdepth⟩ := h.skip hlast htime
    exact ⟨c', by simp [Cursor.synchronize, Cursor.advance, h.isAtEnd_nil, hlast, hc'], hon, hdepth⟩
  · obtain ⟨c', hc', hon, hdepth⟩ := h.next.skip h.previous_next (Nat.lt_of_succ_lt htime)
    exact ⟨c', by simp [Cursor.synchronize, h.advance, hc'], hon, hdepth⟩

theorem On.skipSemicolon {c : Cursor} {ts : List Token} (h : c.On v ts) :
    ∃ c' passed, matchKinds [.semicolon] c = .done passed c' ∧ c'.On v (Reader.skipSemicolon ts) ∧ c'.depth = c.depth := by
  rcases ts with _ | ⟨t, rest⟩
  · exact ⟨c, false, h.matchKinds_nil _, h, rfl⟩
  · by_cases hkind : t.kind = .semicolon
    · refine ⟨c.place (c.current + 1) c.depth, true, by simp [h.matchKinds_cons, hkind], ?_, rfl⟩
      rw [Reader.skipSemicolon, if_pos hkind]
      exact h.next
    · refine ⟨c, false, by simp [h.matchKinds_cons, hkind], ?_, rfl⟩
      rw [Reader.skipSemicolon, if_neg hkind]
      exact h

theorem On.ignored {c : Cursor} {ts : List Token} (h : c.On v ts) :
    Cursor.ignored c = .done (ts.head?.toList.map .ignored) c := by
  rcases ts with _ | ⟨t, rest⟩
  · simp [Cursor.ignored, h.isAtEnd_nil]
  · simp [Cursor.ignored, h.isAtEnd_cons, h.peek]

theorem Agrees.of_done {α : Type} {m : Moved α} {a : α} {ts : List Token} (h : Agrees v depths m (.done a ts)) :
    ∃ c, m = .done a c ∧ c.On v ts ∧ depths c.depth := by
  rcases h with ⟨hon, hdepth⟩
  exact ⟨_, rfl, hon, hdepth⟩

theorem Agrees.of_failed {α : Type} {m : Moved α} {f : Failure} (h : Agrees v depths m (.failed f)) :
    ∃ c, m = .failed f.fault f.token c ∧ c.On v f.unread ∧ depths c.depth := by
  rcases h with _ | ⟨hon, hdepth⟩
  exact ⟨_, rfl, hon, hdepth⟩

theorem On.length_le {c : Cursor} {ts : List Token} (h : c.On v ts) : ts.length ≤ v.body.length := by
  rw [← h.unread, List.length_drop]
  exact Nat.sub_le _ _

section
variable {each : Nat} (hlimit : v.limit < each) (hbody : v.body.length < each)
include hlimit hbody

/-- **Programs.** All expressions and diagnostics are added in order, and the end of the text is reached. -/
theorem readAll_agrees (ts : List Token) : ∀ time es ds c, c.On v ts → c.depth = 0 → ts.length < time →
    ∃ c', readAll each time es ds c =
        .done (es ++ (Program.read v.eof v.limit ts).expressions,
          ds ++ (Program.read v.eof v.limit ts).failures.map Failure.diagnostic) c' ∧
      c'.On v [] ∧ c'.depth = 0 := by
  refine Program.read_induction (motive := fun ts p => ∀ time es ds c, c.On v ts → c.depth = 0 → ts.length < time →
    ∃ c', readAll each time es ds c = .done (es ++ p.expressions, ds ++ p.failures.map Failure.diagnostic) c' ∧
      c'.On v [] ∧ c'.depth = 0) ?_ ?_ ?_ ts
  · intro time es ds c h hd htime
    obtain ⟨time, rfl⟩ := Nat.exists_eq_add_one.2 htime
    exact ⟨c, by simp [readAll, h.isAtEnd_nil], h, hd⟩
  · intro ts e rest hread ih time es ds c h hd htime
    have hshorter := length_lt_of_terminated hread
    have hagrees := terminated_tracks hlimit c ts h hd
    rw [hread] at hagrees
    obtain ⟨c1, hc1, h1, hd1⟩ := hagrees.of_done
    obtain ⟨time, rfl⟩ := Nat.exists_eq_add_one.2 (Nat.zero_lt_of_lt htime)
    obtain ⟨c', hc', hon, hdepth⟩ := ih time (es ++ [e]) ds c1 h1 hd1 (by omega)
    rcases ts with _ | ⟨t, us⟩
    · cases hshorter
    · refine ⟨c', ?_, hon, hdepth⟩
      simp [readAll, h.isAtEnd_cons, attempt, hc1, hc', Program.push]
  · intro ts f hne hread ih time es ds c h hd htime
    have hshorter := length_resume_of_terminated hread hne
    have hagrees := terminated_tracks hlimit c ts h hd
    rw [hread] at hagrees
    obtain ⟨c1, hc1, h1, hd1⟩ := hagrees.of_failed
    obtain ⟨c2, hc2, h2, hd2⟩ := h1.synchronize (Nat.lt_of_le_of_lt h1.length_le hbody)
    obtain ⟨time, rfl⟩ := Nat.exists_eq_add_one.2 (Nat.zero_lt_of_lt htime)
    obtain ⟨c', hc', hon, hdepth⟩ := ih time es (ds ++ [f.diagnostic]) c2 h2 (hd2.trans hd1) (by omega)
    rcases ts with _ | ⟨t, us⟩
    · exact absurd rfl hne
    · refine ⟨c', ?_, hon, hdepth⟩
      have hdiagnostic : Failure.diagnostic ⟨f.fault, f.token, []⟩ = f.diagnostic := rfl
      simp [readAll, h.isAtEnd_cons, attempt, hc1, hdiagnostic, hc2, hc', Program.pushFailure]

/-- **One call** replies as a reader of the same tokens does, and leaves the tokens that it leaves. -/
theorem call_agrees (k : Call) {c : Cursor} {ts : List Token} (h : c.On v ts) (hd : c.depth = 0) :
    ∃ c', call each k c = .done (Reader.reply ⟨ts, v.eof, v.limit⟩ k) c' ∧
      c'.On v (Reader.afterCall ⟨ts, v.eof, v.limit⟩ k).unread ∧ c'.depth = 0 := by
  cases k with
  | single =>
    have hagrees := expression_tracks hlimit c ts h hd
    rcases hread : Reading.expression v.eof v.limit ts with ⟨e, rest⟩ | f
    · rw [hread] at hagrees
      obtain ⟨c1, hc1, h1, hd1⟩ := hagrees.of_done
      obtain ⟨c2, passed, hc2, h2, hd2⟩ := h1.skipSemicolon
      refine ⟨c2, ?_, ?_, hd2.trans hd1⟩
      · simp [call, attempt, hc1, hc2, h2.ignored, Reader.reply, Reader.single, hread]
      · simpa [Reader.afterCall, Reader.single, hread, Reader.resumeFrom] using h2
    · rw [hread] at hagrees
      obtain ⟨c1, hc1, h1, hd1⟩ := hagrees.of_failed
      have hdiagnostic : Failure.diagnostic ⟨f.fault, f.token, []⟩ = f.diagnostic := rfl
      refine ⟨c1, ?_, ?_, hd1⟩
      · simp [call, attempt, hc1, hdiagnostic, Reader.reply, Reader.single, hread]
      · simpa [Reader.afterCall, Reader.single, hread, Reader.resumeFrom] using h1
  | program =>
    obtain ⟨c', hc', hon, hdepth⟩ :=
      readAll_agrees hlimit hbody ts each [] [] c h hd (Nat.lt_of_le_of_lt h.length_le hbody)
    exact ⟨c', by simp [call, hc', Reader.reply, Reader.program], hon, hdepth⟩

/-- **Calls, one after the other,** reply as those on a reader of the same tokens do. -/
theorem calls_agree (ks : List Call) {c : Cursor} {ts : List Token} (h : c.On v ts) (hd : c.depth = 0) :
    ∃ c' ts', calls each ks c = .done (Reader.replies ⟨ts, v.eof, v.limit⟩ ks) c' ∧ c'.On v ts' ∧ c'.depth = 0 := by
  induction ks generalizing c ts with
  | nil => exact ⟨c, ts, rfl, h, hd⟩
  | cons k ks ih =>
    obtain ⟨c1, hc1, h1, hd1⟩ := call_agrees hlimit hbody k h hd
    obtain ⟨c', ts', hc', hon, hdepth⟩ := ih h1 hd1
    have hafter : Reader.afterCall ⟨ts, v.eof, v.limit⟩ k =
        ⟨(Reader.afterCall ⟨ts, v.eof, v.limit⟩ k).unread, v.eof, v.limit⟩ := by
      cases k <;> rfl
    refine ⟨c', ts', ?_, hon, hdepth⟩
    simp [calls, hc1, hc', Reader.replies, ← hafter]

end

/-! ## Cursors at the start -/

theorem on_start (v : Tape) : On v ⟨v.body ++ v.eof :: v.rest, v.limit, 0, 0, [(0, 0)]⟩ v.body := by
  refine ⟨rfl, rfl, Nat.zero_le _, Nat.zero_le _, List.drop_zero, ⟨[], rfl⟩, ?_, ?_, ?_⟩
  · simp
  · simp
  · exact List.pairwise_singleton _ _

/-- tokens with one that ends a text, divided at the first of these -/
theorem exists_first_end {tokens : List Token} (h : ∃ t ∈ tokens, t.kind = .eof) :
    ∃ body eof more, tokens = body ++ eof :: more ∧ eof.kind = .eof ∧ ∀ t ∈ body, t.kind ≠ .eof := by
  have hsome : (tokens.find? (·.kind == .eof)).isSome = true := by simpa using h
  obtain ⟨eof, heof⟩ := Option.isSome_iff_exists.1 hsome
  obtain ⟨hkind, body, more, rfl, hbody⟩ := List.find?_eq_some_iff_append.1 heof
  exact ⟨body, eof, more, rfl, by simpa using hkind, by simpa using hbody⟩

/-- tokens without their end, if they have none, are given one -/
theorem exists_tape (tokens : List Token) (limit : Nat) : ∃ v : Tape,
    ofTokens tokens limit = ⟨v.body ++ v.eof :: v.rest, limit, 0, 0, [(0, 0)]⟩ ∧ v.limit = limit ∧
      Reader.ofTokens tokens limit = ⟨v.body, v.eof, limit⟩ ∧ v.body.length ≤ tokens.length := by
  by_cases hends : ∃ t ∈ tokens, t.kind = .eof
  · obtain ⟨body, eof, more, rfl, heof, hbody⟩ := exists_first_end hends
    refine ⟨⟨body, eof, (ofTokens (body ++ eof :: more) limit).tokens.drop (body.length + 1), limit, hbody, heof⟩, ?_⟩
    refine ⟨?_, rfl, Reader.ofTokens_append_eof hbody heof more limit, by simp⟩
    unfold ofTokens
    dsimp only
    split_ifs
    · simp
    · simp
  · push Not at hends
    have hlast : tokens.getLast?.map (·.kind) ≠ some .eof := by
      intro h
      obtain ⟨t, ht, hkind⟩ := Option.map_eq_some_iff.1 h
      exact hends t (List.mem_of_getLast? ht) hkind
    refine ⟨⟨tokens, { kind := .eof, lexeme := "" }, [], limit, hends, rfl⟩, ?_, rfl, ?_, le_rfl⟩
    · rw [ofTokens, if_neg hlast]
    · have hfind : tokens.find? (·.kind == .eof) = none := List.find?_eq_none.2 (by simpa using hends)
      have htake : tokens.takeWhile (·.kind != .eof) = tokens := List.takeWhile_eq_self_iff.2 (by simpa using hends)
      simp only [Reader.ofTokens, hfind, htake, Option.getD_none]

end Cursor

/-- **A cursor is safe in any use.** Take any tokens, any limit and any calls one after the other, with time for as many
levels as the limit and as many tokens as there are. No call breaks: each ends in time, looks up tokens only where there are
some, and never counts the depth below zero. The replies are those of a `Reader`. With `first` the place of the first token
that ends a text:
- after the calls, so after each of them, the depth is zero again, whether reading succeeded or failed;
- wherever the cursor was, it was not behind `first` and not deeper than the limit, and it never went back;
- with any other tokens behind `first`, the replies are the same. -/
theorem cursor_safe (tokens : List Token) (limit : Nat) (calls : List Call) (extra : Nat) :
    ∃ first c, (Cursor.ofTokens tokens limit).tokens.findIdx? (·.kind == .eof) = some first ∧
      Cursor.calls (limit + tokens.length + 1 + extra) calls (Cursor.ofTokens tokens limit) =
        .done ((Reader.ofTokens tokens limit).replies calls) c ∧
      c.depth = 0 ∧
      (∀ p ∈ c.trail, p.1 ≤ first ∧ p.2 ≤ limit) ∧ c.trail.Pairwise (fun later earlier => earlier.1 ≤ later.1) ∧
      ∀ others : List Token, ∃ c', Cursor.calls (limit + tokens.length + 1 + extra) calls
          { Cursor.ofTokens tokens limit with tokens := (Cursor.ofTokens tokens limit).tokens.take (first + 1) ++ others } =
        .done ((Reader.ofTokens tokens limit).replies calls) c' := by
  obtain ⟨v, hstart, rfl, hreader, hlength⟩ := Cursor.exists_tape tokens limit
  have hlimit : v.limit < v.limit + tokens.length + 1 + extra := by omega
  have hbody : v.body.length < v.limit + tokens.length + 1 + extra := by omega
  have hfirst : (v.body ++ v.eof :: v.rest).findIdx? (·.kind == .eof) = some v.body.length := by
    have hnone : v.body.findIdx? (·.kind == .eof) = none :=
      List.findIdx?_eq_none_iff.2 (by simpa using v.body_plain)
    simp [List.findIdx?_append, List.findIdx?_cons, hnone, v.eof_kind]
  obtain ⟨c, ts, hc, hon, hdepth⟩ := Cursor.calls_agree hlimit hbody calls (Cursor.on_start v) rfl
  rw [hstart, hreader]
  refine ⟨v.body.length, c, hfirst, hc, hdepth, ?_, hon.tracked.ordered, fun others => ?_⟩
  · intro p hp
    exact ⟨hon.tracked.current_le p hp, hon.tracked.depth_le p hp⟩
  · -- the same tape with other tokens behind its end
    let w : Tape := { v with rest := others }
    obtain ⟨c', ts', hc', -⟩ := Cursor.calls_agree (v := w) hlimit hbody calls (Cursor.on_start w) rfl
    have htake : (v.body ++ v.eof :: v.rest).take (v.body.length + 1) ++ others = v.body ++ v.eof :: others := by
      simp [List.take_append]
    rw [htake]
    exact ⟨c', hc'⟩

/-- tokens that end in their midst; the first expression breaks off inside its parentheses -/
def Sample.interrupted : List Token :=
  [{ kind := .leftParen, lexeme := "(" }, { kind := .integer, lexeme := "1", literal := some (.integer 1) },
   { kind := .plus, lexeme := "+" }, { kind := .rightParen, lexeme := ")" }, { kind := .semicolon, lexeme := ";" },
   { kind := .integer, lexeme := "2", literal := some (.integer 2) }, { kind := .eof, lexeme := "" },
   { kind := .integer, lexeme := "3", literal := some (.integer 3) }]

-- a call that fails inside the parentheses, one that takes up from there, and one at the end of the text
example : (match Cursor.calls 12 [.single, .program, .single] (Cursor.ofTokens Sample.interrupted 3) with
    | .done replies c => (c.current, c.depth, replies.map fun r => (r.expressions.length, r.diagnostics.length))
    | _ => (0, 0, [])) = (6, 0, [(0, 1), (1, 1), (0, 1)]) := by decide +kernel

end Reckoner
