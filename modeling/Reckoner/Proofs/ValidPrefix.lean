/-
A fault is found at the first token that is out of place.

The first failure of a program stops in front of some token, unless the limit stops it. Then
- the tokens before it can be gone on with: some tokens after them make a program without a fault, at the same limit
  (`program_completes`);
- with that token behind them they cannot: whatever comes after it, the first failure is the same (`read_alike`).

For the first part, every reading that fails is completed to a derivation that begins with the tokens read so far
(`Completes`). A missing operand becomes `nil`, open parentheses are closed, and an open conditional gets the branches
that it lacks. The room is enough: where an operand is missing there is room for it, and where a branch is missing the
condition before it had room.

Main statement: `first_failure_at_first_offence`.
-/
import Mathlib.Tactic
import Reckoner.Proofs.Blame
import Reckoner.Proofs.Depth
import Reckoner.Proofs.Segments

namespace Reckoner

/-- tokens of a literal kind carry their constant -/
def Carried (ts : List Token) : Prop :=
  ∀ t ∈ ts, t.kind ∈ carriers → t.literal ≠ none

theorem Carried.suffix {ts us : List Token} (h : Carried us) (hs : ts <:+ us) : Carried ts :=
  fun t ht => h t (hs.subset ht)

theorem Carried.of_append {ts us : List Token} (h : Carried (ts ++ us)) : Carried us :=
  h.suffix (List.suffix_append ts us)

namespace Reading

theorem andThen_eq_failed_iff {α β : Type} {r : Reading α} {next : α → List Token → Reading β} {f : Failure} :
    r.andThen next = .failed f ↔ r = .failed f ∨ ∃ a mid, r = .done a mid ∧ next a mid = .failed f := by
  cases r with
  | done a mid => simp [andThen]
  | failed g => simp [andThen]

/-! ## What can be gone on with -/

/-- Reading `ts` as a symbol stopped, and the tokens taken until then begin a derivation that fits the room. -/
def Completes (s : Symbol) (room : Nat) (ts : List Token) (f : Failure) : Prop :=
  ∃ (taken more : List Token) (d : Derivation s), taken ++ f.unread = ts ∧ d.yield = taken ++ more ∧
    d.tree.cost ≤ room

/-- a reader stops only where it can be gone on, or where the limit stops it -/
def Completable (read : List Token → Reading Expr) (s : Symbol) (room : Nat) : Prop :=
  ∀ ts f, Carried ts → f.fault ≠ .nestingTooDeep → read ts = .failed f → Completes s room ts f

/-- a reader reads what it is for, within the room -/
def Sound (read : List Token → Reading Expr) (s : Symbol) (room : Nat) : Prop :=
  ∀ ts e rest, read ts = .done e rest → Derived s room ts e rest

namespace Filler

def colon : Token := { kind := .colon, lexeme := ":" }

/-- the constant `nil` as an operand of the loosest level -/
def branch : Derivation (.binary .equality) :=
  .operand (Deep.leaf.lift .equality)

theorem cost_branch : branch.tree.cost = 1 := rfl

end Filler

/-- where nothing is taken, a constant may stand -/
theorem completes_here {room : Nat} {ts : List Token} {f : Failure} (h : f.unread = ts) :
    Completes .primary (room + 1) ts f :=
  ⟨[], [Deep.word], .literal Deep.word .nil (.nil rfl), h, rfl, by simp [Derivation.tree, Expr.cost]⟩

/-- a token that carries its constant is not stopped at -/
theorem carried_completes {room : Nat} {t : Token} {us : List Token} {f : Failure} (hts : Carried (t :: us))
    (hk : t.kind ∈ carriers)
    (h : (match t.constant? with
      | some c => .done (Expr.literal c) us
      | none => .failed ⟨.expectedExpression, t, us⟩) = Reading.failed f) :
    Completes .primary (room + 1) (t :: us) f := by
  split at h
  · cases h
  · next hc => exact absurd (Option.map_eq_none_iff.1 hc) (hts t List.mem_cons_self hk)

theorem unread_of_expect {eof : Token} {kind : Kind} {fault : Fault} {ts : List Token} {f : Failure}
    (h : expect eof kind fault ts = .failed f) : f.unread = ts := by
  unfold expect at h
  split at h
  · cases h
    rfl
  · split at h
    · cases h
    · cases h
      rfl

section
variable {eof : Token} {room : Nat} {inside operand part : List Token → Reading Expr}

theorem primary_completes (hs : Sound inside .expression room) (hi : Completable inside .expression room) :
    Completable (primary eof inside) .primary (room + 1) := by
  intro ts f hts hf h
  cases ts with
  | nil =>
    cases h
    exact completes_here rfl
  | cons t us =>
    simp only [primary] at h
    split at h
    · cases h
    · cases h
    · cases h
    · next hk => exact carried_completes hts (by simp [hk, carriers]) h
    · next hk => exact carried_completes hts (by simp [hk, carriers]) h
    · next hk => exact carried_completes hts (by simp [hk, carriers]) h
    · next hk =>
      rcases andThen_eq_failed_iff.1 h with h | ⟨e, mid, he, h⟩
      · obtain ⟨taken, more, d, rfl, hy, hc⟩ := hi us f (hts.suffix (List.suffix_cons t us)) hf h
        refine ⟨t :: taken, more ++ [Deep.closing], .group t d Deep.closing hk rfl, rfl, ?_, ?_⟩
        · simp [Derivation.yield, hy]
        · simpa [Derivation.tree, Expr.cost] using hc
      obtain ⟨d, rfl, rfl, hc⟩ := hs _ _ _ he
      rcases andThen_eq_failed_iff.1 h with h | ⟨_, _, _, h⟩
      · refine ⟨t :: d.yield, [Deep.closing], .group t d Deep.closing hk rfl, ?_, rfl, ?_⟩
        · rw [unread_of_expect h, List.cons_append]
        · simpa [Derivation.tree, Expr.cost] using hc
      · cases h
    · cases h
      exact completes_here rfl

theorem unary_completes (ho : Completable operand .unary room) (hs : Sound inside .expression room)
    (hi : Completable inside .expression room) : Completable (unary eof operand inside) .unary (room + 1) := by
  intro ts f hts hf h
  have plain : primary eof inside ts = .failed f → Completes .unary (room + 1) ts f := by
    intro hp
    obtain ⟨taken, more, d, ht, hy, hc⟩ := primary_completes hs hi ts f hts hf hp
    exact ⟨taken, more, .bare d, ht, hy, hc⟩
  cases ts with
  | nil => exact plain h
  | cons t us =>
    simp only [unary] at h
    split at h
    · next hk =>
      rcases andThen_eq_failed_iff.1 h with h | ⟨_, _, _, h⟩
      · obtain ⟨taken, more, d, rfl, hy, hc⟩ := ho us f (hts.suffix (List.suffix_cons t us)) hf h
        refine ⟨t :: taken, more, .sign t d ((mem_unaryOperators_iff _).2 hk), rfl, ?_, ?_⟩
        · simp [Derivation.yield, hy]
        · simpa [Derivation.tree, Expr.cost] using hc
      · cases h
    · exact plain h

theorem conditional_completes (hs : Sound part (.binary .equality) room)
    (hp : Completable part (.binary .equality) room) : Completable (conditional eof part) .expression room := by
  intro ts f hts hf h
  rcases andThen_eq_failed_iff.1 h with h1 | ⟨_, mid, ha, h1⟩
  · obtain ⟨taken, more, d, ht, hy, hc⟩ := hp ts f hts hf h1
    exact ⟨taken, more, .plain d, ht, hy, hc⟩
  obtain ⟨a, rfl, rfl, hca⟩ := hs _ _ _ ha
  have hpos := a.tree.cost_pos
  have hfill := Filler.cost_branch
  cases mid with
  | nil => cases h1
  | cons q us =>
    have hus : Carried us := hts.of_append.suffix (List.suffix_cons q us)
    dsimp only at h1
    split at h1
    · next hq =>
      rcases andThen_eq_failed_iff.1 h1 with h2 | ⟨_, mid, hb, h2⟩
      · -- in the first branch: it is completed, and the second is added
        obtain ⟨taken, more, b, rfl, hy, hcb⟩ := hp us f hus hf h2
        refine ⟨a.yield ++ q :: taken, more ++ Filler.colon :: Filler.branch.yield,
          .ternary a q b Filler.colon Filler.branch hq rfl, by simp, by simp [Derivation.yield, hy], ?_⟩
        simp only [Derivation.tree, Expr.cost]
        omega
      obtain ⟨b, rfl, rfl, hcb⟩ := hs _ _ _ hb
      rcases andThen_eq_failed_iff.1 h2 with h3 | ⟨_, mid, hk, h3⟩
      · -- at the colon
        refine ⟨a.yield ++ q :: b.yield, Filler.colon :: Filler.branch.yield,
          .ternary a q b Filler.colon Filler.branch hq rfl, ?_, by simp [Derivation.yield], ?_⟩
        · simp [unread_of_expect h3]
        · simp only [Derivation.tree, Expr.cost]
          omega
      obtain ⟨colon, hck, rfl⟩ := expect_eq_done_iff.1 hk
      rcases andThen_eq_failed_iff.1 h3 with h4 | ⟨_, _, _, h4⟩
      · -- in the second branch
        have hmid : Carried mid := hus.of_append.suffix (List.suffix_cons colon mid)
        obtain ⟨taken, more, c, rfl, hy, hcc⟩ := hp mid f hmid hf h4
        refine ⟨a.yield ++ q :: (b.yield ++ colon :: taken), more, .ternary a q b colon c hq hck, by simp,
          by simp [Derivation.yield, hy], ?_⟩
        simp only [Derivation.tree, Expr.cost]
        omega
      · cases h4
    · cases h1

end

/-! ## Operands and chains -/

/-- a chain that started from `a` stops only where it can be gone on: the derivation goes on `a`, within the room that
the chain had before it took in the operators of `a` -/
def ChainCompletable (eof : Token) (room : Nat) : Prop :=
  ∀ (l : Level) (a : Derivation (.binary l)) (ts : List Token) (f : Failure), Carried ts →
    f.fault ≠ .nestingTooDeep → a.tree.cost ≤ a.tree.folds (some l) + room → chain eof room l a.tree ts = .failed f →
    ∃ (taken more : List Token) (d : Derivation (.binary l)), taken ++ f.unread = ts ∧
      d.yield = a.yield ++ (taken ++ more) ∧ d.tree.cost ≤ a.tree.folds (some l) + room

theorem chains_complete {eof : Token} {room : Nat} (hs : ChainSound eof room) (hc : ChainCompletable eof room)
    {s s' : Symbol} {ls : List Level} (hl : Ladder s ls s') (d : Derivation s) {ts : List Token} {f : Failure}
    (hts : Carried ts) (hf : f.fault ≠ .nestingTooDeep) (hd : d.tree.cost ≤ room)
    (h : chains (chain eof room) ls d.tree ts = .failed f) : Completes s' room (d.yield ++ ts) f := by
  induction hl generalizing ts with
  | nil s => cases h
  | @cons l ls s' hl ih =>
    have h0 := d.folds_operand
    rcases andThen_eq_failed_iff.1 h with h | ⟨_, mid, ha, h⟩
    · -- in this chain: the levels above add nothing
      obtain ⟨taken, more, d1, rfl, hy, hcost⟩ :=
        hc l (.operand d) ts f hts hf (Nat.le_add_left_of_le hd) h
      obtain ⟨d2, hy2, ht2⟩ := hl.exists_lift d1
      refine ⟨d.yield ++ taken, more, d2, by simp, ?_, ?_⟩
      · rw [hy2, hy, List.append_assoc]
        rfl
      · rw [ht2]
        simpa [Derivation.tree, h0] using hcost
    · obtain ⟨d1, hy, rfl, hcost⟩ := hs l (.operand d) ts _ mid (Nat.le_add_left_of_le hd) ha
      have hcost : d1.tree.cost ≤ room := by simpa [Derivation.tree, h0] using hcost
      have hy : d1.yield ++ mid = d.yield ++ ts := hy
      have hstays : Stays ts (chain eof room l d.tree ts) := (advances_of_room eof room).2 l _ ts
      have hmid : mid <:+ ts := by
        change chain eof room l d.tree ts = _ at ha
        rwa [ha] at hstays
      rw [← hy]
      exact ih d1 (hts.suffix hmid) hcost h

theorem climb_completes {eof : Token} {room : Nat} (hso : OperandSound eof room) (hsc : ChainSound eof room)
    (ho : Completable (operand eof room) .unary room) (hc : ChainCompletable eof room) {s : Symbol} {ls : List Level}
    (hl : Ladder .unary ls s) : Completable (climb (operand eof room) (chain eof room) ls) s room := by
  intro ts f hts hf h
  rcases andThen_eq_failed_iff.1 h with h | ⟨_, mid, ha, h⟩
  · obtain ⟨taken, more, d, ht, hy, hcost⟩ := ho ts f hts hf h
    obtain ⟨d', hy', ht'⟩ := hl.exists_lift d
    exact ⟨taken, more, d', ht, hy'.trans hy, ht' ▸ hcost⟩
  · obtain ⟨d, rfl, rfl, hd⟩ := hso _ _ _ ha
    exact chains_complete hsc hc hl d hts.of_append hf hd h

/-- **Operands and chains can be gone on,** by induction on the room, as they are sound. -/
theorem completes_of_room (eof : Token) (room : Nat) :
    Completable (operand eof room) .unary room ∧ ChainCompletable eof room := by
  induction room with
  | zero =>
    refine ⟨fun ts f _ hf h => ?_, fun l a ts f _ hf _ h => ?_⟩
    · cases h
      exact absurd rfl hf
    · cases ts with
      | nil =>
        simp only [chain] at h
        cases h
      | cons t us =>
        simp only [chain] at h
        split at h
        · cases h
          exact absurd rfl hf
        · cases h
  | succ room ih =>
    obtain ⟨ho, hc⟩ := ih
    obtain ⟨hso, hsc⟩ := sound_of_room eof room
    have hclimb : ∀ {ls s}, Ladder .unary ls s → Completable (climb (operand eof room) (chain eof room) ls) s room :=
      fun hl => climb_completes hso hsc ho hc hl
    constructor
    · intro ts f hts hf h
      simp only [operand] at h
      refine unary_completes ho ?_ (conditional_completes (fun _ _ _ => climb_sound hso hsc ladder_all)
        (hclimb ladder_all)) ts f hts hf h
      exact fun _ _ _ => conditional_sound fun _ _ _ => climb_sound hso hsc ladder_all
    · intro l a ts f hts hf ha h
      cases ts with
      | nil =>
        simp only [chain] at h
        cases h
      | cons t us =>
        have hus : Carried us := hts.suffix (List.suffix_cons t us)
        simp only [chain] at h
        split at h
        · next hk =>
          have hop : t.kind ∈ l.operators := (l.mem_operators_iff _).2 hk
          rcases andThen_eq_failed_iff.1 h with h | ⟨_, mid, hb, h⟩
          · -- in the right operand
            obtain ⟨taken, more, b, rfl, hy, hcb⟩ := hclimb (ladder_tighter l) us f hus hf h
            refine ⟨t :: taken, more, .fold a t b hop, rfl, by simp [Derivation.yield, hy], ?_⟩
            simp only [Derivation.tree, Expr.cost, hk]
            omega
          · -- behind it: the chain goes on from `a t b`
            obtain ⟨b, rfl, rfl, hcb⟩ := climb_sound hso hsc (ladder_tighter l) hb
            have hfolds : (Derivation.fold a t b hop).tree.folds (some l) = a.tree.folds (some l) + 1 := by
              simp [Derivation.tree, Expr.folds, hk]
            have hcost : (Derivation.fold a t b hop).tree.cost ≤ a.tree.folds (some l) + 1 + room := by
              simp only [Derivation.tree, Expr.cost, hk]
              omega
            obtain ⟨taken, more, d, rfl, hy, hd⟩ :=
              hc l (.fold a t b hop) mid f hus.of_append hf (by rw [hfolds]; exact hcost) h
            rw [hfolds] at hd
            refine ⟨t :: (b.yield ++ taken), more, d, by simp, ?_, by omega⟩
            rw [hy]
            simp [Derivation.yield]
        · cases h

theorem expression_completes (eof : Token) (room : Nat) : Completable (expression eof room) .expression room := by
  obtain ⟨hso, hsc⟩ := sound_of_room eof room
  obtain ⟨ho, hc⟩ := completes_of_room eof room
  exact conditional_completes (fun _ _ _ => climb_sound hso hsc ladder_all) (climb_completes hso hsc ho hc ladder_all)

end Reading

/-! ## Programs -/

/-- an expression that is not read to its end can be gone on -/
theorem terminated_completes {eof : Token} {limit : Nat} {ts : List Token} {f : Failure} (hts : Carried ts)
    (hf : f.fault ≠ .nestingTooDeep) (h : Reading.terminated eof limit ts = .failed f) :
    Reading.Completes .expression limit ts f := by
  rcases Reading.andThen_eq_failed_iff.1 h with h | ⟨_, mid, he, h⟩
  · exact Reading.expression_completes eof limit ts f hts hf h
  · obtain ⟨d, rfl, rfl, hc⟩ := Reading.expression_sound he
    cases mid with
    | nil => cases h
    | cons t us =>
      dsimp only at h
      split at h
      · cases h
      · cases h
        exact ⟨d.yield, [], d, rfl, by simp, hc⟩

/-- **The tokens before the first failure can be gone on with,** to a program without a failure. -/
theorem program_completes {eof : Token} {limit : Nat} {ts : List Token} {f : Failure} (hts : Carried ts)
    (hf : f.fault ≠ .nestingTooDeep) (h : (Program.read eof limit ts).failures.head? = some f) :
    ∃ taken more : List Token, taken ++ f.unread = ts ∧ (∀ t ∈ more, t.kind ≠ .eof) ∧
      (Program.read eof limit (taken ++ more)).failures = [] := by
  revert hts h
  refine Program.read_induction (motive := fun ts p => Carried ts → p.failures.head? = some f →
    ∃ taken more : List Token, taken ++ f.unread = ts ∧ (∀ t ∈ more, t.kind ≠ .eof) ∧
      (Program.read eof limit (taken ++ more)).failures = []) ?_ ?_ ?_ ts
  · intro _ h
    cases h
  · intro ts e rest hr ih hts h
    obtain ⟨d, rfl, hc, ⟨-, rfl⟩ | ⟨t, ht, rfl⟩⟩ := terminated_sound hr
    · rw [Program.read_nil] at h
      cases h
    · obtain ⟨taken, more, rfl, hmore, hread⟩ := ih (hts.of_append.suffix (List.suffix_cons t rest)) h
      refine ⟨d.yield ++ t :: taken, more, by simp, hmore, ?_⟩
      have hd := terminated_of_semicolon eof d ht (taken ++ more) hc
      rw [List.append_assoc, List.cons_append, Program.read_of_done hd]
      exact hread
  · intro ts g hne hr _ hts h
    obtain rfl := Option.some.inj h
    obtain ⟨taken, more, d, htaken, hy, hc⟩ := terminated_completes hts hf hr
    refine ⟨taken, more, htaken, fun t ht => d.kind_ne_eof t (hy ▸ List.mem_append_right taken ht), ?_⟩
    rw [← hy, Program.read_of_done (terminated_of_end eof d hc), Program.read_nil]
    rfl

/-! ## Readers -/

/-- tokens before the first end-of-text token are read, whatever comes after them -/
theorem Reader.unread_ofTokens_append {us : List Token} (hus : ∀ t ∈ us, t.kind ≠ .eof) (more : List Token)
    (limit : Nat) : (Reader.ofTokens (us ++ more) limit).unread = us ++ more.takeWhile (·.kind != .eof) :=
  List.takeWhile_append_of_pos (by simpa using hus)

/-- what stands behind the first end-of-text token is not looked at -/
theorem Reader.ofTokens_append_eof {body : List Token} {eof : Token} (hbody : ∀ t ∈ body, t.kind ≠ .eof)
    (heof : eof.kind = .eof) (more : List Token) (limit : Nat) :
    Reader.ofTokens (body ++ eof :: more) limit = ⟨body, eof, limit⟩ := by
  have hunread := Reader.unread_ofTokens_append hbody (eof :: more) limit
  have hfind : (body ++ eof :: more).find? (·.kind == .eof) = some eof := by
    rw [List.find?_append, List.find?_eq_none.2 (by simpa using hbody)]
    simp [heof]
  simp only [Reader.ofTokens, hfind, Option.getD_some] at hunread ⊢
  simp [hunread, heof]

/-- **The first failure is at the first token that is out of place.** The tokens `body` come before their only
end-of-text token, and those of a literal kind carry their constant. The first diagnostic `d` is not about the limit.
Then it blames the token at some place `p`, where reading stopped, and, at the same limit,
- the tokens before `p` and some more make a program without a diagnostic;
- all tokens that begin like these, up to the one at `p`, have the same first diagnostic. -/
theorem first_failure_at_first_offence (body : List Token) (eof : Token) (limit : Nat)
    (hbody : ∀ t ∈ body, t.kind ≠ .eof) (heof : eof.kind = .eof) (hcarried : Carried body) (d : Diagnostic)
    (hd : (Reader.ofTokens (body ++ [eof]) limit).program.diagnostics.head? = some d)
    (hdeep : d.kind ≠ .nestingTooDeep) :
    ∃ (p : Nat) (blamed : Token) (fault : Fault), (body ++ [eof])[p]? = some blamed ∧
      (Program.read eof limit body).failures.head? = some ⟨fault, blamed, body.drop p⟩ ∧
      d = Failure.diagnostic ⟨fault, blamed, body.drop p⟩ ∧
      (∃ us : List Token, (∀ u ∈ us, u.kind ≠ .eof) ∧
        (Reader.ofTokens (body.take p ++ us ++ [eof]) limit).program.diagnostics = []) ∧
      ∀ ts : List Token, (body ++ [eof]).take (p + 1) <+: ts →
        (Reader.ofTokens ts limit).program.diagnostics.head? = some d := by
  rw [Reader.ofTokens_concat hbody heof] at hd
  obtain ⟨f, hf, rfl⟩ := Option.map_eq_some_iff.1 ((List.head?_map ..).symm.trans hd)
  have hfault : f.fault ≠ .nestingTooDeep := by
    intro h
    apply hdeep
    simp [Failure.diagnostic, h, Fault.kind]
  have hblamed : f.token = f.unread.headD eof := by
    rcases (failures_blame eof limit body f (List.mem_of_mem_head? hf)).2 with h | ⟨hread, hkind, hnone⟩
    · exact h
    · exact absurd hnone (hcarried _ (hread.subset List.mem_cons_self) hkind)
  obtain ⟨taken, more, rfl, hmore, hread⟩ := program_completes hcarried hfault hf
  have htaken : ∀ t ∈ taken, t.kind ≠ .eof := fun t ht => hbody t (List.mem_append_left _ ht)
  obtain ⟨fault, token, unread⟩ := f
  dsimp only at hblamed hbody hf ⊢
  refine ⟨taken.length, token, fault, ?_, by rwa [List.drop_left], by rw [List.drop_left], ⟨more, hmore, ?_⟩, ?_⟩
  · cases unread with
    | nil => simp [hblamed]
    | cons t rest => simp [hblamed]
  · have hall : ∀ t ∈ taken ++ more, t.kind ≠ .eof := by
      intro t ht
      rcases List.mem_append.1 ht with ht | ht
      · exact htaken t ht
      · exact hmore t ht
    rw [List.take_left, Reader.ofTokens_concat hall heof]
    simp only [Reader.program, hread, List.map_nil]
  · rintro ts ⟨behind, rfl⟩
    cases unread with
    | nil =>
      -- the end itself is blamed, and nothing behind it counts
      have htake : (taken ++ [] ++ [eof]).take (taken.length + 1) = taken ++ [eof] := by
        rw [List.append_nil]
        exact List.take_of_length_le (by simp)
      rw [List.append_nil] at hf
      rw [htake, List.append_assoc, List.singleton_append, Reader.ofTokens_append_eof htaken heof]
      simp only [Reader.program, List.head?_map, hf, Option.map_some]
    | cons t rest =>
      have htake : (taken ++ t :: rest ++ [eof]).take (taken.length + 1) = taken ++ [t] := by
        rw [List.append_assoc, List.take_length_add_append]
        rfl
      have hprefix : ∀ u ∈ taken ++ [t], u.kind ≠ .eof := fun u hu => hbody u (by
        rw [List.append_cons]
        exact List.mem_append_left rest hu)
      have hunread : (Reader.ofTokens (taken ++ [t] ++ behind) limit).unread =
          taken ++ t :: behind.takeWhile (·.kind != .eof) := by
        rw [Reader.unread_ofTokens_append hprefix, List.append_assoc, List.singleton_append]
      have halike := read_alike (Reader.ofTokens (taken ++ [t] ++ behind) limit).eof
        (behind.takeWhile (·.kind != .eof)) hf
      rw [htake]
      simp only [Reader.program, List.head?_map]
      rw [hunread]
      exact congrArg (Option.map Failure.diagnostic) halike

namespace Sample

def ending : Token := { kind := .eof, lexeme := "" }

/-- the tokens of `(1 + ) ? 2` -/
def unfinished : List Token :=
  [Deep.opening, number 1 "1", plus, Deep.closing, { kind := .question, lexeme := "?" }, number 2 "2"]

end Sample

/-- In `(1 + ) ? 2` the closing parenthesis is out of place: `(1 +` can be gone on with and `(1 + )` cannot, whatever
follows. A room of three levels is enough for the operand that is missing and for the parentheses around it. -/
theorem first_failure_unfinished_sum :
    (∃ us : List Token, (∀ u ∈ us, u.kind ≠ .eof) ∧
      (Reader.ofTokens (Sample.unfinished.take 3 ++ us ++ [Sample.ending]) 3).program.diagnostics = []) ∧
    ∀ ts : List Token, Sample.unfinished.take 4 <+: ts →
      (Reader.ofTokens ts 3).program.diagnostics.head? =
        some (Failure.diagnostic ⟨.expectedExpression, Deep.closing, []⟩) := by
  have hbody : ∀ t ∈ Sample.unfinished, t.kind ≠ .eof := by decide
  have hcarried : Carried Sample.unfinished := by unfold Carried; decide
  have hread : (Program.read Sample.ending 3 Sample.unfinished).failures.head? =
      some ⟨.expectedExpression, Deep.closing, Sample.unfinished.drop 3⟩ := by
    rw [Program.read_of_failed (by decide) rfl]
    rfl
  have hd : (Reader.ofTokens (Sample.unfinished ++ [Sample.ending]) 3).program.diagnostics.head? =
      some (Failure.diagnostic ⟨.expectedExpression, Deep.closing, []⟩) := by
    rw [Reader.ofTokens_concat hbody rfl]
    simp only [Reader.program, List.head?_map, hread]
    rfl
  obtain ⟨p, blamed, fault, hp, hfirst, -, hgo, hstop⟩ :=
    first_failure_at_first_offence Sample.unfinished Sample.ending 3 hbody rfl hcarried _ hd (by decide)
  have hdrop : Sample.unfinished.drop 3 = Sample.unfinished.drop p := by
    rw [hread] at hfirst
    exact congrArg Failure.unread (Option.some.inj hfirst)
  have hp3 : p = 3 := by
    have h1 := congrArg List.length hdrop
    have h2 := (List.getElem?_eq_some_iff.1 hp).1
    simp [Sample.unfinished] at h1 h2
    omega
  subst hp3
  exact ⟨hgo, hstop⟩

end Reckoner
