/-
Where cutting stands in a source.

Cutting takes one lexeme after the other off the front of a text. `Reaches s text before rest` says that it comes to
`rest` with `before` behind it, one step of `cut` at a time. The lexemes of a text are what is found in front at the
places that are reached (`mem_placed_iff`), so what a source gives is split at such a place: the tokens and
diagnostics behind it, and those of what is ahead (`Reaches.split`).

- `Reaches.exists_token`, `Reaches.diagnostic_mem`: what is found in front at a place is among the tokens and
  diagnostics of the source;
- `exists_reaches_of_token`, `exists_reaches_of_diagnostic`: each of these was found at a place that was reached.
-/
import Mathlib.Tactic
import Reckoner.Proofs.Coverage
import Reckoner.Proofs.Places

namespace Reckoner

/-- Cutting `text` comes to `rest`, with the characters `before` behind it. -/
inductive Reaches (s : Spellings) (text : List Char) : List Char → List Char → Prop where
  | start : Reaches s text [] text
  | next {before cs : List Char} {c : Char} (h : Reaches s text before (c :: cs)) :
      Reaches s text (before ++ c :: (cut s c cs).more) (cut s c cs).rest

/-- the lexeme in front of the text `c :: cs`, when `before` is behind -/
def ahead (s : Spellings) (before : List Char) (c : Char) (cs : List Char) : Placed :=
  ⟨(cut s c cs).lexeme c, Position.after {} before⟩

theorem span_ahead (s : Spellings) (before : List Char) (c : Char) (cs : List Char) :
    (ahead s before c cs).span = ⟨before.length, before.length + ((cut s c cs).more.length + 1)⟩ := by
  simp [ahead, Placed.span, Cut.lexeme, Position.offset_after]

/-- the lexemes from a place on are the one in front and those behind it -/
theorem placed_ahead (s : Spellings) (before : List Char) (c : Char) (cs : List Char) :
    placed (Position.after {} before) (lexemes s (c :: cs)) =
      ahead s before c cs ::
        placed (Position.after {} (before ++ c :: (cut s c cs).more)) (lexemes s (cut s c cs).rest) := by
  rw [lexemes, placed, Position.after_append]
  rfl

theorem le_start_of_token {lines : Array String} {p : Position} {ls : List Lexeme} {t : Token}
    (h : t ∈ (placed p ls).filterMap (·.token? lines)) : p.offset ≤ t.span.start := by
  obtain ⟨l, hl, hlt⟩ := List.mem_filterMap.1 h
  rw [(Placed.place_of_token? hlt).2.1]
  exact le_start_of_mem hl

theorem le_start_of_diagnostic {lines : Array String} {p : Position} {ls : List Lexeme} {d : Diagnostic}
    (h : d ∈ (placed p ls).filterMap (·.diagnostic? lines)) : ∃ i, d.startsAt i ∧ p.offset ≤ i := by
  obtain ⟨l, hl, hld⟩ := List.mem_filterMap.1 h
  obtain ⟨-, ⟨sp, hsp, hstart⟩, -⟩ := Placed.place_of_diagnostic? hld
  exact ⟨_, ⟨sp, hsp, hstart⟩, le_start_of_mem hl⟩

namespace Reaches

section
variable {s : Spellings} {text before rest : List Char}

/-- what is behind and what is ahead make up the text -/
theorem append_eq (h : Reaches s text before rest) : before ++ rest = text := by
  induction h with
  | start => rfl
  | @next before cs c _ ih => rw [List.append_assoc, List.cons_append, cut_append, ih]

/-- places that have as many characters behind them are one place -/
theorem eq_of_length {before' rest' : List Char} (h : Reaches s text before rest) (h' : Reaches s text before' rest')
    (hlength : before.length = before'.length) : before = before' ∧ rest = rest' :=
  List.append_inj (h.append_eq.trans h'.append_eq.symm) hlength

/-- **The lexemes of a text** are some that end behind the place that is reached, and those of what is ahead. -/
theorem exists_passed (h : Reaches s text before rest) :
    ∃ passed, placed {} (lexemes s text) = passed ++ placed (Position.after {} before) (lexemes s rest) ∧
      ∀ l ∈ passed, l.span.stop ≤ before.length := by
  induction h with
  | start => exact ⟨[], rfl, by simp⟩
  | @next before cs c _ ih =>
    obtain ⟨passed, hplaced, hstop⟩ := ih
    refine ⟨passed ++ [ahead s before c cs], ?_, fun l hl => ?_⟩
    · rw [hplaced, placed_ahead, List.append_assoc]
      rfl
    · rw [List.length_append, List.length_cons]
      rcases List.mem_append.1 hl with hl | hl
      · exact (hstop l hl).trans (Nat.le_add_right _ _)
      · rw [List.mem_singleton.1 hl, span_ahead]

theorem ahead_mem {c : Char} {cs : List Char} (h : Reaches s text before (c :: cs)) :
    ahead s before c cs ∈ placed {} (lexemes s text) := by
  obtain ⟨passed, hplaced, -⟩ := h.exists_passed
  rw [hplaced, placed_ahead]
  exact List.mem_append_right _ List.mem_cons_self

/-- from a place that is reached, each lexeme ahead is reached -/
theorem exists_of_mem (h : Reaches s text before rest) {l : Placed}
    (hl : l ∈ placed (Position.after {} before) (lexemes s rest)) :
    ∃ before c cs, Reaches s text before (c :: cs) ∧ l = ahead s before c cs := by
  fun_induction lexemes s rest generalizing before with
  | case1 => cases hl
  | case2 c cs ih =>
    have hplaced := placed_ahead s before c cs
    rw [lexemes] at hplaced
    rw [hplaced] at hl
    rcases List.mem_cons.1 hl with rfl | hl
    · exact ⟨before, c, cs, h, rfl⟩
    · exact ih h.next hl

end

end Reaches

/-- **The lexemes of a text are those in front at the places that are reached.** -/
theorem mem_placed_iff {s : Spellings} {text : List Char} {l : Placed} :
    l ∈ placed {} (lexemes s text) ↔ ∃ before c cs, Reaches s text before (c :: cs) ∧ l = ahead s before c cs := by
  constructor
  · exact Reaches.start.exists_of_mem
  · rintro ⟨before, c, cs, h, rfl⟩
    exact h.ahead_mem

/-! ## Tokens and diagnostics -/

section
variable {s : Spellings} {source : String}

/-- where the token in front is found -/
theorem token?_ahead (lines : Array String) (before : List Char) {c : Char} {cs : List Char} {kind : Kind}
    {literal : Option Literal} (h : (cut s c cs).piece = .token kind literal) :
    ∃ t, (ahead s before c cs).token? lines = some t ∧ t.kind = kind ∧ t.literal = literal ∧
      t.lexeme = String.ofList (c :: (cut s c cs).more) ∧
      t.span = ⟨before.length, before.length + ((cut s c cs).more.length + 1)⟩ := by
  have hpiece : (ahead s before c cs).lexeme.piece = .token kind literal := h
  simp only [Placed.token?, hpiece]
  exact ⟨_, rfl, rfl, rfl, rfl, span_ahead s before c cs⟩

theorem piece_of_token?_ahead {lines : Array String} {before cs : List Char} {c : Char} {t : Token}
    (h : (ahead s before c cs).token? lines = some t) : (cut s c cs).piece = .token t.kind t.literal := by
  unfold Placed.token? at h
  split at h
  · next hpiece =>
    cases h
    exact hpiece
  · cases h

namespace Reaches

variable {before rest cs : List Char} {c : Char}

/-- **A token in front** at a place that is reached is a token of the source. -/
theorem exists_token (h : Reaches s source.toList before (c :: cs)) {kind : Kind} {literal : Option Literal}
    (hpiece : (cut s c cs).piece = .token kind literal) :
    ∃ t ∈ (lex s source).tokens, t.kind = kind ∧ t.literal = literal ∧
      t.lexeme = String.ofList (c :: (cut s c cs).more) ∧
      t.span = ⟨before.length, before.length + ((cut s c cs).more.length + 1)⟩ := by
  obtain ⟨t, ht, hfields⟩ := token?_ahead (sourceLines source.toList) before hpiece
  exact ⟨t, List.mem_append_left _ (List.mem_filterMap.2 ⟨_, h.ahead_mem, ht⟩), hfields⟩

/-- **What is reported in front** at a place that is reached is reported of the source. -/
theorem diagnostic_mem (h : Reaches s source.toList before (c :: cs)) {d : Diagnostic}
    (hd : (ahead s before c cs).diagnostic? (sourceLines source.toList) = some d) : d ∈ (lex s source).diagnostics :=
  List.mem_filterMap.2 ⟨_, h.ahead_mem, hd⟩

/-- **A source is split at each place that is reached:** the tokens and diagnostics behind it, and those of the text
ahead. -/
theorem split (h : Reaches s source.toList before rest) :
    (∃ ts, (lex s source).tokens =
        ts ++ ((placed (Position.after {} before) (lexemes s rest)).filterMap (·.token? (sourceLines source.toList)) ++
          [endToken (sourceLines source.toList) (Position.after {} source.toList)]) ∧
      ∀ t ∈ ts, t.span.stop ≤ before.length) ∧
    ∃ ds, (lex s source).diagnostics =
        ds ++ (placed (Position.after {} before) (lexemes s rest)).filterMap
          (·.diagnostic? (sourceLines source.toList)) ∧
      ∀ d ∈ ds, ∃ i < before.length, d.startsAt i := by
  obtain ⟨passed, hplaced, hstop⟩ := h.exists_passed
  have hcut : ∀ l ∈ passed, l.CutFrom source.toList := fun l hl =>
    cutFrom_of_mem s [] source.toList (hplaced ▸ List.mem_append_left _ hl)
  refine ⟨⟨passed.filterMap (·.token? (sourceLines source.toList)), ?_, fun t ht => ?_⟩,
    passed.filterMap (·.diagnostic? (sourceLines source.toList)), ?_, fun d hd => ?_⟩
  · simp only [lex, hplaced, List.filterMap_append, List.append_assoc]
  · obtain ⟨l, hl, hlt⟩ := List.mem_filterMap.1 ht
    rw [(Placed.token_of_token? (hcut l hl) hlt).2.1]
    exact hstop l hl
  · simp only [lex, hplaced, List.filterMap_append]
  · obtain ⟨l, hl, hld⟩ := List.mem_filterMap.1 hd
    obtain ⟨-, hstart, -, -⟩ := Placed.diagnostic_of_diagnostic? (hcut l hl) hld
    exact ⟨l.span.start, (hcut l hl).start_lt_stop.trans_le (hstop l hl), hstart⟩

end Reaches

/-- **Each token** was found at a place that was reached, or ends the text. -/
theorem exists_reaches_of_token {t : Token} (h : t ∈ (lex s source).tokens) :
    (∃ before c cs, Reaches s source.toList before (c :: cs) ∧ (cut s c cs).piece = .token t.kind t.literal ∧
      t.lexeme = String.ofList (c :: (cut s c cs).more) ∧ t.span.start = before.length) ∨
    t.kind = .eof ∧ t.span.start = source.toList.length := by
  rcases List.mem_append.1 h with h | h
  · obtain ⟨l, hl, hlt⟩ := List.mem_filterMap.1 h
    obtain ⟨before, c, cs, hreaches, rfl⟩ := mem_placed_iff.1 hl
    have hpiece := piece_of_token?_ahead hlt
    obtain ⟨t', ht', -, -, hlexeme, hspan⟩ := token?_ahead (sourceLines source.toList) before hpiece
    obtain rfl := Option.some.inj (hlt.symm.trans ht')
    exact Or.inl ⟨before, c, cs, hreaches, hpiece, hlexeme, congrArg Span.start hspan⟩
  · rw [List.mem_singleton.1 h]
    exact Or.inr ⟨rfl, by simp [endToken, Position.offset_after]⟩

/-- **Each diagnostic** of cutting was found at a place that was reached. -/
theorem exists_reaches_of_diagnostic {d : Diagnostic} (h : d ∈ (lex s source).diagnostics) :
    ∃ before c cs, Reaches s source.toList before (c :: cs) ∧
      (ahead s before c cs).diagnostic? (sourceLines source.toList) = some d := by
  obtain ⟨l, hl, hld⟩ := List.mem_filterMap.1 h
  obtain ⟨before, c, cs, hreaches, rfl⟩ := mem_placed_iff.1 hl
  exact ⟨before, c, cs, hreaches, hld⟩

end

end Reckoner
