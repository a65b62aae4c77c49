/-
Tokens with blanks between them.

A blank goes on with no token (`follows_of_gapped`). So a text that is one token by itself is that token in front of a
blank too, and texts with a blank between each two of them are read as the tokens they are by themselves.

Main statement: `lex_spaced`.
-/
import Mathlib.Tactic
import Reckoner.Proofs.Lookahead

namespace Reckoner

/-! ## Texts of tokens -/

def Token.bare (t : Token) : Token :=
  { kind := t.kind, lexeme := t.lexeme, literal := t.literal }

/-- a token that its lexeme is read as by itself -/
def Token.Alone (s : Spellings) (t : Token) : Prop :=
  lexemes s t.lexeme.toList = [⟨.token t.kind t.literal, t.lexeme.toList⟩]

theorem Token.alone_of_cut {s : Spellings} {t : Token} {c : Char} {cs : List Char} (hword : t.lexeme.toList = c :: cs)
    (h : cut s c cs = ⟨.token t.kind t.literal, cs, []⟩) : t.Alone s := by
  rw [Token.Alone, hword, lexemes, h, lexemes]

namespace Lexeme

/-- the token that a lexeme makes, without a place -/
def bare? (l : Lexeme) : Option Token :=
  match l.piece with
  | .token kind literal => some { kind, literal, lexeme := String.ofList l.text }
  | _ => none

def isRead (l : Lexeme) : Bool :=
  match l.piece with
  | .token .. | .skipped => true
  | .stray | .openString | .openComment => false

end Lexeme

/-- the tokens of a source, without their places, are those of its lexemes -/
theorem map_bare_placed (lines : Array String) (p : Position) (ls : List Lexeme) :
    ((placed p ls).filterMap (·.token? lines)).map Token.bare = ls.filterMap Lexeme.bare? := by
  induction ls generalizing p with
  | nil => rfl
  | cons l ls ih =>
    rw [placed, List.filterMap_cons, List.filterMap_cons, ← ih (p.after l.text)]
    obtain ⟨piece, text⟩ := l
    cases piece <;> rfl

theorem diagnostics_placed (lines : Array String) (p : Position) {ls : List Lexeme}
    (h : ∀ l ∈ ls, l.isRead = true) : (placed p ls).filterMap (·.diagnostic? lines) = [] := by
  induction ls generalizing p with
  | nil => rfl
  | cons l ls ih =>
    have hl := h l List.mem_cons_self
    have hls := ih (p.after l.text) fun l' hl' => h l' (List.mem_cons_of_mem l hl')
    obtain ⟨piece, text⟩ := l
    cases piece <;> simp_all [placed, Placed.diagnostic?, Lexeme.isRead]

theorem lexemes_gap (s : Spellings) {c : Char} (h : isGap c = true) (text : List Char) :
    lexemes s (c :: text) = ⟨.skipped, [c]⟩ :: lexemes s text := by
  have hcut : cut s c text = ⟨.skipped, [], text⟩ := by simp [cut, h]
  rw [lexemes, hcut]

/-- a token by itself is the first of a text where a blank follows it -/
theorem Token.Alone.lexemes_append {s : Spellings} {t : Token} (h : t.Alone s) {after : List Char}
    (hafter : Gapped after) :
    lexemes s (t.lexeme.toList ++ after) = ⟨.token t.kind t.literal, t.lexeme.toList⟩ :: lexemes s after := by
  unfold Token.Alone at h
  cases hword : t.lexeme.toList with
  | nil =>
    rw [hword, lexemes] at h
    cases h
  | cons c cs =>
    rw [hword, lexemes, List.cons.injEq, Lexeme.mk.injEq, List.cons.injEq] at h
    obtain ⟨⟨hpiece, -, hmore⟩, -⟩ := h
    have hcut := cut_of_follows hpiece (follows_of_gapped _ hafter)
    rw [hmore] at hcut
    rw [List.cons_append, lexemes, hcut]
    simp only [hpiece, hmore]

/-- **Tokens with blanks between them,** each of which its lexeme is read as by itself: these are the tokens of the
text, and nothing in it is reported. -/
theorem lexemes_spaced {s : Spellings} {ts : List Token} (h : ∀ t ∈ ts, t.Alone s) :
    (lexemes s (List.intercalate [' '] (ts.map (·.lexeme.toList)))).filterMap Lexeme.bare? = ts.map Token.bare ∧
      ∀ l ∈ lexemes s (List.intercalate [' '] (ts.map (·.lexeme.toList))), l.isRead = true := by
  induction ts with
  | nil => simp [List.intercalate, lexemes]
  | cons t ts ih =>
    have ht := h t List.mem_cons_self
    obtain ⟨hbare, hread⟩ := ih fun t' ht' => h t' (List.mem_cons_of_mem t ht')
    cases ts with
    | nil =>
      have hone := ht.lexemes_append gapped_nil
      rw [List.append_nil] at hone
      simp [hone, lexemes, Lexeme.bare?, Lexeme.isRead, Token.bare]
    | cons u us =>
      have htext : List.intercalate [' '] ((t :: u :: us).map (·.lexeme.toList)) =
          t.lexeme.toList ++ ' ' :: List.intercalate [' '] ((u :: us).map (·.lexeme.toList)) := by
        simp [List.intercalate]
      rw [htext, ht.lexemes_append (gapped_cons (by decide) _), lexemes_gap s (by decide)]
      refine ⟨?_, fun l hl => ?_⟩
      · have hfirst : Lexeme.bare? ⟨.token t.kind t.literal, t.lexeme.toList⟩ = some t.bare := by
          simp [Lexeme.bare?, Token.bare]
        rw [List.filterMap_cons_some hfirst, List.filterMap_cons_none rfl, hbare, ← List.map_cons]
      · rcases List.mem_cons.1 hl with rfl | hl
        · rfl
        · rcases List.mem_cons.1 hl with rfl | hl
          · rfl
          · exact hread l hl

/-- Such a text is cut into these tokens, with places, and the token that ends a text. -/
theorem lex_spaced {s : Spellings} {ts : List Token} (h : ∀ t ∈ ts, t.Alone s) :
    ∃ (body : List Token) (eof : Token), (lex s (" ".intercalate (ts.map (·.lexeme)))).tokens = body ++ [eof] ∧
      body.map Token.bare = ts.map Token.bare ∧ eof.kind = .eof ∧
      (lex s (" ".intercalate (ts.map (·.lexeme)))).diagnostics = [] := by
  obtain ⟨hbare, hread⟩ := lexemes_spaced h
  have htext : (" ".intercalate (ts.map (·.lexeme))).toList = List.intercalate [' '] (ts.map (·.lexeme.toList)) := by
    simp [String.toList_intercalate, Function.comp_def]
  rw [← htext] at hbare hread
  exact ⟨_, _, rfl, by rw [map_bare_placed, hbare], rfl, diagnostics_placed _ _ hread⟩

end Reckoner
