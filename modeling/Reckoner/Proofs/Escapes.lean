/-
String bodies: where a string is closed, and what its body stands for.

The quote that closes a string is the first one with an even number of backslashes right before it (`ClosesAt`).
`closeQuote?` does not count them; it reads a backslash together with the character behind it. The two agree because
of what a body is made of: plain characters, and backslashes each with a character of its own (`Paired`). A text is of
this form exactly if it ends in an even number of backslashes (`paired_iff`).

`Encodes text written` says that `written` is one of the ways to write `text` between quotes. Decoding gives the text
back (`Encodes.unescape_eq`), and no quote in it closes the string (`Encodes.closeQuote?_eq`).
-/
import Mathlib.Tactic
import Reckoner.Token.Escape

namespace Reckoner

/-! ## Backslashes -/

/-- how many backslashes stand at the end of a text -/
def slashes (text : List Char) : Nat :=
  (text.reverse.takeWhile (· == '\\')).length

/-- A text of plain characters and of backslashes with the character behind each: it does not end inside an escape. -/
inductive Paired : List Char → Prop where
  | nil : Paired []
  | escape {rest : List Char} (c : Char) (h : Paired rest) : Paired ('\\' :: c :: rest)
  | plain {c : Char} {rest : List Char} (hc : c ≠ '\\') (h : Paired rest) : Paired (c :: rest)

theorem slashes_cons (c : Char) (rest : List Char) :
    slashes (c :: rest) = if c = '\\' ∧ slashes rest = rest.length then rest.length + 1 else slashes rest := by
  unfold slashes
  rw [List.reverse_cons, List.takeWhile_append, List.length_reverse]
  by_cases hall : (rest.reverse.takeWhile (· == '\\')).length = rest.length
  · by_cases hc : c = '\\'
    · simp [hall, hc]
    · simp [hall, hc]
  · simp [hall]

/-- a backslash with the character behind it does not change whether the number of backslashes at the end is even -/
theorem even_slashes_escape (c : Char) (rest : List Char) :
    Even (slashes ('\\' :: c :: rest)) ↔ Even (slashes rest) := by
  have hle : slashes rest ≤ rest.length := by
    simpa [slashes] using (List.takeWhile_sublist (· == '\\') (l := rest.reverse)).length_le
  rw [slashes_cons, slashes_cons c, List.length_cons]
  by_cases hall : slashes rest = rest.length
  · by_cases hc : c = '\\'
    · simp [hall, hc, Nat.even_add_one]
    · simp [hall, hc]
  · have hlt : slashes rest ≠ rest.length + 1 := by omega
    simp [hall, hlt]

theorem paired_iff {text : List Char} : Paired text ↔ Even (slashes text) := by
  constructor
  · intro h
    induction h with
    | nil => exact ⟨0, rfl⟩
    | escape c _ ih => exact (even_slashes_escape c _).2 ih
    | plain hc _ ih => rwa [slashes_cons, if_neg fun h => hc h.1]
  · -- two characters at a time where the first is a backslash
    fun_induction unescape text with
    | case1 => exact fun _ => .nil
    | case2 c rest _ _ ih => exact fun h => .escape c (ih ((even_slashes_escape c rest).1 h))
    | case3 c rest _ ih => exact fun h => .escape c (ih ((even_slashes_escape c rest).1 h))
    | case4 c rest hne ih =>
      intro h
      by_cases hc : c = '\\'
      · cases rest with
        | nil =>
          rw [hc] at h
          exact absurd h (by decide)
        | cons d rest => exact absurd rfl (hne d rest hc)
      · rw [slashes_cons, if_neg fun h => hc h.1] at h
        exact .plain hc (ih h)

/-! ## The closing quote -/

/-- the character at an index is a quote with an even number of backslashes right before it -/
def ClosesAt (cs : List Char) (j : Nat) : Prop :=
  cs[j]? = some '"' ∧ Even (slashes (cs.take j))

theorem closesAt_iff {cs : List Char} {j : Nat} :
    ClosesAt cs j ↔ ∃ body rest, cs = body ++ '"' :: rest ∧ body.length = j ∧ Paired body := by
  constructor
  · rintro ⟨hquote, heven⟩
    obtain ⟨hlt, hget⟩ := List.getElem?_eq_some_iff.1 hquote
    refine ⟨cs.take j, cs.drop (j + 1), ?_, by simp [hlt.le], paired_iff.2 heven⟩
    rw [← hget, List.getElem_cons_drop, List.take_append_drop]
  · rintro ⟨body, rest, rfl, rfl, hpaired⟩
    exact ⟨by simp, by simpa using paired_iff.1 hpaired⟩

/-- the body in front of the quote that is found does not end inside an escape -/
theorem paired_of_closeQuote? {text body after : List Char} (h : closeQuote? text = some (body, after)) :
    Paired body := by
  fun_induction closeQuote? text generalizing body after with
  | case1 => simp at h
  | case2 rest =>
    obtain ⟨rfl, -⟩ := Prod.mk.inj (Option.some.inj h)
    exact .nil
  | case3 c rest ih =>
    obtain ⟨⟨b, a⟩, hr, hb⟩ := Option.map_eq_some_iff.1 h
    obtain ⟨rfl, -⟩ := Prod.mk.inj hb
    exact .escape c (ih hr)
  | case4 c rest _ hescape ih =>
    obtain ⟨⟨b, a⟩, hr, hb⟩ := Option.map_eq_some_iff.1 h
    obtain ⟨rfl, -⟩ := Prod.mk.inj hb
    -- a backslash here would be the last character, and the string would not be closed
    have hslash : c ≠ '\\' := by
      rintro rfl
      cases rest with
      | nil => cases hr
      | cons d rest => exact hescape d rest rfl rfl
    exact .plain hslash (ih hr)

/-- a quote behind a body that does not end inside an escape is found, or one before it is -/
theorem Paired.closeQuote?_le {body : List Char} (h : Paired body) (after : List Char) :
    ∃ b a, closeQuote? (body ++ '"' :: after) = some (b, a) ∧ b.length ≤ body.length := by
  induction h with
  | nil => exact ⟨[], after, rfl, le_refl _⟩
  | escape c _ ih =>
    obtain ⟨b, a, hclose, hle⟩ := ih
    exact ⟨'\\' :: c :: b, a, by simp [closeQuote?, hclose], by simpa using hle⟩
  | @plain c rest hc _ ih =>
    obtain ⟨b, a, hclose, hle⟩ := ih
    by_cases hquote : c = '"'
    · exact ⟨[], rest ++ '"' :: after, by simp [closeQuote?, hquote], Nat.zero_le _⟩
    · exact ⟨c :: b, a, by simp [closeQuote?, hc, hclose], by simpa using hle⟩

/-- **A string is closed at the first quote with an even number of backslashes before it,** -/
theorem isLeast_closesAt {cs body rest : List Char} (h : closeQuote? cs = some (body, rest)) :
    IsLeast {j | ClosesAt cs j} body.length := by
  have happ := closeQuote?_append h
  refine ⟨closesAt_iff.2 ⟨body, rest, happ.symm, rfl, paired_of_closeQuote? h⟩, ?_⟩
  intro j hj
  obtain ⟨body', rest', rfl, rfl, hpaired⟩ := closesAt_iff.1 hj
  obtain ⟨b, a, hclose, hle⟩ := hpaired.closeQuote?_le rest'
  obtain ⟨rfl, -⟩ := Prod.mk.inj (Option.some.inj (h.symm.trans hclose))
  exact hle

/-- and never closed exactly if there is none. -/
theorem closeQuote?_eq_none_iff {cs : List Char} : closeQuote? cs = none ↔ ¬ ∃ j, ClosesAt cs j := by
  constructor
  · rintro h ⟨j, hj⟩
    obtain ⟨body, rest, rfl, -, hpaired⟩ := closesAt_iff.1 hj
    obtain ⟨b, a, hclose, -⟩ := hpaired.closeQuote?_le rest
    cases h.symm.trans hclose
  · intro h
    cases hclose : closeQuote? cs with
    | none => rfl
    | some found => exact absurd ⟨_, (isLeast_closesAt hclose).1⟩ h

theorem closeQuote?_of_isLeast {cs : List Char} {j : Nat} (h : IsLeast {j | ClosesAt cs j} j) :
    closeQuote? cs = some (cs.take j, cs.drop (j + 1)) := by
  cases hclose : closeQuote? cs with
  | none => exact absurd ⟨j, h.1⟩ (closeQuote?_eq_none_iff.1 hclose)
  | some found =>
    obtain ⟨body, rest⟩ := found
    obtain rfl := (isLeast_closesAt hclose).unique h
    have happ := closeQuote?_append hclose
    have htake : cs.take body.length = body := by rw [← happ, List.take_left']; rfl
    have hdrop : cs.drop (body.length + 1) = rest := by
      rw [← happ, ← List.drop_drop, List.drop_left']
      · rfl
      · rfl
    rw [htake, hdrop]

/-! ## Writing a text between quotes -/

/-- the letters that may stand behind a backslash, each with the character that it stands for there -/
def namedEscapes : List (Char × Char) :=
  [('n', '\n'), ('t', '\t'), ('r', '\r'), ('0', '\x00'), ('\\', '\\'), ('"', '"'), ('\x27', '\x27')]

/-- `written` is a way to write `text` between quotes: backslashes and quotes by their escapes, other characters as they
are, or by an escape if they have one. -/
inductive Encodes : List Char → List Char → Prop where
  | nil : Encodes [] []
  | plain {c : Char} {text written : List Char} (hslash : c ≠ '\\') (hquote : c ≠ '"') (h : Encodes text written) :
      Encodes (c :: text) (c :: written)
  | named {letter c : Char} {text written : List Char} (hc : (letter, c) ∈ namedEscapes) (h : Encodes text written) :
      Encodes (c :: text) ('\\' :: letter :: written)

theorem escaped?_of_mem {letter c : Char} (h : (letter, c) ∈ namedEscapes) : escaped? letter = some c := by
  simp only [namedEscapes, List.mem_cons, Prod.mk.injEq, List.not_mem_nil, or_false] at h
  rcases h with ⟨rfl, rfl⟩ | ⟨rfl, rfl⟩ | ⟨rfl, rfl⟩ | ⟨rfl, rfl⟩ | ⟨rfl, rfl⟩ | ⟨rfl, rfl⟩ | ⟨rfl, rfl⟩ <;> rfl

section
variable {text written : List Char}

/-- **Decoding undoes encoding.** -/
theorem Encodes.unescape_eq (h : Encodes text written) : unescape written = text := by
  induction h with
  | nil => rfl
  | plain hslash _ _ ih => simp [unescape, hslash, ih]
  | named hc _ ih => simp [unescape, escaped?_of_mem hc, ih]

/-- no quote of what is written closes the string -/
theorem Encodes.closeQuote?_eq (h : Encodes text written) (after : List Char) :
    closeQuote? (written ++ '"' :: after) = some (written, after) := by
  induction h with
  | nil => rfl
  | plain hslash _ _ ih => simp [closeQuote?, hslash, ih]
  | named _ _ ih => simp [closeQuote?, ih]

end

end Reckoner
