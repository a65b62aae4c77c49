/-
How keywords are spelled after any calls of `set_spelling`, and when all of them are read from their spellings.

A call that names a keyword gives it a new spelling, and any other call changes nothing. So the last call for a keyword
says how it is spelled (`spelling_after`). A text is read as a keyword only if it is the spelling of that keyword
(`spelling_of_keyword?`), whatever spellings were shared on the way.

The converse needs more. A call is fresh if the text it gives to a keyword is not the spelling of another one at the time.
Fresh calls keep the spellings apart (`Fresh.injective`), so none is taken from the keyword it belongs to
(`Fresh.not_displaced`), and every keyword is read from its spelling.

Main statement: `keywords_after_calls`.
-/
import Mathlib.Tactic
import Reckoner.Proofs.Respelling

namespace Reckoner

theorem Keyword.ofName?_eq_some_iff {name : String} {k : Keyword} : Keyword.ofName? name = some k ↔ k.name = name := by
  constructor
  · exact Keyword.name_of_ofName?
  · rintro rfl
    exact k.ofName?_name

theorem Keyword.ofName?_eq_none_iff {name : String} : Keyword.ofName? name = none ↔ ∀ k : Keyword, k.name ≠ name := by
  rw [Option.eq_none_iff_forall_ne_some]
  exact forall_congr' fun k => not_congr Keyword.ofName?_eq_some_iff

theorem Keyword.name_injective : Function.Injective Keyword.name := by
  intro j k h
  have hj := j.ofName?_name
  rw [h, k.ofName?_name] at hj
  exact (Option.some.inj hj).symm

namespace Spellings

/-! ## The last call for a keyword -/

/-- the spelling in the last of the calls with a name, or the name itself if there is none -/
def lastSpelling (calls : List (String × String)) (name : String) : String :=
  ((calls.filter (·.1 == name)).getLast?.map Prod.snd).getD name

theorem lastSpelling_concat (calls : List (String × String)) (c : String × String) (name : String) :
    lastSpelling (calls ++ [c]) name = if c.1 = name then c.2 else lastSpelling calls name := by
  by_cases h : c.1 = name
  · simp [lastSpelling, h]
  · simp [lastSpelling, h]

/-- **The last call for a keyword says how it is spelled.** -/
theorem spelling_after (calls : List (String × String)) (k : Keyword) :
    (standard.after calls).spelling k = lastSpelling calls k.name := by
  induction calls using List.reverseRecOn with
  | nil => rfl
  | append_singleton calls c ih =>
    rw [after_concat, lastSpelling_concat]
    rcases call_cases (standard.after calls) c with ⟨hnone, hc⟩ | ⟨j, hj, hc⟩
    · have hname : c.1 ≠ k.name := (Keyword.ofName?_eq_none_iff.1 hnone k).symm
      rw [hc, if_neg hname, ih]
    · rw [Keyword.ofName?_eq_some_iff] at hj
      rw [hc, ← hj]
      by_cases hjk : j = k
      · rw [hjk, if_pos rfl, respell_spelling_self]
      · have hname : j.name ≠ k.name := mt (fun heq => Keyword.name_injective heq) hjk
        rw [if_neg hname, respell_spelling_of_ne _ _ (Ne.symm hjk), ih]

/-! ## Fresh calls -/

/-- no call gives a keyword a text that is the spelling of another keyword at the time -/
def Fresh (calls : List (String × String)) : Prop :=
  ∀ (before : List (String × String)) (c : String × String) (later : List (String × String)),
    calls = before ++ c :: later → ∀ k, Keyword.ofName? c.1 = some k →
      ∀ j ≠ k, (standard.after before).spelling j ≠ c.2

theorem Fresh.before {before later : List (String × String)} (h : Fresh (before ++ later)) : Fresh before := by
  intro front c back heq
  exact h front c (back ++ later) (by simp [heq])

/-- one more call is fresh too if no other keyword has its text -/
theorem Fresh.concat {calls : List (String × String)} (h : Fresh calls) {c : String × String}
    (hc : ∀ k, Keyword.ofName? c.1 = some k → ∀ j ≠ k, (standard.after calls).spelling j ≠ c.2) :
    Fresh (calls ++ [c]) := by
  intro before c₀ later heq
  rcases List.eq_nil_or_concat' later with rfl | ⟨later, c₁, rfl⟩
  · obtain ⟨rfl, hlast⟩ := List.append_inj' heq rfl
    obtain rfl := List.singleton_inj.1 hlast
    exact hc
  · rw [← List.cons_append, ← List.append_assoc] at heq
    obtain ⟨rfl, -⟩ := List.append_inj' heq rfl
    exact h before c₀ later rfl

/-- one respelling with a text that no other keyword has keeps the spellings apart -/
theorem respell_injective {s : Spellings} (hs : Function.Injective s.spelling) {k : Keyword} {text : String}
    (htext : ∀ j ≠ k, s.spelling j ≠ text) : Function.Injective (s.respell k text).spelling := by
  intro i j h
  by_cases hi : i = k
  · by_cases hj : j = k
    · rw [hi, hj]
    · rw [hi, respell_spelling_self, respell_spelling_of_ne _ _ hj] at h
      exact absurd h.symm (htext j hj)
  · rw [respell_spelling_of_ne _ _ hi] at h
    by_cases hj : j = k
    · rw [hj, respell_spelling_self] at h
      exact absurd h (htext i hi)
    · rw [respell_spelling_of_ne _ _ hj] at h
      exact hs h

theorem Fresh.injective {calls : List (String × String)} (h : Fresh calls) :
    Function.Injective (standard.after calls).spelling := by
  induction calls using List.reverseRecOn with
  | nil => exact Keyword.name_injective
  | append_singleton calls c ih =>
    rw [after_concat]
    rcases call_cases (standard.after calls) c with ⟨-, hc⟩ | ⟨k, hk, hc⟩
    · rw [hc]
      exact ih h.before
    · rw [hc]
      exact respell_injective (ih h.before) (h calls c [] rfl k hk)

/-- to be displaced, a keyword has to share its spelling with another one in front of some call -/
theorem Fresh.not_displaced {calls : List (String × String)} (h : Fresh calls) (k : Keyword) : ¬ Displaced calls k := by
  rintro ⟨before, c, later, j, rfl, -, hjk, hsame, -⟩
  exact hjk (h.before.injective hsame)

/-! ## Keywords after calls -/

/-- **No stale or foreign keyword is left.** After every sequence of calls on the standard table:
- a keyword is spelled as the last call for it says, or by its name if there was none; a text that names no keyword has
  no spelling;
- a text that is read as a kind is the spelling of the one keyword of that kind;
- a call for a name that is none is refused and changes nothing, and any other call is carried out;
- if all calls were fresh, every keyword is read from its spelling. -/
theorem keywords_after_calls (calls : List (String × String)) :
    ((∀ k : Keyword, (standard.after calls).spellingNamed? k.name = some (lastSpelling calls k.name)) ∧
      ∀ name : String, (∀ k : Keyword, k.name ≠ name) → (standard.after calls).spellingNamed? name = none) ∧
    (∀ (text : String) (kind : Kind), (standard.after calls).lookup text = some kind →
      ∃ k : Keyword, (∀ j : Keyword, j.kind = kind ↔ j = k) ∧
        (standard.after calls).spellingNamed? k.name = some text) ∧
    (∀ name text : String,
      ((∀ k : Keyword, k.name ≠ name) → (standard.after calls).respellNamed? name text = none ∧
        standard.after (calls ++ [(name, text)]) = standard.after calls) ∧
      ((∃ k : Keyword, k.name = name) →
        (standard.after calls).respellNamed? name text = some (standard.after (calls ++ [(name, text)])))) ∧
    (Fresh calls → ∀ k : Keyword, ∃ text, (standard.after calls).spellingNamed? k.name = some text ∧
      (standard.after calls).lookup text = some k.kind) := by
  have hspelled : ∀ k : Keyword, (standard.after calls).spellingNamed? k.name =
      some ((standard.after calls).spelling k) := by
    intro k
    rw [spellingNamed?, k.ofName?_name, Option.map_some]
  refine ⟨⟨?_, ?_⟩, ?_, ?_, ?_⟩
  · intro k
    rw [hspelled, spelling_after]
  · intro name hname
    rw [spellingNamed?, Keyword.ofName?_eq_none_iff.2 hname, Option.map_none]
  · intro text kind h
    obtain ⟨k, hread, rfl⟩ := Option.map_eq_some_iff.1 h
    refine ⟨k, fun j => ⟨Keyword.kind_injective, fun hj => by rw [hj]⟩, ?_⟩
    rw [hspelled, spelling_of_keyword? calls hread]
  · intro name text
    rw [after_concat, call, respellNamed?]
    constructor
    · intro hname
      rw [Keyword.ofName?_eq_none_iff.2 hname]
      exact ⟨rfl, rfl⟩
    · rintro ⟨k, rfl⟩
      rw [k.ofName?_name]
      rfl
  · intro h k
    exact ⟨_, hspelled k, lookup_of_not_displaced calls h.injective (h.not_displaced k)⟩

/-- `and` and `or` swap their spellings by way of `x`, and `lambda` is no keyword: each call is fresh, so `or` is read as
`and`, and `and` as `or`. -/
theorem keywords_after_swap :
    Fresh [("and", "x"), ("or", "and"), ("lambda", "fn"), ("and", "or")] ∧
    (standard.after [("and", "x"), ("or", "and"), ("lambda", "fn"), ("and", "or")]).lookup "or" = some .and ∧
    (standard.after [("and", "x"), ("or", "and"), ("lambda", "fn"), ("and", "or")]).lookup "and" = some .or := by
  have hstep : ∀ (calls : List (String × String)) (c : String × String), Fresh calls →
      (∀ k ∈ Keyword.all, Keyword.ofName? c.1 = some k → ∀ j ∈ Keyword.all, j ≠ k →
        (standard.after calls).spelling j ≠ c.2) → Fresh (calls ++ [c]) := by
    intro calls c h hc
    apply h.concat
    intro k hk j
    exact hc k k.mem_all hk j j.mem_all
  have hempty : Fresh [] := by
    intro before c later heq
    simp at heq
  have hfresh : Fresh [("and", "x"), ("or", "and"), ("lambda", "fn"), ("and", "or")] :=
    hstep [("and", "x"), ("or", "and"), ("lambda", "fn")] ("and", "or")
      (hstep [("and", "x"), ("or", "and")] ("lambda", "fn")
        (hstep [("and", "x")] ("or", "and") (hstep [] ("and", "x") hempty (by decide)) (by decide)) (by decide)) (by decide)
  have hread := (keywords_after_calls [("and", "x"), ("or", "and"), ("lambda", "fn"), ("and", "or")]).2.2.2 hfresh
  obtain ⟨text, htext, hand⟩ := hread .and
  obtain ⟨text', htext', hor⟩ := hread .or
  obtain rfl : "or" = text := Option.some.inj htext
  obtain rfl : "and" = text' := Option.some.inj htext'
  exact ⟨hfresh, hand, hor⟩

end Spellings

end Reckoner
