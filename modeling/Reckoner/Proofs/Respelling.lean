/-
Which texts are read as keywords (`lookup`) after any calls of `set_spelling`.

A table keeps two maps: how each keyword is spelled, and which keyword a text is read as. Respelling a keyword takes
the text it leaves out of the second map. If another keyword is spelled with that text at the moment, the text was
its own too, and it is read as nothing from then on: that keyword is `Displaced`, until it is respelled itself.

Results, for every sequence of calls on the standard table, and so for every keyword file that is accepted
(`after_entries_of_parse`):
- `spelling_of_keyword?`: a text that is read as a keyword is the spelling of that keyword;
- `keyword?_of_not_displaced`: a keyword that is not displaced is read from its spelling, unless it shares it;
- `keyword?_of_displaced`: a keyword that is displaced is not read from its spelling;
- `lookup_after_calls`: so, where the spellings are distinct in the end, the lookup is settled by the spellings and
  by which keywords are displaced. `lines_swapped_differ` are two files with the same lines in another order, and the
  same distinct spellings in the end, that give different lookups.
-/
import Mathlib.Tactic
import Reckoner.KeywordFile

namespace Reckoner

/-! ## Keywords, names and kinds -/

theorem Keyword.mem_all (k : Keyword) : k ∈ Keyword.all := by
  cases k <;> decide

theorem Keyword.kind_injective {j k : Keyword} (h : j.kind = k.kind) : j = k := by
  have hall : ∀ j ∈ Keyword.all, ∀ k ∈ Keyword.all, j.kind = k.kind → j = k := by decide
  exact hall j j.mem_all k k.mem_all h

theorem Keyword.name_of_ofName? {name : String} {k : Keyword} (h : Keyword.ofName? name = some k) : k.name = name := by
  unfold Keyword.ofName? at h
  simpa using List.find?_some h

theorem Keyword.ofName?_name (k : Keyword) : Keyword.ofName? k.name = some k := by
  cases k <;> decide

namespace Spellings

theorem lookup_eq_some_iff {s : Spellings} {text : String} {k : Keyword} :
    s.lookup text = some k.kind ↔ s.keyword? text = some k := by
  constructor
  · intro h
    obtain ⟨j, hj, hkind⟩ := Option.map_eq_some_iff.1 h
    rw [hj, Keyword.kind_injective hkind]
  · intro h
    simp only [lookup, h, Option.map_some]

theorem lookup_eq_none_iff {s : Spellings} {text : String} : s.lookup text = none ↔ s.keyword? text = none :=
  Option.map_eq_none_iff

/-! ## Calls -/

/-- the table after one call, which names a keyword and gives its new spelling; a name that is none changes nothing -/
def call (s : Spellings) (c : String × String) : Spellings :=
  (s.respellNamed? c.1 c.2).getD s

def after (s : Spellings) (calls : List (String × String)) : Spellings :=
  calls.foldl call s

theorem after_concat (s : Spellings) (calls : List (String × String)) (c : String × String) :
    s.after (calls ++ [c]) = (s.after calls).call c := by
  simp [after, List.foldl_append]

/-- What one call does: nothing, or it respells the keyword that it names. -/
theorem call_cases (s : Spellings) (c : String × String) :
    Keyword.ofName? c.1 = none ∧ s.call c = s ∨ ∃ j, Keyword.ofName? c.1 = some j ∧ s.call c = s.respell j c.2 := by
  cases h : Keyword.ofName? c.1 with
  | none => exact Or.inl ⟨rfl, by simp [call, respellNamed?, h]⟩
  | some j => exact Or.inr ⟨j, rfl, by simp [call, respellNamed?, h]⟩

theorem respell_spelling_of_ne (s : Spellings) {j k : Keyword} (text : String) (h : k ≠ j) :
    (s.respell j text).spelling k = s.spelling k :=
  if_neg h

theorem respell_spelling_self (s : Spellings) (k : Keyword) (text : String) : (s.respell k text).spelling k = text :=
  if_pos rfl

theorem respell_keyword?_self (s : Spellings) (k : Keyword) (text : String) :
    (s.respell k text).keyword? text = some k :=
  if_pos rfl

/-- a text that a respelling neither leaves nor takes is read as before -/
theorem respell_keyword?_of_ne (s : Spellings) {k : Keyword} {text t : String} (h1 : t ≠ text) (h2 : t ≠ s.spelling k) :
    (s.respell k text).keyword? t = s.keyword? t :=
  (if_neg h1).trans (if_neg h2)

/-- the text that a respelling leaves is read as nothing, or as the keyword that was respelled to the same text -/
theorem respell_keyword?_left (s : Spellings) {j k : Keyword} (text : String) (h : j ≠ k) :
    (s.respell j text).keyword? (s.spelling j) ≠ some k := by
  by_cases ht : s.spelling j = text
  · rw [ht, respell_keyword?_self]
    exact fun heq => h (Option.some.inj heq)
  · simp [respell, ht]

/-- respelling another keyword does not make a text read as this one -/
theorem respell_keyword?_ne (s : Spellings) {j k : Keyword} {t : String} (text : String) (h : j ≠ k)
    (ht : s.keyword? t ≠ some k) : (s.respell j text).keyword? t ≠ some k := by
  by_cases h1 : t = text
  · rw [h1, respell_keyword?_self]
    exact fun heq => h (Option.some.inj heq)
  by_cases h2 : t = s.spelling j
  · rw [h2]
    exact respell_keyword?_left s text h
  · rwa [respell_keyword?_of_ne s h1 h2]

/-! ## A text that is read as a keyword is its spelling -/

/-- one respelling keeps that every text read as a keyword is the spelling of that keyword -/
theorem respell_spelling_of_keyword? {s : Spellings} (hs : ∀ t k, s.keyword? t = some k → s.spelling k = t)
    (j : Keyword) (text : String) {t : String} {k : Keyword} (h : (s.respell j text).keyword? t = some k) :
    (s.respell j text).spelling k = t := by
  by_cases h1 : t = text
  · subst h1
    rw [respell_keyword?_self, Option.some.injEq] at h
    rw [← h, respell_spelling_self]
  by_cases h2 : t = s.spelling j
  · simp [respell, h2 ▸ h1, h2] at h
  · rw [respell_keyword?_of_ne s h1 h2] at h
    have hk := hs t k h
    have hne : k ≠ j := fun heq => h2 (by rw [← hk, heq])
    rw [respell_spelling_of_ne s text hne, hk]

theorem spelling_of_keyword? (calls : List (String × String)) {t : String} {k : Keyword}
    (h : (standard.after calls).keyword? t = some k) : (standard.after calls).spelling k = t := by
  induction calls using List.reverseRecOn generalizing t k with
  | nil => exact Keyword.name_of_ofName? h
  | append_singleton calls c ih =>
    rw [after_concat] at h ⊢
    rcases call_cases (standard.after calls) c with ⟨-, hc⟩ | ⟨j, -, hc⟩
    · rw [hc] at h ⊢
      exact ih h
    · rw [hc] at h ⊢
      exact respell_spelling_of_keyword? (fun t k => ih) j c.2 h

/-! ## Displaced keywords -/

/-- A keyword is displaced by a call that respells another keyword while both have the same spelling, if the keyword
itself is not respelled after that call. -/
def Displaced (calls : List (String × String)) (k : Keyword) : Prop :=
  ∃ (before : List (String × String)) (c : String × String) (later : List (String × String)) (j : Keyword),
    calls = before ++ c :: later ∧ Keyword.ofName? c.1 = some j ∧ j ≠ k ∧
      (standard.after before).spelling j = (standard.after before).spelling k ∧
      ∀ c' ∈ later, Keyword.ofName? c'.1 ≠ some k

theorem Displaced.concat {calls : List (String × String)} {k : Keyword} (h : Displaced calls k) {c : String × String}
    (hc : Keyword.ofName? c.1 ≠ some k) : Displaced (calls ++ [c]) k := by
  obtain ⟨before, c₀, later, j, rfl, hj, hjk, hsame, hlater⟩ := h
  refine ⟨before, c₀, later ++ [c], j, by simp, hj, hjk, hsame, fun c' hc' => ?_⟩
  rcases List.mem_append.1 hc' with h' | h'
  · exact hlater c' h'
  · rwa [List.mem_singleton.1 h']

/-- the last call displaces a keyword, or does not respell it and leaves it displaced -/
theorem Displaced.of_concat {calls : List (String × String)} {k : Keyword} {c : String × String}
    (h : Displaced (calls ++ [c]) k) : Keyword.ofName? c.1 ≠ some k ∧ (Displaced calls k ∨
      ∃ j, Keyword.ofName? c.1 = some j ∧ j ≠ k ∧
        (standard.after calls).spelling j = (standard.after calls).spelling k) := by
  obtain ⟨before, c₀, later, j, heq, hj, hjk, hsame, hlater⟩ := h
  rcases List.eq_nil_or_concat' later with rfl | ⟨later, c₁, rfl⟩
  · obtain ⟨rfl, hc⟩ := List.append_inj' heq rfl
    obtain rfl := List.singleton_inj.1 hc
    exact ⟨fun hk => hjk (Option.some.inj (hj.symm.trans hk)), Or.inr ⟨j, hj, hjk, hsame⟩⟩
  · rw [← List.cons_append, ← List.append_assoc] at heq
    obtain ⟨rfl, hc⟩ := List.append_inj' heq rfl
    obtain rfl := List.singleton_inj.1 hc
    refine ⟨hlater c (by simp), Or.inl ⟨before, c₀, later, j, rfl, hj, hjk, hsame, fun c' hc' => ?_⟩⟩
    exact hlater c' (List.mem_append_left _ hc')

/-- **A keyword that is not displaced is read from its spelling,** unless another keyword has the same spelling. -/
theorem keyword?_of_not_displaced (calls : List (String × String)) {k : Keyword} (h : ¬ Displaced calls k) :
    (standard.after calls).keyword? ((standard.after calls).spelling k) = some k ∨
      ∃ i ≠ k, (standard.after calls).spelling i = (standard.after calls).spelling k := by
  induction calls using List.reverseRecOn with
  | nil => exact Or.inl k.ofName?_name
  | append_singleton calls c ih =>
    rw [after_concat]
    rcases call_cases (standard.after calls) c with ⟨hnone, hc⟩ | ⟨j, hj, hc⟩
    · rw [hc]
      exact ih fun hd => h (hd.concat (by simp [hnone]))
    rw [hc]
    by_cases hjk : j = k
    · subst hjk
      exact Or.inl (by rw [respell_spelling_self, respell_keyword?_self])
    -- another keyword `j` is respelled: `k` keeps its text, which `j` does not leave
    have hnamed : Keyword.ofName? c.1 ≠ some k := fun hk => hjk (Option.some.inj (hj.symm.trans hk))
    have hleft : (standard.after calls).spelling k ≠ (standard.after calls).spelling j :=
      fun hsame => h ⟨calls, c, [], j, rfl, hj, hjk, hsame.symm, by simp⟩
    rw [respell_spelling_of_ne _ _ (Ne.symm hjk)]
    by_cases htaken : (standard.after calls).spelling k = c.2
    · exact Or.inr ⟨j, hjk, by rw [respell_spelling_self, htaken]⟩
    rcases ih fun hd => h (hd.concat hnamed) with hread | ⟨i, hik, hi⟩
    · exact Or.inl (by rw [respell_keyword?_of_ne _ htaken hleft, hread])
    · have hij : i ≠ j := fun heq => hleft (by rw [← hi, heq])
      exact Or.inr ⟨i, hik, by rw [respell_spelling_of_ne _ _ hij, hi]⟩

/-- **A keyword that is displaced is not read from its spelling.** -/
theorem keyword?_of_displaced (calls : List (String × String)) {k : Keyword} (h : Displaced calls k) :
    (standard.after calls).keyword? ((standard.after calls).spelling k) ≠ some k := by
  induction calls using List.reverseRecOn with
  | nil =>
    obtain ⟨before, c, later, j, heq, -⟩ := h
    simp at heq
  | append_singleton calls c ih =>
    obtain ⟨hnamed, hcause⟩ := h.of_concat
    rw [after_concat]
    rcases call_cases (standard.after calls) c with ⟨hnone, hc⟩ | ⟨j, hj, hc⟩
    · rw [hc]
      rcases hcause with hd | ⟨j, hj, -⟩
      · exact ih hd
      · rw [hnone] at hj
        cases hj
    have hjk : j ≠ k := fun heq => hnamed (heq ▸ hj)
    rw [hc, respell_spelling_of_ne _ _ hjk.symm]
    rcases hcause with hd | ⟨i, hi, -, hsame⟩
    · exact respell_keyword?_ne _ c.2 hjk (ih hd)
    · obtain rfl := Option.some.inj (hj.symm.trans hi)
      rw [← hsame]
      exact respell_keyword?_left _ c.2 hjk

end Spellings

/-! ## Keyword files -/

namespace KeywordFile

/-- the call that a line stands for: a name and a spelling, unless the line is passed over -/
def lineCall? (line : List Char) : Option (String × String) :=
  if isComment (Text.trim line) then none
  else (splitEntry (Text.trim line)).map fun e => (String.ofList e.1, String.ofList e.2)

/-- the calls that a file stands for, line by line -/
def entries (text : String) : List (String × String) :=
  (Text.lines text.toList).filterMap lineCall?

/-- what a good line does: it is passed over, or it is a call on the table -/
theorem applyLine_eq_ok {s s' : Spellings} {number : Nat} {line : List Char}
    (h : applyLine s number line = .ok s') : s' = s.after (lineCall? line).toList := by
  simp only [applyLine] at h
  split at h
  · next hskip =>
    cases h
    simp [lineCall?, hskip, Spellings.after]
  · next hskip =>
    split at h
    · cases h
    · next name spelling hsplit =>
      split at h
      · split at h
        · next s₁ hs₁ =>
          cases h
          simp [lineCall?, hskip, hsplit, Spellings.after, Spellings.call, hs₁]
        · cases h
      · cases h

theorem applyLines_eq_ok {s s' : Spellings} {number : Nat} {lines : List (List Char)}
    (h : applyLines s number lines = .ok s') : s' = s.after (lines.filterMap lineCall?) := by
  induction lines generalizing s number with
  | nil =>
    cases h
    rfl
  | cons line lines ih =>
    unfold applyLines at h
    split at h
    · next s₁ hline =>
      have hcons : (line :: lines).filterMap lineCall? = (lineCall? line).toList ++ lines.filterMap lineCall? := by
        cases he : lineCall? line <;> simp [he]
      rw [ih h, applyLine_eq_ok hline, hcons]
      simp [Spellings.after, List.foldl_append]
    · cases h

/-- **An accepted file is a sequence of calls,** one for each of its entries, on the standard table. -/
theorem after_entries_of_parse {text : String} {s : Spellings} (h : parse text = .ok s) :
    s = Spellings.standard.after (entries text) :=
  applyLines_eq_ok h

end KeywordFile

namespace Spellings

/-! ## The lookup in the end -/

section
variable (calls : List (String × String))

theorem lookup_of_no_spelling {text : String} (h : ∀ k, (standard.after calls).spelling k ≠ text) :
    (standard.after calls).lookup text = none := by
  rw [lookup_eq_none_iff, Option.eq_none_iff_forall_ne_some]
  intro k hk
  exact h k (spelling_of_keyword? calls hk)

theorem lookup_of_not_displaced (hinj : Function.Injective (standard.after calls).spelling) {k : Keyword}
    (hk : ¬ Displaced calls k) : (standard.after calls).lookup ((standard.after calls).spelling k) = some k.kind := by
  rw [lookup_eq_some_iff]
  rcases keyword?_of_not_displaced calls hk with h | ⟨i, hik, hi⟩
  · exact h
  · exact absurd (hinj hi) hik

theorem lookup_of_displaced (hinj : Function.Injective (standard.after calls).spelling) {k : Keyword}
    (hk : Displaced calls k) : (standard.after calls).lookup ((standard.after calls).spelling k) = none := by
  -- the text could be read as another keyword only if that had the same spelling
  rw [lookup_eq_none_iff, Option.eq_none_iff_forall_ne_some]
  intro j hj
  obtain rfl := hinj (spelling_of_keyword? calls hj)
  exact keyword?_of_displaced calls hk hj

end

/-- **What the lookup depends on,** after every sequence of calls on the standard table, and so for every keyword file
that is accepted, which is the sequence of its entries. A text that is no spelling in the end is read as nothing. Where
the spellings in the end are distinct, the spelling of a keyword is read as the kind of that keyword if it is not
displaced, and as nothing if it is. So another sequence with the same spellings in the end has the same lookup, if no
keyword is displaced in either. -/
theorem lookup_after_calls (calls : List (String × String)) :
    (∀ (text : String) (s : Spellings), KeywordFile.parse text = .ok s → KeywordFile.entries text = calls →
      s = standard.after calls) ∧
    (∀ text : String, (∀ k, (standard.after calls).spelling k ≠ text) → (standard.after calls).lookup text = none) ∧
    (Function.Injective (standard.after calls).spelling →
      (∀ k : Keyword,
        (¬ Displaced calls k → (standard.after calls).lookup ((standard.after calls).spelling k) = some k.kind) ∧
        (Displaced calls k → (standard.after calls).lookup ((standard.after calls).spelling k) = none)) ∧
      ∀ calls' : List (String × String), (standard.after calls').spelling = (standard.after calls).spelling →
        (∀ k, ¬ Displaced calls k ∧ ¬ Displaced calls' k) →
        (standard.after calls').lookup = (standard.after calls).lookup) := by
  refine ⟨?_, fun text => lookup_of_no_spelling calls, fun hinj => ⟨fun k =>
    ⟨lookup_of_not_displaced calls hinj, lookup_of_displaced calls hinj⟩, ?_⟩⟩
  · rintro text s h rfl
    exact KeywordFile.after_entries_of_parse h
  · intro calls' hsame hkept
    funext text
    by_cases htext : ∃ k, (standard.after calls).spelling k = text
    · obtain ⟨k, rfl⟩ := htext
      rw [lookup_of_not_displaced calls hinj (hkept k).1, ← hsame,
        lookup_of_not_displaced calls' (hsame ▸ hinj) (hkept k).2]
    · have hnone := not_exists.1 htext
      rw [lookup_of_no_spelling calls hnone, lookup_of_no_spelling calls' (hsame ▸ hnone)]

/-- **The order of lines matters.** `and = or`, then `or = x`: the second line takes `or` out of the texts that are read
as keywords, though `and` is spelled so. With the lines in the other order it is read as `and`. The spellings are the
same in the end, and distinct. -/
theorem lines_swapped_differ :
    ∃ s s' : Spellings, KeywordFile.parse "and = or\nor = x" = .ok s ∧ KeywordFile.parse "or = x\nand = or" = .ok s' ∧
      s.spelling = s'.spelling ∧ Function.Injective s.spelling ∧
      s.lookup (s.spelling .and) = none ∧ s'.lookup (s'.spelling .and) = some .and := by
  refine ⟨(standard.respell .and "or").respell .or "x", (standard.respell .or "x").respell .and "or", by rfl, by rfl,
    ?_, ?_, by decide, by decide⟩
  · funext k
    cases k <;> rfl
  · have hall : ∀ j ∈ Keyword.all, ∀ k ∈ Keyword.all, ((standard.respell .and "or").respell .or "x").spelling j =
        ((standard.respell .and "or").respell .or "x").spelling k → j = k := by decide
    exact fun j k h => hall j j.mem_all k k.mem_all h

end Spellings

end Reckoner
