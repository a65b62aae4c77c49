/-
Which keyword files are accepted, what they set, and which line is at fault in any other.

The entries of a file are its lines that are not blank and not marked as comments. A good entry `Sets` the spelling of a
keyword: the name of the keyword stands before the first equals sign, and a word behind it. Any other entry is `Wrong` in
one of three ways. A file is read entry by entry (`applyLine_of_sets`, `applyLine_of_wrong`), so all entries are good and
are carried out in order (`parse_of_sets`), or the first one that is wrong is reported (`parse_of_wrong`). Of several files
loaded one after another (`load_keywords`), the last one that is accepted counts (`Config.loadAll_of_sets`).

What a word is, is said in terms of how texts are cut into tokens: by itself it is read as one identifier or keyword. This
is the same as what is asked of spellings (`Spellings.readsWord_iff`).

Main statement: `KeywordFile.accepted_or_first_wrong_reported`.
-/
import Mathlib.Tactic
import Reckoner.Config
import Reckoner.Proofs.FreshSpellings
import Reckoner.Proofs.Rewording

namespace Reckoner

/-! ## Words -/

namespace Spellings

/-- By itself, the text is read as one identifier or keyword that covers all of it, and nothing is reported. -/
def ReadsWord (s : Spellings) (text : String) : Prop :=
  ∃ t eof : Token, (lex s text).tokens = [t, eof] ∧ eof.kind = .eof ∧ (lex s text).diagnostics = [] ∧
    t.lexeme = text ∧ t.span = ⟨0, text.toList.length⟩ ∧ (t.kind = .identifier ∨ s.lookup text = some t.kind)

theorem readsWord_of_isWord (s : Spellings) {text : String} (h : Text.isWord text.toList = true) : s.ReadsWord text := by
  have hlexemes : lexemes s text.toList = [⟨s.classify text, text.toList⟩] := by
    have hword : lexemes s (text.toList ++ []) = _ := lexemes_word s h rfl
    rwa [List.append_nil, String.ofList_toList, lexemes] at hword
  have hspan : (⟨0, 0 + text.toList.length⟩ : Span) = ⟨0, text.toList.length⟩ := by rw [Nat.zero_add]
  simp only [ReadsWord, lex, hlexemes, classify]
  cases hlookup : s.lookup text with
  | some kind => exact ⟨_, _, rfl, rfl, rfl, String.ofList_toList, hspan, Or.inr rfl⟩
  | none => exact ⟨_, _, rfl, rfl, rfl, String.ofList_toList, hspan, Or.inl rfl⟩

end Spellings

/-- what is cut as an identifier is a word: operators and constants are of other kinds -/
theorem isWord_of_identifier {s : Spellings} {c : Char} {cs : List Char} {literal : Option Literal}
    (h : (cut s c cs).piece = .token .identifier literal) : Text.isWord (c :: (cut s c cs).more) = true := by
  by_cases hc : Text.startsWord c = true
  · rw [cut_word hc, isWord_iff]
    exact ⟨c, _, rfl, hc, fun d hd => List.mem_takeWhile_imp hd⟩
  exfalso
  have hoperator : (cutOperator c cs).piece ≠ .token .identifier literal := by
    unfold cutOperator
    split
    · next kind n hop =>
      intro heq
      obtain ⟨rfl, -⟩ := Piece.token.inj heq
      exact absurd (operator?_plain hop).2 (by decide)
    · nofun
  unfold cut at h
  rw [if_neg hc] at h
  split at h
  · cases h
  split at h
  · unfold cutString at h
    split at h <;> cases h
  split at h
  · obtain ⟨kind, literal', hpiece, hkind⟩ := cutNumber_piece c cs
    rw [hpiece] at h
    exact hkind (Piece.token.inj h).1
  split at h
  · split at h
    · cases h
    · unfold cutBlockComment at h
      split at h <;> cases h
    · exact hoperator h
  · exact hoperator h

namespace Spellings

theorem isWord_of_readsWord {s : Spellings}
    (hs : ∀ text kind, s.lookup text = some kind → Text.isWord text.toList = true)
    {text : String} (h : s.ReadsWord text) : Text.isWord text.toList = true := by
  obtain ⟨t, eof, htokens, heof, -, hlexeme, -, hkind | hlookup⟩ := h
  · have hmem : t ∈ (lex s text).tokens := by
      rw [htokens]
      exact List.mem_cons_self
    rcases List.mem_append.1 hmem with hmem | hend
    · obtain ⟨l, hl, hlt⟩ := List.mem_filterMap.1 hmem
      obtain ⟨c, cs, hcut⟩ := exists_cut_of_mem (lexeme_mem_of_mem_placed hl)
      obtain ⟨⟨piece, chars⟩, start⟩ := l
      obtain ⟨rfl, rfl⟩ := Lexeme.mk.inj hcut
      unfold Placed.token? at hlt
      split at hlt
      · next kind literal hpiece =>
        cases hlt
        obtain rfl : kind = .identifier := hkind
        rw [← hlexeme, String.toList_ofList]
        exact isWord_of_identifier hpiece
      · cases hlt
    · rw [List.mem_singleton.1 hend] at hkind
      cases hkind
  · exact hs text _ hlookup

/-- **What may be a spelling is what is read as a word** with the standard spellings. -/
theorem readsWord_iff {text : String} : standard.ReadsWord text ↔ Text.isWord text.toList = true := by
  constructor
  · apply isWord_of_readsWord
    intro text kind h
    obtain ⟨k, hk, -⟩ := Option.map_eq_some_iff.1 h
    rw [← Keyword.name_of_ofName? hk]
    exact isWord_name k
  · exact readsWord_of_isWord standard

end Spellings

namespace KeywordFile

/-! ## Entries -/

/-- The lines of a file. A newline ends a line, together with one carriage return right before it; behind the last
newline there is a line only if there is any text. -/
def fileLines (text : List Char) : List (List Char) :=
  (text.splitOn '\n').dropLast.map Text.dropReturn ++ (text.splitOn '\n').getLast?.toList.filter (· ≠ [])

/-- a line that is passed over: when trimmed, it is empty or begins with `#` or `!` -/
def Passed (line : List Char) : Prop :=
  Text.trim line = [] ∨ (Text.trim line).head? = some '#' ∨ (Text.trim line).head? = some '!'

instance : DecidablePred Passed := fun _ => inferInstanceAs (Decidable (_ ∨ _ ∨ _))

/-- the lines that are not passed over, trimmed, with their numbers, when the first line has the number `first` -/
def numbered (first : Nat) (lines : List (List Char)) : List (Nat × List Char) :=
  ((lines.zipIdx first).filter fun l => ¬ Passed l.1).map fun l => (l.2, Text.trim l.1)

/-- the entries of a file with the numbers of their lines, counted from one -/
def entryLines (text : String) : List (Nat × List Char) :=
  numbered 1 (fileLines text.toList)

/-- An entry sets the spelling of a keyword: its name stands before the first equals sign, and a word behind it. -/
inductive Sets : List Char → String × String → Prop where
  | intro {before after : List Char} {k : Keyword} (hbefore : '=' ∉ before)
      (hname : String.ofList (Text.trim before) = k.name)
      (hword : Spellings.standard.ReadsWord (String.ofList (Text.trim after))) :
      Sets (before ++ '=' :: after) (k.name, String.ofList (Text.trim after))

/-- what is wrong with an entry on the line of the given number -/
inductive Wrong (number : Nat) : List Char → Error → Prop where
  | malformed {entry : List Char} (h : '=' ∉ entry) : Wrong number entry (.malformed number)
  | invalidSpelling {before after : List Char} (hbefore : '=' ∉ before)
      (hword : ¬ Spellings.standard.ReadsWord (String.ofList (Text.trim after))) :
      Wrong number (before ++ '=' :: after) (.invalidSpelling number (String.ofList (Text.trim after)))
  | unknownKeyword {before after : List Char} (hbefore : '=' ∉ before)
      (hword : Spellings.standard.ReadsWord (String.ofList (Text.trim after)))
      (hname : ∀ k : Keyword, String.ofList (Text.trim before) ≠ k.name) :
      Wrong number (before ++ '=' :: after) (.unknownKeyword number (String.ofList (Text.trim before)))

/-! ## One line -/

section
variable {before after entry line : List Char} {number : Nat} {call : String × String} {e : Error} {s : Spellings}

theorem splitEntry_append (h : '=' ∉ before) (after : List Char) :
    splitEntry (before ++ '=' :: after) = some (Text.trim before, Text.trim after) := by
  have hrun := bne_of_notMem h
  have hstop : ∀ c ∈ ('=' :: after).head?, (c != '=') = false := by
    intro c hc
    cases hc
    rfl
  simp only [splitEntry, takeWhile_run hrun hstop, dropWhile_run hrun hstop]

theorem splitEntry_of_notMem (h : '=' ∉ entry) : splitEntry entry = none := by
  have hnone : entry.dropWhile (· != '=') = [] := List.dropWhile_eq_nil_iff.2 (bne_of_notMem h)
  simp only [splitEntry, hnone]

theorem isComment_trim : isComment (Text.trim line) = true ↔ Passed line := by
  unfold isComment Passed
  split
  · next hnil => simp [hnil]
  · next c rest hcons => simp [hcons]

theorem applyLine_of_passed (h : Passed line) : applyLine s number line = .ok s := by
  simp only [applyLine, isComment_trim.2 h, if_true]

/-- a good entry is carried out -/
theorem applyLine_of_sets (hline : ¬ Passed line) (h : Sets (Text.trim line) call) :
    applyLine s number line = .ok (s.call call) := by
  rw [← isComment_trim] at hline
  unfold applyLine
  generalize Text.trim line = entry at hline h
  cases h with
  | intro hbefore hname hword =>
    rw [Spellings.readsWord_iff, String.toList_ofList] at hword
    simp only [hline, splitEntry_append hbefore, hword, hname, Spellings.call, Spellings.respellNamed?,
      Keyword.ofName?_name]
    rfl

/-- an entry that is wrong is reported -/
theorem applyLine_of_wrong (hline : ¬ Passed line) (h : Wrong number (Text.trim line) e) :
    applyLine s number line = .error e := by
  rw [← isComment_trim] at hline
  unfold applyLine
  generalize Text.trim line = entry at hline h
  cases h with
  | malformed hmem => simp only [hline, splitEntry_of_notMem hmem]; rfl
  | invalidSpelling hbefore hword =>
    rw [Spellings.readsWord_iff, String.toList_ofList] at hword
    simp only [hline, splitEntry_append hbefore, hword]
    rfl
  | unknownKeyword hbefore hword hname =>
    rw [Spellings.readsWord_iff, String.toList_ofList] at hword
    have hnone : Keyword.ofName? (String.ofList (Text.trim _)) = none :=
      Keyword.ofName?_eq_none_iff.2 fun k => (hname k).symm
    simp only [hline, splitEntry_append hbefore, hword, Spellings.respellNamed?, hnone]
    rfl

/-- every entry is good or wrong -/
theorem sets_or_wrong (number : Nat) (entry : List Char) : (∃ call, Sets entry call) ∨ ∃ e, Wrong number entry e := by
  by_cases hmem : '=' ∈ entry
  · obtain ⟨before, after, rfl, hbefore⟩ := List.eq_append_cons_of_mem hmem
    by_cases hword : Spellings.standard.ReadsWord (String.ofList (Text.trim after))
    · by_cases hname : ∃ k : Keyword, String.ofList (Text.trim before) = k.name
      · obtain ⟨k, hname⟩ := hname
        exact Or.inl ⟨_, .intro hbefore hname hword⟩
      · exact Or.inr ⟨_, .unknownKeyword hbefore hword (not_exists.1 hname)⟩
    · exact Or.inr ⟨_, .invalidSpelling hbefore hword⟩
  · exact Or.inr ⟨_, .malformed hmem⟩

end

/-! ## Line by line -/

theorem numbered_append (first : Nat) (lines others : List (List Char)) :
    numbered first (lines ++ others) = numbered first lines ++ numbered (first + lines.length) others := by
  simp only [numbered, List.zipIdx_append, List.filter_append, List.map_append]

theorem numbered_passed {line : List Char} (h : Passed line) (first : Nat) (lines : List (List Char)) :
    numbered first (line :: lines) = numbered (first + 1) lines := by
  simp [numbered, List.zipIdx_cons, h]

theorem numbered_entry {line : List Char} (h : ¬ Passed line) (first : Nat) (lines : List (List Char)) :
    numbered first (line :: lines) = (first, Text.trim line) :: numbered (first + 1) lines := by
  simp [numbered, List.zipIdx_cons, h]

/-- where all entries are good, they are carried out in order -/
theorem applyLines_of_sets {lines : List (List Char)} {s : Spellings} {number : Nat} {calls : List (String × String)}
    (h : List.Forall₂ Sets ((numbered number lines).map Prod.snd) calls) :
    applyLines s number lines = .ok (s.after calls) := by
  induction lines generalizing s number calls with
  | nil =>
    cases h
    rfl
  | cons line lines ih =>
    unfold applyLines
    by_cases hline : Passed line
    · rw [numbered_passed hline] at h
      rw [applyLine_of_passed hline]
      exact ih h
    · rw [numbered_entry hline, List.map_cons] at h
      cases h with
      | cons hsets hrest =>
        rw [applyLine_of_sets hline hsets]
        exact ih hrest

/-- where entries in front are good and the next is wrong, it is reported -/
theorem applyLines_of_wrong {lines : List (List Char)} {s : Spellings} {number n : Nat} {good rest : List (Nat × List Char)}
    {bad : List Char} {e : Error} (hentries : numbered number lines = good ++ (n, bad) :: rest)
    (hgood : ∀ g ∈ good, ∃ call, Sets g.2 call) (hbad : Wrong n bad e) :
    applyLines s number lines = .error e := by
  induction lines generalizing s number good with
  | nil => simp [numbered] at hentries
  | cons line lines ih =>
    unfold applyLines
    by_cases hline : Passed line
    · rw [numbered_passed hline] at hentries
      rw [applyLine_of_passed hline]
      exact ih hentries hgood
    · rw [numbered_entry hline] at hentries
      cases good with
      | nil =>
        obtain ⟨hfirst, -⟩ := List.cons.inj hentries
        obtain ⟨rfl, rfl⟩ := Prod.mk.inj hfirst
        rw [applyLine_of_wrong hline hbad]
      | cons g good =>
        obtain ⟨hfirst, hlater⟩ := List.cons.inj hentries
        obtain ⟨⟨call, hcall⟩, hothers⟩ := List.forall_mem_cons.1 hgood
        obtain rfl := hfirst
        rw [applyLine_of_sets hline hcall]
        exact ih hlater hothers

/-- all entries are good, or there is a first one that is wrong -/
theorem all_set_or_first_wrong (entries : List (Nat × List Char)) :
    (∃ calls, List.Forall₂ Sets (entries.map Prod.snd) calls) ∨
      ∃ good n bad rest e, entries = good ++ (n, bad) :: rest ∧ (∀ g ∈ good, ∃ call, Sets g.2 call) ∧ Wrong n bad e := by
  induction entries with
  | nil => exact Or.inl ⟨[], .nil⟩
  | cons entry entries ih =>
    rcases sets_or_wrong entry.1 entry.2 with ⟨call, hcall⟩ | ⟨e, he⟩
    · rcases ih with ⟨calls, hcalls⟩ | ⟨good, n, bad, rest, e, rfl, hgood, hbad⟩
      · exact Or.inl ⟨call :: calls, .cons hcall hcalls⟩
      · exact Or.inr ⟨entry :: good, n, bad, rest, e, rfl, List.forall_mem_cons.2 ⟨⟨call, hcall⟩, hgood⟩, hbad⟩
    · exact Or.inr ⟨[], entry.1, entry.2, entries, e, rfl, by simp, he⟩

/-! ## Whole files -/

theorem fileLines_append (a b : List Char) :
    fileLines (a ++ '\n' :: b) = (a.splitOn '\n').map Text.dropReturn ++ fileLines b := by
  have hb := List.splitOn_ne_nil '\n' b
  simp only [fileLines, List.splitOn_append_cons_self, List.dropLast_append_of_ne_nil hb, List.getLast?_append_of_ne_nil _ hb,
    List.map_append, List.append_assoc]

theorem trim_dropReturn (line : List Char) : Text.trim (Text.dropReturn line) = Text.trim line := by
  rcases withoutReturn_dropReturn line with h | ⟨h, -⟩
  · conv_rhs => rw [h, Text.trim_concat (by decide)]
  · rw [← h]

theorem passed_dropReturn {line : List Char} : Passed (Text.dropReturn line) ↔ Passed line := by
  rw [Passed, trim_dropReturn, Passed]

/-- a file is read by lines that differ from its own at the end only: there a carriage return or an empty line is nothing -/
theorem numbered_lines (text : List Char) : numbered 1 (Text.lines text) = numbered 1 (fileLines text) := by
  obtain hnil | ⟨parts, last, hparts⟩ := List.eq_nil_or_concat' (text.splitOn '\n')
  · exact absurd hnil (List.splitOn_ne_nil '\n' text)
  have hlast : ∀ first, numbered first [Text.dropReturn last] = numbered first ([last].filter (· ≠ [])) := by
    intro first
    by_cases hempty : last = []
    · subst hempty
      rfl
    · by_cases hpassed : Passed last
      · simp [numbered, passed_dropReturn, hempty, hpassed]
      · simp [numbered, passed_dropReturn, trim_dropReturn, hempty, hpassed]
  simp only [lines_eq_splitOn, fileLines, hparts, List.map_append, List.map_cons, List.map_nil, List.dropLast_concat,
    List.getLast?_concat, Option.toList_some, numbered_append, hlast]

/-- **A file with good entries is accepted.** -/
theorem parse_of_sets {text : String} {calls : List (String × String)}
    (h : List.Forall₂ Sets ((entryLines text).map Prod.snd) calls) :
    parse text = .ok (Spellings.standard.after calls) := by
  rw [entryLines, ← numbered_lines] at h
  exact applyLines_of_sets h

/-- **The first entry that is wrong is reported.** -/
theorem parse_of_wrong {text : String} {n : Nat} {good rest : List (Nat × List Char)} {bad : List Char} {e : Error}
    (hentries : entryLines text = good ++ (n, bad) :: rest) (hgood : ∀ g ∈ good, ∃ call, Sets g.2 call)
    (hbad : Wrong n bad e) : parse text = .error e := by
  rw [entryLines, ← numbered_lines] at hentries
  exact applyLines_of_wrong hentries hgood hbad

theorem parse_eq_ok_iff {text : String} {s : Spellings} :
    parse text = .ok s ↔
      ∃ calls, List.Forall₂ Sets ((entryLines text).map Prod.snd) calls ∧ s = Spellings.standard.after calls := by
  constructor
  · intro h
    rcases all_set_or_first_wrong (entryLines text) with ⟨calls, hcalls⟩ | ⟨good, n, bad, rest, e, hentries, hgood, hbad⟩
    · rw [parse_of_sets hcalls] at h
      exact ⟨calls, hcalls, (Except.ok.inj h).symm⟩
    · rw [parse_of_wrong hentries hgood hbad] at h
      cases h
  · rintro ⟨calls, hcalls, rfl⟩
    exact parse_of_sets hcalls

theorem parse_eq_error_iff {text : String} {e : Error} :
    parse text = .error e ↔
      ∃ good n bad rest, entryLines text = good ++ (n, bad) :: rest ∧ (∀ g ∈ good, ∃ call, Sets g.2 call) ∧
        Wrong n bad e := by
  constructor
  · intro h
    rcases all_set_or_first_wrong (entryLines text) with ⟨calls, hcalls⟩ | ⟨good, n, bad, rest, e', hentries, hgood, hbad⟩
    · rw [parse_of_sets hcalls] at h
      cases h
    · rw [parse_of_wrong hentries hgood hbad] at h
      obtain rfl := Except.error.inj h
      exact ⟨good, n, bad, rest, hentries, hgood, hbad⟩
  · rintro ⟨good, n, bad, rest, hentries, hgood, hbad⟩
    exact parse_of_wrong hentries hgood hbad

theorem forall_sets_iff {entries : List (List Char)} :
    (∃ calls, List.Forall₂ Sets entries calls) ↔ ∀ entry ∈ entries, ∃ call, Sets entry call := by
  constructor
  · rintro ⟨calls, h⟩
    intro entry hentry
    obtain ⟨i, hi, rfl⟩ := List.getElem_of_mem hentry
    exact ⟨_, h.get hi (h.length_eq ▸ hi)⟩
  · intro h
    induction entries with
    | nil => exact ⟨[], .nil⟩
    | cons entry entries ih =>
      obtain ⟨⟨call, hcall⟩, hlater⟩ := List.forall_mem_cons.1 h
      obtain ⟨calls, hcalls⟩ := ih hlater
      exact ⟨call :: calls, .cons hcall hcalls⟩

/-! ## Lines that are passed over -/

theorem map_snd_numbered (first : Nat) (lines : List (List Char)) :
    (numbered first lines).map Prod.snd = (lines.filter fun line => ¬ Passed line).map Text.trim := by
  induction lines generalizing first with
  | nil => rfl
  | cons line lines ih =>
    by_cases hline : Passed line
    · rw [numbered_passed hline, ih, List.filter_cons_of_neg (by simpa using hline)]
    · rw [numbered_entry hline, List.map_cons, ih, List.filter_cons_of_pos (by simpa using hline), List.map_cons]

/-- a line that is passed over may stand between any two lines, before the first and behind the last -/
theorem entries_insert {before line : List Char} (hbefore : before = [] ∨ before.getLast? = some '\n')
    (hnewline : '\n' ∉ line) (hline : Passed line) (after : List Char) :
    (entryLines (String.ofList (before ++ line ++ '\n' :: after))).map Prod.snd =
      (entryLines (String.ofList (before ++ after))).map Prod.snd := by
  have hfirst : (fileLines (line ++ '\n' :: after)).filter (fun l => ¬ Passed l) =
      (fileLines after).filter fun l => ¬ Passed l := by
    rw [fileLines_append, List.splitOn_eq_singleton hnewline, List.map_singleton, List.singleton_append,
      List.filter_cons_of_neg (by simpa using passed_dropReturn.2 hline)]
  simp only [entryLines, map_snd_numbered, String.toList_ofList]
  rcases hbefore with rfl | hlast
  · rw [List.nil_append, hfirst, List.nil_append]
  · obtain ⟨front, rfl⟩ := List.getLast?_eq_some_iff.1 hlast
    have hbehind : ∀ rest, fileLines (front ++ ['\n'] ++ rest) =
        (front.splitOn '\n').map Text.dropReturn ++ fileLines rest := by
      intro rest
      rw [List.append_assoc, List.singleton_append, fileLines_append]
    rw [List.append_assoc (front ++ ['\n']), hbehind, hbehind, List.filter_append, hfirst, ← List.filter_append]

def Error.onLine (number : Nat) : Error → Error
  | .malformed _ => .malformed number
  | .unknownKeyword _ name => .unknownKeyword number name
  | .invalidSpelling _ spelling => .invalidSpelling number spelling

theorem Wrong.onLine {n : Nat} {entry : List Char} {e : Error} (h : Wrong n entry e) (number : Nat) :
    Wrong number entry (e.onLine number) := by
  cases h with
  | malformed hmem => exact .malformed hmem
  | invalidSpelling hbefore hword => exact .invalidSpelling hbefore hword
  | unknownKeyword hbefore hword hname => exact .unknownKeyword hbefore hword hname

section
variable {text other : String} (h : (entryLines other).map Prod.snd = (entryLines text).map Prod.snd)
include h

theorem parse_ok_of_entries (s : Spellings) : parse other = .ok s ↔ parse text = .ok s := by
  rw [parse_eq_ok_iff, parse_eq_ok_iff, h]

theorem parse_error_of_entries {e : Error} (he : parse text = .error e) : ∃ n, parse other = .error (e.onLine n) := by
  obtain ⟨good, n, bad, rest, hentries, hgood, hbad⟩ := parse_eq_error_iff.1 he
  rw [hentries, List.map_append, List.map_cons, List.map_eq_append_iff] at h
  obtain ⟨good', others, hother, hsame, hothers⟩ := h
  obtain ⟨⟨n', bad'⟩, rest', rfl, rfl, -⟩ := List.map_eq_cons_iff.1 hothers
  have hgood' : ∀ g ∈ good', ∃ call, Sets g.2 call := by
    intro g hg
    have hmem : g.2 ∈ good.map Prod.snd := hsame ▸ List.mem_map_of_mem hg
    obtain ⟨g₀, hg₀, heq⟩ := List.mem_map.1 hmem
    exact heq ▸ hgood g₀ hg₀
  exact ⟨n', parse_of_wrong hother hgood' (hbad.onLine n')⟩

end

/-! ## Words -/

/-- the spellings that a file sets do not change what a word is -/
theorem readsWord_of_parse {file : String} {s : Spellings} (h : parse file = .ok s) (text : String) :
    s.ReadsWord text ↔ Spellings.standard.ReadsWord text := by
  rw [Spellings.readsWord_iff]
  constructor
  · apply Spellings.isWord_of_readsWord
    intro word kind hread
    obtain ⟨k, hk, -⟩ := Option.map_eq_some_iff.1 hread
    have hspelling : s.spelling k = word := by
      obtain rfl := after_entries_of_parse h
      exact Spellings.spelling_of_keyword? _ hk
    exact hspelling ▸ isWord_of_parse h k
  · exact Spellings.readsWord_of_isWord s

end KeywordFile

/-! ## Loading one file after another -/

/-- a keyword file to be loaded: its path, and what is read there -/
structure Load where
  path : String
  contents : Except ReadFault (List UInt8)

/-- A load sets spellings if the file is read, its bytes are a text, and the text is accepted with these spellings. -/
def Load.Sets (l : Load) (s : Spellings) : Prop :=
  ∃ bytes text, l.contents = .ok bytes ∧ decodeText bytes = .ok text ∧ KeywordFile.parse text = .ok s

namespace Config

def load (c : Config) (l : Load) : Config :=
  (c.loadKeywords l.path l.contents).config

def loadAll (c : Config) (loads : List Load) : Config :=
  loads.foldl load c

theorem load_of_sets {l : Load} {s : Spellings} (h : l.Sets s) (c : Config) : c.load l = { c with spellings := s } := by
  obtain ⟨bytes, text, hbytes, htext, hparse⟩ := h
  simp only [load, loadKeywords, hbytes, htext, hparse]

/-- a load that sets nothing fails, and leaves the settings as they are -/
theorem loadKeywords_of_not_sets {l : Load} (h : ∀ s, ¬ l.Sets s) (c : Config) :
    (c.loadKeywords l.path l.contents).result ≠ .ok () ∧ (c.loadKeywords l.path l.contents).config = c := by
  unfold loadKeywords
  split
  · exact ⟨nofun, rfl⟩
  · next bytes hbytes =>
    split
    · exact ⟨nofun, rfl⟩
    · next text htext =>
      split
      · exact ⟨nofun, rfl⟩
      · next s hparse => exact absurd ⟨bytes, text, hbytes, htext, hparse⟩ (h s)

theorem load_of_not_sets {l : Load} (h : ∀ s, ¬ l.Sets s) (c : Config) : c.load l = c :=
  (loadKeywords_of_not_sets h c).2

/-- **A load succeeds if it sets spellings,** and fails otherwise. -/
theorem loadKeywords_eq_ok_iff (c : Config) (l : Load) :
    (c.loadKeywords l.path l.contents).result = .ok () ↔ ∃ s, l.Sets s := by
  constructor
  · intro hok
    by_contra hnone
    exact (loadKeywords_of_not_sets (not_exists.1 hnone) c).1 hok
  · rintro ⟨s, bytes, text, hbytes, htext, hparse⟩
    simp only [loadKeywords, hbytes, htext, hparse]

theorem loadAll_of_not_sets {loads : List Load} (h : ∀ l ∈ loads, ∀ s, ¬ l.Sets s) (c : Config) : c.loadAll loads = c := by
  induction loads with
  | nil => rfl
  | cons l loads ih =>
    obtain ⟨hl, hloads⟩ := List.forall_mem_cons.1 h
    rw [loadAll, List.foldl_cons, load_of_not_sets hl]
    exact ih hloads

/-- one load leaves nothing but the spellings different -/
theorem exists_spellings_load (c : Config) (l : Load) : ∃ s, c.load l = { c with spellings := s } := by
  by_cases hsets : ∃ s, l.Sets s
  · obtain ⟨s, hs⟩ := hsets
    exact ⟨s, load_of_sets hs c⟩
  · exact ⟨c.spellings, load_of_not_sets (not_exists.1 hsets) c⟩

theorem exists_spellings_loadAll (c : Config) (loads : List Load) :
    ∃ s, c.loadAll loads = { c with spellings := s } := by
  induction loads using List.reverseRecOn with
  | nil => exact ⟨c.spellings, rfl⟩
  | append_singleton loads l ih =>
    obtain ⟨s, hs⟩ := ih
    obtain ⟨s', hs'⟩ := exists_spellings_load (c.loadAll loads) l
    refine ⟨s', ?_⟩
    calc c.loadAll (loads ++ [l])
      _ = (c.loadAll loads).load l := List.foldl_concat ..
      _ = { c.loadAll loads with spellings := s' } := hs'
      _ = { c with spellings := s' } := by rw [hs]

/-- **The last load that succeeds counts,** and nothing of those before and behind it is left. -/
theorem loadAll_of_sets {l : Load} {later : List Load} {s : Spellings} (hl : l.Sets s)
    (hlater : ∀ l' ∈ later, ∀ s', ¬ l'.Sets s') (c : Config) (earlier : List Load) :
    c.loadAll (earlier ++ l :: later) = { c with spellings := s } := by
  obtain ⟨s₀, hs₀⟩ := exists_spellings_loadAll c earlier
  calc c.loadAll (earlier ++ l :: later)
    _ = ((c.loadAll earlier).load l).loadAll later := by rw [loadAll, List.foldl_append, List.foldl_cons]; rfl
    _ = (c.loadAll earlier).load l := loadAll_of_not_sets hlater _
    _ = { c.loadAll earlier with spellings := s } := load_of_sets hl _
    _ = { c with spellings := s } := by rw [hs₀]

end Config

namespace KeywordFile

/-! ## What is accepted and what is reported -/

/-- **A keyword file is accepted if all its entries are good, and else its first bad line is reported.** For every text:
- it is accepted if and only if every entry sets a keyword, and then the entries are carried out in order on the standard
  spellings;
- any other text is refused for its first entry that is wrong, with the number of its line and what is wrong there;
- the entries alone count: a line that is passed over can be put in anywhere, or left out, and a refused file is refused
  for the same reason then, with its line counted anew;
- what a word is does not depend on the spellings that the files set.

A load of a file succeeds if the file is read and is a text that is accepted. After any loads, the spellings are those of
the last one that succeeded, or what they were if none did, and the other settings are what they were. -/
theorem accepted_or_first_wrong_reported :
    (∀ (text : String) (s : Spellings), parse text = .ok s ↔
      ∃ calls, List.Forall₂ Sets ((entryLines text).map Prod.snd) calls ∧ s = Spellings.standard.after calls) ∧
    (∀ text : String, (∃ s, parse text = .ok s) ↔ ∀ entry ∈ (entryLines text).map Prod.snd, ∃ call, Sets entry call) ∧
    (∀ (text : String) (e : Error), parse text = .error e ↔
      ∃ good n bad rest, entryLines text = good ++ (n, bad) :: rest ∧ (∀ g ∈ good, ∃ call, Sets g.2 call) ∧
        Wrong n bad e) ∧
    (∀ text other : String, (entryLines other).map Prod.snd = (entryLines text).map Prod.snd →
      (∀ s, parse other = .ok s ↔ parse text = .ok s) ∧
      ∀ e, parse text = .error e → ∃ n, parse other = .error (e.onLine n)) ∧
    (∀ before line after : List Char, (before = [] ∨ before.getLast? = some '\n') → '\n' ∉ line → Passed line →
      (entryLines (String.ofList (before ++ line ++ '\n' :: after))).map Prod.snd =
        (entryLines (String.ofList (before ++ after))).map Prod.snd) ∧
    (∀ (file : String) (s : Spellings), parse file = .ok s →
      ∀ text, s.ReadsWord text ↔ Spellings.standard.ReadsWord text) ∧
    (∀ (c : Config) (l : Load), (c.loadKeywords l.path l.contents).result = .ok () ↔ ∃ s, l.Sets s) ∧
    ∀ (c : Config) (loads : List Load),
      ((∀ l ∈ loads, ∀ s, ¬ l.Sets s) → c.loadAll loads = c) ∧
      ∀ (earlier : List Load) (l : Load) (later : List Load) (s : Spellings), loads = earlier ++ l :: later → l.Sets s →
        (∀ l' ∈ later, ∀ s', ¬ l'.Sets s') → c.loadAll loads = { c with spellings := s } := by
  refine ⟨?_, ?_, ?_, ?_, ?_, ?_, Config.loadKeywords_eq_ok_iff, ?_⟩
  · intro text s
    exact parse_eq_ok_iff
  · intro text
    rw [← forall_sets_iff]
    constructor
    · rintro ⟨s, hs⟩
      obtain ⟨calls, hcalls, -⟩ := parse_eq_ok_iff.1 hs
      exact ⟨calls, hcalls⟩
    · rintro ⟨calls, hcalls⟩
      exact ⟨_, parse_of_sets hcalls⟩
  · intro text e
    exact parse_eq_error_iff
  · intro text other h
    exact ⟨parse_ok_of_entries h, fun e he => parse_error_of_entries h he⟩
  · intro before line after hbefore hnewline hline
    exact entries_insert hbefore hnewline hline after
  · intro file s h
    exact readsWord_of_parse h
  · intro c loads
    refine ⟨fun h => Config.loadAll_of_not_sets h c, ?_⟩
    rintro earlier l later s rfl hl hlater
    exact Config.loadAll_of_sets hl hlater c earlier

/-- Two entries between comments and a blank line are accepted, and without these lines the same is set. They are loaded,
and a second load that fails leaves the first one in place. With a line that is no entry, the file is refused for it,
whichever number it has. -/
theorem sample_accepted_and_reported :
    ∃ s : Spellings, s.lookup "wahr" = some .trueWord ∧
      parse "# German\n\ntrue = wahr\nfalse=falsch\n! legacy comment\n" = .ok s ∧
      parse "\ntrue = wahr\nfalse=falsch\n! legacy comment\n" = .ok s ∧
      (∀ text, s.ReadsWord text ↔ Spellings.standard.ReadsWord text) ∧
      (({} : Config).loadKeywords "german.txt" (.ok "true = wahr\nfalse=falsch".toUTF8.data.toList)).result = .ok () ∧
      ({} : Config).loadAll [⟨"german.txt", .ok "true = wahr\nfalse=falsch".toUTF8.data.toList⟩, ⟨"gone.txt", .error .notFound⟩] =
        { spellings := s } ∧
      parse "true = wahr\nnonsense" = .error (.malformed 2) ∧
      ∃ n, parse "\n! legacy comment\ntrue = wahr\nnonsense\n" = .error (.malformed n) := by
  obtain ⟨hok, -, herror, hentries, hinsert, hword, hresult, hloads⟩ := accepted_or_first_wrong_reported
  have hwahr : Spellings.standard.ReadsWord "wahr" := Spellings.readsWord_iff.2 (by decide +kernel)
  have hfalsch : Spellings.standard.ReadsWord "falsch" := Spellings.readsWord_iff.2 (by decide +kernel)
  have htrue : Sets "true = wahr".toList ("true", "wahr") :=
    @Sets.intro "true ".toList " wahr".toList .trueWord (by decide) (by decide) hwahr
  have hfalse : Sets "false=falsch".toList ("false", "falsch") :=
    @Sets.intro "false".toList "falsch".toList .falseWord (by decide) (by decide) hfalsch
  have hgood : (entryLines "# German\n\ntrue = wahr\nfalse=falsch\n! legacy comment\n").map Prod.snd =
      ["true = wahr".toList, "false=falsch".toList] := by decide +kernel
  have hfile : parse "# German\n\ntrue = wahr\nfalse=falsch\n! legacy comment\n" =
      .ok (.after .standard [("true", "wahr"), ("false", "falsch")]) :=
    (hok _ _).2 ⟨_, hgood ▸ .cons htrue (.cons hfalse .nil), rfl⟩
  have hshort : parse "true = wahr\nfalse=falsch" = .ok (.after .standard [("true", "wahr"), ("false", "falsch")]) :=
    ((hentries "# German\n\ntrue = wahr\nfalse=falsch\n! legacy comment\n" "true = wahr\nfalse=falsch"
      (by decide +kernel)).1 _).2 hfile
  have hbad : parse "true = wahr\nnonsense" = .error (.malformed 2) := by
    refine (herror _ _).2 ⟨[(1, "true = wahr".toList)], 2, "nonsense".toList, [], by decide +kernel, ?_, .malformed (by decide)⟩
    intro g hg
    rw [List.mem_singleton.1 hg]
    exact ⟨_, htrue⟩
  have hsets : Load.Sets ⟨"german.txt", .ok "true = wahr\nfalse=falsch".toUTF8.data.toList⟩
      (.after .standard [("true", "wahr"), ("false", "falsch")]) := ⟨_, _, rfl, by rfl, hshort⟩
  refine ⟨_, by decide +kernel, hfile, ?_, hword _ _ hfile, (hresult {} ⟨_, _⟩).2 ⟨_, hsets⟩, ?_, hbad, ?_⟩
  · refine ((hentries "# German\n\ntrue = wahr\nfalse=falsch\n! legacy comment\n" _ ?_).1 _).2 hfile
    exact (hinsert [] "# German".toList "\ntrue = wahr\nfalse=falsch\n! legacy comment\n".toList (Or.inl rfl) (by decide)
      (by decide +kernel)).symm
  · refine (hloads {} _).2 [] _ _ _ rfl hsets ?_
    intro l hl
    rw [List.mem_singleton.1 hl]
    rintro s ⟨bytes, text, hbytes, -⟩
    cases hbytes
  · exact (hentries "true = wahr\nnonsense" _ (by decide +kernel)).2 _ hbad

end KeywordFile

end Reckoner
