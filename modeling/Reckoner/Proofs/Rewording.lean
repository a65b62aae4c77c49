/-
Keywords spelled another way.

A source is written out again with other spellings of its keywords and all else as it stands (`reworded`). Suppose that
each spelling is a word that is read as its keyword (`Spellings.Readable`), and that no other word of the source is
read as a keyword. Then the other spellings find the same pieces in what is written as the standard ones in the source.

A piece is cut off where it was if what stands behind it looks the same from the front (`cut_of_echoes`). What is
reworded does, since it has a word where the source has one, and the same characters elsewhere. This is carried along
the text from its end to its beginning (`lexemes_reworded`).

Keyword files spell keywords as words (`KeywordFile.isWord_of_parse`).

Main statement: `lex_reworded`.
-/
import Mathlib.Tactic
import Reckoner.Proofs.Echoes
import Reckoner.Proofs.Layout
import Reckoner.Proofs.Respelling

namespace Reckoner

/-! ## Words -/

namespace Spellings

/-- Every keyword is spelled as a word, and the word is read as that keyword. -/
structure Readable (s : Spellings) : Prop where
  word : ∀ w, Text.isWord (s.spelling w).toList = true
  lookup : ∀ w, s.lookup (s.spelling w) = some w.kind

/-- what a word is -/
def classify (s : Spellings) (text : String) : Piece :=
  match s.lookup text with
  | some kind => .token kind none
  | none => .token .identifier (some (.text text))

/-- a text with the spelling `s` has for it, if it is the name of a keyword -/
def reword (s : Spellings) (text : String) : String :=
  match Keyword.ofName? text with
  | some w => s.spelling w
  | none => text

theorem standard_lookup (text : String) : standard.lookup text = (Keyword.ofName? text).map Keyword.kind := rfl

theorem isWord_name (w : Keyword) : Text.isWord w.name.toList = true := by
  cases w <;> decide

theorem reword_of_not_word (s : Spellings) {text : String} (h : Text.isWord text.toList = false) :
    s.reword text = text := by
  have hnone : Keyword.ofName? text = none := by
    rw [Option.eq_none_iff_forall_ne_some]
    intro w hw
    rw [← Keyword.name_of_ofName? hw, isWord_name] at h
    cases h
  simp only [reword, hnone]

variable {s : Spellings} (hs : s.Readable) {text : String}
include hs

theorem Readable.isWord_reword (h : Text.isWord text.toList = true) : Text.isWord (s.reword text).toList = true := by
  unfold reword
  split
  · exact hs.word _
  · exact h

/-- a reworded word is what the word was, if it does not become a keyword -/
theorem Readable.classify_reword (h : standard.lookup text = none → s.lookup text = none) :
    s.classify (s.reword text) = standard.classify text := by
  unfold reword classify
  rw [standard_lookup] at h ⊢
  cases hname : Keyword.ofName? text with
  | some w => simp [hs.lookup]
  | none => simp [h (by rw [hname]; rfl)]

end Spellings

namespace KeywordFile

theorem applyLine_isWord {s s' : Spellings} {number : Nat} {line : List Char}
    (hs : ∀ w, Text.isWord (s.spelling w).toList = true) (h : applyLine s number line = .ok s') :
    ∀ w, Text.isWord (s'.spelling w).toList = true := by
  simp only [applyLine] at h
  split at h
  · cases h
    exact hs
  split at h
  · cases h
  next name spelling _ =>
  split at h
  · next hword =>
    split at h
    · next s₁ hs₁ =>
      cases h
      obtain ⟨k, -, rfl⟩ := Option.map_eq_some_iff.1 hs₁
      intro w
      by_cases hw : w = k
      · subst hw
        rwa [Spellings.respell_spelling_self, String.toList_ofList]
      · rw [Spellings.respell_spelling_of_ne _ _ hw]
        exact hs w
    · cases h
  · cases h

theorem applyLines_isWord {s s' : Spellings} {number : Nat} {lines : List (List Char)}
    (hs : ∀ w, Text.isWord (s.spelling w).toList = true) (h : applyLines s number lines = .ok s') :
    ∀ w, Text.isWord (s'.spelling w).toList = true := by
  induction lines generalizing s number with
  | nil =>
    cases h
    exact hs
  | cons line lines ih =>
    unfold applyLines at h
    split at h
    · next s₁ hline => exact ih (applyLine_isWord hs hline) h
    · cases h

/-- **What keyword files spell are words** to the rest of the language too. -/
theorem isWord_of_parse {text : String} {s : Spellings} (h : parse text = .ok s) :
    ∀ w, Text.isWord (s.spelling w).toList = true :=
  applyLines_isWord Spellings.isWord_name h

end KeywordFile

theorem cut_word {c : Char} (h : Text.startsWord c = true) (s : Spellings) (cs : List Char) :
    cut s c cs = cutWord s c cs := by
  have hne := ne_of_startsWord h
  simp only [List.mem_cons, List.not_mem_nil, or_false, forall_eq_or_imp, forall_eq] at hne
  simp [cut, isGap, isDigit_of_startsWord h, h, hne]

/-- spellings matter to words alone -/
theorem cut_of_not_word {c : Char} (h : Text.startsWord c = false) (s s' : Spellings) (cs : List Char) :
    cut s c cs = cut s' c cs := by
  simp [cut, h]

/-- a word is what it is classified as, up to where no more of a word follows -/
theorem lexemes_word (s : Spellings) {word after : List Char} (hword : Text.isWord word = true)
    (hafter : goesOnWord after = false) :
    lexemes s (word ++ after) = ⟨s.classify (String.ofList word), word⟩ :: lexemes s after := by
  obtain ⟨c, more, rfl, hc, hmore⟩ := isWord_iff.1 hword
  have hstop := head?_of_goesOnWord hafter
  have hcut : cut s c (more ++ after) = ⟨s.classify (String.ofList (c :: more)), more, after⟩ := by
    rw [cut_word hc, cutWord, takeWhile_run hmore hstop, dropWhile_run hmore hstop]
    rfl
  rw [List.cons_append, lexemes, hcut]

/-! ## Whole texts -/

namespace Lexeme

/-- the characters of a lexeme, with the spelling `s` has for it if it is a keyword -/
def reworded (s : Spellings) (l : Lexeme) : List Char :=
  match l.piece with
  | .token .. => (s.reword (String.ofList l.text)).toList
  | _ => l.text

theorem reworded_word (s s' : Spellings) (word : List Char) :
    reworded s ⟨s'.classify (String.ofList word), word⟩ = (s.reword (String.ofList word)).toList := by
  unfold Spellings.classify
  split
  all_goals rfl

theorem reworded_of_not_word (s : Spellings) {l : Lexeme} (h : Text.isWord l.text = false) : l.reworded s = l.text := by
  unfold reworded
  split
  · rw [s.reword_of_not_word (by rwa [String.toList_ofList]), String.toList_ofList]
  · rfl

/-- a word that is no keyword is not read as one with other spellings either -/
def Untaken (s : Spellings) (l : Lexeme) : Prop :=
  ∀ literal, l.piece = .token .identifier literal → s.lookup (String.ofList l.text) = none

theorem Untaken.lookup {s : Spellings} {word : List Char}
    (h : Untaken s ⟨Spellings.standard.classify (String.ofList word), word⟩)
    (hnone : Spellings.standard.lookup (String.ofList word) = none) : s.lookup (String.ofList word) = none := by
  refine h (some (.text (String.ofList word))) ?_
  simp only [Spellings.classify, hnone]

end Lexeme

/-- the lexemes of a text, reworded and joined -/
def rewordedText (s : Spellings) (text : List Char) : List Char :=
  (lexemes .standard text).flatMap (Lexeme.reworded s)

theorem rewordedText_cons (s : Spellings) (c : Char) (cs : List Char) :
    rewordedText s (c :: cs) =
      ((cut .standard c cs).lexeme c).reworded s ++ rewordedText s (cut .standard c cs).rest := by
  rw [rewordedText, lexemes]
  rfl

section
variable {s : Spellings} (hs : s.Readable)
include hs

/-- **One lexeme.** In front of a text that looks like what was behind it, it is the same piece when reworded. -/
theorem lexemes_reworded_cons {c : Char} {cs after : List Char} (huntaken : ((cut .standard c cs).lexeme c).Untaken s)
    (hechoes : Echoes (cut .standard c cs).rest after) :
    lexemes s (((cut .standard c cs).lexeme c).reworded s ++ after) =
        ⟨(cut .standard c cs).piece, ((cut .standard c cs).lexeme c).reworded s⟩ :: lexemes s after ∧
      Echoes (c :: cs) (((cut .standard c cs).lexeme c).reworded s ++ after) := by
  cases hc : Text.startsWord c with
  | false =>
    have htext : ((cut .standard c cs).lexeme c).reworded s = c :: (cut .standard c cs).more := by
      apply Lexeme.reworded_of_not_word
      simp [Cut.lexeme, Text.isWord, hc]
    rw [htext]
    constructor
    · rw [List.cons_append, lexemes, cut_of_not_word hc s .standard, cut_of_echoes hechoes]
    · have happend := hechoes.append (c :: (cut .standard c cs).more)
      rwa [List.cons_append, cut_append] at happend
  | true =>
    rw [cut_word hc] at huntaken hechoes ⊢
    have hword : Text.isWord (c :: (cutWord .standard c cs).more) = true :=
      isWord_iff.2 ⟨c, _, rfl, hc, fun d => List.mem_takeWhile_imp⟩
    have hstop : goesOnWord after = false := hechoes.word (goesOnWord_dropWhile cs)
    have hclassify : s.classify (s.reword (String.ofList (c :: (cutWord .standard c cs).more))) =
        (cutWord .standard c cs).piece :=
      hs.classify_reword huntaken.lookup
    have htext : ((cutWord .standard c cs).lexeme c).reworded s =
        (s.reword (String.ofList (c :: (cutWord .standard c cs).more))).toList :=
      Lexeme.reworded_word s .standard _
    have hword' : Text.isWord (((cutWord .standard c cs).lexeme c).reworded s) = true := by
      rw [htext]
      apply hs.isWord_reword
      rwa [String.toList_ofList]
    constructor
    · rw [lexemes_word s hword' hstop, ← hclassify, htext, String.ofList_toList]
    · obtain ⟨d, more, hd, hstarts, -⟩ := isWord_iff.1 hword'
      rw [hd]
      exact .words hc hstarts _ _

/-- **Reworded, a text has the same pieces,** and looks the same from the front. -/
theorem lexemes_reworded (text : List Char) (h : ∀ l ∈ lexemes .standard text, l.Untaken s) :
    lexemes s (rewordedText s text) = (lexemes .standard text).map (fun l => ⟨l.piece, l.reworded s⟩) ∧
      Echoes text (rewordedText s text) := by
  fun_induction lexemes .standard text with
  | case1 => exact ⟨by simp [rewordedText, lexemes], by simpa [rewordedText, lexemes] using Echoes.nil⟩
  | case2 c cs ih =>
    obtain ⟨hrest, hechoes⟩ := ih fun l hl => h l (List.mem_cons_of_mem _ hl)
    obtain ⟨hfirst, hfront⟩ := lexemes_reworded_cons hs (h _ List.mem_cons_self) hechoes
    rw [rewordedText_cons, hfirst, hrest]
    exact ⟨rfl, hfront⟩

end

/-! ## Whole sources -/

/-- The text from an offset on, where these are its tokens: each is written with the spelling `s` has for it, and what
stands between them as it is. -/
def rewordedFrom (s : Spellings) (text : List Char) : Nat → List Token → List Char
  | i, [] => text.drop i
  | i, t :: ts =>
    Span.slice text ⟨i, t.span.start⟩ ++ ((s.reword t.lexeme).toList ++ rewordedFrom s text t.span.stop ts)

/-- a source with its keywords spelled as `s` spells them, and all other characters unchanged -/
def reworded (s : Spellings) (source : String) : String :=
  String.ofList (rewordedFrom s source.toList 0 ((lex .standard source).tokens.filter (·.kind != .eof)))

/-- characters in front of the first token stand as they are -/
theorem rewordedFrom_skip (s : Spellings) (text : List Char) {i n : Nat} {ts : List Token}
    (h : ∀ t ∈ ts.head?, i + n ≤ t.span.start) :
    rewordedFrom s text i ts = (text.drop i).take n ++ rewordedFrom s text (i + n) ts := by
  cases ts with
  | nil => rw [rewordedFrom, rewordedFrom, ← List.drop_drop, List.take_append_drop]
  | cons t ts =>
    have hlength : t.span.start - i = n + (t.span.start - (i + n)) := by
      have hstart := h t rfl
      omega
    simp only [rewordedFrom, Span.slice]
    rw [hlength, List.take_add, List.drop_drop, List.append_assoc]

theorem rewordedFrom_placed (s : Spellings) (lines : Array String) {text : List Char} {p : Position} {ls : List Lexeme}
    (h : text.drop p.offset = (ls.map Lexeme.text).flatten) :
    rewordedFrom s text p.offset ((placed p ls).filterMap (·.token? lines)) = ls.flatMap (Lexeme.reworded s) := by
  induction ls generalizing p with
  | nil => exact h
  | cons l ls ih =>
    have hoffset : (p.after l.text).offset = p.offset + l.text.length := p.offset_after l.text
    have hrest : text.drop (p.after l.text).offset = (ls.map Lexeme.text).flatten := by
      rw [hoffset, ← List.drop_drop, h]
      simp
    have hfirst : (text.drop p.offset).take l.text.length = l.text := by
      rw [h]
      simp
    rw [placed, List.flatMap_cons, ← ih hrest]
    by_cases htoken : ∃ kind literal, l.piece = .token kind literal
    · obtain ⟨kind, literal, hpiece⟩ := htoken
      obtain ⟨t, ht, hbare, hspan⟩ := Placed.exists_token? lines (l := ⟨l, p⟩) hpiece
      have hlexeme : t.lexeme = String.ofList l.text := congrArg (·.lexeme) hbare
      have hreworded : l.reworded s = (s.reword t.lexeme).toList := by
        simp only [Lexeme.reworded, hpiece, hlexeme]
      rw [List.filterMap_cons_some ht, rewordedFrom, hreworded, hspan, hoffset]
      simp [Placed.span, Span.slice]
    · have hreworded : l.reworded s = l.text := by
        unfold Lexeme.reworded
        split
        · next hpiece => exact absurd ⟨_, _, hpiece⟩ htoken
        · rfl
      have hnone : Placed.token? lines ⟨l, p⟩ = none := Placed.token?_eq_none lines htoken
      rw [List.filterMap_cons_none hnone, rewordedFrom_skip (n := l.text.length), hfirst, hreworded, hoffset]
      intro t ht
      obtain ⟨m, hm, hmt⟩ := List.mem_filterMap.1 (List.mem_of_mem_head? ht)
      have hle := le_start_of_mem hm
      rwa [hoffset, ← (Placed.place_of_token? hmt).2.1] at hle

theorem toList_reworded (s : Spellings) (source : String) :
    (reworded s source).toList = rewordedText s source.toList := by
  rw [reworded, String.toList_ofList, filter_tokens]
  exact rewordedFrom_placed s _ (p := {}) (flatten_lexemes .standard source.toList).symm

/-- the kind of what is reported of a piece -/
def Piece.fault? : Piece → Option Diagnostic.Kind
  | .stray => some .unexpectedCharacter
  | .openString => some .unterminatedString
  | .openComment => some .unterminatedBlockComment
  | .token .. | .skipped => none

/-- the kinds of what is reported, in order, are those of the pieces -/
theorem kinds_placed (lines : Array String) (p : Position) (ls : List Lexeme) :
    ((placed p ls).filterMap (·.diagnostic? lines)).map (·.kind) = (ls.map Lexeme.piece).filterMap Piece.fault? := by
  induction ls generalizing p with
  | nil => rfl
  | cons l ls ih =>
    rw [placed, List.filterMap_cons, List.map_cons, List.filterMap_cons, ← ih (p.after l.text)]
    obtain ⟨piece, text⟩ := l
    cases piece <;> rfl

theorem bare?_reworded (s : Spellings) (l : Lexeme) :
    Lexeme.bare? ⟨l.piece, l.reworded s⟩ = l.bare?.map fun t => { t with lexeme := s.reword t.lexeme } := by
  obtain ⟨piece, text⟩ := l
  cases piece <;> simp [Lexeme.bare?, Lexeme.reworded]

/-- the words of a source that are no keywords are not read as any by `s`, if its identifiers are not -/
theorem untaken_of_tokens {s : Spellings} {source : String}
    (h : ∀ t ∈ (lex .standard source).tokens, t.kind = .identifier → s.lookup t.lexeme = none) :
    ∀ l ∈ lexemes .standard source.toList, l.Untaken s := by
  intro l hl literal hpiece
  have hmem : { kind := .identifier, literal, lexeme := String.ofList l.text } ∈
      (lexemes .standard source.toList).filterMap Lexeme.bare? :=
    List.mem_filterMap.2 ⟨l, hl, by simp only [Lexeme.bare?, hpiece]⟩
  rw [← map_bare_placed (sourceLines source.toList) {}] at hmem
  obtain ⟨t, ht, hbare⟩ := List.mem_map.1 hmem
  obtain ⟨hkind, hlexeme, -⟩ := Token.mk.inj hbare
  rw [← hlexeme]
  exact h t (List.mem_append_left _ ht) hkind

/-- diagnostics are alike if they are of the same kinds in the same order -/
def KindsAlike (ds ds' : List Diagnostic) : Prop :=
  ds'.map (·.kind) = ds.map (·.kind)

/-- **Keywords spelled another way do not change the language.** Let `s` spell each keyword as a word and read that word
as the keyword. In a source where no word that is no keyword is one for `s`, each keyword is written as `s` spells it.
With `s` this has tokens of the same kinds and constants as the source has with the standard spellings, in the same
order, and of the same texts but for the keywords; and diagnostics of the same kinds. At every limit, evaluation has the
same values; or it ends in an error of the same cause, or with diagnostics of the same kinds. -/
theorem lex_reworded (s : Spellings) (hs : s.Readable) (source : String)
    (huntaken : ∀ t ∈ (lex .standard source).tokens, t.kind = .identifier → s.lookup t.lexeme = none) :
    (lex s (reworded s source)).tokens.map (fun t => (t.kind, t.literal, t.lexeme)) =
      (lex .standard source).tokens.map (fun t => (t.kind, t.literal, s.reword t.lexeme)) ∧
    (lex s (reworded s source)).diagnostics.map (·.kind) = (lex .standard source).diagnostics.map (·.kind) ∧
    ∀ limit, Agree KindsAlike (evaluateSource { limit, spellings := .standard } source).result
      (evaluateSource { limit, spellings := s } (reworded s source)).result := by
  obtain ⟨hlexemes, -⟩ := lexemes_reworded hs source.toList (untaken_of_tokens huntaken)
  rw [← toList_reworded] at hlexemes
  have hkinds : (lex s (reworded s source)).diagnostics.map (·.kind) =
      (lex .standard source).diagnostics.map (·.kind) := by
    simp only [lex, kinds_placed, hlexemes, List.map_map]
    rfl
  have hbare : ((placed {} (lexemes s (reworded s source).toList)).filterMap
        (·.token? (sourceLines (reworded s source).toList))).map Token.bare =
      (((placed {} (lexemes .standard source.toList)).filterMap
        (·.token? (sourceLines source.toList))).map Token.bare).map fun t => { t with lexeme := s.reword t.lexeme } := by
    rw [map_bare_placed, map_bare_placed, hlexemes, List.filterMap_map, List.map_filterMap]
    exact congrArg (List.filterMap · _) (funext (bare?_reworded s))
  have htokens : (lex s (reworded s source)).tokens.map (fun t => (t.kind, t.literal, t.lexeme)) =
      (lex .standard source).tokens.map (fun t => (t.kind, t.literal, s.reword t.lexeme)) := by
    have hend : s.reword "" = "" := s.reword_of_not_word rfl
    have h := congrArg (List.map fun t : Token => (t.kind, t.literal, t.lexeme)) hbare
    rw [List.map_map, List.map_map, List.map_map] at h
    simp only [lex, List.map_append, List.map_cons, List.map_nil, endToken, hend]
    exact congrArg (· ++ _) h
  refine ⟨htokens, hkinds, fun limit => ?_⟩
  have hstripped : (lex s (reworded s source)).tokens.map Token.stripped =
      (lex .standard source).tokens.map Token.stripped := by
    have h := congrArg (List.map fun q : Kind × Option Literal × String =>
      ({ kind := q.1, lexeme := "", literal := q.2.1 } : Token)) htokens
    rw [List.map_map, List.map_map] at h
    exact h
  refine evaluateSource_agree rfl hstripped ?_
  unfold KindsAlike
  simp only [parseSource, List.map_append, hkinds]
  exact congrArg (_ ++ ·) (kinds_ofTokens limit hstripped)

namespace Sample

/-- a keyword file, with one spelling that is longer than the standard one -/
def keywordFile : String := "true = wahr\nb_and = b_und\n"

/-- a source where keywords touch a number and a comment, and stand in a comment and a string where they are none -/
def wordy : String := "6b_and/*true*/3 == 2@\n;true;\"true\""

end Sample

/-- with the spellings of this file, the reworded source has the same tokens and diagnostics -/
theorem lex_reworded_of_file :
    ∃ s, KeywordFile.parse Sample.keywordFile = .ok s ∧
      reworded s Sample.wordy = "6b_und/*true*/3 == 2@\n;wahr;\"true\"" ∧
      (lex s "6b_und/*true*/3 == 2@\n;wahr;\"true\"").tokens.map (fun t => (t.kind, t.literal, t.lexeme)) =
        (lex .standard Sample.wordy).tokens.map (fun t => (t.kind, t.literal, s.reword t.lexeme)) ∧
      (lex s "6b_und/*true*/3 == 2@\n;wahr;\"true\"").diagnostics.map (·.kind) = [.unexpectedCharacter] := by
  have haccepted : (KeywordFile.parse Sample.keywordFile).toOption.isSome = true := by decide +kernel
  cases hparse : KeywordFile.parse Sample.keywordFile with
  | error e =>
    rw [hparse] at haccepted
    cases haccepted
  | ok s =>
    have hentries : KeywordFile.entries Sample.keywordFile = [("true", "wahr"), ("b_and", "b_und")] := by decide +kernel
    have hs : s = Spellings.standard.after [("true", "wahr"), ("b_and", "b_und")] :=
      hentries ▸ KeywordFile.after_entries_of_parse hparse
    have htext : reworded s Sample.wordy = "6b_und/*true*/3 == 2@\n;wahr;\"true\"" := by
      rw [hs]
      decide +kernel
    have hlookup : ∀ w, s.lookup (s.spelling w) = some w.kind := by
      rw [hs]
      intro w
      cases w <;> decide +kernel
    have huntaken : ∀ t ∈ (lex .standard Sample.wordy).tokens, t.kind = .identifier → s.lookup t.lexeme = none := by
      rw [hs]
      decide +kernel
    obtain ⟨htokens, hkinds, -⟩ :=
      lex_reworded s ⟨KeywordFile.isWord_of_parse hparse, hlookup⟩ Sample.wordy huntaken
    rw [htext] at htokens hkinds
    refine ⟨s, rfl, htext, htokens, hkinds.trans ?_⟩
    decide +kernel

end Reckoner
