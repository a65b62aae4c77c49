/-
Blanks between tokens, and whatever was skipped there, do not change the tokens.

The tokens of a source are written out again with other blanks around them (`relaid`): any blanks, only that two tokens
may touch each other only if they did so in the source (`Spaced`). Comments, unexpected characters and what is never
closed are left out in this.

A token that is written out again is cut off where it was, for what follows it goes on with nothing that followed it in
the source: a blank goes on with nothing, and if the next token follows at once, it did so in the source. This is carried
along the text from its end to its beginning (`lexemes_relaid`), since a token looks two characters ahead and may look
through the token behind it.

Main statement: `lex_relaid`.
-/
import Mathlib.Tactic
import Reckoner.Proofs.Coverage
import Reckoner.Proofs.Places
import Reckoner.Proofs.Relabelling
import Reckoner.Proofs.Spacing

namespace Reckoner

/-! ## Texts with other blanks -/

/-- a text of nothing but spaces, tabs, carriage returns and newlines -/
def Blank (text : String) : Prop :=
  ∀ c ∈ text.toList, c ∈ [' ', '\t', '\r', '\n']

/-- tokens written out, each with the blanks behind it -/
def written (laid : List (Token × String)) : List Char :=
  laid.flatMap fun q => q.1.lexeme.toList ++ q.2.toList

/-- the source that begins with some blanks and goes on with tokens, each with the blanks behind it -/
def relaid (front : String) (laid : List (Token × String)) : String :=
  front ++ String.join (laid.map fun q => q.1.lexeme ++ q.2)

/-- Two tokens that follow each other have a blank between them, unless the second one started where the first one
ended. -/
def Spaced (laid : List (Token × String)) : Prop :=
  laid.IsChain fun q r => q.2 = "" → q.1.span.stop = r.1.span.start

theorem toList_relaid (front : String) (laid : List (Token × String)) :
    (relaid front laid).toList = front.toList ++ written laid := by
  have hjoin : (String.join (laid.map fun q => q.1.lexeme ++ q.2)).toList = written laid := by
    rw [String.toList_join, written, List.flatMap_map]
    simp only [String.toList_append]
  rw [relaid, String.toList_append, hjoin]

theorem blank_iff {text : String} : Blank text ↔ text.toList.all isGap = true := by
  simp only [Blank, List.all_eq_true, isGap_iff, List.mem_cons, List.not_mem_nil, or_false]

instance : DecidablePred Blank :=
  fun _ => decidable_of_iff' _ blank_iff

theorem Blank.isGap {text : String} (h : Blank text) : ∀ c ∈ text.toList, isGap c = true :=
  List.all_eq_true.1 (blank_iff.1 h)

def Lexeme.gap (c : Char) : Lexeme := ⟨.skipped, [c]⟩

theorem lexemes_gaps (s : Spellings) {blanks : List Char} (h : ∀ c ∈ blanks, isGap c = true) (text : List Char) :
    lexemes s (blanks ++ text) = blanks.map Lexeme.gap ++ lexemes s text := by
  induction blanks with
  | nil => rfl
  | cons c blanks ih =>
    rw [List.cons_append, lexemes_gap s (h c List.mem_cons_self), ih fun d hd => h d (List.mem_cons_of_mem c hd)]
    rfl

/-- the tokens of lexemes are not changed by blanks in front, and blanks are read -/
theorem bare_gaps (blanks : List Char) (ls : List Lexeme) :
    (blanks.map Lexeme.gap ++ ls).filterMap Lexeme.bare? = ls.filterMap Lexeme.bare? := by
  have hnone : (blanks.map Lexeme.gap).filterMap Lexeme.bare? = [] := by
    rw [List.filterMap_eq_nil_iff]
    intro l hl
    obtain ⟨c, -, rfl⟩ := List.mem_map.1 hl
    rfl
  rw [List.filterMap_append, hnone, List.nil_append]

theorem isRead_gaps {blanks : List Char} {ls : List Lexeme} (h : ∀ l ∈ ls, l.isRead = true) :
    ∀ l ∈ blanks.map Lexeme.gap ++ ls, l.isRead = true := by
  intro l hl
  rcases List.mem_append.1 hl with hl | hl
  · obtain ⟨c, -, rfl⟩ := List.mem_map.1 hl
    rfl
  · exact h l hl

/-! ## Along the text -/

/-- the blanks and tokens behind a token follow what was behind it in the source -/
theorem follows_written {rest : List Char} {t : Token} {blanks : String} {laid : List (Token × String)}
    (hblanks : Blank blanks) (hspaced : Spaced ((t, blanks) :: laid))
    (hnext : ∀ q ∈ laid.head?, q.1.span.start = t.span.stop → Follows rest (written laid)) :
    Follows rest (blanks.toList ++ written laid) := by
  by_cases hempty : blanks = ""
  · subst hempty
    cases laid with
    | nil => exact follows_of_gapped rest gapped_nil
    | cons q laid =>
      have htouch := (List.isChain_cons_cons.1 hspaced).1 rfl
      exact hnext q rfl htouch.symm
  · apply follows_of_gapped
    cases htext : blanks.toList with
    | nil => exact absurd (String.toList_eq_nil_iff.1 htext) hempty
    | cons c more => exact gapped_cons (hblanks.isGap c (htext ▸ List.mem_cons_self)) _

/-- a token and the blanks behind it, in front of anything that lets the token be -/
theorem lexemes_token {s : Spellings} {c : Char} {cs blanks after : List Char} {kind : Kind} {literal : Option Literal}
    (hpiece : (cut s c cs).piece = .token kind literal) (hblanks : ∀ d ∈ blanks, isGap d = true)
    (hfollows : Follows (cut s c cs).rest (blanks ++ after)) :
    lexemes s (c :: ((cut s c cs).more ++ (blanks ++ after))) =
      ⟨.token kind literal, c :: (cut s c cs).more⟩ :: (blanks.map Lexeme.gap ++ lexemes s after) := by
  rw [lexemes, cut_of_follows hpiece hfollows, ← lexemes_gaps s hblanks]
  simp only [hpiece]

theorem Placed.exists_token? (lines : Array String) {l : Placed} {kind : Kind} {literal : Option Literal}
    (h : l.lexeme.piece = .token kind literal) :
    ∃ t, l.token? lines = some t ∧ t.bare = { kind, literal, lexeme := String.ofList l.lexeme.text } ∧
      t.span = l.span := by
  simp only [token?, h]
  exact ⟨_, rfl, rfl, rfl⟩

theorem Placed.token?_eq_none (lines : Array String) {l : Placed}
    (h : ¬ ∃ kind literal, l.lexeme.piece = .token kind literal) : l.token? lines = none := by
  unfold token?
  split
  · next hpiece => exact absurd ⟨_, _, hpiece⟩ h
  · rfl

/-- **Tokens written out again are cut off where they were.** The tokens are those of a text that starts at the place
`p`; with other blanks, these are again the tokens of what is written, and all of it is read. Where the first token
starts the text, what is written looks like the text from the front. -/
theorem lexemes_relaid (s : Spellings) (lines : Array String) (p : Position) (text : List Char)
    {laid : List (Token × String)} (hlaid : laid.map Prod.fst = (placed p (lexemes s text)).filterMap (·.token? lines))
    (hblanks : ∀ q ∈ laid, Blank q.2) (hspaced : Spaced laid) :
    (lexemes s (written laid)).filterMap Lexeme.bare? = laid.map (·.1.bare) ∧
      (∀ l ∈ lexemes s (written laid), l.isRead = true) ∧
      ∀ q ∈ laid.head?, q.1.span.start = p.offset → Follows text (written laid) := by
  -- lexeme by lexeme; one that makes no token is left out
  fun_induction lexemes s text generalizing p laid with
  | case1 =>
    obtain rfl := List.map_eq_nil_iff.1 hlaid
    refine ⟨by simp [written, lexemes], by simp [written, lexemes], fun q hq => by cases hq⟩
  | case2 c cs ih =>
    rw [placed] at hlaid
    by_cases htoken : ∃ kind literal, (cut s c cs).piece = .token kind literal
    · obtain ⟨kind, literal, hpiece⟩ := htoken
      obtain ⟨t, ht, hbare, hspan⟩ :=
        Placed.exists_token? lines (l := ⟨⟨(cut s c cs).piece, c :: (cut s c cs).more⟩, p⟩) hpiece
      rw [List.filterMap_cons_some ht] at hlaid
      obtain ⟨⟨u, blanks⟩, laid, rfl, rfl, hrest⟩ := List.map_eq_cons_iff.1 hlaid
      have hblank : Blank blanks := hblanks _ List.mem_cons_self
      obtain ⟨htokens, hread, hnext⟩ := ih _ hrest (fun q hq => hblanks q (List.mem_cons_of_mem _ hq)) hspaced.tail
      have hstop : u.span.stop = (p.after (c :: (cut s c cs).more)).offset := by
        rw [hspan, Position.offset_after]
        rfl
      have hfollows : Follows (cut s c cs).rest (blanks.toList ++ written laid) :=
        follows_written hblank hspaced fun q hq hstart => hnext q hq (hstart.trans hstop)
      have hlexeme : u.lexeme = String.ofList (c :: (cut s c cs).more) := congrArg (·.lexeme) hbare
      have hwritten : written ((u, blanks) :: laid) = c :: ((cut s c cs).more ++ (blanks.toList ++ written laid)) := by
        simp [written, hlexeme]
      have hfirst : Lexeme.bare? ⟨.token kind literal, c :: (cut s c cs).more⟩ = some u.bare := by
        rw [hbare]
        rfl
      rw [hwritten, lexemes_token hpiece hblank.isGap hfollows]
      refine ⟨?_, ?_, ?_⟩
      · rw [List.filterMap_cons_some hfirst, bare_gaps, htokens]
        rfl
      · intro l hl
        rcases List.mem_cons.1 hl with rfl | hl
        · rfl
        · exact isRead_gaps hread l hl
      · intro q _ _
        have happend := hfollows.append (c :: (cut s c cs).more)
        rwa [List.cons_append, List.cons_append, cut_append] at happend
    · rw [List.filterMap_cons_none (Placed.token?_eq_none lines htoken)] at hlaid
      obtain ⟨htokens, hread, -⟩ := ih _ hlaid hblanks hspaced
      refine ⟨htokens, hread, fun q hq hstart => ?_⟩
      -- the first token stands behind this lexeme
      have hmem : q.1 ∈ laid.map Prod.fst := List.mem_map_of_mem (List.mem_of_mem_head? hq)
      rw [hlaid] at hmem
      obtain ⟨l, hl, hlt⟩ := List.mem_filterMap.1 hmem
      have hle := le_start_of_mem hl
      rw [← (Placed.place_of_token? hlt).2.1, hstart, Position.offset_after, List.length_cons] at hle
      omega

/-! ## Whole sources -/

/-- the tokens of a source are those of its lexemes, and the one that ends the text -/
theorem filter_tokens (s : Spellings) (source : String) :
    (lex s source).tokens.filter (·.kind != .eof) =
      (placed {} (lexemes s source.toList)).filterMap (·.token? (sourceLines source.toList)) := by
  have hkinds : ∀ t ∈ (placed {} (lexemes s source.toList)).filterMap (·.token? (sourceLines source.toList)),
      (t.kind != .eof) = true := by
    intro t ht
    obtain ⟨l, hl, hlt⟩ := List.mem_filterMap.1 ht
    have hne := (Placed.token_of_token? (cutFrom_of_mem s [] source.toList hl) hlt).1.kind_ne
    simpa using hne
  have hend : [endToken (sourceLines source.toList) (Position.after {} source.toList)].filter (·.kind != .eof) = [] := rfl
  simp only [lex, List.filter_append, hend, List.append_nil, List.filter_eq_self.2 hkinds]

/-- diagnostics are alike if the fatal ones among them are of the same kinds in the same order -/
def FatalAlike (ds ds' : List Diagnostic) : Prop :=
  (ds'.filter Diagnostic.isFatal).map (·.kind) = (ds.filter Diagnostic.isFatal).map (·.kind)

/-- **Layout and skipped text do not matter.** The tokens of a source are written out again, with any blanks in front
and behind each of them; only where two tokens touched each other in the source there need not be a blank between them.
Then cutting gives tokens of the same kinds, texts and constants in the same order, then the end of the text, and reports
nothing. Evaluation has the same values; or it ends in an error of the same cause, or with fatal diagnostics of the same
kinds. -/
theorem lex_relaid (c : Config) (source front : String) (laid : List (Token × String))
    (hlaid : laid.map Prod.fst = (lex c.spellings source).tokens.filter (·.kind != .eof)) (hfront : Blank front)
    (hblanks : ∀ q ∈ laid, Blank q.2) (hspaced : Spaced laid) :
    (∃ body eof, (lex c.spellings (relaid front laid)).tokens = body ++ [eof] ∧
      body.map (fun t => (t.kind, t.lexeme, t.literal)) = laid.map (fun q => (q.1.kind, q.1.lexeme, q.1.literal)) ∧
      eof.kind = .eof ∧ eof.lexeme = "" ∧ eof.literal = none) ∧
    (lex c.spellings (relaid front laid)).diagnostics = [] ∧
    Agree FatalAlike (evaluateSource c source).result (evaluateSource c (relaid front laid)).result := by
  rw [filter_tokens] at hlaid
  obtain ⟨htokens, hread, -⟩ := lexemes_relaid c.spellings _ {} source.toList hlaid hblanks hspaced
  have hlexemes : lexemes c.spellings (relaid front laid).toList =
      front.toList.map Lexeme.gap ++ lexemes c.spellings (written laid) := by
    rw [toList_relaid, lexemes_gaps _ hfront.isGap]
  -- the tokens without their places, before the one that ends the text
  have hbare : ((placed {} (lexemes c.spellings (relaid front laid).toList)).filterMap
      (·.token? (sourceLines (relaid front laid).toList))).map Token.bare = (laid.map Prod.fst).map Token.bare := by
    rw [map_bare_placed, hlexemes, bare_gaps, htokens, List.map_map]
    rfl
  have hdiagnostics : (lex c.spellings (relaid front laid)).diagnostics = [] := by
    apply diagnostics_placed
    rw [hlexemes]
    exact isRead_gaps hread
  refine ⟨⟨_, _, rfl, ?_, rfl, rfl, rfl⟩, hdiagnostics, ?_⟩
  · have h := congrArg (List.map fun t => (t.kind, t.lexeme, t.literal)) hbare
    rw [List.map_map, List.map_map, List.map_map] at h
    exact h
  · have hstripped : (lex c.spellings (relaid front laid)).tokens.map Token.stripped =
        (lex c.spellings source).tokens.map Token.stripped := by
      have h := congrArg (List.map Token.stripped) hbare
      rw [List.map_map, List.map_map, hlaid] at h
      simp only [lex, List.map_append]
      exact congrArg (· ++ [Token.stripped (endToken #[] {})]) h
    refine evaluateSource_agree rfl hstripped ?_
    unfold FatalAlike
    rw [fatal_parseSource, fatal_parseSource, kinds_ofTokens c.limit hstripped]

namespace Sample

/-- A source where tokens touch each other, with a comment, a character that is none of the language, and a string that
is never closed. -/
def crowded : String := "1.x/*y*/5@<\"open"

/-- its tokens with blanks between some of them: the first three touched each other, and the point must not touch 5 -/
def airy : List (Token × String) :=
  ((lex .standard crowded).tokens.filter (·.kind != .eof)).zip ["", "", "\r\n", "\t ", ""]

end Sample

/-- with blanks for what was skipped, this source has the same tokens, and nothing is reported -/
theorem lex_relaid_crowded :
    (lex .standard Sample.crowded).diagnostics.map (·.kind) = [.unexpectedCharacter, .unterminatedString] ∧
    relaid " " Sample.airy = " 1.x\r\n5\t <" ∧
    (lex .standard " 1.x\r\n5\t <").diagnostics = [] ∧
    ∃ body eof, (lex .standard " 1.x\r\n5\t <").tokens = body ++ [eof] ∧
      body.map (fun t => (t.kind, t.lexeme, t.literal)) =
        Sample.airy.map (fun q => (q.1.kind, q.1.lexeme, q.1.literal)) := by
  have htext : relaid " " Sample.airy = " 1.x\r\n5\t <" := by decide +kernel
  have htokens : Sample.airy.map Prod.fst = (lex .standard Sample.crowded).tokens.filter (·.kind != .eof) :=
    List.map_fst_zip (by decide +kernel)
  have hblanks : ∀ q ∈ Sample.airy, Blank q.2 := by decide +kernel
  have hspaced : Spaced Sample.airy := by
    unfold Spaced
    decide +kernel
  obtain ⟨⟨body, eof, hbody, hsame, -⟩, hnone, -⟩ :=
    lex_relaid {} Sample.crowded " " Sample.airy htokens (by decide) hblanks hspaced
  rw [htext] at hbody hnone
  exact ⟨by decide +kernel, htext, hnone, body, eof, hbody, hsame⟩

end Reckoner
