/-
Every character of a source is accounted for once.

Lexemes are laid out one after the other, so their spans follow one another (`placed_ordered`) and hold each
character once (`countP_placed`). Each lexeme makes a token, a blank, a comment or a diagnostic, and that covers the
characters of the lexeme and no others (`count_roles`). So, over the whole text that `scan_tokens` is given:
- the tokens stand in order, with the characters and the constants they should have, and one end-of-text token after
  them;
- the diagnostics stand in order, and none is fatal. A character is reported as unexpected only if it begins nothing
  and is in no comment; a string or comment is reported only if it has no end, and then it is the last thing found;
- the comments are those that stand free, all of them (`mem_comments_iff`): what begins a comment, and is in no token, in
  no other comment and not behind what is never closed;
- a character is in one token, in one blank, in one comment, reported as unexpected once, or behind the start of the
  string or comment that is never closed; and only one of these.

Main statement: `lex_covers_once`.
-/
import Mathlib.Tactic
import Reckoner.Proofs.Cutting

namespace Reckoner

/-! ## What covers a character -/

def Span.holds (sp : Span) (i : Nat) : Bool :=
  sp.start ≤ i && i < sp.stop

theorem Span.holds_iff {sp : Span} {i : Nat} : sp.holds i = true ↔ sp.start ≤ i ∧ i < sp.stop := by
  simp [Span.holds]

/-- the characters of a text in a span -/
def Span.slice (text : List Char) (sp : Span) : List Char :=
  (text.drop sp.start).take (sp.stop - sp.start)

def Span.Blank (text : List Char) (sp : Span) : Prop :=
  sp.stop ≤ text.length ∧ ∃ c, sp.slice text = [c] ∧ c ∈ [' ', '\t', '\r', '\n']

/-- a span of one comment: a block comment, or a comment up to the end of its line -/
def Span.Comment (text : List Char) (sp : Span) : Prop :=
  sp.stop ≤ text.length ∧
    (BlockComment (sp.slice text) ∨ LineComment (sp.slice text) ∧ ∀ c ∈ text[sp.stop]?, c = '\n')

namespace Diagnostic

/-- whether a diagnostic reports the one character at an offset as unexpected -/
def strikes (d : Diagnostic) (i : Nat) : Bool :=
  d.kind == .unexpectedCharacter && d.span == some ⟨i, i + 1⟩

/-- whether a diagnostic reports a string or a comment that is never closed -/
def isUnterminated (d : Diagnostic) : Bool :=
  d.kind == .unterminatedString || d.kind == .unterminatedBlockComment

/-- a diagnostic has a span, which starts at an offset -/
def startsAt (d : Diagnostic) (i : Nat) : Prop :=
  ∃ sp, d.span = some sp ∧ sp.start = i

/-- whether a string or comment that is never closed starts at an offset or before it -/
def swallows (d : Diagnostic) (i : Nat) : Bool :=
  d.isUnterminated && d.span.any (·.start ≤ i)

/-- What a diagnostic reports at an offset has no end: no quote closes the string that begins there, or no comment that
begins there is closed. -/
inductive Unclosed (text : List Char) (d : Diagnostic) (i : Nat) : Prop where
  | string {body : List Char} (hkind : d.kind = .unterminatedString) (htext : text.drop i = '"' :: body)
      (hnone : ¬ ∃ j, ClosesAt body j)
  | comment {inner : List Char} (hkind : d.kind = .unterminatedBlockComment)
      (htext : text.drop i = '/' :: '*' :: inner) (hnone : ¬ ∃ sp : Span, sp.start = i ∧ sp.Comment text)

section
variable {d : Diagnostic} {i j : Nat}

theorem isUnterminated_of_strikes (h : d.strikes i = true) : d.isUnterminated = false := by
  simp only [strikes, Bool.and_eq_true, beq_iff_eq] at h
  simp [isUnterminated, h.1]

theorem startsAt_of_strikes (h : d.strikes i = true) : d.startsAt i := by
  simp only [strikes, Bool.and_eq_true, beq_iff_eq] at h
  exact ⟨_, h.2, rfl⟩

theorem startsAt.unique (h : d.startsAt i) (h' : d.startsAt j) : i = j := by
  obtain ⟨sp, hsp, rfl⟩ := h
  obtain ⟨sp', hsp', rfl⟩ := h'
  rw [Option.some.inj (hsp.symm.trans hsp')]

theorem Unclosed.isUnterminated {text : List Char} (h : d.Unclosed text i) : d.isUnterminated = true := by
  cases h with
  | string hkind | comment hkind => simp [Diagnostic.isUnterminated, hkind]

end

end Diagnostic

/-- A token cut from a text: its span is not empty and inside the text, its lexeme is the characters there, and its
constant fits its kind. No blank and no comment is where it begins. -/
structure Token.CutFrom (text : List Char) (t : Token) : Prop where
  kind_ne : t.kind ≠ .eof
  start_lt_stop : t.span.start < t.span.stop
  stop_le : t.span.stop ≤ text.length
  lexeme_eq : t.lexeme = String.ofList (t.span.slice text)
  fits : Fits t.lexeme t.kind t.literal
  begins : Unskipped (text.drop t.span.start)

/-- No token and no other comment holds the character at an offset, nor does what is never closed. -/
structure StandsFree (tokens : List Token) (comments : List Span) (ds : List Diagnostic) (i : Nat) : Prop where
  token : ∀ t ∈ tokens, t.span.holds i = false
  comment : ∀ sp ∈ comments, sp.start < i → sp.holds i = false
  unclosed : ∀ d ∈ ds, d.swallows i = false

/-- how many tokens, blanks, comments and diagnostics cover the character at an offset -/
def timesCovered (tokens : List Token) (blanks comments : List Span) (ds : List Diagnostic) (i : Nat) : Nat :=
  tokens.countP (·.span.holds i) + blanks.countP (·.holds i) + comments.countP (·.holds i) +
    ds.countP (·.strikes i) + ds.countP (·.swallows i)

/-! ## Blanks and comments -/

theorem Span.Blank.getElem? {text : List Char} {sp : Span} {i : Nat} (h : sp.Blank text) (hi : sp.holds i = true) :
    ∃ c, text[i]? = some c ∧ c ∈ [' ', '\t', '\r', '\n'] := by
  obtain ⟨hstop, c, hslice, hc⟩ := h
  obtain ⟨hstart, hlt⟩ := holds_iff.1 hi
  have hlength := congrArg List.length hslice
  simp only [slice, List.length_take, List.length_drop, List.length_singleton] at hlength
  obtain rfl : i = sp.start := by omega
  have hget := congrArg (·[0]?) hslice
  simp only [slice, List.getElem?_take_of_lt (Nat.sub_pos_of_lt hlt), List.getElem?_drop, Nat.add_zero] at hget
  exact ⟨c, hget, hc⟩

/-- a comment up to the end of its line is what stands before the newline -/
theorem LineComment.takeWhile_eq {comment rest : List Char} (h : LineComment comment)
    (hend : ∀ c ∈ rest.head?, c = '\n') : (comment ++ rest).takeWhile (· != '\n') = comment := by
  obtain ⟨body, rfl, hbody⟩ := h
  have hline : ∀ c ∈ '/' :: '/' :: body, (c != '\n') = true := by
    intro c hc
    rw [bne_iff_ne]
    rintro rfl
    simp only [List.mem_cons] at hc
    rcases hc with hc | hc | hc
    · cases hc
    · cases hc
    · exact hbody hc
  have hrest : rest.takeWhile (· != '\n') = [] := by
    cases rest with
    | nil => rfl
    | cons c rest => rw [hend c rfl]; rfl
  rw [List.takeWhile_append_of_pos hline, hrest, List.append_nil]

namespace Span.Comment

variable {text : List Char} {sp : Span}

theorem slice_opens (h : sp.Comment text) :
    ∃ c more, sp.slice text = '/' :: c :: more ∧ (c = '/' ∨ c = '*') := by
  obtain ⟨-, ⟨tail, hslice, -⟩ | ⟨⟨body, hslice, -⟩, -⟩⟩ := h
  · exact ⟨_, _, hslice, Or.inr rfl⟩
  · exact ⟨_, _, hslice, Or.inl rfl⟩

theorem start_lt_stop (h : sp.Comment text) : sp.start < sp.stop := by
  obtain ⟨c, more, hslice, -⟩ := h.slice_opens
  by_contra hle
  rw [slice, Nat.sub_eq_zero_of_le (Nat.le_of_not_lt hle), List.take_zero] at hslice
  cases hslice

theorem length_slice (h : sp.Comment text) : (sp.slice text).length = sp.stop - sp.start := by
  have hstop := h.1
  rw [slice, List.length_take, List.length_drop]
  omega

/-- a comment is in front of the text at its start -/
theorem append_eq (h : sp.Comment text) : sp.slice text ++ text.drop sp.stop = text.drop sp.start := by
  have hdrop : text.drop sp.stop = (text.drop sp.start).drop (sp.stop - sp.start) := by
    rw [List.drop_drop, Nat.add_sub_cancel' h.start_lt_stop.le]
  rw [hdrop, slice, List.take_append_drop]

theorem getElem?_start (h : sp.Comment text) : text[sp.start]? = some '/' := by
  obtain ⟨c, more, hslice, -⟩ := h.slice_opens
  have happ := h.append_eq
  rw [hslice] at happ
  have hget := congrArg (·[0]?) happ
  simpa using hget.symm

/-- **At most one comment begins at a place.** -/
theorem eq_of_start {sp' : Span} (h : sp.Comment text) (h' : sp'.Comment text) (hstart : sp.start = sp'.start) :
    sp = sp' := by
  have happ := h.append_eq
  have happ' := h'.append_eq
  rw [← hstart] at happ'
  have hslice : sp.slice text = sp'.slice text := by
    obtain ⟨-, ⟨tail, htail, hcomment⟩ | ⟨hline, hend⟩⟩ := h
    · obtain ⟨-, ⟨tail', htail', hcomment'⟩ | ⟨⟨body', hbody', -⟩, -⟩⟩ := h'
      · rw [htail] at happ ⊢
        rw [← happ, List.cons_append, List.cons_append] at happ'
        exact blockComment_unique ⟨⟨tail', htail', hcomment'⟩, happ'⟩ ⟨⟨tail, rfl, hcomment⟩, rfl⟩
      · rw [← happ', htail, hbody'] at happ
        simp at happ
    · obtain ⟨-, ⟨tail', htail', -⟩ | ⟨hline', hend'⟩⟩ := h'
      · obtain ⟨body, hbody, -⟩ := hline
        rw [← happ', htail', hbody] at happ
        simp at happ
      · rw [← List.head?_drop] at hend hend'
        rw [← hline.takeWhile_eq hend, ← hline'.takeWhile_eq hend', happ, happ']
  have hlength := congrArg List.length hslice
  rw [h.length_slice, h'.length_slice] at hlength
  have hlt := h.start_lt_stop
  have hlt' := h'.start_lt_stop
  obtain ⟨start, stop⟩ := sp
  obtain ⟨start', stop'⟩ := sp'
  simp only at hstart hlength hlt hlt'
  rw [Span.mk.injEq]
  omega

end Span.Comment

/-! ## Places of lexemes -/

theorem le_start_of_mem {p : Position} {ls : List Lexeme} {l : Placed} (h : l ∈ placed p ls) :
    p.offset ≤ l.start.offset := by
  induction ls generalizing p with
  | nil => cases h
  | cons first rest ih =>
    rcases List.mem_cons.1 h with rfl | h
    · exact le_refl _
    · have h1 := ih h
      rw [Position.offset_after] at h1
      omega

/-- each lexeme starts behind those before it -/
theorem placed_ordered (p : Position) (ls : List Lexeme) :
    (placed p ls).Pairwise (fun a b => a.span.stop ≤ b.span.start) := by
  induction ls generalizing p with
  | nil => exact .nil
  | cons first rest ih =>
    refine List.pairwise_cons.2 ⟨fun b hb => ?_, ih _⟩
    have h1 := le_start_of_mem hb
    rw [Position.offset_after] at h1
    exact h1

/-- the lexemes from a place on hold each character behind that place once, as far as they reach -/
theorem countP_placed (p : Position) (ls : List Lexeme) (i : Nat) :
    (placed p ls).countP (·.span.holds i) =
      if p.offset ≤ i ∧ i < p.offset + ((ls.map Lexeme.text).flatten).length then 1 else 0 := by
  induction ls generalizing p with
  | nil => simp [placed]
  | cons first rest ih =>
    rw [placed, List.countP_cons, ih, Position.offset_after]
    simp only [Span.holds_iff, Placed.span, List.map_cons, List.flatten_cons, List.length_append]
    split_ifs <;> omega

namespace Placed

section
variable {text : List Char} {l : Placed}

theorem CutFrom.start_lt_stop (h : l.CutFrom text) : l.span.start < l.span.stop := by
  obtain ⟨before, after, rfl, hstart, hne, -⟩ := h
  have h1 := List.length_pos_iff.2 hne
  simp only [span]
  omega

theorem CutFrom.stop_le (h : l.CutFrom text) : l.span.stop ≤ text.length := by
  obtain ⟨before, after, rfl, hstart, -, -⟩ := h
  simp only [span, hstart, Position.offset_after, List.length_append]
  omega

theorem CutFrom.slice_eq (h : l.CutFrom text) : l.span.slice text = l.lexeme.text := by
  obtain ⟨before, after, rfl, hstart, -, -⟩ := h
  simp [Span.slice, span, hstart, Position.offset_after]

/-- a lexeme is in front of the text at its start, and what it says there -/
theorem CutFrom.drop_eq (h : l.CutFrom text) :
    ∃ after, text.drop l.span.start = l.lexeme.text ++ after ∧ l.lexeme.Correct after := by
  obtain ⟨before, after, rfl, hstart, -, hcorrect⟩ := h
  exact ⟨after, by simp [span, hstart, Position.offset_after], hcorrect⟩

/-! ## What a lexeme makes -/

/-- the blank that a lexeme is: what is skipped and has one character -/
def blank? (l : Placed) : Option Span :=
  match l.lexeme with
  | ⟨.skipped, [_]⟩ => some l.span
  | _ => none

/-- the comment that a lexeme is: what is skipped and has more characters than one -/
def comment? (l : Placed) : Option Span :=
  match l.lexeme with
  | ⟨.skipped, _ :: _ :: _⟩ => some l.span
  | _ => none

/-- whether a lexeme is a string or comment that is never closed -/
def isOpen (l : Placed) : Bool :=
  l.lexeme.piece == .openString || l.lexeme.piece == .openComment

theorem CutFrom.stop_of_open (h : l.CutFrom text) (ho : l.isOpen = true) : l.span.stop = text.length := by
  obtain ⟨before, after, rfl, hstart, -, hcorrect⟩ := h
  obtain ⟨⟨piece, chars⟩, start⟩ := l
  simp only at hstart hcorrect
  -- only the pieces without an end are open, and nothing is behind those
  have hafter : after = [] := by
    cases hcorrect with
    | openString => rfl
    | openComment => rfl
    | _ => cases ho
  simp [span, hstart, Position.offset_after, hafter]

/-- what is skipped is a blank or a comment -/
theorem CutFrom.skipped (h : l.CutFrom text) (hp : l.lexeme.piece = .skipped) :
    l.blank? = some l.span ∧ l.comment? = none ∧ l.span.Blank text ∨
    l.blank? = none ∧ l.comment? = some l.span ∧ l.span.Comment text := by
  have hstop := h.stop_le
  have hslice := h.slice_eq
  obtain ⟨before, after, rfl, hstart, -, hcorrect⟩ := h
  obtain ⟨⟨piece, chars⟩, start⟩ := l
  simp only at hp hstart hslice hcorrect
  cases hcorrect with
  | @blank c _ hgap =>
    refine Or.inl ⟨rfl, rfl, hstop, c, hslice, ?_⟩
    exact isGap_iff_mem.1 hgap
  | lineComment hline hafter =>
    refine Or.inr ⟨?_, ?_, hstop, Or.inr ⟨by rwa [hslice], ?_⟩⟩
    · obtain ⟨body, rfl, -⟩ := hline
      rfl
    · obtain ⟨body, rfl, -⟩ := hline
      rfl
    · have hnext : (before ++ chars ++ after)[(before ++ chars).length]? = after.head? := by
        rw [List.getElem?_append_right (le_refl _), Nat.sub_self, List.head?_eq_getElem?]
      have hlen : (span ⟨⟨.skipped, chars⟩, start⟩).stop = (before ++ chars).length := by
        simp [span, hstart, Position.offset_after]
      rwa [hlen, hnext]
  | blockComment hblock =>
    refine Or.inr ⟨?_, ?_, hstop, Or.inl (by rwa [hslice])⟩
    · obtain ⟨body, rfl, -⟩ := hblock
      rfl
    · obtain ⟨body, rfl, -⟩ := hblock
      rfl
  | _ => cases hp

theorem skipped_of_blank? {sp : Span} (h : l.blank? = some sp) : l.lexeme.piece = .skipped := by
  unfold blank? at h
  split at h
  · next hl => rw [hl]
  · cases h

theorem skipped_of_comment? {sp : Span} (h : l.comment? = some sp) : l.lexeme.piece = .skipped := by
  unfold comment? at h
  split at h
  · next hl => rw [hl]
  · cases h

theorem span_of_comment? {sp : Span} (h : l.comment? = some sp) : sp = l.span := by
  unfold comment? at h
  split at h
  · exact (Option.some.inj h).symm
  · cases h

theorem CutFrom.blank {sp : Span} (h : l.CutFrom text) (hb : l.blank? = some sp) : sp.Blank text := by
  rcases h.skipped (skipped_of_blank? hb) with ⟨h1, -, h2⟩ | ⟨h1, -, -⟩
  · obtain rfl := Option.some.inj (h1.symm.trans hb)
    exact h2
  · cases h1.symm.trans hb

theorem CutFrom.comment {sp : Span} (h : l.CutFrom text) (hc : l.comment? = some sp) : sp.Comment text := by
  rcases h.skipped (skipped_of_comment? hc) with ⟨-, h1, -⟩ | ⟨-, h1, h2⟩
  · cases h1.symm.trans hc
  · obtain rfl := Option.some.inj (h1.symm.trans hc)
    exact h2

/-- **One lexeme covers its own characters, once.** -/
theorem count_roles (h : l.CutFrom text) (lines : Array String) {i : Nat} (hi : i < text.length) :
    timesCovered (l.token? lines).toList l.blank?.toList l.comment?.toList (l.diagnostic? lines).toList i =
      if l.span.holds i then 1 else 0 := by
  have hskipped := h.skipped
  have hopen := h.stop_of_open
  obtain ⟨before, after, -, -, -, hcorrect⟩ := h
  obtain ⟨⟨piece, chars⟩, start⟩ := l
  simp only at hcorrect
  cases hcorrect with
  | token hkind hfits => simp [timesCovered, token?, blank?, comment?, diagnostic?, List.countP_cons]
  | stray hstray after =>
    have hiff : start.offset = i ↔ start.offset ≤ i ∧ i < start.offset + 1 := by omega
    simp [timesCovered, token?, blank?, comment?, diagnostic?, List.countP_cons, Diagnostic.strikes,
      Diagnostic.swallows, Diagnostic.isUnterminated, report, span, Span.holds_iff, hiff]
  | @openString body hnone =>
    have hlt : i < start.offset + (body.length + 1) := hi.trans_eq (hopen rfl).symm
    simp [timesCovered, token?, blank?, comment?, diagnostic?, List.countP_cons, Diagnostic.strikes,
      Diagnostic.swallows, Diagnostic.isUnterminated, report, span, Span.holds_iff, hlt]
  | @openComment inner hnone =>
    have hlt : i < start.offset + (inner.length + 1 + 1) := hi.trans_eq (hopen rfl).symm
    simp [timesCovered, token?, blank?, comment?, diagnostic?, List.countP_cons, Diagnostic.strikes,
      Diagnostic.swallows, Diagnostic.isUnterminated, report, span, Span.holds_iff, hlt]
  | _ =>
    rcases hskipped rfl with ⟨hb, hc, -⟩ | ⟨hb, hc, -⟩
    · simp [timesCovered, token?, diagnostic?, List.countP_cons, hb, hc]
    · simp [timesCovered, token?, diagnostic?, List.countP_cons, hb, hc]

theorem token_of_token? {lines : Array String} {t : Token} (h : l.CutFrom text) (ht : l.token? lines = some t) :
    t.CutFrom text ∧ t.span = l.span ∧ l.isOpen = false := by
  have hlt := h.start_lt_stop
  have hstop := h.stop_le
  have hslice := h.slice_eq
  obtain ⟨after, hdrop, hcorrect⟩ := h.drop_eq
  obtain ⟨⟨piece, chars⟩, start⟩ := l
  simp only at hdrop hslice hcorrect
  cases hcorrect with
  | token hkind hfits hbegins =>
    obtain rfl := Option.some.inj ht
    rw [← hdrop] at hbegins
    exact ⟨⟨hkind, hlt, hstop, congrArg String.ofList hslice.symm, hfits, hbegins⟩, rfl, rfl⟩
  | _ => cases ht

theorem diagnostic_of_diagnostic? {lines : Array String} {d : Diagnostic} (h : l.CutFrom text)
    (hd : l.diagnostic? lines = some d) :
    d.severity = .recoverable ∧ d.startsAt l.span.start ∧ d.isUnterminated = l.isOpen ∧
      (d.isUnterminated = false → d.strikes l.span.start = true) := by
  obtain ⟨before, after, -, -, -, hcorrect⟩ := h
  obtain ⟨⟨piece, chars⟩, start⟩ := l
  simp only at hcorrect
  cases hcorrect with
  | stray hstray after =>
    obtain rfl := Option.some.inj hd
    refine ⟨rfl, ⟨_, rfl, rfl⟩, rfl, fun _ => ?_⟩
    simp [Diagnostic.strikes, report, span]
  | openString hnone =>
    obtain rfl := Option.some.inj hd
    exact ⟨rfl, ⟨_, rfl, rfl⟩, rfl, fun h => by cases h⟩
  | openComment hnone =>
    obtain rfl := Option.some.inj hd
    exact ⟨rfl, ⟨_, rfl, rfl⟩, rfl, fun h => by cases h⟩
  | _ => cases hd

/-- What a diagnostic of cutting is about: a character that begins nothing, or a string or comment without its end. -/
theorem CutFrom.finds {lines : Array String} {d : Diagnostic} (h : l.CutFrom text) (hd : l.diagnostic? lines = some d) :
    d.strikes l.span.start = true ∧ (∃ c, text[l.span.start]? = some c ∧ Stray c) ∨ d.Unclosed text l.span.start := by
  obtain ⟨after, hdrop, hcorrect⟩ := h.drop_eq
  obtain ⟨⟨piece, chars⟩, start⟩ := l
  simp only at hdrop hcorrect
  cases hcorrect with
  | @stray c hstray after =>
    obtain rfl := Option.some.inj hd
    refine Or.inl ⟨by simp [Diagnostic.strikes, report, span], c, ?_, hstray⟩
    rw [← List.head?_drop, hdrop]
    rfl
  | openString hnone =>
    obtain rfl := Option.some.inj hd
    rw [List.append_nil] at hdrop
    exact Or.inr (.string rfl hdrop hnone)
  | @openComment inner hnone =>
    obtain rfl := Option.some.inj hd
    rw [List.append_nil] at hdrop
    refine Or.inr (.comment rfl hdrop ?_)
    rintro ⟨sp, hstart, hcomment⟩
    have happ := hcomment.append_eq
    rw [hstart, hdrop] at happ
    obtain ⟨-, hblock | ⟨⟨body, hslice, -⟩, -⟩⟩ := hcomment
    · exact hnone ⟨_, _, hblock, happ⟩
    · rw [hslice] at happ
      simp at happ
  | _ => cases hd

end

end Placed

/-! ## All lexemes -/

theorem timesCovered_append (ts ts' : List Token) (bs bs' cs cs' : List Span) (ds ds' : List Diagnostic) (i : Nat) :
    timesCovered (ts ++ ts') (bs ++ bs') (cs ++ cs') (ds ++ ds') i =
      timesCovered ts bs cs ds i + timesCovered ts' bs' cs' ds' i := by
  simp only [timesCovered, List.countP_append]
  omega

section
variable {text : List Char} (lines : Array String) {found : List Placed} (hcut : ∀ l ∈ found, l.CutFrom text)

include hcut

/-- lexemes cover what their spans hold, as often as these hold it -/
theorem timesCovered_filterMap {i : Nat} (hi : i < text.length) :
    timesCovered (found.filterMap (·.token? lines)) (found.filterMap (·.blank?)) (found.filterMap (·.comment?))
      (found.filterMap (·.diagnostic? lines)) i = found.countP (·.span.holds i) := by
  induction found with
  | nil => rfl
  | cons l rest ih =>
    have hcons {β : Type} (f : Placed → Option β) : (l :: rest).filterMap f = (f l).toList ++ rest.filterMap f := by
      cases hf : f l <;> simp [hf]
    rw [hcons, hcons, hcons, hcons, timesCovered_append, ih fun m hm => hcut m (List.mem_cons_of_mem l hm),
      Placed.count_roles (hcut l List.mem_cons_self) lines hi, List.countP_cons]
    exact Nat.add_comm _ _

/-- what is struck begins nothing, and what is reported as unterminated has no end -/
theorem finds_of_mem {d : Diagnostic} (hd : d ∈ found.filterMap (·.diagnostic? lines)) :
    (∀ i, d.strikes i = true → ∃ c, text[i]? = some c ∧ Stray c) ∧
      (d.isUnterminated = true → ∀ i, d.startsAt i → d.Unclosed text i) := by
  obtain ⟨l, hl, hld⟩ := List.mem_filterMap.1 hd
  have hstart := (Placed.diagnostic_of_diagnostic? (hcut l hl) hld).2.1
  rcases (hcut l hl).finds hld with ⟨hstrikes, hstray⟩ | hunclosed
  · refine ⟨fun i hi => ?_, fun hopen => ?_⟩
    · rwa [(Diagnostic.startsAt_of_strikes hi).unique hstart]
    · rw [Diagnostic.isUnterminated_of_strikes hstrikes] at hopen
      cases hopen
  · refine ⟨fun i hi => ?_, fun _ i hi => hi.unique hstart ▸ hunclosed⟩
    have hopen := hunclosed.isUnterminated
    rw [Diagnostic.isUnterminated_of_strikes hi] at hopen
    cases hopen

variable (hord : found.Pairwise (fun a b => a.span.stop ≤ b.span.start))

include hord

/-- a string or comment that is never closed is the last lexeme -/
theorem open_last : found.Pairwise (fun a _ => a.isOpen = false) := by
  refine hord.imp_of_mem fun {a b} ha hb h => ?_
  by_contra ho
  have h1 := (hcut a ha).stop_of_open (by simpa using ho)
  have h2 := (hcut b hb).start_lt_stop
  have h3 := (hcut b hb).stop_le
  omega

theorem tokens_ordered :
    (found.filterMap (·.token? lines)).Pairwise (fun a b => a.span.stop ≤ b.span.start) := by
  refine List.pairwise_filterMap.2 (hord.imp_of_mem fun {a b} ha hb h t ht u hu => ?_)
  rw [(Placed.token_of_token? (hcut a ha) ht).2.1, (Placed.token_of_token? (hcut b hb) hu).2.1]
  exact h

omit hcut in
theorem comments_ordered : (found.filterMap (·.comment?)).Pairwise (fun a b => a.stop ≤ b.start) := by
  refine List.pairwise_filterMap.2 (hord.imp_of_mem fun {a b} ha hb h sp hsp sp' hsp' => ?_)
  rw [Placed.span_of_comment? hsp, Placed.span_of_comment? hsp']
  exact h

theorem diagnostics_ordered :
    (found.filterMap (·.diagnostic? lines)).Pairwise
      (fun a b => a.isUnterminated = false ∧ ∃ i j, a.startsAt i ∧ b.startsAt j ∧ i < j) := by
  refine List.pairwise_filterMap.2 ((hord.and (open_last hcut hord)).imp_of_mem fun {a b} ha hb h d hd e he => ?_)
  obtain ⟨-, hd1, hd2, -⟩ := Placed.diagnostic_of_diagnostic? (hcut a ha) hd
  obtain ⟨-, he1, -, -⟩ := Placed.diagnostic_of_diagnostic? (hcut b hb) he
  refine ⟨hd2.trans h.2, _, _, hd1, he1, ?_⟩
  exact (hcut a ha).start_lt_stop.trans_le h.1

theorem unterminated_last :
    ∀ d ∈ (found.filterMap (·.diagnostic? lines)).dropLast, d.isUnterminated = false := by
  intro d hd
  have hds := diagnostics_ordered lines hcut hord
  have hne : found.filterMap (·.diagnostic? lines) ≠ [] := by
    intro h
    rw [h] at hd
    cases hd
  rw [← List.dropLast_concat_getLast hne, List.pairwise_append] at hds
  exact (hds.2.2 d hd _ List.mem_cons_self).1

/-- no token is found behind the start of a string or comment that is never closed -/
theorem token_before_unterminated {d : Diagnostic} (hd : d ∈ found.filterMap (·.diagnostic? lines))
    (hu : d.isUnterminated = true) {t : Token} (ht : t ∈ found.filterMap (·.token? lines)) {i : Nat}
    (hi : d.startsAt i) : t.span.stop ≤ i := by
  obtain ⟨a, ha, had⟩ := List.mem_filterMap.1 hd
  obtain ⟨b, hb, hbt⟩ := List.mem_filterMap.1 ht
  obtain ⟨-, ⟨sp, hsp, hstart⟩, hopen, -⟩ := Placed.diagnostic_of_diagnostic? (hcut a ha) had
  obtain ⟨-, hspan, hclosed⟩ := Placed.token_of_token? (hcut b hb) hbt
  have hlast := open_last hcut hord
  have hi' : i = a.span.start := by
    obtain ⟨sp', hsp', rfl⟩ := hi
    rw [← hstart, Option.some.inj (hsp.symm.trans hsp')]
  rw [hspan, hi']
  rw [hu] at hopen
  obtain ⟨xs, ys, rfl⟩ := List.append_of_mem ha
  rw [List.pairwise_append, List.pairwise_cons] at hord hlast
  rcases List.mem_append.1 hb with hb | hb
  · exact hord.2.2 b hb a List.mem_cons_self
  rcases List.mem_cons.1 hb with rfl | hb
  · cases hopen.trans hclosed
  · cases hopen.trans (hlast.2.1.1 b hb)

end

/-! ## Characters that are covered once -/

section
variable {text : List Char} {tokens : List Token} {blanks comments : List Span} {ds : List Diagnostic}
  (hcover : ∀ i < text.length, timesCovered tokens blanks comments ds i = 1)
  (hcomments : ∀ sp ∈ comments, sp.Comment text) (hstray : ∀ d ∈ ds, ∀ i, d.strikes i = true →
    ∃ c, text[i]? = some c ∧ Stray c)

include hcover hcomments

/-- a comment holds no character that is reported as unexpected -/
theorem holds_eq_false_of_strikes {d : Diagnostic} (hd : d ∈ ds) {i : Nat} (hi : d.strikes i = true) {sp : Span}
    (hsp : sp ∈ comments) : sp.holds i = false := by
  by_contra hholds
  rw [Bool.not_eq_false] at hholds
  have hlt := (Span.holds_iff.1 hholds).2.trans_le (hcomments sp hsp).1
  have honce := hcover i hlt
  have hstruck : 0 < ds.countP (·.strikes i) := List.countP_pos_iff.2 ⟨d, hd, hi⟩
  have hheld : 0 < comments.countP (·.holds i) := List.countP_pos_iff.2 ⟨sp, hsp, hholds⟩
  simp only [timesCovered] at honce
  omega

/-- each comment that was found stands free -/
theorem standsFree_of_mem (hapart : comments.Pairwise (fun a b => a.stop ≤ b.start)) {sp : Span} (hsp : sp ∈ comments) :
    StandsFree tokens comments ds sp.start := by
  have hlt := (hcomments sp hsp).start_lt_stop
  have honce := hcover sp.start (hlt.trans_le (hcomments sp hsp).1)
  have hheld : 0 < comments.countP (·.holds sp.start) :=
    List.countP_pos_iff.2 ⟨sp, hsp, Span.holds_iff.2 ⟨le_refl _, hlt⟩⟩
  simp only [timesCovered] at honce
  have htokens : tokens.countP (·.span.holds sp.start) = 0 := by omega
  have hswallows : ds.countP (·.swallows sp.start) = 0 := by omega
  refine ⟨fun t ht => ?_, fun sp' hsp' hbefore => ?_, fun d hd => ?_⟩
  · exact Bool.eq_false_iff.2 (List.countP_eq_zero.1 htokens t ht)
  · -- the other comment starts before this one, so it ends before it as well
    have hlt' := (hcomments sp' hsp').start_lt_stop
    rw [Bool.eq_false_iff, Ne, Span.holds_iff]
    obtain ⟨xs, ys, rfl⟩ := List.append_of_mem hsp
    rw [List.pairwise_append, List.pairwise_cons] at hapart
    rcases List.mem_append.1 hsp' with hsp' | hsp'
    · have hends := hapart.2.2 sp' hsp' sp List.mem_cons_self
      omega
    rcases List.mem_cons.1 hsp' with rfl | hsp'
    · omega
    · have hends := hapart.2.1.1 sp' hsp'
      omega
  · exact Bool.eq_false_iff.2 (List.countP_eq_zero.1 hswallows d hd)

include hstray

/-- **The comments are those that stand free,** where no token, no other comment and nothing unclosed holds their start. -/
theorem mem_comments_iff (hblanks : ∀ sp ∈ blanks, sp.Blank text)
    (hapart : comments.Pairwise (fun a b => a.stop ≤ b.start)) {sp : Span} :
    sp ∈ comments ↔ sp.Comment text ∧ StandsFree tokens comments ds sp.start := by
  refine ⟨fun hsp => ⟨hcomments sp hsp, standsFree_of_mem hcover hcomments hapart hsp⟩, ?_⟩
  rintro ⟨hcomment, hfree⟩
  have honce := hcover sp.start (hcomment.start_lt_stop.trans_le hcomment.1)
  have hslash := hcomment.getElem?_start
  -- the slash is in no token, is no blank and begins something, and is behind nothing unclosed
  have htokens : tokens.countP (·.span.holds sp.start) = 0 := List.countP_eq_zero.2 fun t ht => by simp [hfree.token t ht]
  have hblank : blanks.countP (·.holds sp.start) = 0 := by
    refine List.countP_eq_zero.2 fun b hb hholds => ?_
    obtain ⟨c, hget, hc⟩ := (hblanks b hb).getElem? hholds
    rw [hslash] at hget
    obtain rfl := Option.some.inj hget
    revert hc
    decide
  have hstrikes : ds.countP (·.strikes sp.start) = 0 := by
    refine List.countP_eq_zero.2 fun d hd hstrikes => ?_
    obtain ⟨c, hget, hc⟩ := hstray d hd _ hstrikes
    rw [hslash] at hget
    obtain rfl := Option.some.inj hget
    exact hc.not_operator (by decide)
  have hswallows : ds.countP (·.swallows sp.start) = 0 := List.countP_eq_zero.2 fun d hd => by simp [hfree.unclosed d hd]
  simp only [timesCovered, htokens, hblank, hstrikes, hswallows] at honce
  obtain ⟨sp', hsp', hholds⟩ := List.countP_pos_iff.1 (by omega : 0 < comments.countP (·.holds sp.start))
  have hstart : sp'.start = sp.start := by
    refine le_antisymm (Span.holds_iff.1 hholds).1 (Nat.le_of_not_lt fun hbefore => ?_)
    rw [hfree.comment sp' hsp' hbefore] at hholds
    cases hholds
  rwa [← (hcomments sp' hsp').eq_of_start hcomment hstart]

end

/-- **Lexing loses and duplicates no character.** For any text of `n` characters and any spellings of the keywords:
- the tokens are those of `body`, each cut from the text, in the order of their spans, and then one end-of-text token;
- no diagnostic is fatal, and their starts increase. Each is about one character that begins nothing, so no blank, and
  lies in no comment; or about a string that no quote closes, or a block comment without its end, from there to the end
  of the text;
- each character is covered once: by a token, by a blank, by a comment, by the report that it is unexpected, or by
  the string or comment that is never closed. The comments are all those that begin outside of tokens, of other comments
  and of what is never closed; and no token begins with a blank or with a comment;
- the report of such a string or comment comes last, so there is one at most, and no token of `body` is behind it. -/
theorem lex_covers_once (s : Spellings) (source : String) :
    ∃ (body : List Token) (last : Token) (blanks comments : List Span),
      (lex s source).tokens = body ++ [last] ∧
      (last.kind = .eof ∧ last.lexeme = "" ∧ last.literal = none ∧
        last.span = ⟨source.toList.length, source.toList.length⟩) ∧
      (∀ t ∈ body, t.CutFrom source.toList) ∧
      body.Pairwise (fun a b => a.span.stop ≤ b.span.start) ∧
      (∀ d ∈ (lex s source).diagnostics, d.severity = .recoverable ∧
        ∃ i < source.toList.length, d.startsAt i ∧ (d.strikes i = true ∨ d.isUnterminated = true)) ∧
      (∀ d ∈ (lex s source).diagnostics, ∀ i, d.strikes i = true →
        (∃ c, source.toList[i]? = some c ∧ Stray c) ∧ ∀ sp ∈ comments, sp.holds i = false) ∧
      (∀ d ∈ (lex s source).diagnostics, d.isUnterminated = true →
        ∀ i, d.startsAt i → d.Unclosed source.toList i) ∧
      (lex s source).diagnostics.Pairwise (fun a b => ∃ i j, a.startsAt i ∧ b.startsAt j ∧ i < j) ∧
      (∀ sp ∈ blanks, sp.Blank source.toList) ∧
      (∀ sp, sp ∈ comments ↔
        sp.Comment source.toList ∧ StandsFree body comments (lex s source).diagnostics sp.start) ∧
      (∀ i < source.toList.length, timesCovered body blanks comments (lex s source).diagnostics i = 1) ∧
      (∀ d ∈ (lex s source).diagnostics.dropLast, d.isUnterminated = false) ∧
      (∀ d ∈ (lex s source).diagnostics, d.isUnterminated = true →
        ∀ t ∈ body, ∀ i, d.startsAt i → t.span.stop ≤ i) := by
  let text := source.toList
  let lines := sourceLines text
  let found := placed {} (lexemes s text)
  have hcut : ∀ l ∈ found, l.CutFrom text := fun l hl => cutFrom_of_mem s [] text hl
  have hord := placed_ordered {} (lexemes s text)
  have hfinds := fun d hd => finds_of_mem lines hcut (d := d) hd
  have hblanks : ∀ sp ∈ found.filterMap (·.blank?), sp.Blank text := by
    intro sp hsp
    obtain ⟨l, hl, hb⟩ := List.mem_filterMap.1 hsp
    exact (hcut l hl).blank hb
  have hcomments : ∀ sp ∈ found.filterMap (·.comment?), sp.Comment text := by
    intro sp hsp
    obtain ⟨l, hl, hc⟩ := List.mem_filterMap.1 hsp
    exact (hcut l hl).comment hc
  have hcover : ∀ i < text.length, timesCovered (found.filterMap (·.token? lines)) (found.filterMap (·.blank?))
      (found.filterMap (·.comment?)) (found.filterMap (·.diagnostic? lines)) i = 1 := by
    intro i hi
    rw [timesCovered_filterMap lines hcut hi, countP_placed, flatten_lexemes, if_pos ⟨Nat.zero_le i, by simpa using hi⟩]
  refine ⟨found.filterMap (·.token? lines), endToken lines (Position.after {} text), found.filterMap (·.blank?),
    found.filterMap (·.comment?), rfl, ⟨rfl, rfl, rfl, ?_⟩, ?_, tokens_ordered lines hcut hord, ?_,
    fun d hd i hi => ⟨(hfinds d hd).1 i hi, fun sp => holds_eq_false_of_strikes hcover hcomments hd hi⟩,
    fun d hd => (hfinds d hd).2,
    (diagnostics_ordered lines hcut hord).imp fun h => h.2, hblanks,
    fun sp => mem_comments_iff hcover hcomments (fun d hd => (hfinds d hd).1) hblanks (comments_ordered hord), hcover,
    unterminated_last lines hcut hord, ?_⟩
  · simp only [endToken, Position.offset_after, Nat.zero_add, text]
  · intro t ht
    obtain ⟨l, hl, hlt⟩ := List.mem_filterMap.1 ht
    exact (Placed.token_of_token? (hcut l hl) hlt).1
  · intro d hd
    obtain ⟨l, hl, hld⟩ := List.mem_filterMap.1 hd
    obtain ⟨h1, h2, -, h4⟩ := Placed.diagnostic_of_diagnostic? (hcut l hl) hld
    refine ⟨h1, l.span.start, (hcut l hl).start_lt_stop.trans_le (hcut l hl).stop_le, h2, ?_⟩
    cases hu : d.isUnterminated with
    | false => exact Or.inl (h4 hu)
    | true => exact Or.inr rfl
  · intro d hd hu t ht i hi
    exact token_before_unterminated lines hcut hord hd hu ht hi

end Reckoner
