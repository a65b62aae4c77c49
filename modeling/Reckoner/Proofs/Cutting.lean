/-
What stands at the front of a text is what `cut` says it is.

Each piece is given a meaning that does not mention `cut` (`Lexeme.Correct`): a token holds a constant that fits its
kind, and neither a blank nor a comment is where it begins (`Unskipped`); what is skipped is one blank, a comment to the
end of its line, or a block comment with its own end; a stray piece is one character that begins nothing (`Stray`); a
string or comment without its end reaches to the end of the text, and nothing there closes it.

Block comments nest, and `closeComment?` counts how many are open. `CommentTail` states the language without a
counter, and `tails_of_closeComment?` ties the two: closing a comment inside `outer` others reads `outer + 1` tails. So
an ending is found where the language has one, and nowhere else (`blockComment_iff`), and at most one text in front of
another is a block comment (`blockComment_unique`).

Main statements: `cut_correct` for one step of `scan_token`, `cutFrom_of_mem` for every lexeme of a text.
-/
import Mathlib.Data.List.TakeWhile
import Mathlib.Tactic
import Reckoner.Proofs.Escapes
import Reckoner.Token.Lex

namespace Reckoner

/-! ## Comments -/

/-- a comment that runs to the end of its line -/
def LineComment (text : List Char) : Prop :=
  ∃ body, text = '/' :: '/' :: body ∧ '\n' ∉ body

/-- What comes after the opening of a block comment, its end included: block comments inside it, and characters at
which no block comment begins or ends. -/
inductive CommentTail : List Char → Prop where
  | close : CommentTail ['*', '/']
  | nested {a b : List Char} (ha : CommentTail a) (hb : CommentTail b) : CommentTail ('/' :: '*' :: (a ++ b))
  | char {c d : Char} {rest : List Char} (hopen : ¬ (c = '/' ∧ d = '*')) (hclose : ¬ (c = '*' ∧ d = '/'))
      (h : CommentTail (d :: rest)) : CommentTail (c :: d :: rest)

/-- a block comment, with its end and those of the comments inside it -/
def BlockComment (text : List Char) : Prop :=
  ∃ tail, text = '/' :: '*' :: tail ∧ CommentTail tail

theorem CommentTail.exists_cons {text : List Char} (h : CommentTail text) : ∃ d rest, text = d :: rest := by
  cases h with
  | close => exact ⟨_, _, rfl⟩
  | nested ha hb => exact ⟨_, _, rfl⟩
  | char hopen hclose h => exact ⟨_, _, rfl⟩

/-- the tails of so many block comments, one after the other -/
inductive CommentTails : Nat → List Char → Prop where
  | nil : CommentTails 0 []
  | cons {n : Nat} {a b : List Char} (ha : CommentTail a) (hb : CommentTails n b) : CommentTails (n + 1) (a ++ b)

theorem CommentTails.one {text : List Char} (h : CommentTails 1 text) : CommentTail text := by
  cases h with
  | cons ha hb =>
    cases hb
    rwa [List.append_nil]

/-- an opening in front: the first tail belongs to it, and the second goes on with the comment around it -/
theorem CommentTails.nest {n : Nat} {text : List Char} (h : CommentTails (n + 2) text) :
    CommentTails (n + 1) ('/' :: '*' :: text) := by
  cases h with
  | @cons _ a _ ha hb =>
    cases hb with
    | @cons _ b rest hb hrest =>
      have h1 := CommentTails.cons (CommentTail.nested ha hb) hrest
      rwa [List.cons_append, List.cons_append, List.append_assoc] at h1

theorem CommentTails.char {n : Nat} {c : Char} {text : List Char} (after : List Char)
    (h : CommentTails (n + 1) text) (hopen : ∀ rest, c = '/' → text ++ after ≠ '*' :: rest)
    (hclose : ∀ rest, c = '*' → text ++ after ≠ '/' :: rest) : CommentTails (n + 1) (c :: text) := by
  cases h with
  | cons ha hb =>
    obtain ⟨d, rest, rfl⟩ := ha.exists_cons
    refine CommentTails.cons (a := c :: d :: rest) (.char ?_ ?_ ha) hb
    · rintro ⟨hc, rfl⟩
      exact hopen _ hc rfl
    · rintro ⟨hc, rfl⟩
      exact hclose _ hc rfl

/-- **Closing a comment inside `outer` others reads `outer + 1` tails.** -/
theorem tails_of_closeComment? {outer : Nat} {text body after : List Char}
    (h : closeComment? outer text = some (body, after)) : CommentTails (outer + 1) body := by
  fun_induction closeComment? outer text generalizing body after with
  | case1 => simp at h
  | case2 rest =>
    obtain ⟨rfl, -⟩ := Prod.mk.inj (Option.some.inj h)
    exact .cons .close .nil
  | case3 outer rest ih =>
    obtain ⟨⟨b, a⟩, hr, hb⟩ := Option.map_eq_some_iff.1 h
    obtain ⟨rfl, -⟩ := Prod.mk.inj hb
    exact .cons .close (ih hr)
  | case4 outer rest ih =>
    obtain ⟨⟨b, a⟩, hr, hb⟩ := Option.map_eq_some_iff.1 h
    obtain ⟨rfl, -⟩ := Prod.mk.inj hb
    exact (ih hr).nest
  | case5 outer c rest hzero hsucc hopen ih =>
    obtain ⟨⟨b, a⟩, hr, hb⟩ := Option.map_eq_some_iff.1 h
    obtain ⟨rfl, -⟩ := Prod.mk.inj hb
    have happ := closeComment?_append hr
    refine (ih hr).char a ?_ ?_
    · rintro more rfl heq
      exact hopen more rfl (happ ▸ heq)
    · rintro more rfl heq
      cases outer with
      | zero => exact hzero more rfl rfl (happ ▸ heq)
      | succ outer => exact hsucc outer more rfl rfl (happ ▸ heq)

/-- a comment is closed at its own end, and goes on with what is open around it -/
theorem closeComment?_tail {tail : List Char} (h : CommentTail tail) (after : List Char) :
    closeComment? 0 (tail ++ after) = some (tail, after) ∧
      ∀ outer, closeComment? (outer + 1) (tail ++ after) =
        (closeComment? outer after).map fun (body, rest) => (tail ++ body, rest) := by
  induction h generalizing after with
  | close => exact ⟨rfl, fun _ => rfl⟩
  | @nested a b ha hb iha ihb =>
    have hopen : ∀ outer, closeComment? outer ('/' :: '*' :: (a ++ b) ++ after) =
        (closeComment? (outer + 1) (a ++ (b ++ after))).map fun (body, rest) => ('/' :: '*' :: body, rest) := by
      intro outer
      rw [List.cons_append, List.cons_append, List.append_assoc]
      cases outer <;> rfl
    refine ⟨?_, fun outer => ?_⟩
    · rw [hopen, (iha (b ++ after)).2, (ihb after).1]
      rfl
    · rw [hopen, (iha (b ++ after)).2, (ihb after).2, Option.map_map, Option.map_map]
      simp [Function.comp_def]
  | @char c d rest hopen hclose h ih =>
    have hstep : ∀ outer, closeComment? outer (c :: d :: rest ++ after) =
        (closeComment? outer (d :: rest ++ after)).map fun (body, rest) => (c :: body, rest) := by
      intro outer
      rw [List.cons_append, closeComment?]
      all_goals simp_all
    refine ⟨?_, fun outer => ?_⟩
    · rw [hstep, (ih after).1]
      rfl
    · rw [hstep, (ih after).2, Option.map_map]
      rfl

section
variable {inner comment rest : List Char}

/-- **The counter finds what the language has:** the comment up to the ending that belongs to its opening. -/
theorem blockComment_iff : BlockComment comment ∧ comment ++ rest = '/' :: '*' :: inner ↔
    ∃ tail, comment = '/' :: '*' :: tail ∧ closeComment? 0 inner = some (tail, rest) := by
  constructor
  · rintro ⟨⟨tail, rfl, htail⟩, happ⟩
    obtain ⟨-, happ⟩ := List.cons.inj happ
    obtain ⟨-, rfl⟩ := List.cons.inj happ
    exact ⟨tail, rfl, (closeComment?_tail htail rest).1⟩
  · rintro ⟨tail, rfl, hclose⟩
    obtain rfl := closeComment?_append hclose
    exact ⟨⟨tail, rfl, (tails_of_closeComment? hclose).one⟩, rfl⟩

theorem closeComment?_eq_none_iff :
    closeComment? 0 inner = none ↔ ¬ ∃ comment rest, BlockComment comment ∧ comment ++ rest = '/' :: '*' :: inner := by
  constructor
  · rintro h ⟨comment, rest, hcomment⟩
    obtain ⟨tail, -, hclose⟩ := blockComment_iff.1 hcomment
    cases h.symm.trans hclose
  · intro h
    cases hclose : closeComment? 0 inner with
    | none => rfl
    | some found => exact absurd ⟨_, _, blockComment_iff.2 ⟨found.1, rfl, hclose⟩⟩ h

/-- **At most one text in front of another is a block comment.** -/
theorem blockComment_unique {comment' rest' : List Char}
    (h : BlockComment comment ∧ comment ++ rest = '/' :: '*' :: inner)
    (h' : BlockComment comment' ∧ comment' ++ rest' = '/' :: '*' :: inner) : comment' = comment := by
  obtain ⟨tail, rfl, hclose⟩ := blockComment_iff.1 h
  obtain ⟨tail', rfl, hclose'⟩ := blockComment_iff.1 h'
  obtain ⟨rfl, -⟩ := Prod.mk.inj (Option.some.inj (hclose'.symm.trans hclose))
  rfl

end

/-! ## Constants -/

/-- whether tokens of a kind hold a constant -/
def Kind.holdsConstant : Kind → Bool
  | .string | .integer | .double | .identifier => true
  | _ => false

/-- The constant of a token fits its kind: text for a string, an integer or a double for a numeral, the word itself
for an identifier, and nothing for any other kind. -/
inductive Fits (lexeme : String) : Kind → Option Literal → Prop where
  | string (s : String) : Fits lexeme .string (some (.text s))
  | integer (n : Int32) : Fits lexeme .integer (some (.integer n))
  | double (x : Float) : Fits lexeme .double (some (.double x))
  | identifier : Fits lexeme .identifier (some (.text lexeme))
  | plain {kind : Kind} (h : kind.holdsConstant = false) : Fits lexeme kind none

theorem Keyword.kind_plain (k : Keyword) : k.kind ≠ .eof ∧ k.kind.holdsConstant = false := by
  cases k <;> exact ⟨by decide, rfl⟩

theorem operator?_plain {c : Char} {next : Option Char} {kind : Kind} {n : Nat}
    (h : operator? c next = some (kind, n)) : kind ≠ .eof ∧ kind.holdsConstant = false := by
  unfold operator? at h
  split at h
  all_goals cases h <;> exact ⟨by decide, rfl⟩

/-! ## What begins nothing, and what begins with no blank or comment -/

theorem isGap_iff_mem {c : Char} : isGap c = true ↔ c ∈ [' ', '\t', '\r', '\n'] := by
  simp [isGap_iff]

/-- the characters that an operator begins with -/
def operatorStarts : List Char := [
  '(', ')', '\x7b', '\x7d', ',', '.', '-', '+', ';', '/', '?', ':', '*', '!', '=', '<', '>']

theorem mem_operatorStarts_iff {c : Char} (next : Option Char) :
    c ∈ operatorStarts ↔ (operator? c next).isSome = true := by
  constructor
  · intro h
    simp only [operatorStarts, List.mem_cons, List.not_mem_nil, or_false] at h
    rcases h with rfl | rfl | rfl | rfl | rfl | rfl | rfl | rfl | rfl | rfl | rfl | rfl | rfl | rfl | rfl | rfl | rfl
    all_goals first | rfl | (unfold operator?; split <;> first | rfl | simp_all)
  · intro h
    unfold operator? at h
    split at h <;> first | decide | cases h

/-- A character that begins nothing: neither a blank nor a string, a numeral, a word, an operator or a comment. -/
structure Stray (c : Char) : Prop where
  not_blank : c ∉ [' ', '\t', '\r', '\n']
  ne_quote : c ≠ '"'
  not_digit : c.isDigit = false
  not_word : Text.startsWord c = false
  not_operator : c ∉ operatorStarts

/-- Neither a blank nor a comment, closed or not, is in front of the text. -/
structure Unskipped (text : List Char) : Prop where
  not_blank : ∀ c ∈ text.head?, c ∉ [' ', '\t', '\r', '\n']
  not_comment : ∀ rest, text ≠ '/' :: '/' :: rest ∧ text ≠ '/' :: '*' :: rest

theorem unskipped_cons {c : Char} (hgap : isGap c = false) (hslash : c ≠ '/') (cs : List Char) : Unskipped (c :: cs) := by
  refine ⟨fun d hd => ?_, fun rest => ⟨fun h => hslash (List.cons.inj h).1, fun h => hslash (List.cons.inj h).1⟩⟩
  rw [← Option.some.inj hd, ← isGap_iff_mem, hgap]
  exact Bool.false_ne_true

theorem unskipped_slash {cs : List Char} (hline : ∀ rest, cs ≠ '/' :: rest) (hblock : ∀ rest, cs ≠ '*' :: rest) :
    Unskipped ('/' :: cs) := by
  refine ⟨fun d hd => ?_, fun rest => ⟨fun h => hline rest (List.cons.inj h).2, fun h => hblock rest (List.cons.inj h).2⟩⟩
  rw [← Option.some.inj hd]
  decide

/-! ## One step -/

/-- A piece is what it says about its characters, when `after` is the text behind them. -/
inductive Lexeme.Correct : Lexeme → (after : List Char) → Prop where
  | token {kind : Kind} {literal : Option Literal} {text after : List Char} (hkind : kind ≠ .eof)
      (hfits : Fits (String.ofList text) kind literal) (hbegins : Unskipped (text ++ after)) :
      Correct ⟨.token kind literal, text⟩ after
  | blank {c : Char} {after : List Char} (h : isGap c = true) : Correct ⟨.skipped, [c]⟩ after
  | lineComment {text after : List Char} (h : LineComment text) (hafter : ∀ c ∈ after.head?, c = '\n') :
      Correct ⟨.skipped, text⟩ after
  | blockComment {text after : List Char} (h : BlockComment text) : Correct ⟨.skipped, text⟩ after
  | stray {c : Char} (h : Stray c) (after : List Char) : Correct ⟨.stray, [c]⟩ after
  | openString {body : List Char} (h : ¬ ∃ j, ClosesAt body j) : Correct ⟨.openString, '"' :: body⟩ []
  | openComment {inner : List Char}
      (h : ¬ ∃ comment rest, BlockComment comment ∧ comment ++ rest = '/' :: '*' :: inner) :
      Correct ⟨.openComment, '/' :: '*' :: inner⟩ []

/-- the characters of a cut that begins with `c` -/
def Cut.lexeme (c : Char) (k : Cut) : Lexeme :=
  ⟨k.piece, c :: k.more⟩

/-- a token whose kind and constant fit, in front of a text that begins with no blank or comment -/
theorem Lexeme.Correct.of_fits {c : Char} {cs : List Char} (h : Unskipped (c :: cs)) {k : Cut}
    (happ : k.more ++ k.rest = cs) {kind : Kind} {literal : Option Literal} (hpiece : k.piece = .token kind literal)
    (hkind : kind ≠ .eof) (hfits : Fits (String.ofList (c :: k.more)) kind literal) : (k.lexeme c).Correct k.rest := by
  rw [Cut.lexeme, hpiece]
  refine .token hkind hfits ?_
  rwa [List.cons_append, happ]

theorem cutString_correct (cs : List Char) : ((cutString cs).lexeme '"').Correct (cutString cs).rest := by
  have happ := cutString_append cs
  revert happ
  unfold cutString
  split
  · exact fun happ => .of_fits (unskipped_cons rfl (by decide) cs) happ rfl (by decide) (.string _)
  · next hnone => exact fun _ => .openString (closeQuote?_eq_none_iff.1 hnone)

/-- the token for a numeral is an integer or a double -/
theorem wholeNumber_fits (digits : List Char) (lexeme : String) :
    ∃ kind literal, wholeNumber digits = .token kind literal ∧ kind ≠ .eof ∧ Fits lexeme kind literal := by
  unfold wholeNumber
  dsimp only
  split
  · exact ⟨_, _, rfl, by decide, .integer _⟩
  · exact ⟨_, _, rfl, by decide, .double _⟩

theorem cutNumber_fits (c : Char) (cs : List Char) (lexeme : String) :
    ∃ kind literal, (cutNumber c cs).piece = .token kind literal ∧ kind ≠ .eof ∧ Fits lexeme kind literal := by
  simp only [cutNumber]
  split
  · exact ⟨_, _, rfl, by decide, .double _⟩
  · generalize cs.takeWhile Char.isDigit = digits
    generalize cs.dropWhile Char.isDigit = rest
    fun_cases cutDigits c digits rest
    · exact ⟨_, _, rfl, by decide, .double _⟩
    · exact wholeNumber_fits _ lexeme
    · exact wholeNumber_fits _ lexeme

theorem cutNumber_correct {c : Char} {cs : List Char} (h : Unskipped (c :: cs)) :
    ((cutNumber c cs).lexeme c).Correct (cutNumber c cs).rest := by
  obtain ⟨kind, literal, hpiece, hkind, hfits⟩ := cutNumber_fits c cs (String.ofList (c :: (cutNumber c cs).more))
  exact .of_fits h (cutNumber_append c cs) hpiece hkind hfits

theorem cutWord_correct (s : Spellings) {c : Char} {cs : List Char} (h : Unskipped (c :: cs)) :
    ((cutWord s c cs).lexeme c).Correct (cutWord s c cs).rest := by
  have happ : (cutWord s c cs).more ++ (cutWord s c cs).rest = cs := List.takeWhile_append_dropWhile
  revert happ
  simp only [cutWord]
  split
  · next kind hlookup =>
    obtain ⟨k, -, rfl⟩ := Option.map_eq_some_iff.1 hlookup
    obtain ⟨heof, hplain⟩ := k.kind_plain
    exact fun happ => .of_fits h happ rfl heof (.plain hplain)
  · exact fun happ => .of_fits h happ rfl (by decide) .identifier

theorem cutLineComment_correct (cs : List Char) :
    ((cutLineComment ('/' :: cs)).lexeme '/').Correct (cutLineComment ('/' :: cs)).rest := by
  refine .lineComment ⟨cs.takeWhile (· != '\n'), rfl, fun h => ?_⟩ fun c hc => ?_
  · have h1 := List.mem_takeWhile_imp h
    simp at h1
  · have h1 := List.head?_dropWhile_not (· != '\n') ('/' :: cs)
    simp only [cutLineComment] at hc
    rw [hc] at h1
    simpa using h1

theorem cutBlockComment_correct (inner : List Char) :
    ((cutBlockComment inner).lexeme '/').Correct (cutBlockComment inner).rest := by
  unfold cutBlockComment
  split
  · next body rest h => exact .blockComment ⟨body, rfl, (tails_of_closeComment? h).one⟩
  · next hnone => exact .openComment (closeComment?_eq_none_iff.1 hnone)

theorem cutOperator_correct {c : Char} {cs : List Char} (h : Unskipped (c :: cs)) (hquote : c ≠ '"')
    (hdigit : c.isDigit = false) (hword : Text.startsWord c = false) :
    ((cutOperator c cs).lexeme c).Correct (cutOperator c cs).rest := by
  have happ := cutOperator_append c cs
  revert happ
  unfold cutOperator
  split
  · next kind n hoperator =>
    obtain ⟨heof, hplain⟩ := operator?_plain hoperator
    exact fun happ => .of_fits h happ rfl heof (.plain hplain)
  · next hnone =>
    have hoperator : c ∉ operatorStarts := by
      rw [mem_operatorStarts_iff cs.head?, hnone]
      exact Bool.false_ne_true
    exact fun _ => .stray ⟨h.not_blank c rfl, hquote, hdigit, hword, hoperator⟩ cs

/-- **One step.** What `cut` finds in front is what it says. -/
theorem cut_correct (s : Spellings) (c : Char) (cs : List Char) : ((cut s c cs).lexeme c).Correct (cut s c cs).rest := by
  unfold cut
  split
  · next hgap => exact .blank hgap
  next hgap =>
  rw [Bool.not_eq_true] at hgap
  split
  · next h => exact h ▸ cutString_correct cs
  next hquote =>
  split
  · next hnumber =>
    refine cutNumber_correct (unskipped_cons hgap ?_ cs)
    rintro rfl
    cases hnumber
  next hnumber =>
  have hdigit : c.isDigit = false := by
    cases hc : c.isDigit with
    | false => rfl
    | true => simp [hc] at hnumber
  split
  · next hword =>
    refine cutWord_correct s (unskipped_cons hgap ?_ cs)
    rintro rfl
    revert hword
    decide
  next hword =>
  rw [Bool.not_eq_true] at hword
  split
  · next h =>
    subst h
    split
    · exact cutLineComment_correct _
    · exact cutBlockComment_correct _
    · next hline hblock =>
      exact cutOperator_correct (unskipped_slash (fun rest => hline rest) fun rest => hblock rest) hquote hdigit hword
  · next hslash => exact cutOperator_correct (unskipped_cons hgap hslash cs) hquote hdigit hword

/-! ## The whole text -/

/-- `l` is cut from `text`: its characters are there, it starts at their place, and it is what it says -/
def Placed.CutFrom (text : List Char) (l : Placed) : Prop :=
  ∃ before after, before ++ l.lexeme.text ++ after = text ∧ l.start = Position.after {} before ∧
    l.lexeme.text ≠ [] ∧ l.lexeme.Correct after

/-- **Every lexeme.** Each lexeme of a text is cut from it, at the place it is given. -/
theorem cutFrom_of_mem (s : Spellings) (before text : List Char) {l : Placed}
    (h : l ∈ placed (Position.after {} before) (lexemes s text)) : l.CutFrom (before ++ text) := by
  -- `before` grows by one lexeme with each step of `lexemes`
  fun_induction lexemes s text generalizing before with
  | case1 => cases h
  | case2 c cs ih =>
    have happ : before ++ c :: (cut s c cs).more ++ (cut s c cs).rest = before ++ c :: cs := by
      rw [List.append_assoc, List.cons_append, cut_append]
    rcases List.mem_cons.1 h with rfl | h
    · exact ⟨before, (cut s c cs).rest, happ, rfl, List.cons_ne_nil _ _, cut_correct s c cs⟩
    · rw [← happ]
      apply ih
      rwa [Position.after_append]

end Reckoner
