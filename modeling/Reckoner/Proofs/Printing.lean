/-
What the print of a tree tells.

In a printed tree every word ends at a blank or at a parenthesis: no such character is part of a word (`Legible.plain`).
So the print can be taken apart from the left, whatever stands behind it (`print_append_inj`), and the words tell the
nodes:

- an operator written as the standard keywords have it (`Kind.spellings`) tells its kind (`Kind.eq_of_spellings`), and
  each token of an operator is written so (`lex_spelled`);
- the text of a constant tells the constant, if it is no string (`Constant.matches_of_print`). Of a double it tells the
  text alone. This is no text of another constant: it has a point, or it stands for what is no finite number
  (`numberText_cases`).

Main statement: `print_determines_tree`.
-/
import Mathlib.Tactic
import Reckoner.Proofs.Places
import Reckoner.Proofs.Respelling
import Reckoner.Proofs.RoundTrip

namespace Reckoner

/-! ## Trees that print alike -/

def Constant.isString : Constant → Bool
  | .string _ => true
  | _ => false

/-- two constants are the same, or they are doubles with one text -/
inductive Constant.Matches : Constant → Constant → Prop where
  | refl (c : Constant) : Matches c c
  | double {x y : Float} (h : Decimal.numberText x = Decimal.numberText y) : Matches (.double x) (.double y)

/-- two trees have the same nodes in the same places, with the same operators, and constants that match -/
inductive Expr.Matches : Expr → Expr → Prop where
  | literal {c d : Constant} (h : c.Matches d) : Matches (.literal c) (.literal d)
  | grouping {a b : Expr} (h : Matches a b) : Matches (.grouping a) (.grouping b)
  | unary {f g : Token} {a b : Expr} (hkind : f.kind = g.kind) (hlexeme : f.lexeme = g.lexeme) (h : Matches a b) :
      Matches (.unary f a) (.unary g b)
  | binary {f g : Token} {a b a' b' : Expr} (hkind : f.kind = g.kind) (hlexeme : f.lexeme = g.lexeme)
      (hleft : Matches a a') (hright : Matches b b') : Matches (.binary a f b) (.binary a' g b')
  | ternary {a b c a' b' c' : Expr} (hcondition : Matches a a') (hthen : Matches b b') (helse : Matches c c') :
      Matches (.ternary a b c) (.ternary a' b' c')

/-- trees that match print alike -/
theorem Expr.Matches.print_eq {a b : Expr} (h : a.Matches b) : a.print = b.print := by
  induction h with
  | literal h =>
    cases h with
    | refl c => rfl
    | double h => exact h
  | grouping _ ih => simp only [print, ih]
  | unary _ hlexeme _ ih => simp only [print, hlexeme, ih]
  | binary _ hlexeme _ _ iha ihb => simp only [print, hlexeme, iha, ihb]
  | ternary _ _ _ iha ihb ihc => simp only [print, iha, ihb, ihc]

/-! ## Words -/

/-- the characters that end a word of a printed tree -/
def isMark (c : Char) : Bool :=
  c == ' ' || c == '(' || c == ')'

/-- no character of a word is a mark -/
def Plain (word : List Char) : Prop :=
  ∀ c ∈ word, isMark c = false

/-- behind a printed tree stands a blank or a closing parenthesis, if anything does -/
def Ends (after : List Char) : Prop :=
  ∀ c ∈ after.head?, c = ' ' ∨ c = ')'

theorem ends_nil : Ends [] := by
  intro c hc
  cases hc

theorem ends_blank (after : List Char) : Ends (' ' :: after) := by
  intro c hc
  exact .inl (Option.some.inj hc).symm

theorem ends_close (after : List Char) : Ends (')' :: after) := by
  intro c hc
  exact .inr (Option.some.inj hc).symm

section
variable {w w' u v : List Char}

/-- a word is what stands before the first mark -/
theorem Plain.takeWhile_append (hw : Plain w) (hu : Ends u) : (w ++ u).takeWhile (!isMark ·) = w := by
  rw [List.takeWhile_append_of_pos (by simpa [Plain] using hw)]
  cases u with
  | nil => rw [List.takeWhile_nil, List.append_nil]
  | cons c u =>
    have hmark : isMark c = true := by
      rcases hu c rfl with rfl | rfl <;> rfl
    rw [List.takeWhile_cons_of_neg (by simp [hmark]), List.append_nil]

theorem Plain.append_inj (hw : Plain w) (hw' : Plain w') (hu : Ends u) (hv : Ends v) (h : w ++ u = w' ++ v) :
    w = w' ∧ u = v := by
  have hword : w = w' := by
    rw [← hw.takeWhile_append hu, h, hw'.takeWhile_append hv]
  subst hword
  exact ⟨rfl, List.append_cancel_left h⟩

/-- a word does not begin like an operator with its operands -/
theorem Plain.append_ne_open (hw : Plain w) (hu : Ends u) : w ++ u ≠ '(' :: v := by
  intro h
  cases w with
  | nil =>
    rw [List.nil_append] at h
    subst h
    rcases hu '(' rfl with hc | hc <;> cases hc
  | cons c w =>
    obtain ⟨rfl, -⟩ := List.cons.inj h
    exact absurd (hw '(' List.mem_cons_self) (by decide)

end

/-! ## The words of constants -/

theorem isMark_of_isDigit {c : Char} (h : c.isDigit = true) : isMark c = false := by
  by_contra hmark
  simp only [isMark, Bool.not_eq_false, Bool.or_eq_true, beq_iff_eq] at hmark
  rcases hmark with (rfl | rfl) | rfl <;> exact absurd h (by decide)

namespace Decimal

/-- the texts of what is no finite number -/
def improper : List String := ["NaN", "inf", "-inf"]

/-- the text of any other number has digits around a point, and perhaps a sign in front -/
theorem numberText_cases (x : Float) : numberText x ∈ improper ∨
    ∃ negative text whole fraction, numberText x = signed negative text ∧ Pointed text whole fraction := by
  unfold numberText
  split
  · exact .inl (by decide)
  · next negative _ =>
    left
    cases negative <;> decide
  · right
    split
    · exact ⟨_, _, _, _, rfl, pointed_zero Nat.toDigits_ne_nil fun c => isDigit_of_mem_toDigits⟩
    · obtain ⟨whole, fraction, hpointed, -⟩ := positional_pointed (shortest _ _)
      exact ⟨_, _, _, _, rfl, hpointed⟩

theorem Pointed.plain {text whole fraction : List Char} (h : Pointed text whole fraction) : Plain text := by
  intro c hc
  rw [h.text_eq] at hc
  rcases List.mem_append.1 hc with hc | hc
  · exact isMark_of_isDigit (h.whole_digits c hc)
  rcases List.mem_cons.1 hc with rfl | hc
  · decide
  · exact isMark_of_isDigit (h.fraction_digits c hc)

theorem numberText_plain (x : Float) : Plain (numberText x).toList := by
  rcases numberText_cases x with h | ⟨negative, text, whole, fraction, h, hpointed⟩
  · have himproper : ∀ text ∈ improper, Plain text.toList := by simp [improper, Plain, isMark]
    exact himproper _ h
  · rw [h, signed, String.toList_ofList]
    cases negative with
    | false => exact hpointed.plain
    | true => exact List.forall_mem_cons.2 ⟨by decide, hpointed.plain⟩

/-- a text without a point is not the text of a number, with three exceptions -/
theorem numberText_ne {x : Float} {text : String} (hpoint : '.' ∉ text.toList) (hproper : text ∉ improper) :
    numberText x ≠ text := by
  rintro rfl
  rcases numberText_cases x with h | ⟨negative, text, whole, fraction, h, hpointed⟩
  · exact hproper h
  · apply hpoint
    rw [h, signed, String.toList_ofList, hpointed.text_eq]
    cases negative <;> simp

end Decimal

theorem mem_toString_int {n : Int} {c : Char} (h : c ∈ (toString n).toList) : c.isDigit = true ∨ c = '-' := by
  have hdigits : ∀ k : Nat, c ∈ k.repr.toList → c.isDigit = true := by
    intro k hc
    rw [Nat.toList_repr] at hc
    exact Decimal.isDigit_of_mem_toDigits hc
  cases n with
  | ofNat k => exact .inl (hdigits k h)
  | negSucc k =>
    have htext : (toString (Int.negSucc k)).toList = '-' :: (k + 1).repr.toList := by
      rw [Int.toString_eq_repr, Int.repr_eq_if, if_neg (by simp)]
      simp
    rw [htext] at h
    rcases List.mem_cons.1 h with rfl | h
    · exact .inr rfl
    · exact .inl (hdigits _ h)

/-- the text of an integer has no other characters -/
theorem toString_int_ne {n : Int} {text : String} (h : ∃ c ∈ text.toList, c.isDigit = false ∧ c ≠ '-') :
    toString n ≠ text := by
  rintro rfl
  obtain ⟨c, hc, hdigit, hminus⟩ := h
  rcases mem_toString_int hc with h | h
  · rw [hdigit] at h
    cases h
  · exact hminus h

namespace Constant

variable {c d : Constant}

theorem plain_print (hc : c.isString = false) : Plain c.print.toList := by
  cases c with
  | nil => simp [print, Plain, isMark]
  | bool b => cases b <;> simp [print, Plain, isMark]
  | integer n =>
    intro c hc
    rcases mem_toString_int hc with h | rfl
    · exact isMark_of_isDigit h
    · decide
  | double x => exact Decimal.numberText_plain x
  | string s => cases hc

/-- the text of a double is not that of another constant -/
theorem numberText_ne_print {x : Float} (hstring : d.isString = false) (hdouble : ∀ y, d ≠ .double y) :
    Decimal.numberText x ≠ d.print := by
  cases d with
  | nil => exact Decimal.numberText_ne (by decide) (by decide)
  | bool b => cases b <;> exact Decimal.numberText_ne (by decide) (by decide)
  | integer n =>
    apply Decimal.numberText_ne
    · intro h
      rcases mem_toString_int h with h | h <;> exact absurd h (by decide)
    · intro h
      have hletter : ∀ text ∈ Decimal.improper, ∃ c ∈ text.toList, c.isDigit = false ∧ c ≠ '-' := by
        simp [Decimal.improper]
      exact toString_int_ne (hletter _ h) rfl
  | double y => exact absurd rfl (hdouble y)
  | string s => cases hstring

/-- the text of an integer is not that of another constant -/
theorem toString_ne_print {n : Int32} (hstring : d.isString = false) (hinteger : ∀ m, d ≠ .integer m) :
    toString n.toInt ≠ d.print := by
  cases d with
  | nil => exact toString_int_ne (by simp [print])
  | bool b => cases b <;> exact toString_int_ne (by simp [print])
  | integer m => exact absurd rfl (hinteger m)
  | double x => exact (numberText_ne_print (d := .integer n) rfl (by simp)).symm
  | string s => cases hstring

/-- **The text of a constant tells the constant,** except for strings, and up to the text of a double. -/
theorem matches_of_print (hc : c.isString = false) (hd : d.isString = false) (h : c.print = d.print) :
    c.Matches d := by
  cases c with
  | string s => cases hc
  | double x =>
    cases d with
    | double y => exact .double h
    | _ => exact absurd h (numberText_ne_print hd (by simp))
  | integer n =>
    cases d with
    | integer m =>
      obtain rfl := Int32.toInt_inj.1 (Int.repr_inj.1 h)
      exact .refl _
    | _ => exact absurd h (toString_ne_print hd (by simp))
  | nil =>
    cases d with
    | nil => exact .refl _
    | bool b => cases b <;> exact absurd h (by decide)
    | integer m => exact absurd h.symm (toString_ne_print hc (by simp))
    | double y => exact absurd h.symm (numberText_ne_print hc (by simp))
    | string s => cases hd
  | bool b =>
    cases d with
    | nil => cases b <;> exact absurd h (by decide)
    | bool b' =>
      have hb : b = b' := by
        revert h
        cases b <;> cases b' <;> decide
      rw [hb]
      exact .refl _
    | integer m => exact absurd h.symm (toString_ne_print hc (by simp))
    | double y => exact absurd h.symm (numberText_ne_print hc (by simp))
    | string s => cases hd

end Constant

/-! ## The words of operators -/

namespace Kind

variable {k k' : Kind} {text : String}

theorem plain_of_spellings (h : text ∈ k.spellings) : Plain text.toList ∧ text ≠ "group" := by
  cases k <;> simp only [spellings, List.mem_cons, List.not_mem_nil, or_false] at h
  case bang => rcases h with rfl | rfl <;> simp [Plain, isMark]
  all_goals
    subst h
    simp [Plain, isMark]

theorem eq_of_spellings (h : text ∈ k.spellings) (h' : text ∈ k'.spellings) : k = k' := by
  have hfind : ∀ k : Kind, ∀ text ∈ k.spellings, all.find? (text ∈ ·.spellings) = some k := by
    intro k
    cases k <;> decide
  exact Option.some.inj ((hfind k text h).symm.trans (hfind k' text h'))

theorem spellings_ne_nil_of_level {l : Level} (h : k.level? = some l) : k.spellings ≠ [] := by
  cases k <;> first | cases h; done | simp [spellings]

theorem spellings_ne_nil_of_unary (h : k.isUnary = true) : k.spellings ≠ [] := by
  cases k <;> first | cases h; done | simp [spellings]

end Kind

/-- the token of an operator has one of its spellings for its text -/
inductive Lexeme.Spelled : Lexeme → Prop where
  | operator {kind : Kind} {literal : Option Literal} {text : List Char} (h : String.ofList text ∈ kind.spellings) :
      Spelled ⟨.token kind literal, text⟩
  | other {kind : Kind} {literal : Option Literal} {text : List Char} (h : kind.spellings = []) :
      Spelled ⟨.token kind literal, text⟩
  | noToken {piece : Piece} {text : List Char} (h : ∀ kind literal, piece ≠ .token kind literal) : Spelled ⟨piece, text⟩

theorem cutString_spelled (cs : List Char) : ((cutString cs).lexeme '"').Spelled := by
  unfold cutString
  split
  · exact .other rfl
  · exact .noToken (by simp)

theorem wholeNumber_spelled (digits text : List Char) : Lexeme.Spelled ⟨wholeNumber digits, text⟩ := by
  unfold wholeNumber
  dsimp only
  split
  · exact .other rfl
  · exact .other rfl

theorem cutNumber_spelled (c : Char) (cs : List Char) : ((cutNumber c cs).lexeme c).Spelled := by
  simp only [cutNumber]
  split
  · exact .other rfl
  · generalize cs.takeWhile Char.isDigit = digits
    generalize cs.dropWhile Char.isDigit = rest
    fun_cases cutDigits c digits rest
    · exact .other rfl
    · exact wholeNumber_spelled _ _
    · exact wholeNumber_spelled _ _

theorem cutWord_spelled (c : Char) (cs : List Char) : ((cutWord .standard c cs).lexeme c).Spelled := by
  simp only [cutWord, Cut.lexeme]
  split
  · next kind h =>
    obtain ⟨w, hw, rfl⟩ := Option.map_eq_some_iff.1 h
    have hspelled : w.name ∈ w.kind.spellings ∨ w.kind.spellings = [] := by
      cases w <;> decide
    rcases hspelled with hspelled | hother
    · rw [Keyword.name_of_ofName? hw] at hspelled
      exact .operator hspelled
    · exact .other hother
  · exact .other rfl

theorem cutOperator_spelled (c : Char) (cs : List Char) : ((cutOperator c cs).lexeme c).Spelled := by
  unfold cutOperator
  split
  · next kind n h =>
    have hspelled : kind.spellings = [] ∨ String.ofList (c :: cs.take n) ∈ kind.spellings := by
      -- the character after the first is looked at as well
      cases cs <;> unfold operator? at h <;> split at h
      all_goals cases h <;> simp_all [Kind.spellings]
    rcases hspelled with hother | hspelled
    · exact .other hother
    · exact .operator hspelled
  · exact .noToken (by simp)

theorem cut_spelled (c : Char) (cs : List Char) : ((cut .standard c cs).lexeme c).Spelled := by
  unfold cut
  split
  · exact .noToken (by simp)
  split
  · next h => exact h ▸ cutString_spelled cs
  split
  · exact cutNumber_spelled c cs
  split
  · exact cutWord_spelled c cs
  split
  · next h =>
    subst h
    split
    · exact .noToken (by simp [cutLineComment])
    · unfold cutBlockComment
      split <;> exact .noToken (by simp)
    · exact cutOperator_spelled '/' cs
  · exact cutOperator_spelled c cs

/-- **Operators are spelled as the standard keywords have it** in the tokens of every source. -/
theorem lex_spelled {source : String} {t : Token} (ht : t ∈ (lex .standard source).tokens)
    (hkind : t.kind.spellings ≠ []) : t.lexeme ∈ t.kind.spellings := by
  rcases List.mem_append.1 ht with ht | ht
  · obtain ⟨⟨l, start⟩, hl, hlt⟩ := List.mem_filterMap.1 ht
    obtain ⟨c, cs, rfl⟩ := exists_cut_of_mem (lexeme_mem_of_mem_placed hl)
    have hspelled := cut_spelled c cs
    generalize (cut .standard c cs).lexeme c = l at hspelled hlt
    cases hspelled with
    | operator h =>
      obtain rfl := Option.some.inj hlt
      exact h
    | other h =>
      obtain rfl := Option.some.inj hlt
      exact absurd h hkind
    | noToken h =>
      unfold Placed.token? at hlt
      split at hlt
      · next kind literal hpiece => exact absurd hpiece (h kind literal)
      · cases hlt
  · rw [List.mem_singleton.1 ht] at hkind
    exact absurd rfl hkind

/-! ## Trees -/

/-- A tree that can be read from its print: its operators are spelled as the standard keywords have it, and none of its
constants is a string. -/
structure Expr.Legible (e : Expr) : Prop where
  operators : ∀ f ∈ e.operators, f.lexeme ∈ f.kind.spellings
  constants : ∀ c ∈ e.constants, c.isString = false

/-- operators of a derived tree are tokens that it is derived from -/
theorem Derivation.operators_tree {s : Symbol} (d : Derivation s) {ts : List Token} (h : d.yield ⊆ ts) :
    ∀ f ∈ d.tree.operators, f ∈ ts ∧ f.kind.spellings ≠ [] := by
  induction d with
  | plain d ih | operand d ih | bare d ih => exact ih h
  | literal t c _ =>
    intro f hf
    cases hf
  | group o a k _ _ ih => exact ih fun t ht => h (by simp [yield, ht])
  | sign f a hop ih =>
    refine List.forall_mem_cons.2 ⟨⟨h List.mem_cons_self, ?_⟩, ih fun t ht => h (List.mem_cons_of_mem f ht)⟩
    exact Kind.spellings_ne_nil_of_unary ((mem_unaryOperators_iff _).1 hop)
  | @fold l a f b hop iha ihb =>
    refine List.forall_mem_append.2 ⟨iha fun t ht => h (by simp [yield, ht]), ?_⟩
    refine List.forall_mem_cons.2 ⟨⟨h (by simp [yield]), ?_⟩, ihb fun t ht => h (by simp [yield, ht])⟩
    exact Kind.spellings_ne_nil_of_level ((l.mem_operators_iff _).1 hop)
  | ternary a q b k c _ _ iha ihb ihc =>
    have hbranches := List.forall_mem_append.2
      ⟨iha fun t ht => h (by simp [yield, ht]), ihb fun t ht => h (by simp [yield, ht])⟩
    exact List.forall_mem_append.2 ⟨hbranches, ihc fun t ht => h (by simp [yield, ht])⟩

/-- trees read from the tokens of a source are legible, if no string is among their constants -/
theorem Reader.Returns.legible {source : String} {r : Reader} {e : Expr}
    (hr : r.unread ⊆ (lex .standard source).tokens) (h : r.Returns e) (hs : ∀ c ∈ e.constants, c.isString = false) :
    e.Legible := by
  refine ⟨fun f hf => ?_, hs⟩
  obtain ⟨d, rfl, -, hyield⟩ := h.derived
  obtain ⟨hmem, hkind⟩ := d.operators_tree (List.Subset.trans hyield hr) f hf
  exact lex_spelled hmem hkind

namespace Expr

theorem subset_of_mem_parts {a e : Expr} (ha : a ∈ e.parts) :
    a.operators ⊆ e.operators ∧ a.constants ⊆ e.constants := by
  cases e with
  | literal c => cases ha
  | grouping b | unary f b =>
    obtain rfl := List.mem_singleton.1 ha
    simp [operators, constants]
  | binary b f c =>
    simp only [parts, List.mem_cons, List.not_mem_nil, or_false] at ha
    rcases ha with rfl | rfl <;> constructor <;> intro x hx <;> simp [operators, constants, hx]
  | ternary b c d =>
    simp only [parts, List.mem_cons, List.not_mem_nil, or_false] at ha
    rcases ha with rfl | rfl | rfl <;> constructor <;> intro x hx <;> simp [operators, constants, hx]

theorem Legible.part {a e : Expr} (h : e.Legible) (ha : a ∈ e.parts) : a.Legible :=
  have ⟨hoperators, hconstants⟩ := subset_of_mem_parts ha
  ⟨fun f hf => h.operators f (hoperators hf), fun c hc => h.constants c (hconstants hc)⟩

/-- the word at the root of a printed tree -/
def word : Expr → String
  | .literal c => c.print
  | .grouping _ => "group"
  | .unary f _ | .binary _ f _ => f.lexeme
  | .ternary .. => "?:"

/-- what stands behind the word of an operator: its operands, each behind a blank, and a closing parenthesis -/
def operands : List Expr → List Char
  | [] => [')']
  | a :: rest => ' ' :: (a.print.toList ++ operands rest)

theorem print_of_parts_eq_nil {e : Expr} (h : e.parts = []) : e.print = e.word := by
  cases e with
  | literal c => rfl
  | _ => cases h

theorem print_of_parts_ne_nil {e : Expr} (h : e.parts ≠ []) :
    e.print.toList = '(' :: (e.word.toList ++ operands e.parts) := by
  cases e with
  | literal c => exact absurd rfl h
  | _ => simp [print, word, operands, parts]

theorem Legible.plain_word {e : Expr} (h : e.Legible) : Plain e.word.toList := by
  cases e with
  | literal c => exact c.plain_print (h.constants c List.mem_cons_self)
  | grouping a => simp [word, Plain, isMark]
  | unary f a => exact (Kind.plain_of_spellings (h.operators f List.mem_cons_self)).1
  | binary a f b => exact (Kind.plain_of_spellings (h.operators f (by simp [Expr.operators]))).1
  | ternary a b c => simp [word, Plain, isMark]

theorem ends_operands (es : List Expr) (after : List Char) : Ends (operands es ++ after) := by
  cases es with
  | nil => exact ends_close _
  | cons a es => exact ends_blank _

/-- the word and the parts tell the node -/
theorem matches_of_parts {a b : Expr} (ha : a.Legible) (hb : b.Legible) (hword : a.word = b.word)
    (hparts : List.Forall₂ Matches a.parts b.parts) : a.Matches b := by
  cases a with
  | literal c =>
    cases b with
    | literal d =>
      have hc := ha.constants c List.mem_cons_self
      have hd := hb.constants d List.mem_cons_self
      exact .literal (Constant.matches_of_print hc hd hword)
    | _ => simp [parts] at hparts
  | grouping a =>
    cases b with
    | grouping b => exact .grouping (List.forall₂_cons.1 hparts).1
    | unary g b => exact absurd hword.symm (Kind.plain_of_spellings (hb.operators g List.mem_cons_self)).2
    | _ => simp [parts] at hparts
  | unary f a =>
    have hf := ha.operators f List.mem_cons_self
    cases b with
    | grouping b => exact absurd hword (Kind.plain_of_spellings hf).2
    | unary g b =>
      have hg := hb.operators g List.mem_cons_self
      have hlexeme : f.lexeme = g.lexeme := hword
      rw [← hlexeme] at hg
      exact .unary (Kind.eq_of_spellings hf hg) hlexeme (List.forall₂_cons.1 hparts).1
    | _ => simp [parts] at hparts
  | binary a f a' =>
    cases b with
    | binary b g b' =>
      have hf := ha.operators f (by simp [Expr.operators])
      have hg := hb.operators g (by simp [Expr.operators])
      have hlexeme : f.lexeme = g.lexeme := hword
      rw [← hlexeme] at hg
      obtain ⟨hleft, hrest⟩ := List.forall₂_cons.1 hparts
      exact .binary (Kind.eq_of_spellings hf hg) hlexeme hleft (List.forall₂_cons.1 hrest).1
    | _ => simp [parts] at hparts
  | ternary a a' a'' =>
    cases b with
    | ternary b b' b'' =>
      obtain ⟨hcondition, hrest⟩ := List.forall₂_cons.1 hparts
      obtain ⟨hthen, hrest⟩ := List.forall₂_cons.1 hrest
      exact .ternary hcondition hthen (List.forall₂_cons.1 hrest).1
    | _ => simp [parts] at hparts

theorem operands_append_inj {as bs : List Expr} {u v : List Char}
    (has : ∀ a ∈ as, ∀ b ∈ bs, ∀ u v, Ends u → Ends v → a.print.toList ++ u = b.print.toList ++ v →
      a.Matches b ∧ u = v)
    (h : operands as ++ u = operands bs ++ v) : List.Forall₂ Matches as bs ∧ u = v := by
  induction as generalizing bs with
  | nil =>
    cases bs with
    | nil => exact ⟨.nil, (List.cons.inj h).2⟩
    | cons b bs => exact absurd (List.cons.inj h).1 (by decide)
  | cons a as ih =>
    cases bs with
    | nil => exact absurd (List.cons.inj h).1 (by decide)
    | cons b bs =>
      simp only [operands, List.cons_append, List.cons.injEq, true_and, List.append_assoc] at h
      obtain ⟨hmatches, hrest⟩ := has a List.mem_cons_self b List.mem_cons_self _ _ (ends_operands _ _)
        (ends_operands _ _) h
      obtain ⟨hall, huv⟩ := ih (fun a ha b hb => has a (List.mem_cons_of_mem _ ha) b (List.mem_cons_of_mem _ hb)) hrest
      exact ⟨.cons hmatches hall, huv⟩

/-- **A printed tree can be taken from the front of a text,** as long as it ends there. -/
theorem print_append_inj {a b : Expr} (ha : a.Legible) (hb : b.Legible) {u v : List Char} (hu : Ends u) (hv : Ends v)
    (h : a.print.toList ++ u = b.print.toList ++ v) : a.Matches b ∧ u = v := by
  induction a using parts_induction generalizing b u v with
  | step a ih =>
    by_cases hpa : a.parts = []
    · by_cases hpb : b.parts = []
      · rw [print_of_parts_eq_nil hpa, print_of_parts_eq_nil hpb] at h
        obtain ⟨hword, rfl⟩ := ha.plain_word.append_inj hb.plain_word hu hv h
        refine ⟨matches_of_parts ha hb (String.toList_inj.1 hword) ?_, rfl⟩
        rw [hpa, hpb]
        exact .nil
      · rw [print_of_parts_eq_nil hpa, print_of_parts_ne_nil hpb] at h
        exact absurd h (ha.plain_word.append_ne_open hu)
    · by_cases hpb : b.parts = []
      · rw [print_of_parts_ne_nil hpa, print_of_parts_eq_nil hpb] at h
        exact absurd h.symm (hb.plain_word.append_ne_open hv)
      · rw [print_of_parts_ne_nil hpa, print_of_parts_ne_nil hpb] at h
        simp only [List.cons_append, List.cons.injEq, true_and, List.append_assoc] at h
        obtain ⟨hword, hrest⟩ := ha.plain_word.append_inj hb.plain_word (ends_operands _ _) (ends_operands _ _) h
        obtain ⟨hparts, huv⟩ := operands_append_inj (fun c hc d hd u v hu hv h =>
          ih c hc (ha.part hc) (hb.part hd) hu hv h) hrest
        exact ⟨matches_of_parts ha hb (String.toList_inj.1 hword) hparts, huv⟩

end Expr

/-- **A printed tree tells the tree.** Two trees that are read from tokens of sources, cut with the standard keywords,
and that contain no strings, print alike if and only if they have the same nodes in the same places, operators of the
same kinds and texts, and the same constants, where two doubles need only have the same text. -/
theorem print_determines_tree (source source' : String) (r r' : Reader) (a b : Expr)
    (hr : r.unread ⊆ (lex .standard source).tokens) (hr' : r'.unread ⊆ (lex .standard source').tokens)
    (ha : r.Returns a) (hb : r'.Returns b) (hastrings : ∀ c ∈ a.constants, c.isString = false)
    (hbstrings : ∀ c ∈ b.constants, c.isString = false) : a.print = b.print ↔ a.Matches b := by
  constructor
  · intro h
    have hlegible := ha.legible hr hastrings
    have hlegible' := hb.legible hr' hbstrings
    exact (Expr.print_append_inj hlegible hlegible' ends_nil ends_nil (congrArg (·.toList ++ []) h)).1
  · exact Expr.Matches.print_eq

/-- `not` of a sum, on one line and on three: the trees print alike, so they match, though their operators do not stand
in the same places. -/
theorem layouts_print_alike : ∃ a b : Expr,
    (Reader.ofTokens (lex .standard "not (1 + 2)").tokens 10).single.result = some a ∧
    (Reader.ofTokens (lex .standard "not\n(1 /* one */\n + 2)").tokens 10).single.result = some b ∧
    a.print = "(not (group (+ 1 2)))" ∧ a.operators.map (·.line) = [1, 1] ∧ b.operators.map (·.line) = [1, 3] ∧
    a.Matches b := by
  have hread : (Reader.ofTokens (lex .standard "not (1 + 2)").tokens 10).single.result.map
      (fun e => (e.print, e.operators.map (·.line), e.constants.map (·.isString))) =
        some ("(not (group (+ 1 2)))", [1, 1], [false, false]) := by decide +kernel
  have hread' : (Reader.ofTokens (lex .standard "not\n(1 /* one */\n + 2)").tokens 10).single.result.map
      (fun e => (e.print, e.operators.map (·.line), e.constants.map (·.isString))) =
        some ("(not (group (+ 1 2)))", [1, 3], [false, false]) := by decide +kernel
  obtain ⟨a, ha, hprint⟩ := Option.map_eq_some_iff.1 hread
  obtain ⟨b, hb, hprint'⟩ := Option.map_eq_some_iff.1 hread'
  simp only [Prod.mk.injEq] at hprint hprint'
  obtain ⟨hprint, hlines, hstrings⟩ := hprint
  obtain ⟨hprint', hlines', hstrings'⟩ := hprint'
  have hall : ∀ e : Expr, e.constants.map (·.isString) = [false, false] → ∀ c ∈ e.constants, c.isString = false := by
    intro e he c hc
    have hmem : c.isString ∈ e.constants.map (·.isString) := List.mem_map_of_mem hc
    rw [he] at hmem
    simpa using hmem
  refine ⟨a, b, ha, hb, hprint, hlines, hlines', ?_⟩
  exact (print_determines_tree _ _ _ _ a b (List.takeWhile_subset _) (List.takeWhile_subset _) (.inl ha) (.inl hb)
    (hall a hstrings) (hall b hstrings')).1 (hprint.trans hprint'.symm)

end Reckoner
