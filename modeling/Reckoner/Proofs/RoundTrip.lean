/-
Trees written out are read back.

A tree can be written without further parentheses if its operators stand as their levels ask (`Expr.Shaped`). Its tokens
from left to right are `Expr.written`, and `Expr.source` is their text, with one blank between each two of them.

- `Expr.written_alone`: the text of each of these tokens is read as this token by itself, so the source is cut into
  them; for a number that is not whole this rests on `Decimal.read_numberText`;
- `restores_of_written`: tokens like these derive from the grammar, with a tree of the same shape and the same print.

Main statement: `single_source`.
-/
import Mathlib.Tactic
import Reckoner.Expr.Printer
import Reckoner.Proofs.Acceptance
import Reckoner.Proofs.Escapes
import Reckoner.Proofs.FloatEquality
import Reckoner.Proofs.ReadBack

namespace Reckoner

/-! ## Strings -/

/-- a string body with a backslash before every backslash and every quote -/
def escape : List Char → List Char
  | [] => []
  | c :: rest => if c = '\\' ∨ c = '"' then '\\' :: c :: escape rest else c :: escape rest

theorem encodes_escape (text : List Char) : Encodes text (escape text) := by
  induction text with
  | nil => exact .nil
  | cons c text ih =>
    unfold escape
    split
    · next h => exact .named (by rcases h with rfl | rfl <;> decide) ih
    · next h => exact .plain (fun hc => h (.inl hc)) (fun hc => h (.inr hc)) ih

/-! ## Tokens of a tree -/

/-- the token of a constant, without a place -/
def Constant.token : Constant → Token
  | .nil => { kind := .nilWord, lexeme := "nil" }
  | .bool true => { kind := .trueWord, lexeme := "true" }
  | .bool false => { kind := .falseWord, lexeme := "false" }
  | .integer n => { kind := .integer, lexeme := toString n.toInt, literal := some (.integer n) }
  | .double x => { kind := .double, lexeme := Decimal.numberText x, literal := some (.double x) }
  | .string s =>
    { kind := .string, lexeme := String.ofList ('"' :: (escape s.toList ++ ['"'])), literal := some (.text s) }

def Token.asOperator (f : Token) : Token :=
  { kind := f.kind, lexeme := f.lexeme }

namespace Expr

/-- the tokens of a tree from left to right, without places -/
def written : Expr → List Token
  | .literal c => [c.token]
  | .grouping a =>
    { kind := .leftParen, lexeme := "(" } :: (a.written ++ [{ kind := .rightParen, lexeme := ")" }])
  | .unary f a => f.asOperator :: a.written
  | .binary a f b => a.written ++ f.asOperator :: b.written
  | .ternary a b c =>
    a.written ++ { kind := .question, lexeme := "?" } :: (b.written ++ { kind := .colon, lexeme := ":" } :: c.written)

/-- a tree as text: its tokens with one blank between each two of them -/
def source (e : Expr) : String :=
  " ".intercalate (e.written.map (·.lexeme))

def constants : Expr → List Constant
  | .literal c => [c]
  | .grouping a | .unary _ a => a.constants
  | .binary a _ b => a.constants ++ b.constants
  | .ternary a b c => a.constants ++ b.constants ++ c.constants

def operators : Expr → List Token
  | .literal _ => []
  | .grouping a => a.operators
  | .unary f a => f :: a.operators
  | .binary a f b => a.operators ++ f :: b.operators
  | .ternary a b c => a.operators ++ b.operators ++ c.operators

end Expr

/-! ## Trees that respect the levels -/

/-- how loose a level is, after constants, parentheses and unary operators -/
def Level.rank : Level → Nat
  | .exponent => 2
  | .product => 3
  | .sum => 4
  | .logic => 5
  | .comparison => 6
  | .equality => 7

namespace Expr

/-- how loose the operator at the root of a tree is -/
def rank : Expr → Nat
  | .literal _ | .grouping _ => 0
  | .unary .. => 1
  | .binary _ f _ => f.kind.level?.elim 8 Level.rank
  | .ternary .. => 8

theorem rank_le (e : Expr) : e.rank ≤ 8 := by
  have hlevel : ∀ l : Level, l.rank ≤ 8 := fun l => by cases l <;> decide
  cases e with
  | literal | grouping | unary | ternary => simp [rank]
  | binary a f b =>
    cases hf : f.kind.level? with
    | none => simp [rank, hf]
    | some l => simpa [rank, hf] using hlevel l

/-- A tree that respects the levels: on the left of a binary operator stands its own level or a tighter one, on its
right a tighter one, the parts of a conditional are at the loosest level of binary operators or tighter, and a unary
operator applies to a unary operator, to a constant or to parentheses. Inside of parentheses stands anything. -/
def Shaped : Expr → Prop
  | .literal _ => True
  | .grouping a => a.Shaped
  | .unary f a => f.kind.isUnary = true ∧ a.rank ≤ 1 ∧ a.Shaped
  | .binary a f b => ∃ l, f.kind.level? = some l ∧ a.rank ≤ l.rank ∧ b.rank < l.rank ∧ a.Shaped ∧ b.Shaped
  | .ternary a b c =>
    a.rank ≤ Level.equality.rank ∧ b.rank ≤ Level.equality.rank ∧ c.rank ≤ Level.equality.rank ∧
      a.Shaped ∧ b.Shaped ∧ c.Shaped

end Expr

/-- a constant that can be written: no negative number, and no number that is not finite -/
def Constant.Writable : Constant → Prop
  | .nil | .bool _ | .string _ => True
  | .integer n => 0 ≤ n.toInt
  | .double x => ∃ m q, Decimal.Double.of x = .finite false m q

/-- the texts that stand for an operator as long as no keyword is respelled -/
def Kind.spellings : Kind → List String
  | .minus => ["-"]
  | .plus => ["+"]
  | .slash => ["/"]
  | .star => ["*"]
  | .starStar => ["**"]
  | .bang => ["!", "not"]
  | .bangEqual => ["!="]
  | .equalEqual => ["=="]
  | .greater => [">"]
  | .greaterEqual => [">="]
  | .less => ["<"]
  | .lessEqual => ["<="]
  | .and => ["and"]
  | .or => ["or"]
  | .bitOr => ["b_or"]
  | .bitAnd => ["b_and"]
  | .bitNot => ["b_not"]
  | .bitXor => ["b_xor"]
  | .bitNand => ["b_nand"]
  | _ => []

/-! ## The tokens by themselves -/

theorem alone_of_spelling {f : Token} (h : f.lexeme ∈ f.kind.spellings) : f.asOperator.Alone .standard := by
  unfold Token.asOperator
  generalize f.kind = kind at h ⊢
  generalize f.lexeme = text at h ⊢
  cases kind <;> simp only [Kind.spellings, List.mem_cons, List.not_mem_nil, or_false] at h
  case bang => rcases h with rfl | rfl <;> exact Token.alone_of_cut rfl rfl
  all_goals
    subst h
    exact Token.alone_of_cut rfl rfl

theorem Constant.token_alone {c : Constant} (h : c.Writable) : c.token.Alone .standard := by
  cases c with
  | nil => exact Token.alone_of_cut rfl rfl
  | bool b => cases b <;> exact Token.alone_of_cut rfl rfl
  | integer n =>
    obtain ⟨k, hk⟩ := Int.eq_ofNat_of_zero_le h
    have hle : k ≤ maxInteger := by
      have hlt := n.toInt_lt
      unfold maxInteger
      omega
    have hn : Int32.ofNat k = n := by
      rw [← Int32.toInt_inj, Int32.toInt_ofNat_of_lt (by unfold maxInteger at hle; omega), hk]
    have htext : (toString n.toInt).toList = Nat.toDigits 10 k := by
      rw [hk]
      exact Nat.toList_repr
    cases hdigits : Nat.toDigits 10 k with
    | nil => exact absurd hdigits Nat.toDigits_ne_nil
    | cons d ds =>
      refine Token.alone_of_cut (htext.trans hdigits) ?_
      rw [cut_toDigits _ hdigits hle, hn]
      rfl
  | double x =>
    obtain ⟨m, q, hx⟩ := h
    obtain ⟨whole, fraction, hpointed, hread⟩ := Decimal.read_numberText hx
    cases htext : (Decimal.numberText x).toList with
    | nil => simp [hpointed.text_eq] at htext
    | cons d ds =>
      rw [htext] at hpointed
      refine Token.alone_of_cut htext ?_
      rw [cut_pointed _ hpointed, hread]
      rfl
  | string s =>
    have hword : (Constant.string s).token.lexeme.toList = '"' :: (escape s.toList ++ ['"']) := by
      simp [Constant.token]
    have hcut : cut .standard '"' (escape s.toList ++ ['"']) = cutString (escape s.toList ++ ['"']) := rfl
    refine Token.alone_of_cut hword ?_
    have hencodes := encodes_escape s.toList
    rw [hcut]
    simp [cutString, hencodes.closeQuote?_eq, hencodes.unescape_eq, Constant.token]

/-- the tokens of a tree are each read by themselves -/
theorem Expr.written_alone {e : Expr} (hconstants : ∀ c ∈ e.constants, c.Writable)
    (hoperators : ∀ f ∈ e.operators, f.lexeme ∈ f.kind.spellings) : ∀ t ∈ e.written, t.Alone .standard := by
  induction e with
  | literal c =>
    intro t ht
    rw [List.mem_singleton.1 ht]
    exact Constant.token_alone (hconstants c List.mem_cons_self)
  | grouping a ih =>
    intro t ht
    simp only [written, List.mem_cons, List.mem_append, List.not_mem_nil, or_false] at ht
    rcases ht with rfl | ht | rfl
    · exact Token.alone_of_cut rfl rfl
    · exact ih hconstants hoperators t ht
    · exact Token.alone_of_cut rfl rfl
  | unary f a ih =>
    intro t ht
    rcases List.mem_cons.1 ht with rfl | ht
    · exact alone_of_spelling (hoperators f List.mem_cons_self)
    · exact ih hconstants (fun g hg => hoperators g (List.mem_cons_of_mem f hg)) t ht
  | binary a f b iha ihb =>
    simp only [constants, operators, List.mem_append, List.mem_cons] at hconstants hoperators
    intro t ht
    simp only [written, List.mem_append, List.mem_cons] at ht
    rcases ht with ht | rfl | ht
    · exact iha (fun c hc => hconstants c (.inl hc)) (fun g hg => hoperators g (.inl hg)) t ht
    · exact alone_of_spelling (hoperators f (.inr (.inl rfl)))
    · exact ihb (fun c hc => hconstants c (.inr hc)) (fun g hg => hoperators g (.inr (.inr hg))) t ht
  | ternary a b c iha ihb ihc =>
    simp only [constants, operators, List.mem_append] at hconstants hoperators
    intro t ht
    simp only [written, List.mem_append, List.mem_cons] at ht
    rcases ht with ht | rfl | ht | rfl | ht
    · exact iha (fun c hc => hconstants c (.inl (.inl hc))) (fun g hg => hoperators g (.inl (.inl hg))) t ht
    · exact Token.alone_of_cut rfl rfl
    · exact ihb (fun c hc => hconstants c (.inl (.inr hc))) (fun g hg => hoperators g (.inl (.inr hg))) t ht
    · exact Token.alone_of_cut rfl rfl
    · exact ihc (fun c hc => hconstants c (.inr hc)) (fun g hg => hoperators g (.inr hg)) t ht

/-! ## Derivations -/

/-- the symbol whose trees have an operator of a rank at their root, at most -/
def Symbol.ofRank : Nat → Symbol
  | 0 => .primary
  | 1 => .unary
  | 2 => .binary .exponent
  | 3 => .binary .product
  | 4 => .binary .sum
  | 5 => .binary .logic
  | 6 => .binary .comparison
  | 7 => .binary .equality
  | _ => .expression

theorem Level.ofRank_rank (l : Level) : Symbol.ofRank l.rank = .binary l := by
  cases l <;> rfl

theorem Level.ofRank_pred (l : Level) : Symbol.ofRank (l.rank - 1) = l.operand := by
  cases l <;> rfl

/-- Tokens derive from a symbol, with a tree that has the shape of `e` and is printed like `e`. -/
def Restores (s : Symbol) (ts : List Token) (e : Expr) : Prop :=
  ∃ d : Derivation s, d.yield = ts ∧ d.tree.sameShape e = true ∧ d.tree.print = e.print

theorem Restores.succ {r : Nat} {ts : List Token} {e : Expr} (h : Restores (.ofRank r) ts e) :
    Restores (.ofRank (r + 1)) ts e := by
  obtain ⟨d, hd⟩ := h
  match r, d, hd with
  | 0, d, hd => exact ⟨.bare d, hd⟩
  | 1, d, hd => exact ⟨.operand (l := .exponent) d, hd⟩
  | 2, d, hd => exact ⟨.operand (l := .product) d, hd⟩
  | 3, d, hd => exact ⟨.operand (l := .sum) d, hd⟩
  | 4, d, hd => exact ⟨.operand (l := .logic) d, hd⟩
  | 5, d, hd => exact ⟨.operand (l := .comparison) d, hd⟩
  | 6, d, hd => exact ⟨.operand (l := .equality) d, hd⟩
  | 7, d, hd => exact ⟨.plain d, hd⟩
  | r + 8, d, hd => exact ⟨d, hd⟩

/-- what derives from a symbol derives from the looser ones -/
theorem Restores.mono {r r' : Nat} {ts : List Token} {e : Expr} (h : Restores (.ofRank r) ts e) (hr : r ≤ r') :
    Restores (.ofRank r') ts e := by
  induction hr with
  | refl => exact h
  | step _ ih => exact ih.succ

theorem Constant.beq_self {c : Constant} (h : c.Writable) : (c == c) = true := by
  cases c with
  | nil => rfl
  | bool b => cases b <;> rfl
  | integer n => exact beq_self_eq_true n
  | double x =>
    obtain ⟨m, q, hx⟩ := h
    exact Decimal.beq_self_of_finite hx
  | string s => exact beq_self_eq_true s

theorem Constant.denotes_of_bare {c : Constant} {t : Token} (h : t.bare = c.token) : Denotes t c := by
  have hkind : t.kind = c.token.kind := congrArg (·.kind) h
  have hliteral : t.literal = c.token.literal := congrArg (·.literal) h
  cases c with
  | nil => exact .nil hkind
  | bool b =>
    cases b with
    | false => exact .false hkind
    | true => exact .true hkind
  | integer n => exact .integer (by simp [hkind, token, carriers]) hliteral
  | double x => exact .double (by simp [hkind, token, carriers]) hliteral
  | string s => exact .string (by simp [hkind, token, carriers]) hliteral

/-- a token that stands for an operator is this operator -/
theorem sameOperator_of_bare {t f : Token} (h : t.bare = f.asOperator) : t.sameOperator f = true := by
  have hkind : t.kind = f.kind := congrArg (·.kind) h
  have hlexeme : t.lexeme = f.lexeme := congrArg (·.lexeme) h
  simp [Token.sameOperator, hkind, hlexeme]

section
variable {ts us vs : List Token} {a b c : Expr}

theorem Restores.group {o k : Token} (ho : o.kind = .leftParen) (h : Restores .expression ts a)
    (hk : k.kind = .rightParen) : Restores .primary (o :: (ts ++ [k])) (.grouping a) := by
  obtain ⟨d, rfl, hsame, hprint⟩ := h
  refine ⟨.group o d k ho hk, rfl, hsame, ?_⟩
  simp only [Derivation.tree, Expr.print, hprint]

theorem Restores.sign {t f : Token} (ht : t.bare = f.asOperator) (hf : f.kind.isUnary = true)
    (h : Restores .unary ts a) : Restores .unary (t :: ts) (.unary f a) := by
  have hkind : t.kind = f.kind := congrArg (·.kind) ht
  have hlexeme : t.lexeme = f.lexeme := congrArg (·.lexeme) ht
  obtain ⟨d, rfl, hsame, hprint⟩ := h
  refine ⟨.sign t d ((mem_unaryOperators_iff _).2 (hkind ▸ hf)), rfl, ?_, ?_⟩
  · simp only [Derivation.tree, Expr.sameShape, sameOperator_of_bare ht, hsame, Bool.and_self]
  · simp only [Derivation.tree, Expr.print, hlexeme, hprint]

theorem Restores.fold {l : Level} {t f : Token} (ha : Restores (.binary l) ts a) (ht : t.bare = f.asOperator)
    (hf : f.kind.level? = some l) (hb : Restores l.operand us b) :
    Restores (.binary l) (ts ++ t :: us) (.binary a f b) := by
  have hkind : t.kind = f.kind := congrArg (·.kind) ht
  have hlexeme : t.lexeme = f.lexeme := congrArg (·.lexeme) ht
  obtain ⟨d, rfl, hsame, hprint⟩ := ha
  obtain ⟨d', rfl, hsame', hprint'⟩ := hb
  refine ⟨.fold d t d' ((l.mem_operators_iff _).2 (hkind ▸ hf)), rfl, ?_, ?_⟩
  · simp only [Derivation.tree, Expr.sameShape, sameOperator_of_bare ht, hsame, hsame', Bool.and_self]
  · simp only [Derivation.tree, Expr.print, hlexeme, hprint, hprint']

theorem Restores.conditional {q k : Token} (ha : Restores (.binary .equality) ts a) (hq : q.kind = .question)
    (hb : Restores (.binary .equality) us b) (hk : k.kind = .colon) (hc : Restores (.binary .equality) vs c) :
    Restores .expression (ts ++ q :: (us ++ k :: vs)) (.ternary a b c) := by
  obtain ⟨d, rfl, hsame, hprint⟩ := ha
  obtain ⟨d', rfl, hsame', hprint'⟩ := hb
  obtain ⟨d'', rfl, hsame'', hprint''⟩ := hc
  refine ⟨.ternary d q d' k d'' hq hk, rfl, ?_, ?_⟩
  · simp only [Derivation.tree, Expr.sameShape, hsame, hsame', hsame'', Bool.and_self]
  · simp only [Derivation.tree, Expr.print, hprint, hprint', hprint'']

end

/-- **The tokens of a tree, wherever they stand, derive from the grammar,** and give back the shape and the print of the
tree. -/
theorem restores_of_written {e : Expr} (hshape : e.Shaped) (hconstants : ∀ c ∈ e.constants, c.Writable)
    {ts : List Token} (hts : ts.map Token.bare = e.written) : Restores (.ofRank e.rank) ts e := by
  induction e generalizing ts with
  | literal c =>
    obtain ⟨t, rfl, ht⟩ := List.map_eq_singleton_iff.1 hts
    exact ⟨.literal t c (c.denotes_of_bare ht), rfl, Constant.beq_self (hconstants c List.mem_cons_self), rfl⟩
  | grouping a ih =>
    obtain ⟨o, us, rfl, ho, hus⟩ := List.map_eq_cons_iff.1 hts
    obtain ⟨body, last, rfl, hbody, hlast⟩ := List.map_eq_append_iff.1 hus
    obtain ⟨k, rfl, hk⟩ := List.map_eq_singleton_iff.1 hlast
    have hinner := (ih hshape hconstants hbody).mono a.rank_le
    exact .group (congrArg (·.kind) ho) hinner (congrArg (·.kind) hk)
  | unary f a ih =>
    obtain ⟨hf, hrank, ha⟩ := hshape
    obtain ⟨t, us, rfl, ht, hus⟩ := List.map_eq_cons_iff.1 hts
    exact .sign ht hf ((ih ha hconstants hus).mono hrank)
  | binary a f b iha ihb =>
    obtain ⟨l, hl, hranka, hrankb, ha, hb⟩ := hshape
    simp only [Expr.constants, List.mem_append] at hconstants
    obtain ⟨us, vs, rfl, hus, hvs⟩ := List.map_eq_append_iff.1 hts
    obtain ⟨t, ws, rfl, ht, hws⟩ := List.map_eq_cons_iff.1 hvs
    have hleft := (iha ha (fun c hc => hconstants c (.inl hc)) hus).mono hranka
    have hright := (ihb hb (fun c hc => hconstants c (.inr hc)) hws).mono (Nat.le_sub_one_of_lt hrankb)
    have hrank : (Expr.binary a f b).rank = l.rank := by simp [Expr.rank, hl]
    rw [l.ofRank_rank] at hleft
    rw [l.ofRank_pred] at hright
    rw [hrank, l.ofRank_rank]
    exact hleft.fold ht hl hright
  | ternary a b c iha ihb ihc =>
    obtain ⟨hranka, hrankb, hrankc, ha, hb, hc⟩ := hshape
    simp only [Expr.constants, List.mem_append] at hconstants
    obtain ⟨us, vs, rfl, hus, hvs⟩ := List.map_eq_append_iff.1 hts
    obtain ⟨q, ws, rfl, hq, hws⟩ := List.map_eq_cons_iff.1 hvs
    obtain ⟨xs, ys, rfl, hxs, hys⟩ := List.map_eq_append_iff.1 hws
    obtain ⟨k, zs, rfl, hk, hzs⟩ := List.map_eq_cons_iff.1 hys
    have hcondition := (iha ha (fun c hc => hconstants c (.inl (.inl hc))) hus).mono hranka
    have hthen := (ihb hb (fun c hc => hconstants c (.inl (.inr hc))) hxs).mono hrankb
    have helse := (ihc hc (fun c hc => hconstants c (.inr hc)) hzs).mono hrankc
    exact hcondition.conditional (congrArg (·.kind) hq) hthen (congrArg (·.kind) hk) helse

/-! ## Reading what was written -/

theorem Expr.map_bare_written (e : Expr) : e.written.map Token.bare = e.written := by
  induction e with
  | literal c =>
    cases c with
    | bool b => cases b <;> rfl
    | _ => rfl
  | grouping a ih => simp [written, Token.bare, ih]
  | unary f a ih => simp [written, Token.bare, Token.asOperator, ih]
  | binary a f b iha ihb => simp [written, Token.bare, Token.asOperator, iha, ihb]
  | ternary a b c iha ihb ihc => simp [written, Token.bare, iha, ihb, ihc]

/-- tokens that derive from the grammar and fit the limit are read as one expression, to their end -/
theorem Reader.single_yield {r : Reader} (d : Derivation .expression) (hr : r.unread = d.yield)
    (hc : d.tree.cost ≤ r.limit) :
    r.single = { result := some d.tree, diagnostics := [], events := [], unread := [] } := by
  have hread := Reading.expression_complete r.eof r.limit [] d hc Reading.stops_nil
  rw [List.append_nil, ← hr] at hread
  simp only [Reader.single, hread]
  rfl

/-- **A tree that was written out is read back.** The tree respects the levels, its constants can be written, and its
operators have a text of their kind. Its tokens are written with one blank between each two of them. Then, with a limit
of as many levels as there are tokens or more, cutting the text and reading one expression reports nothing, and gives a
tree of the same shape that is printed alike. -/
theorem single_source (e : Expr) (limit : Nat) (hshape : e.Shaped) (hconstants : ∀ c ∈ e.constants, c.Writable)
    (hoperators : ∀ f ∈ e.operators, f.lexeme ∈ f.kind.spellings) (hlimit : e.written.length ≤ limit) :
    (lex .standard e.source).diagnostics = [] ∧
      (Reader.ofTokens (lex .standard e.source).tokens limit).single.diagnostics = [] ∧
      ∃ t, (Reader.ofTokens (lex .standard e.source).tokens limit).single.result = some t ∧
        t.sameShape e = true ∧ t.print = e.print := by
  obtain ⟨body, eof, htokens, hbare, heof, hdiagnostics⟩ :=
    lex_spaced (Expr.written_alone hconstants hoperators)
  rw [e.map_bare_written] at hbare
  have hrestores : Restores .expression body e := (restores_of_written hshape hconstants hbare).mono e.rank_le
  obtain ⟨d, rfl, hsame, hprint⟩ := hrestores
  have hcost : d.tree.cost ≤ limit := by
    calc d.tree.cost ≤ d.tree.width := d.tree.cost_le_width
      _ = d.yield.length := d.length_yield.symm
      _ = e.written.length := by rw [← hbare, List.length_map]
      _ ≤ limit := hlimit
  have hreader := Reader.ofTokens_concat d.kind_ne_eof heof limit
  have hsingle := Reader.single_yield (r := ⟨d.yield, eof, limit⟩) d rfl hcost
  unfold Expr.source
  rw [htokens, hreader, hsingle]
  exact ⟨hdiagnostics, rfl, d.tree, rfl, hsame, hprint⟩

namespace Sample

def tenth : Float := Float.ofBits 0x3FB999999999999A

/-- a conditional with unary and binary operators, parentheses, words for operators, and a string of a quote and a
backslash -/
def mixed : Expr :=
  .ternary
    (.binary
      (.binary
        (.unary { kind := .bang, lexeme := "not" }
          (.grouping (.binary (.literal (.integer 1)) { kind := .plus, lexeme := "+" } (.literal (.double tenth)))))
        { kind := .star, lexeme := "*" } (.unary { kind := .minus, lexeme := "-" } (.literal (.integer 4))))
      { kind := .equalEqual, lexeme := "==" } (.literal (.string "\"\\")))
    (.literal .nil)
    (.binary (.unary { kind := .bitNot, lexeme := "b_not" } (.literal (.integer 2147483647)))
      { kind := .bitAnd, lexeme := "b_and" } (.literal (.integer 0)))

end Sample

/-- this tree has 18 tokens, and a limit of 18 levels is enough to read it back from its text -/
theorem single_source_mixed :
    Sample.mixed.source = "not ( 1 + 0.1 ) * - 4 == \"\\\"\\\\\" ? nil : b_not 2147483647 b_and 0" ∧
    (lex .standard Sample.mixed.source).diagnostics = [] ∧
      (Reader.ofTokens (lex .standard Sample.mixed.source).tokens 18).single.diagnostics = [] ∧
      ∃ t, (Reader.ofTokens (lex .standard Sample.mixed.source).tokens 18).single.result = some t ∧
        t.sameShape Sample.mixed = true ∧ t.print = Sample.mixed.print := by
  have hfinite : Constant.Writable (.double Sample.tenth) := ⟨_, _, rfl⟩
  refine ⟨by decide +kernel, single_source Sample.mixed 18 ?_ ?_ ?_ (by decide)⟩
  · simp [Sample.mixed, Expr.Shaped, Expr.rank, Kind.level?, Kind.isUnary, Level.rank]
  · simpa [Sample.mixed, Expr.constants, Constant.Writable] using hfinite
  · decide

end Reckoner
