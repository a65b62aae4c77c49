/-
String bodies. `closeQuote?` finds the quote that ends a string: a backslash takes the character after it along,
so an escaped quote does not count. `unescape` decodes the body that was found; a backslash before a character
that names no escape stands for itself.

`unescape` mirrors the function of this name, and `closeQuote?` the loop of `string`.
-/

namespace Reckoner

def escaped? : Char → Option Char
  | 'n' => some '\n'
  | 't' => some '\t'
  | 'r' => some '\r'
  | '0' => some '\x00'
  | '\\' => some '\\'
  | '"' => some '"'
  | '\x27' => some '\x27'
  | _ => none

def unescape : List Char → List Char
  | [] => []
  | '\\' :: c :: rest =>
    match escaped? c with
    | some decoded => decoded :: unescape rest
    | none => '\\' :: c :: unescape rest
  | c :: rest => c :: unescape rest

/-- the text up to the quote that ends a string, and the text after that quote -/
def closeQuote? : List Char → Option (List Char × List Char)
  | [] => none
  | '"' :: rest => some ([], rest)
  | '\\' :: c :: rest => (closeQuote? rest).map fun (body, after) => ('\\' :: c :: body, after)
  | c :: rest => (closeQuote? rest).map fun (body, after) => (c :: body, after)

theorem closeQuote?_append {text body after : List Char} (h : closeQuote? text = some (body, after)) :
    body ++ '"' :: after = text := by
  fun_induction closeQuote? text generalizing body after with
  | case1 => simp at h
  | case2 => simp_all
  | case3 c rest ih =>
    obtain ⟨⟨b, a⟩, hr, hb⟩ := Option.map_eq_some_iff.1 h
    obtain ⟨rfl, rfl⟩ := Prod.mk.inj hb
    simp [ih hr]
  | case4 c rest _ _ ih =>
    obtain ⟨⟨b, a⟩, hr, hb⟩ := Option.map_eq_some_iff.1 h
    obtain ⟨rfl, rfl⟩ := Prod.mk.inj hb
    simp [ih hr]

end Reckoner
