import PhpOutline.Text.Basic

/-!
# Kinds of tokens

The words and signs of PHP source, sorted by what they mean to a reader of declarations.

## Main definitions

* `Keyword` and `Keyword.ofWord?`: the reserved words, recognised in any ASCII case.
* `Kind`: what a token is.
* `Kind.isTrivia`, `Kind.isInsignificant`: what a reader of declarations passes over.
* `Kind.opens`, `Kind.closes`: the bracket that a token opens or closes.

## Main statements

* `Keyword.ofWord?_eq_some_iff`: a word is a keyword exactly when it spells it.
-/

namespace PhpOutline

/-- Who may use a member. -/
inductive Visibility where
  | publicAccess
  | protectedAccess
  | privateAccess
deriving DecidableEq, Repr

/-- A word in front of a declaration that qualifies it. -/
inductive Modifier where
  | access (v : Visibility)
  | var
  | abstract
  | final
  | static
  | readonly
deriving DecidableEq, Repr

/-- The four kinds of declared types. -/
inductive TypeKind where
  | plainClass
  | interface
  | trait
  | enumeration
deriving DecidableEq, Repr

/-- A reserved word that a reader of declarations reacts to. -/
inductive Keyword where
  | namespaceWord
  | use
  | declares (k : TypeKind)
  | function
  | modifier (m : Modifier)
  | const
  | extendsWord
  | implementsWord
  | new
deriving DecidableEq, Repr

namespace Keyword

/-- Every keyword. -/
def all : List Keyword :=
  [.namespaceWord, .use, .declares .plainClass, .declares .interface, .declares .trait,
    .declares .enumeration, .function, .modifier (.access .publicAccess),
    .modifier (.access .protectedAccess), .modifier (.access .privateAccess), .modifier .abstract,
    .modifier .final, .modifier .static, .modifier .var, .const, .modifier .readonly,
    .extendsWord, .implementsWord, .new]

/-- The keyword in small letters. -/
def spelling : Keyword → Text
  | namespaceWord => "namespace".toList
  | use => "use".toList
  | declares .plainClass => "class".toList
  | declares .interface => "interface".toList
  | declares .trait => "trait".toList
  | declares .enumeration => "enum".toList
  | function => "function".toList
  | modifier (.access .publicAccess) => "public".toList
  | modifier (.access .protectedAccess) => "protected".toList
  | modifier (.access .privateAccess) => "private".toList
  | modifier .abstract => "abstract".toList
  | modifier .final => "final".toList
  | modifier .static => "static".toList
  | modifier .var => "var".toList
  | modifier .readonly => "readonly".toList
  | const => "const".toList
  | extendsWord => "extends".toList
  | implementsWord => "implements".toList
  | new => "new".toList

/-- The keyword that a word spells, in any ASCII case. -/
def ofWord? (word : Text) : Option Keyword := all.find? fun k => k.spelling == word.lower

theorem mem_all (k : Keyword) : k ∈ all := by
  rcases k with _ | _ | ⟨_ | _ | _ | _⟩ | _ | ⟨⟨_ | _ | _⟩ | _ | _ | _ | _ | _⟩ | _ | _ | _ | _ <;>
    decide

theorem spelling_injective : ∀ k ∈ all, ∀ l ∈ all, k.spelling = l.spelling → k = l := by
  decide

/-- A word is a keyword exactly when, in small letters, it is that keyword's spelling. -/
theorem ofWord?_eq_some_iff {word : Text} {k : Keyword} :
    ofWord? word = some k ↔ word.lower = k.spelling := by
  constructor
  · intro h
    have := List.find?_some h
    simpa using (beq_iff_eq.1 this).symm
  · intro h
    cases hf : ofWord? word with
    | none =>
      have := List.find?_eq_none.1 hf k (mem_all k)
      simp [h] at this
    | some l =>
      have hl := List.find?_some hf
      have : l.spelling = k.spelling := by rw [← h]; exact beq_iff_eq.1 hl
      rw [spelling_injective l (mem_all l) k (mem_all k) this]

end Keyword

/-- The three pairs of brackets. -/
inductive Bracket where
  | brace
  | paren
  | square
deriving DecidableEq, Repr

/-- What a token is. -/
inductive Kind where
  /-- Text outside the code tags. -/
  | inlineHtml
  | openTag
  /-- A closing tag with one line end behind it, if there is one. -/
  | closeTag
  | whitespace
  | comment
  | docComment
  | keyword (k : Keyword)
  /-- An identifier, or a name of several segments. -/
  | name
  /-- A dollar sign and an identifier. -/
  | variableName
  | number
  /-- A quoted string or a heredoc, quotes included. -/
  | string
  | opener (b : Bracket)
  | closer (b : Bracket)
  /-- The start of an attribute group, which a square bracket closes. -/
  | attributeOpener
  | semicolon
  | comma
  | equals
  | ampersand
  | ellipsis
  | question
  | pipe
  | colon
  | doubleColon
  /-- Member access, null-safe or not. -/
  | objectOperator
  /-- Any other sign. -/
  | other
deriving DecidableEq, Repr

namespace Kind

/-- White space and comments. -/
def isTrivia : Kind → Bool
  | whitespace | comment | docComment => true
  | _ => false

/-- Trivia, tags and the text outside them: no part of a declaration. -/
def isInsignificant : Kind → Bool
  | inlineHtml | openTag | closeTag => true
  | k => k.isTrivia

/-- The modifier that a token is. -/
def modifier? : Kind → Option Modifier
  | keyword (.modifier m) => some m
  | _ => none

/-- The bracket that a token opens; an attribute opener opens a square one. -/
def opens : Kind → Option Bracket
  | opener b => some b
  | attributeOpener => some .square
  | _ => none

/-- The bracket that a token closes. -/
def closes : Kind → Option Bracket
  | closer b => some b
  | _ => none

@[simp] theorem opens_eq_none_of_closes {k : Kind} {b : Bracket} (h : k.closes = some b) :
    k.opens = none := by
  cases k <;> simp_all [closes, opens]

/-- What is no part of a declaration is no bracket. -/
theorem no_bracket_of_isInsignificant {k : Kind} (h : k.isInsignificant = true) :
    k.opens = none ∧ k.closes = none := by
  cases k <;> simp_all [isInsignificant, isTrivia, opens, closes]

theorem isInsignificant_of_opens {k : Kind} {b : Bracket} (h : k.opens = some b) :
    k.isInsignificant = false := by
  rw [← Bool.not_eq_true]
  intro hk
  rw [(no_bracket_of_isInsignificant hk).1] at h
  cases h

theorem isInsignificant_of_closes {k : Kind} {b : Bracket} (h : k.closes = some b) :
    k.isInsignificant = false := by
  rw [← Bool.not_eq_true]
  intro hk
  rw [(no_bracket_of_isInsignificant hk).2] at h
  cases h

end Kind

end PhpOutline
