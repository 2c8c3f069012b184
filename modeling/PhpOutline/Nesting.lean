import PhpOutline.Sweep
import PhpOutline.Token.Kind

/-!
# Nesting of brackets

Where a bracket closes, seen from its opener or from its closer, depends on the kinds of the tokens
only. Brackets of one pair are counted without regard to the other pairs; an attribute opener
counts as an opening square bracket.

## Main definitions

* `closeOffset?`: the place at which the open brackets of a pair are all closed.
* `groupEnd?`: the place that closes the bracket at the head of a sequence.
* `attributeOffset?`: the place, going backwards, of the attribute opener that a square bracket
  closes.
* `depthAfter`: the number of open brackets of all pairs.
* `statementEnd?`, `declarationEnd?`: where a statement or a function ends.
-/

namespace PhpOutline

/-- The place at which the brackets of pair `b` are all closed, when `depth` of them are open
before the sequence. -/
def closeOffset? (b : Bracket) : (depth : Nat) → List Kind → Option Nat
  | _, [] => none
  | depth, k :: ks =>
    if k.opens = some b then (closeOffset? b (depth + 1) ks).map (· + 1)
    else if k.closes = some b then
      if depth ≤ 1 then some 0 else (closeOffset? b (depth - 1) ks).map (· + 1)
    else (closeOffset? b depth ks).map (· + 1)

/-- The place that closes the bracket at the head of a sequence. -/
def groupEnd? : List Kind → Option Nat
  | [] => none
  | k :: ks => k.opens.bind fun b => closeOffset? b 0 (k :: ks)

/-- Going backwards, the place of the attribute opener at which the square brackets are all
matched, when `depth` closers have been passed. There is none when a plain bracket matches. -/
def attributeOffset? : (depth : Nat) → List Kind → Option Nat
  | _, [] => none
  | depth, k :: ks =>
    if k.closes = some .square then (attributeOffset? (depth + 1) ks).map (· + 1)
    else if k.opens = some .square then
      if depth ≤ 1 then if k = .attributeOpener then some 0 else none
      else (attributeOffset? (depth - 1) ks).map (· + 1)
    else (attributeOffset? depth ks).map (· + 1)

/-- The number of open brackets, of whatever pair, behind a token. A closer without an opener
counts for nothing. -/
def depthAfter (depth : Nat) (k : Kind) : Nat :=
  if k.opens.isSome then depth + 1 else if k.closes.isSome then depth - 1 else depth

/-! ## Ends of declarations -/

/-- A search passes over the bracket group that `k` opens. -/
def passGroup (k : Kind) (ks : List Kind) : Look :=
  match groupEnd? (k :: ks) with
  | some n => .passes n
  | none => .fails

/-- A search ends with the bracket group that `k` opens. -/
def endWithGroup (k : Kind) (ks : List Kind) : Look :=
  match groupEnd? (k :: ks) with
  | some n => .ends n
  | none => .fails

theorem passGroup_eq_passes_iff {k : Kind} {ks : List Kind} {n : Nat} :
    passGroup k ks = .passes n ↔ groupEnd? (k :: ks) = some n := by
  rw [passGroup]
  cases groupEnd? (k :: ks) <;> simp

theorem endWithGroup_eq_ends_iff {k : Kind} {ks : List Kind} {n : Nat} :
    endWithGroup k ks = .ends n ↔ groupEnd? (k :: ks) = some n := by
  rw [endWithGroup]
  cases groupEnd? (k :: ks) <;> simp

theorem passGroup_ne_ends (k : Kind) (ks : List Kind) (n : Nat) : passGroup k ks ≠ .ends n := by
  rw [passGroup]
  split <;> simp

theorem endWithGroup_ne_passes (k : Kind) (ks : List Kind) (n : Nat) :
    endWithGroup k ks ≠ .passes n := by
  rw [endWithGroup]
  split <;> simp

/-- The place at which a function ends: at a semicolon, or with the braces of its body. Groups in
parentheses are passed over. -/
def declarationEnd? : List Kind → Option Nat :=
  seek (fun k ks =>
    match k with
    | .semicolon => .ends 0
    | .opener .brace => endWithGroup k ks
    | .opener .paren => passGroup k ks
    | _ => .passes 0) 0

/-- The place at which a member of a type ends: at a semicolon, or with a group in braces. Groups
in other brackets are passed over. -/
def statementEnd? : List Kind → Option Nat :=
  seek (fun k ks =>
    match k with
    | .semicolon => .ends 0
    | .opener .brace => endWithGroup k ks
    | .opener .paren | .opener .square | .attributeOpener => passGroup k ks
    | _ => .passes 0) 0

/-- The place of the brace that opens the body of a type, when only names, their separators and
the words of a header stand before it. -/
def headerEnd? : List Kind → Option Nat :=
  seek (fun k _ =>
    match k with
    | .opener .brace => .ends 0
    | .name | .keyword .extendsWord | .keyword .implementsWord | .comma | .colon => .passes 0
    | _ => .fails) 0

end PhpOutline
