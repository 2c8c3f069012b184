import PhpOutline.Discovery.Event
import PhpOutline.Proofs.Nesting

/-!
# Steps of the discovery over whole items

Where the pass stands at the word of an item, and the brackets of the item are properly nested, one
step declares what the item says and claims all of it.

## Main statements

* `Event.step_type`, `Event.step_function`: a type and a function with a body.
* `Event.sweep_namespace`, `Event.sweep_use`: a namespace and an import with an alias.
* `Event.sweep_of_step`: the pass goes on behind what a step claims.
-/

namespace PhpOutline.Event

variable {last : Nat} {st : State} {word name opener closer : Entry} {body rest : List Entry}
  {P Q : Kind → Prop}

/-- The pass goes on behind what a step claims. -/
theorem sweep_of_step {e : Entry} {claimed : List Entry} {events : List Event}
    (h : step last st e (claimed ++ rest) = resume events claimed.length) :
    sweep (step last) st 0 (e :: (claimed ++ rest)) = events ++ sweep (step last) {} 0 rest := by
  rw [sweep_cons, h, sweep_eq_drop]
  simp [resume]

/-- A semicolon at the end of an item is passed over. -/
theorem sweep_semicolon {semicolon : Entry} (h : semicolon.kind = .semicolon) :
    sweep (step last) {} 0 (semicolon :: rest) = sweep (step last) {} 0 rest := by
  refine @sweep_of_step last {} rest semicolon [] [] ?_
  simp [step, h]

/-- A namespace begins. -/
theorem sweep_namespace {semicolon : Entry} (hword : word.kind = .keyword .namespaceWord)
    (hname : name.kind = .name) (hsemicolon : semicolon.kind = .semicolon) :
    sweep (step last) {} 0 (word :: name :: semicolon :: rest) =
      entersNamespace (some (name.text.stripAll '\\')) :: sweep (step last) {} 0 rest := by
  have hstep : step last {} word ([name] ++ semicolon :: rest) =
      resume [entersNamespace (some (name.text.stripAll '\\'))] 1 := by
    simp [step, hword, readNamespace, hname]
  have hsweep := @sweep_of_step last {} (semicolon :: rest) word [name] _ hstep
  rw [sweep_semicolon hsemicolon] at hsweep
  exact hsweep

/-- An import under an alias. -/
theorem sweep_use {as key semicolon : Entry} (hword : word.kind = .keyword .use)
    (hname : name.kind = .name) (hlast : name.text.getLast? ≠ some '\\')
    (has : as.kind = .name) (hasText : as.text = "as".toList) (hkey : key.kind = .name)
    (hsemicolon : semicolon.kind = .semicolon) :
    sweep (step last) {} 0 (word :: name :: as :: key :: semicolon :: rest) =
      imports ⟨key.text, name.text.stripAll '\\'⟩ :: sweep (step last) {} 0 rest := by
  have hsize : statementSize (name :: as :: key :: semicolon :: rest) = 4 := by
    simp [statementSize, Entry.kinds, List.findIdx?_cons, hname, has, hkey, hsemicolon]
  have himports : Import.ofStatement {} [name.toToken, as.toToken, key.toToken,
      semicolon.toToken] = [⟨key.text, name.text.stripAll '\\'⟩] := by
    simp [Import.ofStatement, Import.endsItem, Import.Draft.readToken, Import.Draft.readName,
      Import.Draft.imports, Import.Draft.next, hname, has, hkey, hsemicolon, hasText, hlast]
  have hstep : step last {} word ([name, as, key, semicolon] ++ rest) =
      resume [imports ⟨key.text, name.text.stripAll '\\'⟩] 4 := by
    simp only [step, hword, readUse, List.cons_append, List.nil_append, hsize]
    simp [Entry.kinds, hname, himports]
  exact @sweep_of_step last {} rest word [name, as, key, semicolon] _ hstep

theorem groupEnd?_kinds {b : Bracket} (hopener : opener.kind.opens = some b)
    (hbody : Nested P (Entry.kinds body)) (hcloser : closer.kind.closes = some b) :
    groupEnd? (Entry.kinds (opener :: (body ++ closer :: rest))) = some (body.length + 1) := by
  have hend := groupEnd?_group hopener hbody hcloser (Entry.kinds rest)
  simpa [Entry.kinds] using hend

/-- A function ends with the braces behind its parameter list. -/
theorem declarationEnd?_function {ps ks : List Kind} (hps : Nested P ps) (hks : Nested Q ks)
    (rest : List Kind) :
    declarationEnd? (.opener .paren :: (ps ++ .closer .paren :: .opener .brace ::
      (ks ++ .closer .brace :: rest))) = some (ps.length + ks.length + 3) := by
  have hparen := @groupEnd?_group (.opener .paren) (.closer .paren) .paren P ps rfl hps rfl
    (.opener .brace :: (ks ++ .closer .brace :: rest))
  have hbrace := @groupEnd?_group (.opener .brace) (.closer .brace) .brace Q ks rfl hks rfl rest
  have hdrop : ∀ l : List Kind, (ps ++ .closer .paren :: l).drop (ps.length + 1) = l := by
    intro l
    rw [List.drop_append, List.drop_eq_nil_of_le (Nat.le_succ _), Nat.add_sub_cancel_left]
    rfl
  rw [declarationEnd?, seek]
  simp only [passGroup, hparen]
  rw [seek_eq_drop, hdrop, seek]
  simp only [endWithGroup, hbrace, Option.map_some, Option.some.injEq]
  omega

/-- A type without a header is declared from its first modifier to its closing brace. -/
theorem step_type {kind : TypeKind} (hnew : st.afterNew = false)
    (hword : word.kind = .keyword (.declares kind)) (hname : name.kind = .name)
    (hopener : opener.kind = .opener .brace) (hbody : Nested P (Entry.kinds body))
    (hcloser : closer.kind = .closer .brace) :
    step last st word (name :: opener :: (body ++ closer :: rest)) =
      resume [declaresType ⟨name.text, word.index,
        .ofBounds (st.start.getD word.index) closer.index⟩] (body.length + 3) := by
  have hheader : headerEnd? (Entry.kinds (opener :: (body ++ closer :: rest))) = some 0 := by
    simp [headerEnd?, Entry.kinds, seek, hopener]
  have hend : groupEnd? (Entry.kinds (opener :: (body ++ closer :: rest))) =
      some (body.length + 1) :=
    groupEnd?_kinds (by rw [hopener]; rfl) hbody (by rw [hcloser]; rfl)
  have hlast : lastPlace last (opener :: (body ++ closer :: rest)) (some (body.length + 1)) =
      closer.index := by
    simp [lastPlace]
  simp only [step, hword, readType, hname, hnew, hheader, List.drop_zero, hend, hlast]
  simp [Nat.add_comm]

/-- A function is declared from its word to the closing brace of its body. -/
theorem step_function {list close : Entry} {parameters : List Entry}
    (hword : word.kind = .keyword .function) (hname : name.kind = .name)
    (hlist : list.kind = .opener .paren) (hparameters : Nested P (Entry.kinds parameters))
    (hclose : close.kind = .closer .paren) (hopener : opener.kind = .opener .brace)
    (hbody : Nested Q (Entry.kinds body)) (hcloser : closer.kind = .closer .brace) :
    step last st word (name :: list :: (parameters ++ close :: opener ::
        (body ++ closer :: rest))) =
      resume [declaresFunction ⟨name.text, word.index, .ofBounds word.index closer.index⟩]
        (parameters.length + body.length + 5) := by
  have hskip : ∀ es, ampersands (name :: es) = 0 := by
    intro es
    simp [ampersands, hname]
  have hend : declarationEnd? (Entry.kinds (list :: (parameters ++ close :: opener ::
      (body ++ closer :: rest)))) = some (parameters.length + body.length + 3) := by
    have hkinds := declarationEnd?_function hparameters hbody (Entry.kinds rest)
    simpa [Entry.kinds, hlist, hclose, hopener, hcloser] using hkinds
  have hplace : lastPlace last (list :: (parameters ++ close :: opener ::
      (body ++ closer :: rest))) (some (parameters.length + body.length + 3)) = closer.index := by
    have hsplit : list :: (parameters ++ close :: opener :: (body ++ closer :: rest)) =
        (list :: (parameters ++ close :: opener :: body)) ++ closer :: rest := by
      simp
    have hlength : (list :: (parameters ++ close :: opener :: body)).length =
        parameters.length + body.length + 3 := by
      simp only [List.length_cons, List.length_append]
      omega
    rw [hsplit, ← hlength]
    simp [lastPlace]
  simp only [step, hword, readFunction, hskip, List.drop_zero, hname, hlist, hend, hplace]
  simp [Nat.add_comm, Nat.add_left_comm]

end PhpOutline.Event
