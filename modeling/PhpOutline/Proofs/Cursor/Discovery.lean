import PhpOutline.Proofs.Cursor.Headers

/-!
# The discovery, place by place

The discovery of declarations goes from one significant place to the next. What it finds at one of
them it reads on its own, and it goes on behind that. It remembers no more than the place of the
first modifier: whether a type stands behind `new` it sees from the token before its keyword.

## Main definitions

* `Cursor.readNamespace`, `readUse`, `readType`, `readFunction`: what begins at a place, and the
  place where the discovery goes on.
* `Cursor.Reads`: that place is the one to which a step of the pass leads.
* `Cursor.discover`: everything found at the top level of a file.

## Main statements

* `Cursor.exists_readNamespace`, `exists_readUse`, `exists_readType`, `exists_readFunction`: each of
  them does what the step of the pass does.
* `Cursor.discover_eq`: what is found.
-/

namespace PhpOutline

namespace Cursor

open TokenTable

variable {t : TokenTable} {i j : Nat} {e word : Entry} {es : List Entry}

/-- What has been found, and the place where the discovery goes on. -/
abbrev Reading := List Event × Nat

/-- The discovery goes on behind `word` at the place to which a step of the pass leads. -/
structure Reads (t : TokenTable) (word : Entry) (es : List Entry) (r : Stride Event.State Event)
    (found : Reading) : Prop where
  emitted : r.emitted = found.1
  state : r.state = {}
  lt : word.index < found.2
  rest : t.ahead found.2 = es.drop r.claims
  lands : Lands t found.2

/-- Nothing is found, and the discovery goes on behind the word. -/
theorem Reads.succ (hword : t.Ahead i word) (hes : es = t.ahead (word.index + 1))
    (hnew : word.kind ≠ .keyword .new) (events : List Event) :
    Reads t word es (Event.resume events 0) (events, word.index + 1) where
  emitted := rfl
  state := rfl
  lt := Nat.lt_succ_self _
  rest := hes.symm
  lands := lands_succ hword.get? hword.significant hnew

/-- The discovery goes on behind the token that follows. -/
theorem Reads.next (hword : word.index < j) (hahead : t.ahead j = e :: es)
    (hnew : e.kind ≠ .keyword .new) (events : List Event) :
    Reads t word (e :: es) (Event.resume events 1) (events, e.index + 1) := by
  obtain ⟨he, hes⟩ := ahead_of_eq_cons hahead
  exact ⟨rfl, rfl, by have := he.le; simp only; omega, hes.symm,
    lands_succ he.get? he.significant hnew⟩

/-! ## Namespaces -/

/-- What begins with the word `namespace` at place `i`. -/
def readNamespace (t : TokenTable) (i : Nat) : Guarded Reading := do
  match ← significantKind t (i + 1) with
  | some (n, .name) => return ([.entersNamespace (some ((t.text n).stripAll '\\'))], n + 1)
  | some (_, .opener .brace) | some (_, .semicolon) => return ([.entersNamespace none], i + 1)
  | _ => return ([], i + 1)

theorem exists_readNamespace (hword : t.Ahead i word) (hes : es = t.ahead (word.index + 1))
    (hkind : word.kind = .keyword .namespaceWord) :
    ∃ found, readNamespace t word.index = .ok found ∧
      Reads t word es (Event.readNamespace es) found := by
  have hnew : word.kind ≠ .keyword .new := by simp [hkind]
  rw [readNamespace, significantKind_eq, ok_bind, ← hes]
  cases es with
  | nil => exact ⟨_, rfl, .succ hword hes hnew []⟩
  | cons n rest =>
    have hmem := (ahead_of_eq_cons hes.symm).1.mem
    rw [List.head?_cons, Option.map_some, Event.readNamespace]
    cases hn : n.kind with
    | name =>
      simp only [text_index hmem]
      exact ⟨_, rfl, .next (Nat.lt_succ_self _) hes.symm (by simp [hn]) _⟩
    | semicolon => exact ⟨_, rfl, .succ hword hes hnew _⟩
    | opener b =>
      cases b with
      | brace => exact ⟨_, rfl, .succ hword hes hnew _⟩
      | paren | square => exact ⟨_, rfl, .succ hword hes hnew []⟩
    | _ => exact ⟨_, rfl, .succ hword hes hnew []⟩

/-! ## Use statements -/

/-- The semicolon behind place `i`, or the last place. -/
def useEnd (t : TokenTable) (i : Nat) : Guarded Nat := do
  return (← findKind t i t.size .semicolon).getD t.lastIndex

/-- What begins with the word `use` at place `i`. A parenthesis begins the list of variables of a
closure instead. -/
def readUse (t : TokenTable) (i : Nat) : Guarded Reading := do
  match ← significantKind t (i + 1) with
  | some (_, .keyword .function) | some (_, .keyword .const) => return ([], (← useEnd t i) + 1)
  | some (_, .opener .paren) => return ([], i + 1)
  | _ =>
    let last ← useEnd t i
    let statement := Entry.significant (t.window (i + 1) (last + 1))
    return ((Import.ofStatement {} (statement.map Entry.toToken)).map .imports, last + 1)

/-- Between two places stand the significant entries that are ahead of the first one only. -/
theorem significant_window_eq_take {n : Nat} (hij : i ≤ j)
    (hdrop : t.ahead j = (t.ahead i).drop n) :
    Entry.significant (t.window i j) = (t.ahead i).take n := by
  have happend := ahead_append t hij
  rw [hdrop] at happend
  exact List.append_cancel_right (happend.trans (List.take_append_drop n _).symm)

/-- The first semicolon behind a word. -/
theorem findKind?_semicolon (hword : t.Ahead i word) (hkind : word.kind ≠ .semicolon) :
    t.findKind? word.index t.size .semicolon =
      ((t.ahead (word.index + 1)).find? fun e => e.kind == .semicolon).map Entry.index := by
  have hp : ∀ e : Entry, (e.kind == .semicolon) = true → e.isSignificant = true := by
    intro e he
    rw [Entry.isSignificant_eq, eq_of_beq he]
    rfl
  rw [findKind?, window_of_size_le (Nat.le_succ _), ← Entry.find?_significant hp, ← ahead,
    hword.ahead_eq, List.find?_cons_of_neg (by simpa using hkind)]

/-- A statement behind the word at place `i` takes the tokens through place `last`. -/
structure Takes (t : TokenTable) (i last : Nat) : Prop where
  le : i ≤ last
  rest : t.ahead (last + 1) = (t.ahead (i + 1)).drop (Event.statementSize (t.ahead (i + 1)))
  lands : Lands t (last + 1)

theorem exists_useEnd (hword : t.Ahead i word) (hkind : word.kind ≠ .semicolon) :
    ∃ last, useEnd t word.index = .ok last ∧ Takes t word.index last := by
  have hlast := (index_le_lastIndex hword.mem).1
  have hlt := hword.lt_size
  have hsize : Event.statementSize (t.ahead (word.index + 1)) =
      (((t.ahead (word.index + 1)).findIdx? fun e => e.kind == .semicolon).map (· + 1)).getD
        (t.ahead (word.index + 1)).length := by
    rw [Event.statementSize, Entry.kinds, List.findIdx?_map]
    rfl
  rw [useEnd, findKind_eq (by omega), ok_bind, findKind?_semicolon hword hkind,
    List.find?_eq_bind_findIdx?_getElem?]
  cases hfind : (t.ahead (word.index + 1)).findIdx? fun e => e.kind == .semicolon with
  | none =>
    refine ⟨t.lastIndex, rfl, hlast, ?_, lands_lastIndex_succ t⟩
    rw [hsize, hfind, ahead_lastIndex_succ, Option.map_none, Option.getD_none, List.drop_length]
  | some n =>
    obtain ⟨hn, hsemicolon, -⟩ := List.findIdx?_eq_some_iff_getElem.1 hfind
    have hsuffix := List.drop_suffix n (t.ahead (word.index + 1))
    rw [List.drop_eq_getElem_cons hn] at hsuffix
    obtain ⟨hstop, hrest⟩ := ahead_of_suffix hsuffix
    have hle := hstop.le
    have hnew : (t.ahead (word.index + 1))[n].kind ≠ .keyword .new := by
      rw [eq_of_beq hsemicolon]
      simp
    refine ⟨_, by rw [Option.bind_some, List.getElem?_eq_getElem hn]; rfl, by omega, ?_,
      lands_succ hstop.get? hstop.significant hnew⟩
    rw [hsize, hfind, Option.map_some, Option.getD_some, hrest]

theorem Takes.reads {last : Nat} (h : Takes t word.index last) (events : List Event) :
    Reads t word (t.ahead (word.index + 1))
      (Event.resume events (Event.statementSize (t.ahead (word.index + 1))))
      (events, last + 1) where
  emitted := rfl
  state := rfl
  lt := Nat.lt_succ_of_le h.le
  rest := h.rest
  lands := h.lands

theorem Takes.significant_window {last : Nat} (h : Takes t i last) :
    Entry.significant (t.window (i + 1) (last + 1)) =
      (t.ahead (i + 1)).take (Event.statementSize (t.ahead (i + 1))) :=
  significant_window_eq_take (Nat.succ_le_succ h.le) h.rest

theorem exists_readUse (hword : t.Ahead i word) (hkind : word.kind = .keyword .use) :
    ∃ found, readUse t word.index = .ok found ∧
      Reads t word (t.ahead (word.index + 1)) (Event.readUse (t.ahead (word.index + 1))) found := by
  obtain ⟨last, hend, htakes⟩ := exists_useEnd hword (by simp [hkind])
  have himports : Reads t word (t.ahead (word.index + 1))
      (Event.resume ((Import.ofStatement {} (((t.ahead (word.index + 1)).take
          (Event.statementSize (t.ahead (word.index + 1)))).map Entry.toToken)).map .imports)
        (Event.statementSize (t.ahead (word.index + 1)))) _ := htakes.reads _
  have hskip := htakes.reads []
  have hclosure := Reads.succ hword rfl (by simp [hkind]) []
  rw [readUse, significantKind_eq, ok_bind, Event.readUse, hend, ok_bind, ok_bind,
    htakes.significant_window]
  revert himports hskip hclosure
  generalize t.ahead (word.index + 1) = es
  intro himports hskip hclosure
  cases es with
  | nil => exact ⟨_, rfl, himports⟩
  | cons n rest =>
    simp only [Entry.kinds, List.map_cons, List.head?_cons, Option.map_some]
    cases n.kind with
    | keyword k =>
      cases k with
      | function | const => exact ⟨_, rfl, hskip⟩
      | _ => exact ⟨_, rfl, himports⟩
    | opener b =>
      cases b with
      | paren => exact ⟨_, rfl, hclosure⟩
      | _ => exact ⟨_, rfl, himports⟩
    | _ => exact ⟨_, rfl, himports⟩

/-! ## Types -/

/-- What begins with the word at place `i` that declares a type, without a name. -/
def readUnnamed (t : TokenTable) (i : Nat) : Guarded Reading := do
  if t.kind? i = some (.keyword (.declares .enumeration)) then return ([], i + 1)
  else return ([], ← skipUnnamed t (i + 1))

/-- What begins with the word at place `i` that declares the type whose name stands at place `n`. -/
def readNamed (t : TokenTable) (start i n : Nat) : Guarded Reading := do
  match ← headerEnd t (n + 1) with
  | none => return ([], n + 1)
  | some o =>
    let close := t.matchingCloseOrLast o
    return ([.declaresType ⟨t.text n, i, .ofBounds start close⟩], close + 1)

/-- Whether the word `new` stands before place `i`. -/
def newBefore (t : TokenTable) (i : Nat) : Bool :=
  (t.prevSignificant? i).bind t.kind? == some (.keyword .new)

/-- What begins with the word at place `i` that declares a type. -/
def readType (t : TokenTable) (start i : Nat) : Guarded Reading := do
  let before ← prevSignificant t i
  match ← significantKind t (i + 1) with
  | some (n, .name) =>
    if before.bind t.kind? = some (.keyword .new) then readUnnamed t i else readNamed t start i n
  | _ => readUnnamed t i

theorem exists_readUnnamed {kind : TypeKind} (hword : t.Ahead i word)
    (hkind : word.kind = .keyword (.declares kind)) :
    ∃ found, readUnnamed t word.index = .ok found ∧
      Reads t word (t.ahead (word.index + 1))
        (Event.readType.unnamed kind (t.ahead (word.index + 1))) found := by
  rw [readUnnamed, kind?_index hword.mem, hkind, Event.readType.unnamed]
  by_cases hkind' : kind = .enumeration
  · subst hkind'
    exact ⟨_, rfl, .succ hword rfl (by simp [hkind]) []⟩
  · rw [if_neg (by simpa using hkind'), if_neg hkind']
    obtain ⟨r, hskip, hle, hskipped⟩ := exists_skipUnnamed t (word.index + 1)
    rw [hskip, ok_bind]
    exact ⟨_, rfl, rfl, rfl, hle, hskipped.rest, hskipped.lands⟩

/-- Behind a type is left what is left behind its body. -/
theorem drop_behind_body {rest body : List Entry} {header : Nat} (name : Entry)
    (hdrop : rest.drop header = body) :
    (name :: rest).drop (((groupEnd? (Entry.kinds body)).map (header + 2 + ·)).getD
        (name :: rest).length) =
      body.drop (((groupEnd? (Entry.kinds body)).map (· + 1)).getD body.length) := by
  cases groupEnd? (Entry.kinds body) with
  | none =>
    rw [Option.map_none, Option.map_none, Option.getD_none, Option.getD_none, List.drop_length,
      List.drop_length]
  | some n =>
    have hsize : header + 2 + n = header + (n + 1) + 1 := by omega
    rw [Option.map_some, Option.map_some, Option.getD_some, Option.getD_some, hsize,
      List.drop_succ_cons, ← List.drop_drop, hdrop]

theorem exists_readNamed {st : Event.State} {kind : TypeKind} {name : Entry} {rest : List Entry}
    (hahead : t.ahead (word.index + 1) = name :: rest)
    (hname : name.kind = .name) (hnew : st.afterNew = false) :
    ∃ found, readNamed t (st.start.getD word.index) word.index name.index = .ok found ∧
      Reads t word (name :: rest)
        (Event.readType t.lastIndex st kind word (name :: rest)) found := by
  obtain ⟨hmem, hrest⟩ := ahead_of_eq_cons hahead
  rw [readNamed, headerEnd_eq, ok_bind, ← hrest, Event.readType, if_pos ⟨hname, hnew⟩, headerBrace?]
  cases hheader : headerEnd? (Entry.kinds rest) with
  | none =>
    exact ⟨_, rfl, .next (Nat.lt_succ_self _) hahead (by simp [hname]) []⟩
  | some header =>
    obtain ⟨brace, after, hdrop, -⟩ := Entry.exists_brace_of_headerEnd? hheader
    have hbody : brace :: after <:+ t.ahead (name.index + 1) := by
      rw [← hdrop, ← hrest]
      exact List.drop_suffix header rest
    have hbrace := (ahead_of_suffix hbody).1
    have hplace := lastPlace_group (hbody.trans (ahead_suffix t _))
    have hclose := le_matchingCloseOrLast hbrace.mem
    have hget : rest[header]? = some brace := by
      rw [← List.head?_drop, hdrop]
      rfl
    rw [Option.bind_some, hget, Option.map_some]
    simp only [hdrop, hplace, text_index hmem.mem]
    have hlt : word.index < t.matchingCloseOrLast brace.index + 1 := by
      have hle := hmem.le
      have hle' := hbrace.le
      omega
    exact ⟨_, rfl, rfl, rfl, hlt,
      (drop_group (hbody.trans (ahead_suffix t _))).symm.trans (drop_behind_body name hdrop).symm,
      lands_group t brace.index⟩

theorem exists_readType (st : Event.State) {kind : TypeKind} (hword : t.Ahead i word)
    (hkind : word.kind = .keyword (.declares kind)) (hnew : st.afterNew = newBefore t word.index) :
    ∃ found, readType t (st.start.getD word.index) word.index = .ok found ∧
      Reads t word (t.ahead (word.index + 1))
        (Event.readType t.lastIndex st kind word (t.ahead (word.index + 1))) found := by
  have hunnamed := exists_readUnnamed hword hkind
  rw [readType, prevSignificant_eq, ok_bind, significantKind_eq, ok_bind]
  cases hahead : t.ahead (word.index + 1) with
  | nil =>
    rw [hahead] at hunnamed
    exact hunnamed
  | cons name rest =>
    rw [hahead] at hunnamed
    have hread (h : ¬(name.kind = .name ∧ st.afterNew = false)) :
        Event.readType t.lastIndex st kind word (name :: rest) =
          Event.readType.unnamed kind (name :: rest) := if_neg h
    rw [List.head?_cons, Option.map_some]
    cases hname : name.kind with
    | name =>
      simp only
      by_cases hbefore : (t.prevSignificant? word.index).bind t.kind? = some (.keyword .new)
      · rw [if_pos hbefore, hread (by simp [hnew, newBefore, hbefore])]
        exact hunnamed
      · rw [if_neg hbefore]
        exact exists_readNamed hahead hname (by simpa [hnew, newBefore] using hbefore)
    | _ =>
      rw [hread (by simp [hname])]
      exact hunnamed

/-! ## Functions -/

/-- The next significant place from `i` on, behind an ampersand that stands there. -/
def behindAmpersand (t : TokenTable) (i : Nat) : Guarded (Option (Nat × Kind)) := do
  let next ← significantKind t i
  match next with
  | some (a, .ampersand) => significantKind t (a + 1)
  | _ => return next

/-- The places of the name and of the parameter list of a function, from place `i` on. -/
def functionHeader (t : TokenTable) (i : Nat) : Guarded (Option (Nat × Nat)) := do
  match ← behindAmpersand t i with
  | some (n, .name) =>
    match ← significantKind t (n + 1) with
    | some (o, .opener .paren) => return some (n, o)
    | _ => return none
  | _ => return none

/-- What begins with the word `function` at place `i`. -/
def readFunction (t : TokenTable) (i : Nat) : Guarded Reading := do
  match ← functionHeader t (i + 1) with
  | none => return ([], i + 1)
  | some (n, o) =>
    let last ← declarationEnd t (t.matchingCloseOrLast o + 1)
    return ([.declaresFunction ⟨t.text n, i, .ofBounds i last⟩], last + 1)

theorem behindAmpersand_eq (t : TokenTable) (i : Nat) :
    behindAmpersand t i =
      .ok (((t.ahead i).drop (Event.ampersands (t.ahead i))).head?.map
        fun e => (e.index, e.kind)) := by
  rw [behindAmpersand, significantKind_eq, ok_bind]
  cases hahead : t.ahead i with
  | nil => rfl
  | cons e es =>
    have hes := (ahead_of_eq_cons hahead).2
    rw [List.head?_cons, Option.map_some, Event.ampersands]
    by_cases hamp : e.kind = .ampersand
    · simp only [hamp]
      rw [significantKind_eq, ← hes]
      rfl
    · rw [if_neg hamp]
      split
      · rename_i heq
        exact absurd (Prod.mk.inj (Option.some.inj heq)).2 hamp
      · rfl

/-- The header of a function, among the entries behind the word. -/
def functionHeader? (es : List Entry) : Option (Entry × Entry × List Entry) :=
  match es.drop (Event.ampersands es) with
  | name :: list :: rest =>
    if name.kind = .name ∧ list.kind = .opener .paren then some (name, list, rest) else none
  | _ => none

theorem functionHeader_eq (t : TokenTable) (i : Nat) :
    functionHeader t i =
      .ok ((functionHeader? (t.ahead i)).map fun h => (h.1.index, h.2.1.index)) := by
  rw [functionHeader, behindAmpersand_eq, ok_bind, functionHeader?]
  have hsuffix := List.drop_suffix (Event.ampersands (t.ahead i)) (t.ahead i)
  cases hnamed : (t.ahead i).drop (Event.ampersands (t.ahead i)) with
  | nil => rfl
  | cons name es =>
    rw [hnamed] at hsuffix
    have hes := (ahead_of_suffix hsuffix).2
    rw [List.head?_cons, Option.map_some]
    cases hname : name.kind with
    | name =>
      simp only
      rw [significantKind_eq, ← hes, ok_bind]
      cases es with
      | nil => rfl
      | cons list rest =>
        rw [List.head?_cons, Option.map_some]
        cases hlist : list.kind with
        | opener b => cases b <;> simp [hname, hlist]
        | _ => simp [hlist]
    | _ => cases es <;> simp [hname]

theorem drop_of_functionHeader? {name list : Entry} {rest : List Entry}
    (h : functionHeader? es = some (name, list, rest)) :
    es.drop (Event.ampersands es) = name :: list :: rest ∧ name.kind = .name ∧
      list.kind = .opener .paren := by
  rw [functionHeader?] at h
  cases hnamed : es.drop (Event.ampersands es) with
  | nil =>
    rw [hnamed] at h
    cases h
  | cons name' named =>
    rw [hnamed] at h
    cases named with
    | nil => cases h
    | cons list' rest' =>
      simp only at h
      split_ifs at h with hkinds
      cases h
      exact ⟨rfl, hkinds⟩

theorem readFunction_of_header {name list : Entry} {rest : List Entry} {last : Nat}
    (hheader : functionHeader? es = some (name, list, rest)) :
    Event.readFunction last word es =
      Event.resume [.declaresFunction ⟨name.text, word.index, .ofBounds word.index
          (Event.lastPlace last (list :: rest) (declarationEnd? (Entry.kinds (list :: rest))))⟩]
        (((declarationEnd? (Entry.kinds (list :: rest))).map
          (Event.ampersands es + 2 + ·)).getD es.length) := by
  obtain ⟨hnamed, hname, hlist⟩ := drop_of_functionHeader? hheader
  rw [Event.readFunction]
  simp only [hnamed, hname, hlist, and_self, if_true]

theorem readFunction_of_none {last : Nat} (hheader : functionHeader? es = none) :
    Event.readFunction last word es = Event.resume [] 0 := by
  rw [functionHeader?] at hheader
  rw [Event.readFunction]
  cases hnamed : es.drop (Event.ampersands es) with
  | nil => rfl
  | cons name named =>
    rw [hnamed] at hheader
    cases named with
    | nil => rfl
    | cons list rest =>
      by_cases hkinds : name.kind = .name ∧ list.kind = .opener .paren
      · simp [hkinds] at hheader
      · exact if_neg hkinds

/-- Behind a function is left what is left behind the declaration that begins with its parameter
list. -/
theorem drop_behind_header {name list : Entry} {rest : List Entry} {n : Nat}
    (hnamed : es.drop n = name :: list :: rest) :
    es.drop (((declarationEnd? (Entry.kinds (list :: rest))).map (n + 2 + ·)).getD es.length) =
      behindDeclaration (list :: rest) := by
  rw [behindDeclaration]
  cases declarationEnd? (Entry.kinds (list :: rest)) with
  | none =>
    rw [Option.map_none, Option.map_none, Option.getD_none, Option.getD_none, List.drop_length,
      List.drop_length]
  | some m =>
    have hsize : n + 2 + m = n + (m + 1 + 1) := by omega
    rw [Option.map_some, Option.map_some, Option.getD_some, Option.getD_some, hsize,
      ← List.drop_drop, hnamed, List.drop_succ_cons]

theorem exists_readFunction (hword : t.Ahead i word) (hkind : word.kind = .keyword .function) :
    ∃ found, readFunction t word.index = .ok found ∧
      Reads t word (t.ahead (word.index + 1))
        (Event.readFunction t.lastIndex word (t.ahead (word.index + 1))) found := by
  rw [readFunction, functionHeader_eq, ok_bind]
  cases hheader : functionHeader? (t.ahead (word.index + 1)) with
  | none =>
    rw [readFunction_of_none hheader]
    exact ⟨_, rfl, .succ hword rfl (by simp [hkind]) []⟩
  | some h =>
    obtain ⟨name, list, rest⟩ := h
    obtain ⟨hnamed, -, hlist⟩ := drop_of_functionHeader? hheader
    have hsuffix := hnamed ▸ List.drop_suffix _ (t.ahead (word.index + 1))
    obtain ⟨hname, hrest⟩ := ahead_of_suffix hsuffix
    have hparen := (ahead_of_eq_cons hrest.symm).1
    obtain ⟨r, hend, hle, hends⟩ :=
      exists_declarationEnd t (t.matchingCloseOrLast list.index + 1)
    have hends := (passesOver_paren hlist rest).endsAt hrest.symm (ahead_group_eq_drop hrest.symm)
      hends
    have hplace := hends.place
    rw [← hrest] at hplace
    rw [Option.map_some]
    simp only [hend, ok_bind]
    rw [readFunction_of_header hheader, ← hplace, text_index hname.mem]
    have hlt : word.index < r + 1 := by
      have hclose := le_matchingCloseOrLast hparen.mem
      have hlast := (index_le_lastIndex hword.mem).1
      have hle₁ := hname.le
      have hle₂ := hparen.le
      omega
    refine ⟨_, rfl, rfl, rfl, hlt, ?_, hends.lands⟩
    rw [hends.rest, ← hrest]
    exact (drop_behind_header hnamed).symm

/-! ## The whole file -/

/-- What has been found up to a place. -/
structure Walk where
  /-- The place of the first modifier of the declaration that follows. -/
  start : Option Nat := none
  events : List Event := []
deriving DecidableEq, Repr

/-- What begins with a token at a significant place. -/
def read (t : TokenTable) (start : Option Nat) (i : Nat) : Kind → Guarded Reading
  | .keyword .namespaceWord => readNamespace t i
  | .keyword .use => readUse t i
  | .keyword (.declares _) => readType t (start.getD i) i
  | .keyword .function => readFunction t i
  | _ => return ([], i + 1)

/-- One turn over a file. -/
def walkTurn (t : TokenTable) (w : Walk) (i : Nat) : Guarded (Turn Walk (List Event)) := do
  match ← significantKind t i with
  | none => return .done w.events
  | some (i, k) =>
    match k with
    | .keyword (.modifier .abstract) | .keyword (.modifier .final)
    | .keyword (.modifier .readonly) =>
      return .goOn { w with start := some (w.start.getD i) } (i + 1)
    | k =>
      let (events, next) ← read t w.start i k
      return .goOn { events := w.events ++ events } next

/-- Everything found at the top level of a file, in order. -/
def discover (t : TokenTable) : Guarded (List Event) :=
  loop t.size (walkTurn t) (fun w _ => .ok w.events) {} 0

/-- Everything found in the whole file, when the discovery stands at place `i`. -/
def Walk.all (t : TokenTable) (w : Walk) (i : Nat) : List Event :=
  w.events ++ sweep (Event.step t.lastIndex) ⟨newBefore t i, w.start⟩ 0 (t.ahead i)

theorem newBefore_index (hahead : t.ahead i = e :: es) : newBefore t e.index = newBefore t i := by
  obtain ⟨he, hes⟩ := ahead_of_eq_cons hahead
  have happend := ahead_append t he.le
  rw [hahead, he.ahead_eq, hes] at happend
  have hgap : Entry.significant (t.window i e.index) = [] :=
    List.append_cancel_right (happend.trans (List.nil_append _).symm)
  rw [newBefore, newBefore, prevSignificant?, prevSignificant?,
    ← window_append t (Nat.zero_le i) he.le, Entry.significant_append, hgap, List.append_nil]

/-- A turn that does what a step of the pass does. -/
abbrev Walks (t : TokenTable) (w : Walk) (i : Nat) : Guarded (Turn Walk (List Event)) → Prop :=
  Proceeds (fun _ _ => True) (fun w i r => r = w.all t i) w i

section Turns

variable {w : Walk} {r : Stride Event.State Event}

theorem Reads.walks {found : Reading} (h : Reads t e es r found) (hahead : t.ahead i = e :: es)
    (hstep : Event.step t.lastIndex ⟨newBefore t i, w.start⟩ e es = r) :
    Walks t w i (.ok (.goOn { events := w.events ++ found.1 } found.2)) := by
  have hlt : i < found.2 := Nat.lt_of_le_of_lt (ahead_of_eq_cons hahead).1.le h.lt
  refine .goOn hlt trivial ?_
  rw [Walk.all, Walk.all, hahead, sweep_cons, hstep, sweep_eq_drop _ r.state, h.emitted, h.state,
    ← h.rest, List.append_assoc]
  rcases h.lands with hnil | hnew
  · rw [hnil, sweep_nil, sweep_nil]
  · have hbefore : newBefore t found.2 = false := by simpa [newBefore] using hnew
    rw [hbefore]

/-- The turn reads what begins at a place. -/
theorem walks_read {k : Kind} (hahead : t.ahead i = e :: es)
    (hstep : Event.step t.lastIndex ⟨newBefore t i, w.start⟩ e es = r)
    (h : ∃ found, read t w.start e.index k = .ok found ∧ Reads t e es r found) :
    Walks t w i (do
      let (events, next) ← read t w.start e.index k
      return .goOn { events := w.events ++ events } next) := by
  obtain ⟨found, hread, hreads⟩ := h
  rw [hread, ok_bind]
  exact hreads.walks hahead hstep

theorem newBefore_succ (he : t.Ahead i e) :
    newBefore t (e.index + 1) = (e.kind == .keyword .new) := by
  rw [newBefore, prevSignificant?_succ he.get? he.significant, Option.bind_some, kind?_index he.mem]
  rfl

/-- The turn passes over the word `new`, behind which a type has no name. -/
theorem walks_new (hahead : t.ahead i = e :: es) (hkind : e.kind = .keyword .new) :
    Walks t w i (.ok (.goOn { events := w.events ++ [] } (e.index + 1))) := by
  obtain ⟨he, hes⟩ := ahead_of_eq_cons hahead
  have hbefore : newBefore t (e.index + 1) = true := by rw [newBefore_succ he, hkind]; rfl
  refine .goOn (Nat.lt_succ_of_le he.le) trivial ?_
  rw [Walk.all, Walk.all, hahead, sweep_cons, Event.step, hkind, hbefore, ← hes, List.append_nil]
  rfl

/-- The turn passes over a modifier, with which the declaration begins unless another one stands
before it. -/
theorem walks_modifier (hahead : t.ahead i = e :: es) (hnew : e.kind ≠ .keyword .new)
    (hstep : Event.step t.lastIndex ⟨newBefore t i, w.start⟩ e es =
      ⟨[], { start := some (w.start.getD e.index) }, 0⟩) :
    Walks t w i (.ok (.goOn { w with start := some (w.start.getD e.index) } (e.index + 1))) := by
  obtain ⟨he, hes⟩ := ahead_of_eq_cons hahead
  have hbefore : newBefore t (e.index + 1) = false := by
    rw [newBefore_succ he]
    exact beq_false_of_ne hnew
  refine .goOn (Nat.lt_succ_of_le he.le) trivial ?_
  rw [Walk.all, Walk.all, hahead, sweep_cons, hstep, hbefore, ← hes]
  rfl

/-- The turn passes over a token that begins no declaration. -/
theorem walks_succ {k : Kind} (hahead : t.ahead i = e :: es) (hnew : e.kind ≠ .keyword .new)
    (hstep : Event.step t.lastIndex ⟨newBefore t i, w.start⟩ e es = Event.resume [] 0)
    (hread : read t w.start e.index k = .ok ([], e.index + 1)) :
    Walks t w i (do
      let (events, next) ← read t w.start e.index k
      return .goOn { events := w.events ++ events } next) := by
  obtain ⟨he, hes⟩ := ahead_of_eq_cons hahead
  exact walks_read hahead hstep ⟨_, hread, .succ he hes hnew []⟩

theorem walks_walkTurn (t : TokenTable) (w : Walk) (i : Nat) : Walks t w i (walkTurn t w i) := by
  rw [walkTurn, significantKind_eq, ok_bind]
  cases hahead : t.ahead i with
  | nil =>
    change w.events = w.all t i
    rw [Walk.all, hahead, sweep_nil, List.append_nil]
  | cons e es =>
    obtain ⟨he, rfl⟩ := ahead_of_eq_cons hahead
    have hbefore := newBefore_index hahead
    rw [List.head?_cons, Option.map_some]
    cases hkind : e.kind with
    | keyword k =>
      cases k with
      | namespaceWord =>
        exact walks_read hahead (by rw [Event.step, hkind]) (exists_readNamespace he rfl hkind)
      | use => exact walks_read hahead (by rw [Event.step, hkind]) (exists_readUse he hkind)
      | declares kind =>
        exact walks_read hahead (by rw [Event.step, hkind])
          (exists_readType ⟨newBefore t i, w.start⟩ he hkind hbefore.symm)
      | function =>
        exact walks_read hahead (by rw [Event.step, hkind]) (exists_readFunction he hkind)
      | new => exact walks_new hahead hkind
      | modifier m =>
        cases m with
        | abstract | final | readonly =>
          exact walks_modifier hahead (by simp [hkind]) (by rw [Event.step, hkind])
        | _ => exact walks_succ hahead (by simp [hkind]) (by rw [Event.step, hkind]) rfl
      | _ => exact walks_succ hahead (by simp [hkind]) (by rw [Event.step, hkind]) rfl
    | _ => exact walks_succ hahead (by simp [hkind]) (by rw [Event.step, hkind]) rfl

end Turns

theorem discover_eq (t : TokenTable) : discover t = .ok (Event.discover t) := by
  refine (loop_eq_ok (fun _ _ => True) (Walk.all t) (fun w i _ _ => walks_walkTurn t w i) ?_
    trivial).trans ?_
  · intro w i _ hi
    rw [Walk.all, ahead_of_le hi, sweep_nil, List.append_nil]
  · rfl

end Cursor

end PhpOutline
