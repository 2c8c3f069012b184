import PhpOutline.Proofs.Declaration.Binding
import PhpOutline.Proofs.Declaration.Lead

/-!
# Slots of methods

The pass over the body of a type stands in front of a method, takes exactly its tokens, and gives
one slot. From the slot the declaration is read again: the same modifiers, the same parameter list,
the same body.

## Main definitions

* `MethodEnd`: a semicolon, or the braces of a body.
* `MethodTokens`: the tokens of a method.

## Main statements

* `MethodTokens.sweep_eq`: the slot that the pass gives.
* `MethodTokens.modifiers_read`, `MethodTokens.parameters_read`, `MethodTokens.bodySpan_read`,
  `MethodTokens.body_read`: what is read from it.
-/

namespace PhpOutline

/-- What a method ends with: a semicolon, or the braces of its body. -/
inductive MethodEnd where
  | semicolon (stop : Token) (kind_eq : stop.kind = .semicolon)
  | braces (gap opener : Token) (body : List Token) (closer : Token)
    (gap_kind : gap.kind = .whitespace) (opener_kind : opener.kind = .opener .brace)
    (closer_kind : closer.kind = .closer .brace)
    (nested : Nested (fun _ => True) (body.map Token.kind))

/-- The tokens of the end of a method. -/
def MethodEnd.tokens : MethodEnd → List Token
  | semicolon stop _ => [stop]
  | braces gap opener body closer _ _ _ _ => gap :: opener :: (body ++ [closer])

/-- The text between the braces. -/
def MethodEnd.body : MethodEnd → Option Text
  | semicolon _ _ => none
  | braces _ _ body _ _ _ _ _ => some (textOf (body.map Token.piece))

/-- The tokens of a method. -/
structure MethodTokens where
  lead : List Token
  word : Token
  gap : Token
  name : Token
  opener : Token
  parameters : List Token
  closer : Token
  ending : MethodEnd
  isLead : IsLead (lead.map Token.kind)
  word_kind : word.kind = .keyword .function
  gap_kind : gap.kind = .whitespace
  name_kind : name.kind.isSubject = true
  opener_kind : opener.kind = .opener .paren
  closer_kind : closer.kind = .closer .paren
  nested : Nested (fun _ => True) (parameters.map Token.kind)

namespace MethodTokens

variable (m : MethodTokens)

/-- The tokens from the parameter list on. -/
def tail : List Token := m.opener :: (m.parameters ++ m.closer :: m.ending.tokens)

/-- The tokens, in order. -/
def tokens : List Token := m.lead ++ m.word :: m.gap :: m.name :: m.tail

/-- The slot of the method when its first token has place `i`. -/
def slot (i : Nat) : Slot where
  name := m.name.text
  decl := .ofBounds i (i + m.lead.length + 2 + m.tail.length)
  item := .ofBounds i (i + m.lead.length + 2 + m.tail.length)

theorem length_tail : m.tail.length = m.parameters.length + 2 + m.ending.tokens.length := by
  simp only [tail, List.length_cons, List.length_append]
  omega

theorem length_tokens : m.tokens.length = m.lead.length + 3 + m.tail.length := by
  simp only [tokens, List.length_cons, List.length_append]
  omega

variable {t : TokenTable} {before after : List Token}

/-! ## In front of the name -/

/-- Behind the word stands the name. -/
theorem naming_eq (i : Nat) (rest : List Token) :
    Callable.naming (Entry.number i (m.gap :: m.name :: rest)) =
      (false, Entry.number (i + 1) (m.name :: rest)) := by
  have hgap : ∀ e ∈ [Entry.mk m.gap i], e.kind.isInsignificant = true := by
    simp [m.gap_kind, Kind.isInsignificant, Kind.isTrivia]
  have hskip : Entry.skipTrivia (Entry.number i (m.gap :: m.name :: rest)) =
      ⟨m.name, i + 1⟩ :: Entry.number (i + 1 + 1) rest :=
    Entry.skipTrivia_append hgap (Kind.isInsignificant_of_isSubject m.name_kind)
  have hname : m.name.kind ≠ .ampersand := by
    intro hk
    have := m.name_kind
    simp [hk, Kind.isSubject] at this
  simp only [Callable.naming, hskip, if_neg hname]
  rfl

theorem settle_lead {lead : List Token}
    (h : ∀ x ∈ lead, x.kind.modifier? ≠ none ∨ x.kind = .whitespace) (l : Callable.LeadIn)
    (i : Nat) (rest : List Token) :
    settle Callable.leadInStep l 0 (Entry.number i (lead ++ rest)) =
      settle Callable.leadInStep
        { l with modifiers := (lead.map Token.kind).foldl Modifiers.apply l.modifiers } 0
        (Entry.number (i + lead.length) rest) := by
  induction lead generalizing l i with
  | nil => simp
  | cons x lead ih =>
    have hstep : ∀ es, Callable.leadInStep l ⟨x, i⟩ es =
        ({ l with modifiers := l.modifiers.apply x.kind }, 0) := by
      intro es
      rcases h x (by simp) with hm | hw
      · obtain ⟨w, hw⟩ := Kind.exists_of_modifier? hm
        simp only [Callable.leadInStep, hw]
      · simp only [Callable.leadInStep, hw]
    have hlen : i + 1 + lead.length = i + (x :: lead).length := by
      simp only [List.length_cons]
      omega
    rw [List.cons_append, Entry.number_cons, settle_cons, hstep,
      ih (fun y hy => h y (by simp [hy])), hlen]
    rfl

/-- The modifiers are those of the lead, and behind the word comes the rest. -/
theorem leadIn_eq (i : Nat) :
    Callable.leadIn (Entry.number i m.tokens) =
      { modifiers := .ofKinds (m.lead.map Token.kind)
        rest := Entry.number (i + m.lead.length + 1) (m.gap :: m.name :: m.tail) } := by
  rw [Callable.leadIn, tokens, settle_lead m.isLead.mem_token, Entry.number_cons, settle_cons]
  simp only [Callable.leadInStep, m.word_kind]
  rw [settle_eq_drop, List.drop_length, settle_nil]
  rfl

/-! ## The end of the method -/

/-- A method goes on over nested brackets without a semicolon or brace outside them. -/
theorem methodEnd?_append {stop : Nat} {es : List Entry}
    (h : Nested (fun k => k ≠ .semicolon ∧ k ≠ .opener .brace) (Entry.kinds es))
    (rest : List Entry) :
    Member.methodEnd? t stop (es ++ rest) =
      (Member.methodEnd? t stop rest).map (· + es.length) := by
  rw [Member.methodEnd?]
  refine h.seek_append ?_ ?_ rest
  · rintro e es ⟨hsemi, hbrace⟩ ho
    cases hk : e.kind <;> simp_all [Kind.opens]
  · rintro e es ⟨hsemi, hbrace⟩ ho
    rcases hk : e.kind with _ | _ | _ | _ | _ | _ | _ | _ | _ | _ | _ | ⟨_ | _ | _⟩ | _ <;>
      simp_all [Kind.opens, Entry.kinds]

theorem nested_list : Nested (fun k => k ≠ .semicolon ∧ k ≠ .opener .brace)
    ((m.opener :: (m.parameters ++ [m.closer])).map Token.kind) := by
  rw [List.map_cons, List.map_append, List.map_singleton]
  exact .group (by simp [m.opener_kind]) (by rw [m.opener_kind]; rfl) m.nested
    (by rw [m.closer_kind]; rfl) .nil

/-- The method ends where its tokens end, when the body of the type goes on to there. -/
theorem methodEnd?_eq (h : t.tokens = before ++ (m.tokens ++ after)) {stop : Nat}
    (hstop : before.length + m.tokens.length ≤ stop) (rest : List Token) :
    Member.methodEnd? t stop (Entry.number (before.length + m.lead.length + 3)
      (m.tail ++ rest)) = some (m.tail.length - 1) := by
  have hlen := m.length_tokens
  have htail := m.length_tail
  cases hend : m.ending with
  | semicolon last hkind =>
    have hsplit : m.tail ++ rest = (m.opener :: (m.parameters ++ [m.closer])) ++ last :: rest := by
      simp [tail, hend, MethodEnd.tokens]
    have hnested := m.nested_list
    rw [← Entry.kinds_number (before.length + m.lead.length + 3)] at hnested
    rw [hsplit, Entry.number_append, methodEnd?_append hnested, Entry.number_cons]
    simp [Member.methodEnd?, seek, hkind, tail, hend, MethodEnd.tokens]
  | braces gap opener body closer hgap hopener hcloser hbody =>
    have hsplit : m.tail ++ rest = (m.opener :: (m.parameters ++ [m.closer]) ++ [gap]) ++
        opener :: (body ++ closer :: rest) := by
      simp [tail, hend, MethodEnd.tokens]
    have hnested : Nested (fun k => k ≠ .semicolon ∧ k ≠ .opener .brace)
        ((m.opener :: (m.parameters ++ [m.closer]) ++ [gap]).map Token.kind) := by
      rw [List.map_append]
      refine m.nested_list.append (.plain ?_ ?_ ?_ .nil) <;> simp [hgap, Kind.opens, Kind.closes]
    rw [← Entry.kinds_number (before.length + m.lead.length + 3)] at hnested
    have htable : t.tokens = (before ++ m.lead ++ m.word :: m.gap :: m.name ::
        (m.opener :: (m.parameters ++ [m.closer]) ++ [gap])) ++
          opener :: (body ++ closer :: after) := by
      simp [h, tokens, tail, hend, MethodEnd.tokens]
    have hclose := TokenTable.matchingClose?_group htable (by rw [hopener]; rfl) hbody
      (by rw [hcloser]; rfl)
      (i := before.length + m.lead.length + 3 +
        (m.opener :: (m.parameters ++ [m.closer]) ++ [gap]).length) (by simp; omega)
    rw [hsplit, Entry.number_append, methodEnd?_append hnested, Entry.number_cons]
    simp only [Member.methodEnd?, seek, hopener, hclose]
    simp only [hend, MethodEnd.tokens, List.length_cons, List.length_append, List.length_nil]
      at htail
    simp [tail, hend, MethodEnd.tokens]
    omega

/-- The pass takes the tokens of the method and gives its slot. -/
theorem sweep_eq {context : NameContext} {stop : Nat} (h : t.tokens = before ++ (m.tokens ++ after))
    (hstop : before.length + m.tokens.length ≤ stop) (rest : List Token) :
    sweep (Member.step t context stop) none 0 (Entry.number before.length (m.tokens ++ rest)) =
      .method (m.slot before.length) :: sweep (Member.step t context stop) none 0
        (Entry.number (before.length + m.tokens.length) rest) := by
  have hsplit : m.tokens ++ rest = m.lead ++ m.word :: m.gap :: m.name :: (m.tail ++ rest) := by
    simp [tokens]
  obtain ⟨start, hstart, -, hlead⟩ := @Member.exists_sweep_lead t context stop _ m.isLead
    before.length (m.word :: m.gap :: m.name :: (m.tail ++ rest))
  have hlen := m.length_tokens
  have htail := m.length_tail
  have hlast : before.length + m.lead.length + 1 + 1 + 1 + (m.tail.length - 1) =
      before.length + m.lead.length + 2 + m.tail.length := by
    omega
  have hmethod : Member.method? t stop before.length
      (Entry.number (before.length + m.lead.length + 1) (m.gap :: m.name :: (m.tail ++ rest))) =
      some (m.slot before.length) := by
    have hend : Member.methodEnd? t stop (Entry.number (before.length + m.lead.length + 1 + 1 + 1)
        (m.tail ++ rest)) = some (m.tail.length - 1) := m.methodEnd?_eq h hstop rest
    rw [Member.method?, m.naming_eq, Entry.number_cons]
    simp only [hend, Option.map_some, Option.getD_some, hlast]
    rfl
  have hstep : Member.step t context stop start ⟨m.word, before.length + m.lead.length⟩
      (Entry.number (before.length + m.lead.length + 1) (m.gap :: m.name :: (m.tail ++ rest))) =
      ⟨[.method (m.slot before.length)], none, m.tail.length + 2⟩ := by
    simp only [Member.step, m.word_kind, hstart, hmethod]
    congr 1
    simp only [slot, Span.last_ofBounds]
    omega
  rw [hsplit, hlead, Entry.number_cons, sweep_cons, hstep, sweep_eq_drop, Entry.drop_number]
  simp only [List.singleton_append, List.cons.injEq, true_and]
  congr 2
  · omega
  · simp

/-! ## What is read from the slot -/

theorem within_decl (h : t.tokens = before ++ (m.tokens ++ after)) :
    t.within (m.slot before.length).decl = Entry.number before.length m.tokens := by
  have hlen := m.length_tokens
  exact TokenTable.within_part h rfl (by omega) (by omega)

/-- The parentheses of the parameter list. -/
def list (i : Nat) : Span :=
  .ofBounds (i + m.lead.length + 3) (i + m.lead.length + 4 + m.parameters.length)

/-- A group ends at its own closing bracket. -/
theorem groupLast_number {o c : Token} {b : Bracket} {P : Kind → Prop} {inner : List Token}
    (ho : o.kind.opens = some b) (hinner : Nested P (inner.map Token.kind))
    (hc : c.kind.closes = some b) (last i : Nat) (rest : List Token) :
    Callable.groupLast last (Entry.number i (o :: (inner ++ c :: rest))) =
      i + (inner.length + 1) := by
  have hend := Entry.groupEnd?_number ho hinner hc i rest
  rw [Entry.number_cons] at hend ⊢
  rw [Callable.groupLast, hend]
  rfl

theorem parameterList?_eq (i last : Nat) :
    Callable.parameterList? last (Entry.number (i + m.lead.length + 2) (m.name :: m.tail)) =
      some (m.list i) := by
  have hname : ∀ x ∈ [m.name], (x.kind != .opener .paren) = true := by
    intro x hx
    rw [List.mem_singleton] at hx
    subst hx
    have := m.name_kind
    cases hk : m.name.kind <;> simp_all [Kind.isSubject]
  have hopener : (m.opener.kind != .opener .paren) = false := by
    simp [m.opener_kind]
  have hdrop : (Entry.number (i + m.lead.length + 2) (m.name :: m.tail)).dropWhile
      (fun e => e.kind != .opener .paren) = Entry.number (i + m.lead.length + 3) m.tail :=
    Entry.dropWhile_number (p := (· != .opener .paren)) hname hopener _ _
  have hgroup : Callable.groupLast last (Entry.number (i + m.lead.length + 3) m.tail) =
      i + m.lead.length + 4 + m.parameters.length :=
    groupLast_number (by rw [m.opener_kind]; rfl) m.nested (by rw [m.closer_kind]; rfl) last _
      m.ending.tokens |>.trans (by omega)
  rw [Callable.parameterList?, hdrop]
  exact congrArg (fun n => some (Span.ofBounds (i + m.lead.length + 3) n)) hgroup

/-! ## Behind the parameter list -/

/-- What stands behind the parameter list is the end of the method. -/
theorem tail_eq (h : t.tokens = before ++ (m.tokens ++ after)) :
    Callable.tail t (m.slot before.length).decl.last (m.list before.length) =
      settle (Callable.tailStep t (m.slot before.length).decl.last) {} 0
        (Entry.number (before.length + m.lead.length + 5 + m.parameters.length)
          m.ending.tokens) := by
  have hsplit : t.tokens = (before ++ m.lead ++ m.word :: m.gap :: m.name :: m.opener ::
      (m.parameters ++ [m.closer])) ++ (m.ending.tokens ++ after) := by
    simp [h, tokens, tail]
  have hlen := m.length_tail
  rw [Callable.tail, TokenTable.window_part hsplit]
  · congr 2
    simp only [list, Span.last_ofBounds]
    omega
  · simp only [list, Span.last_ofBounds, List.length_append, List.length_cons, List.length_nil]
    omega
  · simp only [slot, Span.last_ofBounds, List.length_append, List.length_cons, List.length_nil]
    omega

/-- The braces of the body. -/
def bodySpan (i : Nat) : Option Span :=
  match m.ending with
  | .semicolon _ _ => none
  | .braces _ _ body _ _ _ _ _ =>
    some (.ofBounds (i + m.lead.length + 6 + m.parameters.length)
      (i + m.lead.length + 7 + m.parameters.length + body.length))

theorem isSome_bodySpan (i : Nat) : (m.bodySpan i).isSome = m.ending.body.isSome := by
  rw [bodySpan]
  cases m.ending <;> rfl

theorem tail_body (h : t.tokens = before ++ (m.tokens ++ after)) :
    (Callable.tail t (m.slot before.length).decl.last (m.list before.length)).body =
      m.bodySpan before.length := by
  rw [m.tail_eq h, bodySpan]
  cases m.ending with
  | semicolon stop hkind =>
    rw [MethodEnd.tokens, Entry.number_cons, settle_cons]
    simp [Callable.tailStep, hkind]
  | braces gap opener body closer hgap hopener hcloser hbody =>
    have hgroup := groupLast_number (by rw [hopener]; rfl) hbody (by rw [hcloser]; rfl)
      (m.slot before.length).decl.last
      (before.length + m.lead.length + 5 + m.parameters.length + 1) []
    rw [Entry.number_cons] at hgroup
    rw [MethodEnd.tokens, Entry.number_cons, settle_cons]
    simp only [Callable.tailStep, hgap]
    rw [Entry.number_cons, settle_cons]
    simp only [Callable.tailStep, hopener, hgroup]
    have hlast : before.length + m.lead.length + 5 + m.parameters.length + 1 + (body.length + 1) =
        before.length + m.lead.length + 7 + m.parameters.length + body.length := by
      omega
    have hfirst : before.length + m.lead.length + 5 + m.parameters.length + 1 =
        before.length + m.lead.length + 6 + m.parameters.length := by
      omega
    rw [settle_eq_drop, List.drop_length, settle_nil, hlast, hfirst]

/-! ## The method as a whole -/

variable {context : NameContext} {scope : Option ClassScope} {inInterface : Bool}

theorem modifiers_read (h : t.tokens = before ++ (m.tokens ++ after)) :
    (Callable.read t context scope inInterface (m.slot before.length).decl).modifiers =
      .ofKinds (m.lead.map Token.kind) := by
  simp only [Callable.read, m.within_decl h, m.leadIn_eq]

theorem parameterList_read (h : t.tokens = before ++ (m.tokens ++ after)) :
    (Callable.read t context scope inInterface (m.slot before.length).decl).parameterList =
      some (m.list before.length) := by
  simp only [Callable.read, m.within_decl h, m.leadIn_eq, m.naming_eq]
  exact m.parameterList?_eq before.length _

/-- The braces of the body are found. -/
theorem bodySpan_read (h : t.tokens = before ++ (m.tokens ++ after)) :
    (Callable.read t context scope inInterface (m.slot before.length).decl).bodySpan =
      m.bodySpan before.length := by
  have hlist := @parameterList_read m t before after context scope inInterface h
  rw [← m.tail_body h]
  simp only [Callable.read] at hlist ⊢
  rw [hlist]
  rfl

/-- The parameters are read from the items of the list. -/
theorem parameters_read (h : t.tokens = before ++ (m.tokens ++ after)) :
    (Callable.read t context scope inInterface (m.slot before.length).decl).parameters =
      (Entry.pieces (Entry.number (before.length + m.lead.length + 4) m.parameters)).mapIdx
        fun position piece => Parameter.read t context scope piece position := by
  have hlist := @parameterList_read m t before after context scope inInterface h
  have hsplit : t.tokens = (before ++ m.lead ++ [m.word, m.gap, m.name, m.opener]) ++
      (m.parameters ++ (m.closer :: (m.ending.tokens ++ after))) := by
    simp [h, tokens, tail]
  have hwindow : t.window ((m.list before.length).first + 1) (m.list before.length).last =
      Entry.number (before.length + m.lead.length + 4) m.parameters := by
    refine TokenTable.window_part hsplit ?_ ?_
    · simp [list, Nat.add_assoc]
    · simp only [list, Span.last_ofBounds, List.length_append, List.length_cons, List.length_nil]
      omega
  simp only [Callable.read] at hlist ⊢
  rw [hlist, Option.map_some, Option.getD_some, Callable.readParameters,
    TokenTable.splitTopLevel, hwindow]

/-- The text between the braces of the body comes back. -/
theorem body_read (ht : t.IsGapless) (h : t.tokens = before ++ (m.tokens ++ after)) :
    (Callable.read t context scope inInterface (m.slot before.length).decl).body =
      m.ending.body.getD [] := by
  have hspan := @bodySpan_read m t before after context scope inInterface h
  simp only [Callable.read] at hspan ⊢
  rw [hspan, bodySpan]
  cases hend : m.ending with
  | semicolon stop hkind => rfl
  | braces gap opener body closer hgap hopener hcloser hbody =>
    have hsplit : t.tokens = (before ++ m.lead ++ m.word :: m.gap :: m.name :: m.opener ::
        (m.parameters ++ m.closer :: [gap])) ++ opener :: (body ++ closer :: after) := by
      simp [h, tokens, tail, hend, MethodEnd.tokens]
    simp only [Option.map_some, Option.getD_some, MethodEnd.body]
    refine TokenTable.sourceBetween_part ht hsplit ?_ ?_
    · simp only [Span.first_ofBounds, List.length_append, List.length_cons, List.length_nil]
      omega
    · simp only [Span.last_ofBounds, List.length_append, List.length_cons, List.length_nil]
      omega

end MethodTokens

/-! ## Methods in a source -/

/-- The pieces of the end of a method. -/
def MethodEnd.pieces : Option (List Piece) → List Piece
  | none => [.token .semicolon ";".toList none]
  | some body => .token .whitespace " ".toList none :: .token (.opener .brace) ['{'] none ::
      (body ++ [.token (.closer .brace) ['}'] none])

theorem MethodEnd.faultless_pieces {body : Option (List Piece)}
    (h : ∀ ps ∈ body, Faultless ps) : Faultless (pieces body) := by
  cases body with
  | none => exact .cons rfl .nil
  | some ps => exact .cons rfl (.cons rfl ((h ps rfl).append (.cons rfl .nil)))

theorem MethodEnd.nested_pieces {body : Option (List Piece)}
    (h : ∀ ps ∈ body, Nested (fun _ => True) (kindsOf ps)) :
    Nested (fun _ => True) (kindsOf (pieces body)) := by
  cases body with
  | none => exact .plain trivial rfl rfl .nil
  | some ps =>
    rw [pieces, kindsOf_token, kindsOf_token, kindsOf_append, kindsOf_token]
    exact .plain trivial rfl rfl (.group trivial rfl (h ps rfl) rfl .nil)

theorem MethodEnd.exists_of_pieces {ts : List Token} {body : Option (List Piece)}
    (h : ts.map Token.piece = pieces body)
    (hn : ∀ ps ∈ body, Nested (fun _ => True) (kindsOf ps)) :
    ∃ e : MethodEnd, e.tokens = ts ∧ e.body = body.map textOf := by
  cases body with
  | none =>
    obtain ⟨stop, rest, rfl, hstop, -, hrest⟩ := exists_cons_of_map_piece h
    obtain rfl := List.map_eq_nil_iff.1 hrest
    exact ⟨.semicolon stop hstop, rfl, rfl⟩
  | some ps =>
    obtain ⟨gap, rest, rfl, hgap, -, hrest⟩ := exists_cons_of_map_piece h
    obtain ⟨opener, rest, rfl, hopener, -, hrest⟩ := exists_cons_of_map_piece hrest
    obtain ⟨inside, rest, rfl, hinside, hrest⟩ := List.map_eq_append_iff.1 hrest
    obtain ⟨closer, rest, rfl, hcloser, -, hrest⟩ := exists_cons_of_map_piece hrest
    obtain rfl := List.map_eq_nil_iff.1 hrest
    have hnested := hn ps rfl
    rw [← hinside, kindsOf_map_piece] at hnested
    refine ⟨.braces gap opener inside closer hgap hopener hcloser hnested, rfl, ?_⟩
    rw [MethodEnd.body, hinside]
    rfl

namespace MethodTokens

/-- The pieces of a method. -/
def pieces (lead : List Piece) (kind : Kind) (name : Text) (parameters : List Piece)
    (body : Option (List Piece)) : List Piece :=
  lead ++ .token (.keyword .function) "function".toList none ::
    .token .whitespace " ".toList none :: .token kind name none ::
    .token (.opener .paren) "(".toList none ::
    (parameters ++ .token (.closer .paren) ")".toList none :: MethodEnd.pieces body)

theorem faultless_pieces {lead parameters : List Piece} {kind : Kind} {name : Text}
    {body : Option (List Piece)} (hlead : Faultless lead) (hparameters : Faultless parameters)
    (hbody : ∀ ps ∈ body, Faultless ps) : Faultless (pieces lead kind name parameters body) :=
  hlead.append (.cons rfl (.cons rfl (.cons rfl (.cons rfl (hparameters.append
    (.cons rfl (MethodEnd.faultless_pieces hbody)))))))

theorem nested_pieces {lead parameters : List Piece} {kind : Kind} {name : Text}
    {body : Option (List Piece)} (hlead : IsLead (kindsOf lead)) (hkind : kind.isSubject = true)
    (hparameters : Nested (fun _ => True) (kindsOf parameters))
    (hbody : ∀ ps ∈ body, Nested (fun _ => True) (kindsOf ps)) :
    Nested (fun _ => True) (kindsOf (pieces lead kind name parameters body)) := by
  have hplain := Kind.isPlain_of_isSubject hkind
  simp only [pieces, kindsOf_append, kindsOf_token]
  refine hlead.nested.append (.plain trivial rfl rfl (.plain trivial rfl rfl (.plain trivial
    (Kind.opens_of_isPlain hplain) (Kind.closes_of_isPlain hplain) ?_)))
  exact .group trivial rfl hparameters rfl (MethodEnd.nested_pieces hbody)

/-- Tokens with these pieces are a method. -/
theorem exists_of_pieces {ts : List Token} {lead parameters : List Piece} {kind : Kind}
    {name : Text} {body : Option (List Piece)}
    (h : ts.map Token.piece = pieces lead kind name parameters body)
    (hlead : IsLead (kindsOf lead)) (hkind : kind.isSubject = true)
    (hparameters : Nested (fun _ => True) (kindsOf parameters))
    (hbody : ∀ ps ∈ body, Nested (fun _ => True) (kindsOf ps)) :
    ∃ m : MethodTokens, m.tokens = ts ∧ m.name.text = name ∧ m.lead.map Token.piece = lead ∧
      m.parameters.map Token.piece = parameters ∧ m.ending.body = body.map textOf := by
  obtain ⟨front, rest, rfl, hfront, hrest⟩ := List.map_eq_append_iff.1 h
  obtain ⟨word, rest, rfl, hword, -, hrest⟩ := exists_cons_of_map_piece hrest
  obtain ⟨gap, rest, rfl, hgap, -, hrest⟩ := exists_cons_of_map_piece hrest
  obtain ⟨subject, rest, rfl, hsubject, htext, hrest⟩ := exists_cons_of_map_piece hrest
  obtain ⟨opener, rest, rfl, hopener, -, hrest⟩ := exists_cons_of_map_piece hrest
  obtain ⟨inside, rest, rfl, hinside, hrest⟩ := List.map_eq_append_iff.1 hrest
  obtain ⟨closer, rest, rfl, hcloser, -, hrest⟩ := exists_cons_of_map_piece hrest
  obtain ⟨ending, rfl, hend⟩ := MethodEnd.exists_of_pieces hrest hbody
  rw [← hfront, kindsOf_map_piece] at hlead
  rw [← hinside, kindsOf_map_piece] at hparameters
  exact ⟨⟨front, word, gap, subject, opener, inside, closer, ending, hlead, hword, hgap,
    by rw [hsubject]; exact hkind, hopener, hcloser, hparameters⟩, rfl, htext, hfront, hinside,
    hend⟩

end MethodTokens

end PhpOutline
