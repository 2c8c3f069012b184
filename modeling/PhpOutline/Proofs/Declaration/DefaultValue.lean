import PhpOutline.Proofs.Declaration.ClassSource
import PhpOutline.Proofs.Declaration.Methods
import PhpOutline.Proofs.Declaration.Parameters
import PhpOutline.Proofs.Lookup

/-!
# Default values come back as they are written

Whatever text stands as the default value of a parameter, as long as it is cut without faults,
begins and ends with a significant token, and keeps its commas inside properly nested brackets, the
default value that is read is that text.

## Main definitions

* `IsDefaultValue`: the texts that can stand as the default value of a parameter.
* `defaultSource`: a class with a method whose second parameter has a given default value.

## Main statements

* `defaultValue_verbatim`: the three parameters of the method, and the default values of the second
  and the third.
-/

namespace PhpOutline

open Lexeme

/-- A text behind the opening tag. -/
def tagged (v : Text) : Text := "<?php ".toList ++ v

/-- A text that can stand as the default value of a parameter: behind an opening tag it is cut
without faults, its first and last token are significant, its brackets are properly nested, and no
comma stands outside them. -/
structure IsDefaultValue (v : Text) : Prop where
  faultless : (lex {} (tagged v)).diagnostics = []
  delimited : Delimited (((lex {} (tagged v)).tokens.drop 1).map Token.kind)
  nested : Nested (· ≠ .comma) (((lex {} (tagged v)).tokens.drop 1).map Token.kind)

theorem lex_tagged (v : Text) :
    lex {} (tagged v) = ⟨⟨.openTag, "<?php ".toList, 1, 0⟩ :: placed 1 6 (codePieces v),
      faults 1 (codePieces v)⟩ :=
  lex_behind_tag false v

namespace IsDefaultValue

variable {v : Text} (h : IsDefaultValue v)

include h

theorem kinds_delimited : Delimited (kindsOf (codePieces v)) := by
  have := h.delimited
  rw [lex_tagged] at this
  simpa [map_kind_placed] using this

theorem kinds_nested : Nested (· ≠ .comma) (kindsOf (codePieces v)) := by
  have := h.nested
  rw [lex_tagged] at this
  simpa [map_kind_placed] using this

theorem isContained : IsContained v := by
  have hf := h.faultless
  rw [lex_tagged] at hf
  exact isContained_of_delimited (faultless_of_faults_eq_nil hf) h.kinds_delimited

end IsDefaultValue

/-- A class with a method of three parameters, of which the second has the given default value. -/
def defaultSource (v : Text) : Text :=
  "<?php class A ".toList ++ '{' ::
    (" function f($a, $b = ".toList ++ (v ++ ", $c = 1) {} ".toList) ++ ['}'])

/-- The text between the braces of the class. -/
def defaultBody (v : Text) : Text :=
  " function f($a, $b = ".toList ++ (v ++ ", $c = 1) {} ".toList)

theorem defaultSource_eq (v : Text) : defaultSource v = classSource (defaultBody v) := rfl

/-! ## The pieces of the source -/

/-- The pieces of the parameter list, with those of the default value. -/
def parameterPieces (value : List Piece) : List Piece :=
  .token .variableName "$a".toList none :: .token .comma ",".toList none ::
    .token .whitespace " ".toList none ::
    (Binding.pieces .variableName "$b".toList value ++ .token .comma ",".toList none ::
      .token .whitespace " ".toList none ::
      Binding.pieces .variableName "$c".toList [.token .number "1".toList none])

/-- The pieces between the braces of the class. -/
def defaultPieces (value : List Piece) : List Piece :=
  .token .whitespace " ".toList none ::
    (MethodTokens.pieces [] .name "f".toList (parameterPieces value) (some []) ++
      [.token .whitespace " ".toList none])

/-- What stands behind the comma after the default value. -/
def defaultTail : Text := " $c = 1) {} ".toList ++ ['}']

theorem pieces_defaultBody {v : Text} (h : IsDefaultValue v) :
    pieces false (.code false) (defaultBody v ++ ['}']) =
      defaultPieces (codePieces v) ++ [closerPiece] := by
  have hsplit : defaultBody v ++ ['}'] =
      ' ' :: ("function".toList ++ ' ' :: ("f".toList ++ '(' :: '$' :: ("a".toList ++ ',' :: ' ' ::
        '$' :: ("b".toList ++ ' ' :: '=' :: ' ' :: (v ++ ',' :: defaultTail))))) := by
    have h₁ : ", $c = 1) {} ".toList ++ ['}'] = ',' :: defaultTail := by rfl
    unfold defaultBody
    rw [List.append_assoc, List.append_assoc, h₁]
    rfl
  have htail : pieces false (.code false) defaultTail =
      [.token .whitespace " ".toList none, .token .variableName "$c".toList none,
        .token .whitespace " ".toList none, .token .equals "=".toList none,
        .token .whitespace " ".toList none, .token .number "1".toList none,
        .token (.closer .paren) ")".toList none, .token .whitespace " ".toList none,
        .token (.opener .brace) ['{'] none, .token (.closer .brace) ['}'] none,
        .token .whitespace " ".toList none, .token (.closer .brace) ['}'] none] := by
    decide +kernel
  have hfunction : Keyword.ofWord? "function".toList = some .function := by decide
  have hf : Keyword.ofWord? "f".toList = none := by decide
  have hspace := startsWith_isSpace_of_delimited h.kinds_delimited (',' :: defaultTail)
  rw [hsplit, pieces_blank rfl rfl, pieces_keyword (by decide) hfunction (by simp) rfl,
    pieces_blank rfl rfl, pieces_word (by decide) rfl, wordKind_of_ofWord?_eq_none hf,
    pieces_paren, pieces_variable (by decide) rfl, pieces_fence rfl, pieces_blank rfl rfl,
    pieces_variable (by decide) rfl, pieces_blank rfl rfl, pieces_equals, pieces_blank rfl hspace,
    pieces_contained h.isContained rfl, htail]
  simp [defaultPieces, MethodTokens.pieces, parameterPieces, Binding.pieces, MethodEnd.pieces,
    closerPiece, plainSign]

/-! ## The parameters -/

/-- The tokens of the parameter list: a variable, and two that are bound to values. -/
structure ParameterTokens where
  first : Token
  comma₁ : Token
  gap₁ : Token
  second : Binding (· ≠ .comma)
  comma₂ : Token
  gap₂ : Token
  third : Binding (· ≠ .comma)
  first_kind : first.kind = .variableName
  comma₁_kind : comma₁.kind = .comma
  gap₁_kind : gap₁.kind = .whitespace
  second_kind : second.name.kind = .variableName
  comma₂_kind : comma₂.kind = .comma
  gap₂_kind : gap₂.kind = .whitespace
  third_kind : third.name.kind = .variableName

namespace ParameterTokens

variable (p : ParameterTokens)

/-- The tokens, in order. -/
def tokens : List Token :=
  p.first :: p.comma₁ :: p.gap₁ ::
    (p.second.tokens ++ p.comma₂ :: p.gap₂ :: p.third.tokens)

/-- Tokens with these pieces are such a list. -/
theorem exists_of_pieces {ts : List Token} {value : List Piece}
    (h : ts.map Token.piece = parameterPieces value) (hd : Delimited (kindsOf value))
    (hn : Nested (· ≠ .comma) (kindsOf value)) :
    ∃ p : ParameterTokens, p.tokens = ts ∧ p.first.text = "$a".toList ∧
      p.second.name.text = "$b".toList ∧ p.second.value.map Token.piece = value ∧
      p.third.name.text = "$c".toList ∧
      p.third.value.map Token.piece = [.token .number "1".toList none] := by
  obtain ⟨a, rest, rfl, ha, hatext, hrest⟩ := exists_cons_of_map_piece h
  obtain ⟨comma₁, rest, rfl, hcomma₁, -, hrest⟩ := exists_cons_of_map_piece hrest
  obtain ⟨gap₁, rest, rfl, hgap₁, -, hrest⟩ := exists_cons_of_map_piece hrest
  obtain ⟨second, rest', rfl, hsecond, hrest'⟩ := List.map_eq_append_iff.1 hrest
  obtain ⟨comma₂, rest', rfl, hcomma₂, -, hrest'⟩ := exists_cons_of_map_piece hrest'
  obtain ⟨gap₂, rest', rfl, hgap₂, -, hrest'⟩ := exists_cons_of_map_piece hrest'
  obtain ⟨b, rfl, hb, hbtext, hbvalue⟩ := Binding.exists_of_pieces hsecond rfl hd hn
  obtain ⟨c, rfl, hc, hctext, hcvalue⟩ := Binding.exists_of_pieces (P := (· ≠ .comma)) hrest' rfl
    (.singleton rfl) (.plain (by simp) rfl rfl .nil)
  exact ⟨⟨a, comma₁, gap₁, b, comma₂, gap₂, c, ha, hcomma₁, hgap₁, hb, hcomma₂, hgap₂, hc⟩, rfl,
    hatext, hbtext, hbvalue, hctext, hcvalue⟩

/-- A gap and a variable that is bound to a value hold no comma outside all brackets. -/
theorem nested_gap_binding {gap : Token} (hgap : gap.kind = .whitespace)
    (b : Binding (· ≠ .comma)) : Nested (· ≠ .comma) (([gap] ++ b.tokens).map Token.kind) := by
  have hplain : ∀ k : Kind, k.isPlain = true → k ≠ .comma := by
    intro k hk
    exact (Kind.fitsValue_of_isPlain hk).1
  have hblank : ∀ k ∈ [gap.kind], k.isPlain = true := by
    intro k hk
    rw [List.mem_singleton.1 hk, hgap]
    rfl
  rw [List.map_append, List.map_singleton]
  exact Nested.append_plain hplain hblank (b.nested_tokens hplain)

/-- The list is split at its two commas, into three items. -/
theorem pieces_eq (i : Nat) :
    Entry.pieces (Entry.number i p.tokens) =
      [.ofBounds i i, .ofBounds (i + 3) (i + 2 + p.second.tokens.length),
        .ofBounds (i + 5 + p.second.tokens.length)
          (i + 4 + p.second.tokens.length + p.third.tokens.length)] := by
  have hnested : Nested (· ≠ .comma) [p.first.kind] := by
    rw [p.first_kind]
    exact .plain (by simp) rfl rfl .nil
  have hgap : ∀ {gap : Token}, gap.kind = .whitespace →
      ∀ x ∈ [gap], x.kind.isInsignificant = true := by
    intro gap hgap x hx
    rw [List.mem_singleton.1 hx, hgap]
    rfl
  have h₁ := Entry.pieces_item_comma [] [p.first] (fun x hx => absurd hx List.not_mem_nil)
    (.singleton (by rw [p.first_kind]; rfl)) hnested i p.comma₁_kind
    (p.gap₁ :: (p.second.tokens ++ p.comma₂ :: p.gap₂ :: p.third.tokens))
  have h₂ := Entry.pieces_item_comma [p.gap₁] p.second.tokens (hgap p.gap₁_kind)
    p.second.delimited_tokens (nested_gap_binding p.gap₁_kind p.second) (i + 2) p.comma₂_kind
    (p.gap₂ :: p.third.tokens)
  have h₃ := Entry.pieces_item [p.gap₂] p.third.tokens (hgap p.gap₂_kind)
    p.third.delimited_tokens (nested_gap_binding p.gap₂_kind p.third)
    (i + 2 + ([p.gap₁] ++ p.second.tokens).length + 1)
  have hlen₂ := p.second.length_tokens
  have hlen₃ := p.third.length_tokens
  refine h₁.trans (congrArg₂ List.cons rfl (h₂.trans (congrArg₂ List.cons ?_ (h₃.trans
    (congrArg₂ List.cons ?_ rfl)))))
  · simp only [List.length_singleton]
    congr 1
    omega
  · simp only [List.length_append, List.length_singleton]
    congr 1 <;> omega

end ParameterTokens

/-- A method with these parameters has three of them, with the default values that are written. -/
theorem exists_parameters {t : TokenTable} (ht : t.IsGapless) {before after : List Token}
    {m : MethodTokens} (htokens : t.tokens = before ++ (m.tokens ++ after)) {value : List Piece}
    (hm : m.parameters.map Token.piece = parameterPieces value) (hd : Delimited (kindsOf value))
    (hn : Nested (· ≠ .comma) (kindsOf value)) {context : NameContext} {scope : Option ClassScope}
    {inInterface : Bool} :
    ∃ a b c, (Callable.read t context scope inInterface
        (m.slot before.length).decl).parameters = [a, b, c] ∧
      a.name = "a".toList ∧ b.name = "b".toList ∧ c.name = "c".toList ∧
      b.defaultValue = some (textOf value) ∧ c.defaultValue = some "1".toList := by
  obtain ⟨p, hp, hfirst, hsecond, hvalue₂, hthird, hvalue₃⟩ :=
    ParameterTokens.exists_of_pieces hm hd hn
  have hsplit₁ : t.tokens = (before ++ m.lead ++ [m.word, m.gap, m.name, m.opener]) ++
      p.first :: p.comma₁ :: p.gap₁ :: (p.second.tokens ++ p.comma₂ :: p.gap₂ ::
        (p.third.tokens ++ (m.closer :: (m.ending.tokens ++ after)))) := by
    simp [htokens, MethodTokens.tokens, MethodTokens.tail, ← hp, ParameterTokens.tokens]
  have hsplit₂ : t.tokens = (before ++ m.lead ++ [m.word, m.gap, m.name, m.opener] ++
      [p.first, p.comma₁, p.gap₁]) ++ (p.second.tokens ++ (p.comma₂ :: p.gap₂ ::
        (p.third.tokens ++ (m.closer :: (m.ending.tokens ++ after))))) := by
    simp [hsplit₁]
  have hsplit₃ : t.tokens = (before ++ m.lead ++ [m.word, m.gap, m.name, m.opener] ++
      [p.first, p.comma₁, p.gap₁] ++ p.second.tokens ++ [p.comma₂, p.gap₂]) ++
        (p.third.tokens ++ (m.closer :: (m.ending.tokens ++ after))) := by
    simp [hsplit₁]
  have hlen₂ := p.second.length_tokens
  have hlen₃ := p.third.length_tokens
  have hitems := p.pieces_eq (before.length + m.lead.length + 4)
  rw [hp] at hitems
  refine ⟨_, _, _, (m.parameters_read htokens).trans (congrArg _ hitems), ?_, ?_, ?_, ?_, ?_⟩
  · rw [Parameter.name_read_single p.first_kind hsplit₁ (by simp; omega) rfl, hfirst]
    rfl
  · rw [Parameter.name_read_binding p.second p.second_kind hsplit₂ (by simp; omega)
      (by simp; omega), hsecond]
    rfl
  · rw [Parameter.name_read_binding p.third p.third_kind hsplit₃ (by simp; omega)
      (by simp; omega), hthird]
    rfl
  · rw [Parameter.defaultValue_read_binding ht p.second p.second_kind hsplit₂ (by simp; omega)
      (by simp; omega), hvalue₂]
  · rw [Parameter.defaultValue_read_binding ht p.third p.third_kind hsplit₃ (by simp; omega)
      (by simp; omega), hvalue₃]
    rfl

/-! ## The source as a whole -/

theorem nested_parameterPieces {value : List Piece} (hn : Nested (· ≠ .comma) (kindsOf value)) :
    Nested (fun _ => True) (kindsOf (parameterPieces value)) := by
  have htrue : Nested (fun _ => True) (kindsOf value) := hn.mono fun _ _ => trivial
  simp only [parameterPieces, Binding.pieces, kindsOf_token, kindsOf_append, kindsOf_nil,
    List.cons_append]
  refine .plain trivial rfl rfl (.plain trivial rfl rfl (.plain trivial rfl rfl (.plain trivial rfl
    rfl (.plain trivial rfl rfl (.plain trivial rfl rfl (.plain trivial rfl rfl ?_))))))
  refine htrue.append (.plain trivial rfl rfl (.plain trivial rfl rfl (.plain trivial rfl rfl
    (.plain trivial rfl rfl (.plain trivial rfl rfl (.plain trivial rfl rfl (.plain trivial rfl
      rfl .nil)))))))

theorem faultless_parameterPieces {value : List Piece} (hf : Faultless value) :
    Faultless (parameterPieces value) :=
  .cons rfl (.cons rfl (.cons rfl ((Binding.faultless_pieces hf).append (.cons rfl (.cons rfl
    (Binding.faultless_pieces (.cons rfl .nil)))))))

/-- The pieces between the braces are properly nested. -/
theorem nested_defaultPieces {value : List Piece} (hn : Nested (· ≠ .comma) (kindsOf value)) :
    Nested (fun _ => True) (kindsOf (defaultPieces value)) := by
  have hmethod : Nested (fun _ => True) (kindsOf (MethodTokens.pieces [] .name "f".toList
      (parameterPieces value) (some []))) :=
    MethodTokens.nested_pieces .nil rfl (nested_parameterPieces hn) (by rintro ps ⟨⟩; exact .nil)
  rw [defaultPieces, kindsOf_token, kindsOf_append]
  exact .plain trivial rfl rfl (hmethod.append (.plain trivial rfl rfl .nil))

theorem faultless_defaultPieces {value : List Piece} (hf : Faultless value) :
    Faultless (defaultPieces value) :=
  .cons rfl ((MethodTokens.faultless_pieces .nil (faultless_parameterPieces hf)
    (by rintro ps ⟨⟩; exact .nil)).append (.cons rfl .nil))

/-- The class has one member, which is the method. -/
theorem exists_methodTokens {v : Text} (f : OneType (classTable (defaultBody v)))
    {value : List Piece} (hbody : f.body.map Token.piece = defaultPieces value)
    (hn : Nested (· ≠ .comma) (kindsOf value)) :
    ∃ (m : MethodTokens) (before after : List Token),
      (classTable (defaultBody v)).tokens = before ++ (m.tokens ++ after) ∧
      m.name.text = "f".toList ∧ m.parameters.map Token.piece = parameterPieces value ∧
      f.members = [.method (m.slot before.length)] := by
  obtain ⟨gap, rest, hrest₁, hgap, -, hrest⟩ := exists_cons_of_map_piece hbody
  obtain ⟨ts, rest', rfl, hts, hrest'⟩ := List.map_eq_append_iff.1 hrest
  obtain ⟨blank, rest', rfl, hblank, -, hnil⟩ := exists_cons_of_map_piece hrest'
  obtain rfl := List.map_eq_nil_iff.1 hnil
  obtain ⟨m, rfl, hname, -, hparameters, -⟩ := MethodTokens.exists_of_pieces hts .nil rfl
    (nested_parameterPieces hn) (by rintro ps ⟨⟩; exact .nil)
  have htokens : (classTable (defaultBody v)).tokens =
      [f.tag, f.word, f.gap₁, f.name, f.gap₂, f.opener, gap] ++
        (m.tokens ++ [blank, f.closer]) := by
    simp [f.tokens_eq, hrest₁]
  refine ⟨m, _, _, htokens, hname, hparameters, ?_⟩
  have hstop : [f.tag, f.word, f.gap₁, f.name, f.gap₂, f.opener, gap].length + m.tokens.length ≤
      f.last := by
    simp only [OneType.last, hrest₁, List.length_cons, List.length_append, List.length_nil]
    omega
  rw [OneType.members, hrest₁, Member.sweep_whitespace hgap]
  refine (m.sweep_eq htokens hstop [blank]).trans ?_
  rw [Member.sweep_whitespace hblank]
  simp

/-- The class is found, its method is found, and its parameters come back with their default values
as they are written. -/
theorem defaultValue_verbatim {v : Text} (h : IsDefaultValue v) :
    ∃ c m b d, (SourceFile.ofSource {} (defaultSource v)).type "A".toList = .ok c ∧
      c.method "f".toList = .ok m ∧
      m.parameterNames = ["a".toList, "b".toList, "c".toList] ∧
      m.parameter (.name "b".toList) = .ok b ∧ b.defaultValue = some v ∧
      m.parameter (.name "c".toList) = .ok d ∧ d.defaultValue = some "1".toList := by
  have hpieces := pieces_defaultBody h
  have hf := faultless_defaultPieces h.isContained.faultless
  obtain ⟨f, -, hbody, htype⟩ := exists_oneType_classSource hpieces hf
    (nested_defaultPieces h.kinds_nested)
  obtain ⟨m, before, after, htokens, hname, hparameters, hmembers⟩ :=
    exists_methodTokens f hbody h.kinds_nested
  obtain ⟨a, b, c, hlist, ha, hb, hc, hbv, hcv⟩ := @exists_parameters _
    (isGapless_classTable hpieces hf) before after m htokens _ hparameters h.kinds_delimited
    h.kinds_nested {} (some f.scope) (f.kind == .interface)
  rw [show textOf (codePieces v) = v from textOf_pieces _ _ _] at hbv
  have hmethod : f.read.method "f".toList = .ok (Callable.read (classTable (defaultBody v)) {}
      (some f.scope) (f.kind == .interface) (m.slot before.length).decl) := by
    have hmethods := f.methods_read
    rw [hmembers] at hmethods
    have hfound := @ClassLike.method_eq f.read ⟨m.slot before.length, _⟩ [] [] hmethods (by simp)
    rw [← hname]
    exact hfound
  refine ⟨f.read, _, b, c, ?_, hmethod, ?_, ?_, hbv, ?_, hcv⟩
  · rw [defaultSource_eq]
    exact htype
  · rw [Callable.parameterNames, hlist]
    simp [ha, hb, hc]
  · rw [← hb]
    exact @Callable.parameter_eq _ b [a] [c] hlist (by simp [ha, hb]) (by rw [hb]; rfl)
  · rw [← hc]
    exact @Callable.parameter_eq _ c [a, b] [] hlist (by simp [ha, hb, hc]) (by rw [hc]; rfl)

/-- A list with a function in it, which has a comma in a string and a comma inside the brackets. -/
def listDefault : Text := "[1, fn($x) => 'a, b']".toList

/-- A default value with brackets and commas in it comes back. -/
theorem defaultValue_verbatim_list :
    IsDefaultValue listDefault ∧
    ∃ c m b d, (SourceFile.ofSource {} (defaultSource listDefault)).type "A".toList = .ok c ∧
      c.method "f".toList = .ok m ∧
      m.parameterNames = ["a".toList, "b".toList, "c".toList] ∧
      m.parameter (.name "b".toList) = .ok b ∧ b.defaultValue = some listDefault ∧
      m.parameter (.name "c".toList) = .ok d ∧ d.defaultValue = some "1".toList := by
  have h : IsDefaultValue listDefault :=
    ⟨by decide +kernel, by decide +kernel, by decide +kernel⟩
  exact ⟨h, defaultValue_verbatim h⟩

end PhpOutline
