import Mathlib.Data.List.Infix
import PhpOutline.Proofs.Lexing.Fence
import PhpOutline.Proofs.Lexing.Lossless

/-!
# The grammar of strings

A string in double quotes or backticks holds escapes and interpolations, and an interpolation holds
braces and strings of its own, so that quotes and braces nest to any depth. The grammar says, byte
by byte, what closes something that stands open. The reader of strings keeps what is open on a stack
and goes over the characters of a text once. It ends where a prefix of the text that is in the
grammar ends, so that no text has two of them, and it finds no end where there is none.

## Main definitions

* `Lexeme.Closes`: the grammar, and `Lexeme.ClosesAll`: its words for a stack of frames.
* `Lexeme.Frame.behind`: what stands open behind a byte.
* `Lexeme.Ends`: where the only prefix in the grammar ends.
* `Lexeme.EndsAlike`: the reader ends where the grammar does.

## Main statements

* `Lexeme.closesAll_cons`, `Lexeme.closesAll_escape`: what one byte does to the words of a stack.
* `Lexeme.EndsAlike.ascii`, `Lexeme.EndsAlike.beyond`, `Lexeme.EndsAlike.escape`: what one character
  does to the reader.
* `Lexeme.endsAlike`: the reader ends where the grammar does.
-/

namespace PhpOutline

/-! ## Bytes of characters -/

namespace Text

/-- An ASCII character begins a text exactly when its byte does. -/
theorem head?_bytes_eq_some {d : Char} (hd : d.toNat < 128) (s : Text) :
    s.bytes.head? = some d.toUInt8 ↔ s.head? = some d := by
  cases s with
  | nil => simp
  | cons c s =>
    rw [bytes_cons, List.head?_cons, Option.some_inj]
    rcases Nat.lt_or_ge c.toNat 128 with hc | hc
    · rw [utf8EncodeChar_of_lt hc, List.singleton_append, List.head?_cons, Option.some_inj,
        toUInt8_inj hc hd]
    · refine iff_of_false (fun h => ?_) fun h => by rw [h] at hc; omega
      have hne : String.utf8EncodeChar c ≠ [] := by
        rw [← List.length_pos_iff, String.length_utf8EncodeChar]
        exact c.utf8Size_pos
      rw [List.head?_append_of_ne_nil _ hne] at h
      have hle := le_of_mem_utf8EncodeChar hc (List.mem_of_head? h)
      rw [toNat_toUInt8 hd] at hle
      omega

/-- The bytes of a character behind the first one are no ASCII characters. -/
theorem exists_utf8EncodeChar_eq_cons (c : Char) :
    ∃ b x, String.utf8EncodeChar c = b :: x ∧ ∀ y ∈ x, 128 ≤ y.toNat := by
  rcases Nat.lt_or_ge c.toNat 128 with hc | hc
  · exact ⟨c.toUInt8, [], utf8EncodeChar_of_lt hc, by simp⟩
  · cases hbytes : String.utf8EncodeChar c with
    | nil =>
      have hsize := String.length_utf8EncodeChar c
      rw [hbytes] at hsize
      exact absurd hsize (Nat.ne_of_lt c.utf8Size_pos)
    | cons b x =>
      refine ⟨b, x, rfl, fun y hy => le_of_mem_utf8EncodeChar hc ?_⟩
      rw [hbytes]
      exact List.mem_cons_of_mem b hy

theorem bytes_take_prefix (s : Text) (n : Nat) : bytes (s.take n) <+: s.bytes := by
  refine ⟨bytes (s.drop n), ?_⟩
  rw [← bytes_append, List.take_append_drop]

end Text

namespace Lexeme

/-! ## The grammar -/

/-- The bytes that close what stands open, up to and with the last of them. -/
inductive Closes : Frame → List UInt8 → Prop where
  /-- A single quote ends a string in single quotes. -/
  | singleEnd : Closes .single ['\''.toUInt8]
  /-- A backslash takes any byte with it. -/
  | singleEscape (b : UInt8) {w : List UInt8} (h : Closes .single w) :
    Closes .single ('\\'.toUInt8 :: b :: w)
  | singleByte {b : UInt8} {w : List UInt8} (hescape : b ≠ '\\'.toUInt8)
    (hend : b ≠ '\''.toUInt8) (h : Closes .single w) : Closes .single (b :: w)
  /-- Its quote ends a string that may hold interpolations. -/
  | quote (q : Char) : Closes (.interpolated q) [q.toUInt8]
  /-- A backslash takes any byte with it. -/
  | escape {q : Char} (b : UInt8) {w : List UInt8} (h : Closes (.interpolated q) w) :
    Closes (.interpolated q) ('\\'.toUInt8 :: b :: w)
  /-- A brace directly before a dollar sign opens an interpolation. -/
  | interpolation {q : Char} {body w : List UInt8} (hbody : Closes .braces ('$'.toUInt8 :: body))
    (h : Closes (.interpolated q) w) :
    Closes (.interpolated q) ('{'.toUInt8 :: ('$'.toUInt8 :: body ++ w))
  /-- Any other byte stands for itself. -/
  | byte {q : Char} {b : UInt8} {w : List UInt8} (hescape : b ≠ '\\'.toUInt8)
    (hend : b ≠ q.toUInt8) (hopen : ¬ (b = '{'.toUInt8 ∧ w.head? = some '$'.toUInt8))
    (h : Closes (.interpolated q) w) : Closes (.interpolated q) (b :: w)
  /-- A brace ends an interpolation. -/
  | bracesEnd : Closes .braces ['}'.toUInt8]
  /-- Braces nest, whatever they begin with. -/
  | nested {body w : List UInt8} (hbody : Closes .braces body) (h : Closes .braces w) :
    Closes .braces ('{'.toUInt8 :: (body ++ w))
  /-- Strings in an interpolation are closed before it is. -/
  | singleQuoted {s w : List UInt8} (hs : Closes .single s) (h : Closes .braces w) :
    Closes .braces ('\''.toUInt8 :: (s ++ w))
  | doubleQuoted {s w : List UInt8} (hs : Closes (.interpolated '"') s) (h : Closes .braces w) :
    Closes .braces ('"'.toUInt8 :: (s ++ w))
  /-- Any other byte is code. -/
  | code {b : UInt8} {w : List UInt8}
    (hb : b ∉ ['{'.toUInt8, '}'.toUInt8, '\''.toUInt8, '"'.toUInt8]) (h : Closes .braces w) :
    Closes .braces (b :: w)

/-- The bytes that close a stack of frames, one frame after the other. -/
def ClosesAll : List Frame → List UInt8 → Prop
  | [], w => w = []
  | f :: fs, w => ∃ u v, w = u ++ v ∧ Closes f u ∧ ClosesAll fs v

/-- What stands open behind a byte that is no escape, given the byte that follows it. -/
def Frame.behind : Frame → UInt8 → Option UInt8 → List Frame
  | .single, b, _ => if b = '\''.toUInt8 then [] else [.single]
  | .interpolated q, b, next =>
    if b = '{'.toUInt8 ∧ next = some '$'.toUInt8 then [.braces, .interpolated q]
    else if b = q.toUInt8 then [] else [.interpolated q]
  | .braces, b, _ =>
    if b = '{'.toUInt8 then [.braces, .braces]
    else if b = '}'.toUInt8 then []
    else if b = '\''.toUInt8 then [.single, .braces]
    else if b = '"'.toUInt8 then [.interpolated '"', .braces]
    else [.braces]

/-- Only double quotes and backticks hold interpolations. -/
def Frame.Proper : Frame → Prop
  | .interpolated q => q = '"' ∨ q = '\x60'
  | _ => True

theorem Closes.ne_nil {f : Frame} {w : List UInt8} (h : Closes f w) : w ≠ [] := by
  cases h <;> simp

theorem not_closesAll_nil (f : Frame) (fs : List Frame) : ¬ ClosesAll (f :: fs) [] := by
  rintro ⟨u, v, h, hu, -⟩
  exact hu.ne_nil (List.append_eq_nil_iff.1 h.symm).1

theorem closesAll_singleton {f : Frame} {w : List UInt8} : ClosesAll [f] w ↔ Closes f w := by
  constructor
  · rintro ⟨u, v, rfl, hu, rfl⟩
    rwa [List.append_nil]
  · intro h
    exact ⟨w, [], (List.append_nil w).symm, h, rfl⟩

theorem Closes.head?_append {f : Frame} {u : List UInt8} (h : Closes f u) (v : List UInt8) :
    (u ++ v).head? = u.head? := by
  rw [List.head?_append_of_ne_nil _ h.ne_nil]

/-! ## One byte -/

section Steps

variable {fs : List Frame} {q : Char} {b : UInt8} {w : List UInt8}

theorem closesAll_single (hb : b ≠ '\\'.toUInt8) :
    ClosesAll (.single :: fs) (b :: w) ↔
      ClosesAll (Frame.single.behind b w.head? ++ fs) w := by
  rw [Frame.behind]
  constructor
  · rintro ⟨u, v, h, hu, hv⟩
    cases hu with
    | singleEnd =>
      obtain ⟨rfl, rfl⟩ := List.cons_eq_cons.1 h
      exact hv
    | singleEscape c hu => exact absurd (List.cons.inj h).1 hb
    | singleByte _ hend hu =>
      obtain ⟨rfl, rfl⟩ := List.cons_eq_cons.1 h
      rw [if_neg hend]
      exact ⟨_, v, rfl, hu, hv⟩
  · intro h
    split at h
    · next hend =>
      subst hend
      exact ⟨_, w, rfl, .singleEnd, h⟩
    · next hend =>
      obtain ⟨u, v, rfl, hu, hv⟩ := h
      exact ⟨b :: u, v, rfl, .singleByte hb hend hu, hv⟩

theorem closesAll_interpolated (hq : q.toUInt8 ≠ '{'.toUInt8) (hb : b ≠ '\\'.toUInt8) :
    ClosesAll (.interpolated q :: fs) (b :: w) ↔
      ClosesAll ((Frame.interpolated q).behind b w.head? ++ fs) w := by
  rw [Frame.behind]
  constructor
  · rintro ⟨u, v, h, hu, hv⟩
    cases hu with
    | quote =>
      obtain ⟨rfl, rfl⟩ := List.cons_eq_cons.1 h
      rw [if_neg (fun h => hq h.1), if_pos rfl]
      exact hv
    | escape c hu => exact absurd (List.cons.inj h).1 hb
    | interpolation hbody hu =>
      obtain ⟨rfl, rfl⟩ := List.cons_eq_cons.1 h
      rw [if_pos ⟨rfl, rfl⟩]
      exact ⟨_, _, List.append_assoc .., hbody, _, v, rfl, hu, hv⟩
    | byte _ hend hopen hu =>
      rw [List.cons_append, List.cons.injEq] at h
      obtain ⟨rfl, rfl⟩ := h
      rw [hu.head?_append, if_neg hopen, if_neg hend]
      exact ⟨_, v, rfl, hu, hv⟩
  · intro h
    split at h
    · next hopen =>
      obtain ⟨rfl, hdollar⟩ := hopen
      obtain ⟨body, y, rfl, hbody, u, v, rfl, hu, hv⟩ := h
      rw [hbody.head?_append] at hdollar
      obtain ⟨body, rfl⟩ := List.head?_eq_some_iff.1 hdollar
      exact ⟨_, v, by simp, .interpolation hbody hu, hv⟩
    · next hopen =>
      split at h
      · next hend =>
        subst hend
        exact ⟨_, w, rfl, .quote q, h⟩
      · next hend =>
        obtain ⟨u, v, rfl, hu, hv⟩ := h
        rw [hu.head?_append] at hopen
        exact ⟨b :: u, v, rfl, .byte hb hend hopen hu, hv⟩

theorem closesAll_braces :
    ClosesAll (.braces :: fs) (b :: w) ↔
      ClosesAll (Frame.braces.behind b w.head? ++ fs) w := by
  rw [Frame.behind]
  constructor
  · rintro ⟨u, v, h, hu, hv⟩
    cases hu with
    | bracesEnd =>
      obtain ⟨rfl, rfl⟩ := List.cons_eq_cons.1 h
      exact hv
    | nested hbody hu =>
      obtain ⟨rfl, rfl⟩ := List.cons_eq_cons.1 h
      exact ⟨_, _, List.append_assoc .., hbody, _, v, rfl, hu, hv⟩
    | singleQuoted hs hu =>
      obtain ⟨rfl, rfl⟩ := List.cons_eq_cons.1 h
      exact ⟨_, _, List.append_assoc .., hs, _, v, rfl, hu, hv⟩
    | doubleQuoted hs hu =>
      obtain ⟨rfl, rfl⟩ := List.cons_eq_cons.1 h
      exact ⟨_, _, List.append_assoc .., hs, _, v, rfl, hu, hv⟩
    | code hb hu =>
      obtain ⟨rfl, rfl⟩ := List.cons_eq_cons.1 h
      simp only [List.mem_cons, List.not_mem_nil, or_false, not_or] at hb
      obtain ⟨h₁, h₂, h₃, h₄⟩ := hb
      rw [if_neg h₁, if_neg h₂, if_neg h₃, if_neg h₄]
      exact ⟨_, v, rfl, hu, hv⟩
  · intro h
    split_ifs at h with h₁ h₂ h₃ h₄
    · subst h₁
      obtain ⟨body, y, rfl, hbody, u, v, rfl, hu, hv⟩ := h
      exact ⟨_, v, by simp, .nested hbody hu, hv⟩
    · subst h₂
      exact ⟨_, w, rfl, .bracesEnd, h⟩
    · subst h₃
      obtain ⟨s, y, rfl, hs, u, v, rfl, hu, hv⟩ := h
      exact ⟨_, v, by simp, .singleQuoted hs hu, hv⟩
    · subst h₄
      obtain ⟨s, y, rfl, hs, u, v, rfl, hu, hv⟩ := h
      exact ⟨_, v, by simp, .doubleQuoted hs hu, hv⟩
    · obtain ⟨u, v, rfl, hu, hv⟩ := h
      exact ⟨b :: u, v, rfl, .code (by simp [h₁, h₂, h₃, h₄]) hu, hv⟩

/-- A quote is neither a brace nor a backslash. -/
theorem Frame.Proper.ne (h : (Frame.interpolated q).Proper) :
    q.toNat < 128 ∧ q ≠ '{' ∧ q ≠ '\\' := by
  rcases h with rfl | rfl <;> decide

/-- One byte, other than an escape, decides what is to be closed behind it. -/
theorem closesAll_cons {f : Frame} (hf : f.Proper) (hb : b = '\\'.toUInt8 → f = .braces) :
    ClosesAll (f :: fs) (b :: w) ↔ ClosesAll (f.behind b w.head? ++ fs) w := by
  cases f with
  | single => exact closesAll_single fun h => by simpa using hb h
  | interpolated q =>
    obtain ⟨hq, hbrace, -⟩ := hf.ne
    refine closesAll_interpolated ?_ fun h => by simpa using hb h
    rwa [Ne, Text.toUInt8_inj hq (by decide)]
  | braces => exact closesAll_braces

/-- In a string, a backslash takes the next byte with it. -/
theorem closesAll_escape {f : Frame} (hf : f.Proper) (hbraces : f ≠ .braces) :
    ClosesAll (f :: fs) ('\\'.toUInt8 :: w) ↔ ∃ c v, w = c :: v ∧ ClosesAll (f :: fs) v := by
  constructor
  · rintro ⟨u, v, h, hu, hv⟩
    cases hu with
    | singleEscape c hu | escape c hu =>
      rw [List.cons_append, List.cons_append, List.cons.injEq] at h
      exact ⟨c, _, h.2, _, v, rfl, hu, hv⟩
    | quote q =>
      obtain ⟨hq, -, hne⟩ := hf.ne
      have := (Text.toUInt8_inj (by decide) hq).1 (List.cons.inj h).1
      exact absurd this.symm hne
    | singleByte hescape _ _ | byte hescape _ _ _ =>
      exact absurd (List.cons.inj h).1.symm hescape
    | singleEnd => exact absurd (List.cons.inj h).1 (by decide)
    | interpolation _ _ => exact absurd (List.cons.inj h).1 (by decide)
    | bracesEnd | nested _ _ | singleQuoted _ _ | doubleQuoted _ _ | code _ _ =>
      exact absurd rfl hbraces
  · rintro ⟨c, _, rfl, u, v, rfl, hu, hv⟩
    cases f with
    | single => exact ⟨_, v, rfl, .singleEscape c hu, hv⟩
    | interpolated q => exact ⟨_, v, rfl, .escape c hu, hv⟩
    | braces => exact absurd rfl hbraces

end Steps

/-! ## The end that is found -/

/-- The only prefix of some bytes that closes what is open ends at `stop?`, if there is one. -/
def Ends (fs : List Frame) (bs : List UInt8) (stop? : Option Nat) : Prop :=
  ∀ w, w <+: bs → (ClosesAll fs w ↔ stop? = some w.length)

section Ends

variable {f : Frame} {fs : List Frame} {b c : UInt8} {bs w x : List UInt8} {stop? : Option Nat}

/-- The byte that follows may be looked up in the whole text: without one in the prefix, the prefix
closes nothing either way. -/
theorem closesAll_behind (hf : f.Proper) (hw : w <+: bs) :
    ClosesAll (f.behind b w.head? ++ fs) w ↔ ClosesAll (f.behind b bs.head? ++ fs) w := by
  cases w with
  | cons a w =>
    obtain ⟨y, rfl⟩ := hw
    rfl
  | nil =>
    cases f with
    | single => rfl
    | braces => rfl
    | interpolated q =>
      rw [Frame.behind, Frame.behind, if_neg (by simp)]
      by_cases hopen : b = '{'.toUInt8 ∧ bs.head? = some '$'.toUInt8
      · obtain ⟨hq, hbrace, -⟩ := hf.ne
        have hne : b ≠ q.toUInt8 := by
          rw [hopen.1, Ne, Text.toUInt8_inj (by decide) hq]
          exact hbrace.symm
        rw [if_neg hne, if_pos hopen]
        exact iff_of_false (not_closesAll_nil _ _) (not_closesAll_nil _ _)
      · rw [if_neg hopen]

theorem Ends.step (hf : f.Proper) (hb : b = '\\'.toUInt8 → f = .braces)
    (h : Ends (f.behind b bs.head? ++ fs) bs stop?) :
    Ends (f :: fs) (b :: bs) (stop?.map (· + 1)) := by
  intro w hw
  cases w with
  | nil => simp [not_closesAll_nil]
  | cons a w =>
    obtain ⟨rfl, hprefix⟩ := List.cons_prefix_cons.1 hw
    rw [closesAll_cons hf hb, closesAll_behind hf hprefix, h w hprefix]
    cases stop? <;> simp

theorem Ends.escape (hf : f.Proper) (hbraces : f ≠ .braces) (h : Ends (f :: fs) bs stop?) :
    Ends (f :: fs) ('\\'.toUInt8 :: c :: bs) (stop?.map (· + 2)) := by
  intro w hw
  cases w with
  | nil => simp [not_closesAll_nil]
  | cons a w =>
    obtain ⟨rfl, hprefix⟩ := List.cons_prefix_cons.1 hw
    rw [closesAll_escape hf hbraces]
    cases w with
    | nil => simp
    | cons a w =>
      have hrest : (∃ c v, a :: w = c :: v ∧ ClosesAll (f :: fs) v) ↔ ClosesAll (f :: fs) w := by
        simp
      rw [hrest, h w (List.cons_prefix_cons.1 hprefix).2]
      cases stop? <;> simp

theorem Frame.behind_of_le (hf : f.Proper) (hb : 128 ≤ b.toNat) (next : Option UInt8) :
    f.behind b next = [f] := by
  have hne : ∀ {d : Char}, d.toNat < 128 → b ≠ d.toUInt8 := by
    intro d hd h
    rw [h, Text.toNat_toUInt8 hd] at hb
    omega
  cases f with
  | single => rw [Frame.behind, if_neg (hne (by decide))]
  | interpolated q =>
    rw [Frame.behind, if_neg (fun h => hne (by decide) h.1), if_neg (hne hf.ne.1)]
  | braces =>
    rw [Frame.behind, if_neg (hne (by decide)), if_neg (hne (by decide)), if_neg (hne (by decide)),
      if_neg (hne (by decide))]

/-- The bytes of a character beyond ASCII are passed over. -/
theorem Ends.append (hf : f.Proper) (hx : ∀ b ∈ x, 128 ≤ b.toNat)
    (h : Ends (f :: fs) bs stop?) :
    Ends (f :: fs) (x ++ bs) (stop?.map (· + x.length)) := by
  induction x with
  | nil => simpa using h
  | cons b x ih =>
    have hb := hx b List.mem_cons_self
    have hrest := ih fun b hb => hx b (List.mem_cons_of_mem _ hb)
    rw [List.cons_append, List.length_cons]
    have hstep := Ends.step (b := b) hf (fun h => absurd hb (by rw [h]; decide))
      (by rwa [Frame.behind_of_le hf hb])
    rw [Option.map_map] at hstep
    exact hstep

end Ends

/-! ## The reader of strings -/

section Reader

variable {f : Frame} {fs : List Frame} {c : Char} {s : Text}

theorem quotedEnd?_escape (hbraces : f ≠ .braces) (d : Char) (s : Text) :
    quotedEnd? (f :: fs) ('\\' :: d :: s) = (quotedEnd? (f :: fs) s).map (· + 2) := by
  cases f with
  | braces => exact absurd rfl hbraces
  | _ => simp [quotedEnd?]

theorem quotedEnd?_backslash (hbraces : f ≠ .braces) : quotedEnd? (f :: fs) ['\\'] = none := by
  cases f with
  | braces => exact absurd rfl hbraces
  | _ => simp [quotedEnd?]

theorem quotedEnd?_cons (hf : f.Proper) (hc : c.toNat < 128) (hb : c = '\\' → f = .braces) :
    quotedEnd? (f :: fs) (c :: s) =
      (quotedEnd? (f.behind c.toUInt8 s.bytes.head? ++ fs) s).map (· + 1) := by
  cases f with
  | single =>
    have hescape : c ≠ '\\' := fun h => by simpa using hb h
    simp (disch := decide) only [quotedEnd?_single_cons hescape, Frame.behind,
      Text.toUInt8_inj hc]
    split_ifs <;> rfl
  | interpolated q =>
    have hescape : c ≠ '\\' := fun h => by simpa using hb h
    have hq := hf.ne.1
    simp (disch := first | decide | assumption) only [quotedEnd?_interpolated_cons hescape,
      Frame.behind, Text.toUInt8_inj hc, Text.head?_bytes_eq_some]
    split_ifs <;> rfl
  | braces =>
    simp (disch := decide) only [quotedEnd?, Frame.behind, Text.toUInt8_inj hc]
    split_ifs <;> rfl

theorem quotedEnd?_cons_of_le (hf : f.Proper) (hc : 128 ≤ c.toNat) :
    quotedEnd? (f :: fs) (c :: s) = (quotedEnd? (f :: fs) s).map (· + 1) := by
  have hne : ∀ {d : Char}, d.toNat < 128 → c ≠ d := by
    intro d hd h
    rw [h] at hc
    omega
  cases f with
  | single => rw [quotedEnd?_single_cons (hne (by decide)), if_neg (hne (by decide))]
  | interpolated q =>
    rw [quotedEnd?_interpolated_cons (hne (by decide)), if_neg (fun h => hne (by decide) h.1),
      if_neg (hne hf.ne.1)]
  | braces =>
    rw [quotedEnd?, if_neg (hne (by decide)), if_neg (hne (by decide)), if_neg (hne (by decide)),
      if_neg (hne (by decide))]

theorem Frame.proper_of_mem_behind (hf : f.Proper) {b : UInt8} {next : Option UInt8}
    {g : Frame} (hg : g ∈ f.behind b next) : g.Proper := by
  cases f <;> grind [Frame.behind, Frame.Proper]

/-- The number of bytes up to the end that the reader finds. -/
def quotedSize? (fs : List Frame) (s : Text) : Option Nat :=
  (quotedEnd? fs s).map fun n => Text.byteSize (s.take n)

/-- The reader ends where the grammar does. -/
def EndsAlike (fs : List Frame) (s : Text) : Prop := Ends fs s.bytes (quotedSize? fs s)

/-- Some characters in front move the end by the number of their bytes. -/
theorem EndsAlike.of_append {fs' : List Frame} {x : Text}
    (hend : quotedEnd? (f :: fs) (x ++ s) = (quotedEnd? fs' s).map (· + x.length))
    (h : Ends (f :: fs) (x.bytes ++ s.bytes) ((quotedSize? fs' s).map (· + x.bytes.length))) :
    EndsAlike (f :: fs) (x ++ s) := by
  have hsize : quotedSize? (f :: fs) (x ++ s) =
      (quotedSize? fs' s).map (· + x.bytes.length) := by
    rw [quotedSize?, quotedSize?, hend, Option.map_map, Option.map_map]
    congr 1
    funext n
    simp only [Function.comp_apply]
    rw [Nat.add_comm n, List.take_length_add_append, Text.byteSize_append, Text.length_bytes,
      Nat.add_comm]
  rw [EndsAlike, hsize, Text.bytes_append]
  exact h

theorem EndsAlike.ascii (hf : f.Proper) (hc : c.toNat < 128) (hb : c = '\\' → f = .braces)
    (h : EndsAlike (f.behind c.toUInt8 s.bytes.head? ++ fs) s) : EndsAlike (f :: fs) (c :: s) := by
  have hbyte : c.toUInt8 = '\\'.toUInt8 → f = .braces := by
    rwa [Text.toUInt8_inj hc (by decide)]
  have hbytes : Text.bytes [c] = [c.toUInt8] := by
    rw [Text.bytes_cons, Text.utf8EncodeChar_of_lt hc, Text.bytes_nil, List.append_nil]
  refine EndsAlike.of_append (x := [c]) (quotedEnd?_cons hf hc hb) ?_
  rw [hbytes]
  exact Ends.step hf hbyte h

theorem EndsAlike.beyond (hf : f.Proper) (hc : 128 ≤ c.toNat) (h : EndsAlike (f :: fs) s) :
    EndsAlike (f :: fs) (c :: s) := by
  have hbytes : ∀ b ∈ Text.bytes [c], 128 ≤ b.toNat := by
    intro b hb
    rw [Text.bytes_cons, Text.bytes_nil, List.append_nil] at hb
    exact Text.le_of_mem_utf8EncodeChar hc hb
  exact EndsAlike.of_append (x := [c]) (quotedEnd?_cons_of_le hf hc) (Ends.append hf hbytes h)

theorem EndsAlike.escape (hf : f.Proper) (hbraces : f ≠ .braces) (d : Char)
    (h : EndsAlike (f :: fs) s) : EndsAlike (f :: fs) ('\\' :: d :: s) := by
  obtain ⟨b, x, henc, hx⟩ := Text.exists_utf8EncodeChar_eq_cons d
  have hbytes : Text.bytes ['\\', d] = '\\'.toUInt8 :: b :: x := by
    rw [Text.bytes_cons, Text.bytes_cons, henc, Text.bytes_nil, List.append_nil]
    rfl
  have hstep : Ends (f :: fs) ('\\'.toUInt8 :: b :: (x ++ s.bytes))
      (((quotedSize? (f :: fs) s).map (· + x.length)).map (· + 2)) :=
    (Ends.append hf hx h).escape hf hbraces
  rw [Option.map_map] at hstep
  refine EndsAlike.of_append (x := ['\\', d]) (quotedEnd?_escape hbraces d s) ?_
  rw [hbytes]
  exact hstep

theorem EndsAlike.backslash (hf : f.Proper) (hbraces : f ≠ .braces) :
    EndsAlike (f :: fs) ['\\'] := by
  have hbytes : Text.bytes ['\\'] = ['\\'.toUInt8] := rfl
  intro w hw
  rw [hbytes] at hw
  rw [quotedSize?, quotedEnd?_backslash hbraces]
  refine iff_of_false (fun h => ?_) (by simp)
  cases w with
  | nil => exact not_closesAll_nil f fs h
  | cons b w =>
    obtain ⟨rfl, hnil⟩ := List.cons_prefix_cons.1 hw
    obtain ⟨c, v, hcons, -⟩ := (closesAll_escape hf hbraces).1 h
    rw [List.prefix_nil.1 hnil] at hcons
    cases hcons

/-- The reader finds the end of the one prefix that closes what is open. -/
theorem endsAlike (hfs : ∀ f ∈ fs, f.Proper) (s : Text) : EndsAlike fs s := by
  -- on the length of the text: an escape takes two characters at once
  induction hn : s.length using Nat.strongRecOn generalizing fs s with
  | ind n ih =>
    subst hn
    cases fs with
    | nil =>
      intro w _
      simp [ClosesAll, quotedSize?, quotedEnd?, eq_comm]
    | cons f fs =>
      have hf := hfs f List.mem_cons_self
      cases s with
      | nil =>
        intro w hw
        simp [quotedSize?, quotedEnd?, List.prefix_nil.1 hw, not_closesAll_nil]
      | cons c s =>
        by_cases hescape : c = '\\' ∧ f ≠ .braces
        · obtain ⟨rfl, hbraces⟩ := hescape
          cases s with
          | nil => exact .backslash hf hbraces
          | cons d s =>
            refine .escape hf hbraces d (ih s.length ?_ hfs s rfl)
            rw [List.length_cons, List.length_cons]
            omega
        · rcases Nat.lt_or_ge c.toNat 128 with hc | hc
          · have hb : c = '\\' → f = .braces := by
              intro h
              by_contra hne
              exact hescape ⟨h, hne⟩
            refine .ascii hf hc hb (ih s.length (by simp) ?_ s rfl)
            intro g hg
            rcases List.mem_append.1 hg with hg | hg
            · exact Frame.proper_of_mem_behind hf hg
            · exact hfs g (List.mem_cons_of_mem f hg)
          · exact .beyond hf hc (ih s.length (by simp) hfs s rfl)

end Reader

end Lexeme

end PhpOutline
