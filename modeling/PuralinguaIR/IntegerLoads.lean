import PuralinguaIR.Digits
import PuralinguaIR.LiteralValues

/-!
# Integers that are loaded

A `Load` statement reads an integer of one of eight types (`IntType`) from its digits and negates it after an odd
number of hyphens, when the type is signed (`IntType.read_run`).

* Every number of a type but the least one of a signed type can be written (`LoadableContent.parse_written_iff`).
* The sign of an unsigned number is dropped (`LoadableContent.parse_sign_iff`).
* Digits with underscores are lexed but not read (`IntegerToken.getValue_iff`).
-/

namespace PuralinguaIR

open Text Effect Effect.Prog Reading

/-! ### Types of integers -/

inductive IntWidth where
  | w8 | w16 | w32 | w64
deriving DecidableEq, Repr

namespace IntWidth

def bits : IntWidth → Nat
  | w8 => 8
  | w16 => 16
  | w32 => 32
  | w64 => 64

/-- The width of a word of so many bytes. -/
def ofBytes : Nat → Option IntWidth
  | 1 => some w8
  | 2 => some w16
  | 4 => some w32
  | 8 => some w64
  | _ => none

end IntWidth

structure IntType where
  signed : Bool
  width : IntWidth
deriving DecidableEq, Repr

namespace IntType

def min (t : IntType) : Int := if t.signed then -2 ^ (t.width.bits - 1) else 0

/-- The least number above the type. -/
def bound (t : IntType) : Nat := if t.signed then 2 ^ (t.width.bits - 1) else 2 ^ t.width.bits

def Contains (t : IntType) (v : Int) : Prop := t.min ≤ v ∧ v < t.bound

instance (t : IntType) (v : Int) : Decidable (t.Contains v) := inferInstanceAs (Decidable (_ ∧ _))

theorem min_of_signed {t : IntType} (h : t.signed) : t.min = -t.bound := by
  rw [min, bound, if_pos h, if_pos h]
  push_cast
  rfl

/-- Only signed types have negative numbers. -/
theorem signed_of_neg (t : IntType) {v : Int} (hv : t.Contains v) (hneg : v < 0) : t.signed := by
  by_contra h
  have hmin : t.min = 0 := if_neg h
  exact absurd hv.1 (by omega)

/-- The least number of a signed type is the only one whose amount is not in the type. -/
theorem natAbs_lt_iff (t : IntType) {v : Int} (hv : t.Contains v) :
    v.natAbs < t.bound ↔ ¬(t.signed ∧ v = t.min) := by
  obtain ⟨hlow, hhigh⟩ := hv
  cases hsigned : t.signed with
  | false =>
    have hmin : t.min = 0 := if_neg (by simp [hsigned])
    simp only [Bool.false_eq_true, false_and, not_false_eq_true, iff_true]
    omega
  | true =>
    rw [min_of_signed hsigned] at hlow ⊢
    simp only [true_and]
    omega

def suffix : IntType → IntSuffix
  | ⟨false, .w8⟩ => .u8
  | ⟨false, .w16⟩ => .u16
  | ⟨false, .w32⟩ => .u32
  | ⟨false, .w64⟩ => .u64
  | ⟨true, .w8⟩ => .i8
  | ⟨true, .w16⟩ => .i16
  | ⟨true, .w32⟩ => .i32
  | ⟨true, .w64⟩ => .i64

/-- A number as a content of the type. -/
def content : IntType → Int → LoadableContent
  | ⟨false, .w8⟩, v => .u8 (UInt8.ofNat v.toNat)
  | ⟨false, .w16⟩, v => .u16 (UInt16.ofNat v.toNat)
  | ⟨false, .w32⟩, v => .u32 (UInt32.ofNat v.toNat)
  | ⟨false, .w64⟩, v => .u64 (UInt64.ofNat v.toNat)
  | ⟨true, .w8⟩, v => .i8 (Int8.ofInt v)
  | ⟨true, .w16⟩, v => .i16 (Int16.ofInt v)
  | ⟨true, .w32⟩, v => .i32 (Int32.ofInt v)
  | ⟨true, .w64⟩, v => .i64 (Int64.ofInt v)

end IntType

/-- The type and the number of an integer that is loaded. -/
def LoadableContent.intValue : LoadableContent → Option (IntType × Int)
  | u8 x => some (⟨Bool.false, .w8⟩, x.toNat)
  | u16 x => some (⟨Bool.false, .w16⟩, x.toNat)
  | u32 x => some (⟨Bool.false, .w32⟩, x.toNat)
  | u64 x => some (⟨Bool.false, .w64⟩, x.toNat)
  | i8 x => some (⟨Bool.true, .w8⟩, x.toInt)
  | i16 x => some (⟨Bool.true, .w16⟩, x.toInt)
  | i32 x => some (⟨Bool.true, .w32⟩, x.toInt)
  | i64 x => some (⟨Bool.true, .w64⟩, x.toInt)
  | _ => none

private theorem toNat_mod {v : Int} {n : Nat} (hlow : 0 ≤ v) (hhigh : v < n) :
    ((v.toNat % n : Nat) : Int) = v := by
  rw [Nat.mod_eq_of_lt (by omega)]
  omega

private theorem some_eq {t : IntType} {w v : Int} (h : w = v) : some (t, w) = some (t, v) := by
  rw [h]

theorem IntType.intValue_content {t : IntType} {v : Int} (h : t.Contains v) :
    (t.content v).intValue = some (t, v) := by
  obtain ⟨signed, width⟩ := t
  obtain ⟨hlow, hhigh⟩ := h
  cases signed with
  | false =>
    have hlow : 0 ≤ v := hlow
    cases width with
    | w8 => exact some_eq ((congrArg Nat.cast UInt8.toNat_ofNat').trans (toNat_mod hlow hhigh))
    | w16 => exact some_eq ((congrArg Nat.cast UInt16.toNat_ofNat').trans (toNat_mod hlow hhigh))
    | w32 => exact some_eq ((congrArg Nat.cast UInt32.toNat_ofNat').trans (toNat_mod hlow hhigh))
    | w64 => exact some_eq ((congrArg Nat.cast UInt64.toNat_ofNat').trans (toNat_mod hlow hhigh))
  | true =>
    cases width with
    | w8 => exact some_eq (Int8.toInt_ofInt_of_le hlow hhigh)
    | w16 => exact some_eq (Int16.toInt_ofInt_of_le hlow hhigh)
    | w32 => exact some_eq (Int32.toInt_ofInt_of_le hlow hhigh)
    | w64 => exact some_eq (Int64.toInt_ofInt_of_le hlow hhigh)

/-- A number below the bound is in the type, and so is the one that is negated when the type is signed. -/
theorem IntType.contains_of_lt (t : IntType) {n : Nat} (h : n < t.bound) (p : Prop) [Decidable p] :
    t.Contains (if t.signed ∧ p then -n else n) := by
  split
  · rename_i hneg
    rw [Contains, min_of_signed hneg.1]
    omega
  · refine ⟨?_, by omega⟩
    cases hsigned : t.signed with
    | false =>
      rw [min, hsigned]
      exact Int.natCast_nonneg n
    | true =>
      rw [min_of_signed hsigned]
      omega

private theorem isInt_iff {t : IntType} {w v : Int} (hw : t.Contains w) :
    ((∃ e, Outcome.ok (t.content w) = (.err e : Outcome ParseError LoadableContent)) ∨
      ∃ content t', (Outcome.ok (t.content w) : Outcome ParseError LoadableContent) = .ok content ∧
        content.intValue = some (t', v) ∧ t'.Contains v) ↔ w = v := by
  have hvalue := IntType.intValue_content hw
  constructor
  · rintro (⟨e, he⟩ | ⟨content, t', hok, hint, -⟩)
    · cases he
    · cases hok
      rw [hvalue] at hint
      cases hint
      rfl
  · rintro rfl
    exact Or.inr ⟨_, t, rfl, hvalue, hw⟩

/-! ### Suffixes -/

section Loads

variable [UniParser]

/-- The type of an integer with the suffix; a word may have a size that no type has. -/
def IntSuffix.type? : IntSuffix → Option IntType
  | u8 => some ⟨false, .w8⟩
  | u16 => some ⟨false, .w16⟩
  | u32 => some ⟨false, .w32⟩
  | u64 => some ⟨false, .w64⟩
  | i8 => some ⟨true, .w8⟩
  | i16 => some ⟨true, .w16⟩
  | i32 => some ⟨true, .w32⟩
  | i64 => some ⟨true, .w64⟩
  | usize => (IntWidth.ofBytes sizeOfUsize).map (⟨false, ·⟩)
  | isize => (IntWidth.ofBytes sizeOfUsize).map (⟨true, ·⟩)

theorem IntType.type?_suffix (t : IntType) : t.suffix.type? = some t := by
  obtain ⟨signed, width⟩ := t
  cases signed <;> cases width <;> rfl

theorem IntSuffix.exists_type (husize : sizeOfUsize ∈ [1, 2, 4, 8]) (s : IntSuffix) : ∃ t, s.type? = some t := by
  have hword : ∃ w, IntWidth.ofBytes sizeOfUsize = some w := by
    simp only [List.mem_cons, List.not_mem_nil, or_false] at husize
    rcases husize with h | h | h | h <;> rw [h] <;> exact ⟨_, rfl⟩
  obtain ⟨w, hw⟩ := hword
  cases s with
  | usize => exact ⟨_, by rw [type?, hw]; rfl⟩
  | isize => exact ⟨_, by rw [type?, hw]; rfl⟩
  | _ => exact ⟨_, rfl⟩

omit [UniParser] in
theorem IntSuffix.asStr_inj {s s' : IntSuffix} (h : s.asStr = s'.asStr) : s = s' := by
  cases s <;> cases s' <;> first | rfl | exact absurd h (by decide)

omit [UniParser] in
/-- A number of the type, read and then negated, when the type is signed and `isNegative` says so. -/
def IntType.read (t : IntType) (isNegative : Option Bool) (radix : Nat) (valueS : List Char) :
    Parser LoadableContent :=
  if t.signed then LoadableContent.signed t.bound t.content isNegative radix valueS
  else LoadableContent.unsigned t.bound (fun n => t.content n) radix valueS

namespace LoadableContent

/-- A known suffix says the type. -/
theorem ofDigits_suffix (s : IntSuffix) (isNegative : Option Bool) (radix : Nat) (valueS : List Char) :
    ofDigits s.asStr isNegative radix valueS = (s.type?).elim panic (·.read isNegative radix valueS) := by
  cases s with
  | usize =>
    simp only [IntSuffix.asStr, ofDigits, IntSuffix.type?]
    generalize sizeOfUsize = n
    rcases n with _ | _ | _ | _ | _ | _ | _ | _ | _ | n <;> rfl
  | isize =>
    simp only [IntSuffix.asStr, ofDigits, IntSuffix.type?]
    generalize sizeOfUsize = n
    rcases n with _ | _ | _ | _ | _ | _ | _ | _ | _ | n <;> rfl
  | _ => rfl

/-- Any other suffix is an error. -/
theorem ofDigits_unknown {ty : String} (h : ∀ s : IntSuffix, ty ≠ s.asStr) (isNegative : Option Bool) (radix : Nat)
    (valueS : List Char) :
    ofDigits ty isNegative radix valueS = fail (.custom ("Suffix `" ++ ty ++ "` is unknown")) := by
  unfold ofDigits
  split
  · exact absurd rfl (h .u8)
  · exact absurd rfl (h .u16)
  · exact absurd rfl (h .u32)
  · exact absurd rfl (h .u64)
  · exact absurd rfl (h .usize)
  · exact absurd rfl (h .i8)
  · exact absurd rfl (h .i16)
  · exact absurd rfl (h .i32)
  · exact absurd rfl (h .i64)
  · exact absurd rfl (h .isize)
  · rfl

end LoadableContent

omit [UniParser] in
private theorem head_ne {digits : List Char} (h : ∀ c ∈ digits, c = '_' ∨ isHexadecimalDigit c) {d : Char}
    (hd : d ≠ '_') (hhex : isHexadecimalDigit d = false) : digits.head? ≠ some d := by
  intro hhead
  rcases h d (List.mem_of_mem_head? hhead) with heq | hdigit
  · exact hd heq
  · rw [hhex] at hdigit
    cases hdigit

omit [UniParser] in
private theorem digitsOf_run (b : Base) (digits : List Char) (st : ParseStream) :
    LoadableContent.digitsOf b.radix (b.marker ++ digits) st = (.ok digits, st) := by
  refine sliceOrPanic_run (a := b.marker) (List.append_nil _).symm ?_ (byteLen_append _ _)
  cases b <;> rfl

omit [UniParser] in
/-- The number is read when its digits fit the type, and negated when the type is signed. -/
theorem IntType.read_run (t : IntType) {b : Base} {digits : List Char}
    (hdigits : ∀ c ∈ digits, c = '_' ∨ isHexadecimalDigit c) (isNegative : Option Bool) (st : ParseStream) :
    (b.Fits digits t.bound → t.read isNegative b.radix (b.marker ++ digits) st =
      (.ok (t.content (if t.signed ∧ isNegative = some true then -(b.value digits) else b.value digits)), st)) ∧
    (¬b.Fits digits t.bound → t.read isNegative b.radix (b.marker ++ digits) st = (.err .parseInt, st)) := by
  have hplus := head_ne hdigits (d := '+') (by decide) (by decide)
  have hminus := head_ne hdigits (d := '-') (by decide) (by decide)
  have hrun := digitsOf_run b digits st
  unfold read
  cases hsigned : t.signed with
  | false =>
    rw [if_neg (by decide)]
    constructor
    · intro hfits
      have hvalue := (fromStrRadix_eq_some hplus).2 ⟨hfits, rfl⟩
      exact bind_step hrun (bind_step (okOr_eq_ok.2 ⟨hvalue, rfl⟩) rfl)
    · intro hfits
      unfold LoadableContent.unsigned
      rw [bind_of_ok hrun, fromStrRadix_eq_none hplus hfits]
      rfl
  | true =>
    rw [if_pos rfl]
    have hvalue : fromStrRadixSigned t.bound b.radix digits = _ := fromStrRadixSigned_eq hminus
    constructor
    · intro hfits
      rw [(fromStrRadix_eq_some hplus).2 ⟨hfits, rfl⟩] at hvalue
      refine bind_step hrun (bind_step (okOr_eq_ok.2 ⟨hvalue, rfl⟩) ?_)
      -- a number that was read without a sign can be negated
      have hneg : -((b.value digits : Nat) : Int) < (t.bound : Int) := by
        have := hfits.value_lt
        omega
      by_cases hnegative : isNegative = some true
      · rw [if_pos hnegative, if_pos (by exact hneg), if_pos ⟨rfl, hnegative⟩]
        rfl
      · rw [if_neg hnegative, if_neg fun h => hnegative h.2]
        rfl
    · intro hfits
      rw [fromStrRadix_eq_none hplus hfits] at hvalue
      unfold LoadableContent.signed
      rw [bind_of_ok hrun, hvalue]
      rfl

namespace LoadableContent

/-- The text of an integer token is cut at the start of its suffix. -/
theorem ofLiteral_int {st : ParseStream} {tk : TokenInfo} {b : Base} {digits suffix : List Char}
    (htext : textOf st.source tk.span = some (b.marker ++ digits ++ suffix)) (isNegative : Option Bool) :
    ofLiteral tk (.int b Bool.false) (byteLen (b.marker ++ digits)) isNegative st =
      ofDigits (String.ofList suffix) isNegative b.radix (b.marker ++ digits) st := by
  refine (bind_of_ok (tokenText_run htext)).trans ?_
  refine (bind_of_ok (sliceOrPanic_run (a := []) (b := b.marker ++ digits) rfl rfl (by simp))).trans ?_
  exact bind_of_ok (sliceOrPanic_run (b := suffix) (List.append_nil _).symm rfl (byteLen_append _ _))

end LoadableContent

end Loads

/-! ### Written integers -/

/-- A hyphen and a space before a negative number. -/
def signText (v : Int) : List Char := if v < 0 then ['-', ' '] else []

def signTokens (v : Int) : List TokenInfo := if v < 0 then [⟨.specialChar .hyphen, ⟨0, 1⟩⟩] else []

theorem signTokens_kind (v : Int) : ∀ h ∈ signTokens v, h.kind = .specialChar .hyphen := by
  unfold signTokens
  split <;> simp

/-- The sign is the one of the number: a number with a hyphen has a signed type. -/
theorem IntType.negates_iff (t : IntType) {v : Int} (hv : t.Contains v) :
    t.signed ∧ negate^[(signTokens v).length] none = some true ↔ v < 0 := by
  rw [negate_iterate]
  unfold signTokens
  split
  · rename_i hneg
    exact iff_of_true ⟨t.signed_of_neg hv hneg, rfl⟩ hneg
  · rename_i hneg
    exact iff_of_false (fun h => absurd h.2 (by decide)) hneg

/-- An integer without its sign: the marker of the base, the digits, and the suffix of the type. -/
def IntType.literal (t : IntType) (b : Base) (digits : List Char) : List Char :=
  b.marker ++ digits ++ t.suffix.asStr.toList

/-- The token of an integer that begins at the byte `start`; its suffix starts behind the digits. -/
def IntType.literalToken (t : IntType) (b : Base) (digits : List Char) (start : Nat) : TokenInfo :=
  ⟨.literal (.int b false) (byteLen (b.marker ++ digits)), ⟨start, start + byteLen (t.literal b digits)⟩⟩

section Written

variable [UniLexer]

/-- A written integer is a token of its own behind the hyphen. -/
theorem IntType.lex_written (t : IntType) (b : Base) (v : Int) {digits : List Char} (hne : digits ≠ [])
    (hdigits : digits.all b.isDigit) :
    lex (signText v ++ t.literal b digits) = signTokens v ++ [t.literalToken b digits (byteLen (signText v))] := by
  let n := IntText.ofDigits b digits hne hdigits
  unfold signText signTokens
  split
  · exact lex_printed [(.specialChar .hyphen nofun, .space), (.int n (some t.suffix), .space)]
  · exact lex_printed [(.int n (some t.suffix), .space)]

variable [UniParser]

/-- Every integer but the least one of a signed type can be written, in any base. -/
theorem LoadableContent.parse_written_iff (t : IntType) {v : Int} (hv : t.Contains v) (b : Base)
    {digits : List Char} (hdigits : digits.map Char.toLower = Nat.toDigits b.radix v.natAbs)
    (tyGenerics methodGenerics : List Identifier) :
    let src := signText v ++ t.literal b digits
    lex src = signTokens v ++ [t.literalToken b digits (byteLen (signText v))] ∧
      ((∃ content, (parse none tyGenerics methodGenerics ⟨src, lex src, 0⟩).1 = .ok content ∧
        content.intValue = some (t, v)) ↔ ¬(t.signed ∧ v = t.min)) := by
  intro src
  obtain ⟨hne, hall, hvalue⟩ := Base.value_of_toDigits hdigits
  have hlex : lex src = _ := t.lex_written b v hne hall
  refine ⟨hlex, ?_⟩
  -- the token is found behind the hyphen and cut at its suffix
  have hspan : textOf src (t.literalToken b digits (byteLen (signText v))).span =
      some (b.marker ++ digits ++ t.suffix.asStr.toList) :=
    textOf_suffix (signText v) (t.literal b digits)
  have hhex : ∀ c ∈ digits, c = '_' ∨ isHexadecimalDigit c := fun c hc =>
    Or.inr (Base.isDigit_iff.1 (List.all_eq_true.1 hall c hc)).1
  have hrest : (⟨src, lex src, 0⟩ : ParseStream).rest = signTokens v ++ [_] := hlex
  rw [parse_hyphens (signTokens_kind v) rfl tyGenerics methodGenerics hrest, ofLiteral_int hspan,
    String.ofList_toList, ofDigits_suffix, t.type?_suffix, Option.elim_some]
  obtain ⟨hok, herr⟩ := t.read_run hhex (negate^[(signTokens v).length] none)
    ((⟨src, lex src, 0⟩ : ParseStream).skip ((signTokens v).length + 1))
  -- the number is read before it is negated, so it has to be below the bound
  rw [← t.natAbs_lt_iff hv]
  constructor
  · rintro ⟨content, hcontent, -⟩
    by_contra hlt
    rw [herr fun hfits => hlt (hvalue ▸ hfits.value_lt)] at hcontent
    cases hcontent
  · intro hlt
    refine ⟨t.content v, ?_, IntType.intValue_content hv⟩
    rw [hok ⟨hne, hall, hvalue.symm ▸ hlt⟩, hvalue]
    have habs : (if v < 0 then -(v.natAbs : Int) else v.natAbs) = v := by
      split <;> omega
    simp only [t.negates_iff hv, habs]

omit [UniLexer] [UniParser] in
/-- `- 0x1Fi8` is the number -31. -/
theorem LoadableContent.parse_written_hexadecimal :
    let src := "- 0x1Fi8".toList
    (IntType.mk Bool.true .w8).Contains (-31) ∧ ['1', 'F'].map Char.toLower = Nat.toDigits 16 31 ∧
      ∃ content, (@parse plainParser none [] [] ⟨src, @lex asciiLexer src, 0⟩).1 = .ok content ∧
        content.intValue = some (⟨Bool.true, .w8⟩, -31) := by
  refine ⟨by decide, by decide, ?_⟩
  have h := @parse_written_iff asciiLexer plainParser ⟨Bool.true, .w8⟩ (-31) (by decide) .hexadecimal ['1', 'F']
    (by decide) [] []
  exact h.2.2 (by decide)

omit [UniLexer] [UniParser] in
/-- `- 128i8` is not read, though `i8` has the number -128. -/
theorem LoadableContent.parse_written_least :
    let src := "- 128i8".toList
    (IntType.mk Bool.true .w8).Contains (-128) ∧
      src = signText (-128) ++ (IntType.mk Bool.true .w8).literal .decimal ['1', '2', '8'] ∧
      (@parse plainParser none [] [] ⟨src, @lex asciiLexer src, 0⟩).1 = .err .parseInt := by
  decide +kernel

end Written

/-! ### Signs -/

section Signs

variable [UniLexer] [UniParser]

omit [UniLexer] [UniParser] in
theorem neg_one_pow_mul (k : Nat) (v : Int) : (-1) ^ k * v = if k % 2 = 1 then -v else v := by
  rcases Nat.even_or_odd k with hk | hk
  · rw [hk.neg_one_pow, if_neg (by have := Nat.even_iff.1 hk; omega), Int.one_mul]
  · rw [hk.neg_one_pow, if_pos (Nat.odd_iff.1 hk), Int.neg_one_mul]

omit [UniLexer] [UniParser] in
/-- A type that is signed respects the hyphens, and one that is not has no negative numbers. -/
private theorem IntType.read_sign_iff (t : IntType) {b : Base} {digits : List Char}
    (hdigits : ∀ c ∈ digits, c = '_' ∨ isHexadecimalDigit c) (k : Nat) (st : ParseStream) :
    let result := (t.read (negate^[k] none) b.radix (b.marker ++ digits) st).1
    let v : Int := (-1) ^ k * b.value (digits.filter (· != '_'))
    ((∃ e, result = .err e) ∨
      ∃ content t', result = .ok content ∧ content.intValue = some (t', v) ∧ t'.Contains v) ↔
    ¬(k % 2 = 1 ∧ t.signed = false ∧ b.Fits digits t.bound ∧ b.value digits ≠ 0) := by
  intro result v
  obtain ⟨hok, herr⟩ := t.read_run hdigits (negate^[k] none) st
  by_cases hfits : b.Fits digits t.bound
  · have hresult : result = _ := congrArg Prod.fst (hok hfits)
    have hv : v = _ := neg_one_pow_mul k _
    rw [hfits.filter_ne_underscore] at hv
    rw [hresult, hv]
    simp only [negate_iterate]
    rw [isInt_iff (t.contains_of_lt hfits.value_lt (k % 2 = 1))]
    by_cases hodd : k % 2 = 1
    · cases hsigned : t.signed with
      | false =>
        simp only [hodd, hfits, Bool.false_eq_true, if_false, if_true, false_and, true_and]
        omega
      | true => simp [hodd]
    · simp [hodd]
  · have hresult : result = _ := congrArg Prod.fst (herr hfits)
    rw [hresult]
    exact iff_of_true (Or.inl ⟨_, rfl⟩) fun h => hfits h.2.2.1

/-- The number of an integer is the written one, unless an unsigned one has an odd number of hyphens. -/
theorem LoadableContent.parse_sign_iff (husize : sizeOfUsize ∈ [1, 2, 4, 8]) {st : ParseStream}
    (htokens : st.tokens = lex st.source) {hyphens more : List TokenInfo} {tk : TokenInfo}
    (hrest : st.rest = hyphens ++ tk :: more) (hhyphens : ∀ h ∈ hyphens, h.kind = .specialChar .hyphen) {b : Base}
    {emptyInt : Bool} {suffixStart : Nat} (hkind : tk.kind = .literal (.int b emptyInt) suffixStart)
    (tyGenerics methodGenerics : List Identifier) :
    ∃ digits suffix, textOf st.source tk.span = some (b.marker ++ digits ++ suffix) ∧
      suffixStart = byteLen (b.marker ++ digits) ∧
      let result := (parse none tyGenerics methodGenerics st).1
      let v : Int := (-1) ^ hyphens.length * b.value (digits.filter (· != '_'))
      (((∃ e, result = .err e) ∨
        ∃ content t, result = .ok content ∧ content.intValue = some (t, v) ∧ t.Contains v) ↔
      ¬(hyphens.length % 2 = 1 ∧ ∃ (s : IntSuffix) (t : IntType), suffix = s.asStr.toList ∧ s.type? = some t ∧
        t.signed = Bool.false ∧ b.Fits digits t.bound ∧ b.value digits ≠ 0)) := by
  have hmem : tk ∈ lex st.source := by
    have hdrop : tk ∈ st.rest := by
      rw [hrest]
      exact List.mem_append_right hyphens List.mem_cons_self
    exact htokens ▸ List.mem_of_mem_drop hdrop
  obtain ⟨digits, suffix, htext, hstart, hempty, hhex⟩ := scan_int
    (mem_scan_of_mem_lex hmem (by simp [hkind]) (by simp [hkind])) hkind
  refine ⟨digits, suffix, htext, hstart, ?_⟩
  subst hstart
  rw [parse_hyphens hhyphens hkind tyGenerics methodGenerics hrest]
  cases emptyInt with
  | true =>
    -- without digits nothing is read, and nothing fits
    refine iff_of_true (Or.inl ⟨_, rfl⟩) ?_
    rintro ⟨-, s, t, -, -, -, hfits, -⟩
    rw [hfits.any_ne_underscore] at hempty
    cases hempty
  | false =>
    have htext' : textOf (st.skip (hyphens.length + 1)).source tk.span = _ := htext
    rw [ofLiteral_int htext']
    by_cases hsuffix : ∃ s : IntSuffix, suffix = s.asStr.toList
    · obtain ⟨s, rfl⟩ := hsuffix
      obtain ⟨t, ht⟩ := s.exists_type husize
      have hunsigned : (∃ (s' : IntSuffix) (t' : IntType), s.asStr.toList = s'.asStr.toList ∧ s'.type? = some t' ∧
          t'.signed = Bool.false ∧ b.Fits digits t'.bound ∧ b.value digits ≠ 0) ↔
            t.signed = Bool.false ∧ b.Fits digits t.bound ∧ b.value digits ≠ 0 := by
        constructor
        · rintro ⟨s', t', hs, ht', h⟩
          obtain rfl : s = s' := IntSuffix.asStr_inj (String.toList_inj.1 hs)
          obtain rfl : t = t' := Option.some.inj (ht.symm.trans ht')
          exact h
        · exact fun h => ⟨s, t, rfl, ht, h⟩
      rw [hunsigned, String.ofList_toList, ofDigits_suffix, ht, Option.elim_some]
      exact t.read_sign_iff hhex hyphens.length _
    · rw [ofDigits_unknown fun s hs => hsuffix ⟨s, by rw [← hs, String.toList_ofList]⟩]
      exact iff_of_true (Or.inl ⟨_, rfl⟩) fun ⟨_, s, _, hs, _⟩ => hsuffix ⟨s, hs⟩

omit [UniLexer] [UniParser] in
/-- Two hyphens before `5u8` leave its number as it is. -/
theorem LoadableContent.parse_sign_twice :
    let src := "- - 5u8".toList
    let result := (@parse plainParser none [] [] ⟨src, @lex asciiLexer src, 0⟩).1
    ∃ digits suffix, textOf src ⟨4, 7⟩ = some (digits ++ suffix) ∧
      ((∃ e, result = .err e) ∨ ∃ content t, result = .ok content ∧
        content.intValue = some (t, (Base.decimal.value (digits.filter (· != '_')) : Int)) ∧
        t.Contains (Base.decimal.value (digits.filter (· != '_')))) := by
  have h := @parse_sign_iff asciiLexer plainParser (by decide)
    ⟨"- - 5u8".toList, @lex asciiLexer "- - 5u8".toList, 0⟩ rfl
    [⟨.specialChar .hyphen, ⟨0, 1⟩⟩, ⟨.specialChar .hyphen, ⟨2, 3⟩⟩] []
    ⟨.literal (.int .decimal Bool.false) 1, ⟨4, 7⟩⟩ (by decide +kernel) (by simp) .decimal Bool.false 1 rfl [] []
  obtain ⟨digits, suffix, htext, -, hiff⟩ := h
  exact ⟨digits, suffix, htext, by simpa using hiff.2 (by simp)⟩

omit [UniLexer] [UniParser] in
/-- `- 5u8` is loaded as 5. -/
theorem LoadableContent.parse_sign_ignored :
    let src := "- 5u8".toList
    @lex asciiLexer src =
        [⟨.specialChar .hyphen, ⟨0, 1⟩⟩, ⟨.literal (.int .decimal Bool.false) 1, ⟨2, 5⟩⟩] ∧
      (@parse plainParser none [] [] ⟨src, @lex asciiLexer src, 0⟩).1 = .ok (.u8 5) ∧
      (LoadableContent.u8 5).intValue = some (⟨Bool.false, .w8⟩, 5) ∧ (5 : Int) ≠ (-1) ^ 1 * 5 := by
  decide +kernel

end Signs

/-! ### Separators -/

namespace IntText

/-- The number of an integer text, whose underscores mean nothing. -/
def value (n : IntText) : Nat := n.base.value (n.digits.filter (· != '_'))

theorem value_of_not_mem {n : IntText} (h : '_' ∉ n.digits) : n.base.value n.digits = n.value := by
  have hfilter : n.digits.filter (· != '_') = n.digits := List.filter_eq_self.2 fun c hc => by
    rw [bne_iff_ne]
    rintro rfl
    exact h hc
  rw [value, hfilter]

theorem fits_iff (n : IntText) {bound : Nat} (h : n.value < bound) :
    n.base.Fits n.digits bound ↔ '_' ∉ n.digits := by
  constructor
  · intro hfits hmem
    exact absurd (Base.isDigit_ne_underscore (List.all_eq_true.1 hfits.isDigit '_' hmem)) (by decide)
  · intro hmem
    have hisDigit (c : Char) (hc : c ∈ n.digits) : n.base.isDigit c :=
      (n.areDigits c hc).resolve_left fun h => hmem (h ▸ hc)
    obtain ⟨d, hd, -⟩ := n.hasDigit
    rw [← value_of_not_mem hmem] at h
    exact ⟨List.ne_nil_of_mem hd, List.all_eq_true.2 hisDigit, h⟩

theorem areHexadecimal (n : IntText) : ∀ c ∈ n.digits, c = '_' ∨ isHexadecimalDigit c := fun c hc =>
  (n.areDigits c hc).imp_right fun hdigit => (Base.isDigit_iff.1 hdigit).1

theorem head_ne_plus (n : IntText) : n.digits.head? ≠ some '+' := head_ne n.areHexadecimal (by decide) (by decide)

end IntText

section Separators

variable [UniLexer]

/-- An integer text with any suffix is one token. -/
theorem IntText.lex_text (n : IntText) (suffix : Option IntSuffix) :
    let src := n.text ++ (suffix.map (·.asStr.toList)).getD []
    lex src = [⟨.literal (.int n.base false) (byteLen n.text), ⟨0, byteLen src⟩⟩] := by
  have h := lex_printed [(.int n suffix, .space)]
  rwa [printedInfos, printedInfos, Nat.zero_add] at h

omit [UniLexer] in
private theorem getValue_text (n : IntText) (h : n.value < 2 ^ 64) {st : ParseStream} {span : Span}
    {suffix : List Char} (htext : textOf st.source span = some (n.text ++ suffix)) :
    IntegerToken.getValue ⟨.literal (.int n.base false) (byteLen n.text), span⟩ st =
      (.ok (if '_' ∉ n.digits then some (UInt64.ofNat n.value) else none), st) := by
  have hmarker : byteLen n.base.marker = if n.base = .decimal then 0 else 2 := by
    cases n.base <;> rfl
  have hvalue := IntegerToken.getValue_eq htext hmarker
  rw [← byteLen_append] at hvalue
  refine hvalue.trans ?_
  by_cases hmem : '_' ∉ n.digits
  · rw [(fromStrRadix_eq_some n.head_ne_plus).2 ⟨(n.fits_iff h).2 hmem, rfl⟩, if_pos hmem,
      IntText.value_of_not_mem hmem]
    rfl
  · rw [fromStrRadix_eq_none n.head_ne_plus fun hfits => hmem ((n.fits_iff h).1 hfits), if_neg hmem]
    rfl

variable [UniParser]

omit [UniLexer] in
private theorem parse_text (n : IntText) (h : n.value < 2 ^ 64) (tyGenerics methodGenerics : List Identifier)
    {st : ParseStream} {span : Span} {more : List TokenInfo}
    (hrest : st.rest = ⟨.literal (.int n.base false) (byteLen n.text), span⟩ :: more)
    (htext : textOf st.source span = some (n.text ++ IntSuffix.u64.asStr.toList)) :
    (LoadableContent.parse none tyGenerics methodGenerics st).1 =
      if '_' ∉ n.digits then .ok (.u64 (UInt64.ofNat n.value)) else .err .parseInt := by
  have hparse := LoadableContent.parse_hyphens (List.forall_mem_nil _) rfl tyGenerics methodGenerics hrest
  obtain ⟨hok, herr⟩ := (IntType.mk false .w64).read_run n.areHexadecimal none (st.skip 1)
  rw [hparse, IntText.text, LoadableContent.ofLiteral_int htext, String.ofList_toList,
    LoadableContent.ofDigits_suffix]
  by_cases hmem : '_' ∉ n.digits
  · refine (congrArg Prod.fst (hok ((n.fits_iff h).2 hmem))).trans ?_
    rw [if_pos hmem, IntText.value_of_not_mem hmem]
    rfl
  · refine (congrArg Prod.fst (herr fun hfits => hmem ((n.fits_iff h).1 hfits))).trans ?_
    rw [if_neg hmem]

/-- The value of an integer is read, alone and with the suffix `u64`, if it has no underscores. -/
theorem IntegerToken.getValue_iff (n : IntText) (h : n.value < 2 ^ 64)
    (tyGenerics methodGenerics : List Identifier) : let src := n.text
    let src' := n.text ++ "u64".toList
    let tk : TokenInfo := ⟨.literal (.int n.base false) (byteLen n.text), ⟨0, byteLen src⟩⟩
    lex src = [tk] ∧ lex src' = [⟨tk.kind, ⟨0, byteLen src'⟩⟩] ∧
      ((getValue tk ⟨src, lex src, 0⟩).1 = .ok (some (UInt64.ofNat n.value)) ↔ '_' ∉ n.digits) ∧
      ((LoadableContent.parse none tyGenerics methodGenerics ⟨src', lex src', 0⟩).1 =
        .ok (.u64 (UInt64.ofNat n.value)) ↔ '_' ∉ n.digits) := by
  intro src src' tk
  have hlex : lex src = [tk] := by
    have hlex := n.lex_text none
    rwa [Option.map_none, Option.getD_none, List.append_nil] at hlex
  have hlex' : lex src' = [⟨tk.kind, ⟨0, byteLen src'⟩⟩] := n.lex_text (some .u64)
  have htext : textOf src tk.span = some (n.text ++ []) := (textOf_self src).trans (by rw [List.append_nil])
  have hvalue : getValue tk ⟨src, lex src, 0⟩ = _ := getValue_text n h htext
  have hrest : (⟨src', lex src', 0⟩ : ParseStream).rest = _ := hlex'
  have hparse := parse_text n h tyGenerics methodGenerics hrest (textOf_self src')
  by_cases hmem : '_' ∉ n.digits
  · rw [hvalue, hparse, if_pos hmem, if_pos hmem]
    exact ⟨hlex, hlex', iff_of_true rfl hmem, iff_of_true rfl hmem⟩
  · rw [hvalue, hparse, if_neg hmem, if_neg hmem]
    exact ⟨hlex, hlex', iff_of_false nofun hmem, iff_of_false nofun hmem⟩

omit [UniLexer] [UniParser] in
theorem IntegerToken.getValue_octal :
    let src := "0o17".toList
    let src' := "0o17u64".toList
    (getValue ⟨.literal (.int .octal false) 4, ⟨0, 4⟩⟩ ⟨src, @lex asciiLexer src, 0⟩).1 = .ok (some 15) ∧
      (@LoadableContent.parse plainParser none [] [] ⟨src', @lex asciiLexer src', 0⟩).1 = .ok (.u64 15) := by
  have h := @getValue_iff asciiLexer plainParser
    ⟨.octal, ['1', '7'], ⟨'1', by decide, by decide⟩, by simp; decide, nofun⟩ (by decide) [] []
  exact ⟨h.2.2.1.2 (by decide), h.2.2.2.2 (by decide)⟩

omit [UniLexer] [UniParser] in
/-- The underscore of `12_` is lexed with the digits and then refused. -/
theorem IntegerToken.getValue_underscore :
    let src := "12_".toList
    let src' := "12_u64".toList
    let tk : TokenInfo := ⟨.literal (.int .decimal false) 3, ⟨0, 3⟩⟩
    Base.decimal.value (src.filter (· != '_')) = 12 ∧ @lex asciiLexer src = [tk] ∧
      (getValue tk ⟨src, @lex asciiLexer src, 0⟩).1 = .ok none ∧
      (@LoadableContent.parse plainParser none [] [] ⟨src', @lex asciiLexer src', 0⟩).1 = .err .parseInt := by
  decide +kernel

end Separators

end PuralinguaIR
