import Mathlib.Data.List.Induction
import Mathlib.Data.Nat.Digits.Defs
import PuralinguaIR.Operands
import PuralinguaIR.Printing

/-!
# Numbers and their digits

`Base.value` is the number that digits of a base denote. The conversions of the standard library read it from
digits of their radix and from nothing else (`fromStrRadix_eq_some`), and the digits of a number, in any letter
case, denote it (`Base.value_of_toDigits`).
-/

namespace PuralinguaIR

/-! ### Digits -/

/-- The value of a digit, in any letter case. -/
def digitValue (c : Char) : Nat :=
  if isDecimalDigit c then c.toNat - '0'.toNat else c.toLower.toNat - 'a'.toNat + 10

theorem isDecimalDigit_iff {c : Char} : isDecimalDigit c ↔ 48 ≤ c.toNat ∧ c.toNat ≤ 57 := by
  rw [isDecimalDigit, Bool.and_eq_true, decide_eq_true_eq, decide_eq_true_eq]
  exact Iff.rfl

theorem isHexadecimalDigit_iff {c : Char} : isHexadecimalDigit c ↔
    48 ≤ c.toNat ∧ c.toNat ≤ 57 ∨ 97 ≤ c.toNat ∧ c.toNat ≤ 102 ∨ 65 ≤ c.toNat ∧ c.toNat ≤ 70 := by
  simp only [isHexadecimalDigit, Bool.or_eq_true, Bool.and_eq_true, decide_eq_true_eq, isDecimalDigit_iff,
    or_assoc]
  exact Iff.rfl

/-- Changing the letter case moves upper case letters only. -/
theorem toLower_cases (c : Char) : 65 ≤ c.toNat ∧ c.toNat ≤ 90 ∧ c.toLower.toNat = c.toNat + 32 ∨
    (c.toNat < 65 ∨ 90 < c.toNat) ∧ c.toLower = c := by
  unfold Char.toLower
  split
  · rename_i h
    obtain ⟨hlow, hhigh⟩ : 65 ≤ c.toNat ∧ c.toNat ≤ 90 := h
    refine Or.inl ⟨hlow, hhigh, ?_⟩
    show (c.val + ('a'.val - 'A'.val)).toNat = c.val.toNat + 32
    rw [UInt32.toNat_add]
    exact Nat.mod_eq_of_lt (Nat.lt_of_le_of_lt (Nat.add_le_add_right hhigh _) (by decide))
  · rename_i h
    refine Or.inr ⟨?_, rfl⟩
    by_contra hboth
    obtain ⟨hlow, hhigh⟩ := not_or.1 hboth
    exact h ⟨Nat.le_of_not_lt hlow, Nat.le_of_not_lt hhigh⟩

theorem digitValue_eq (c : Char) : (48 ≤ c.toNat → c.toNat ≤ 57 → digitValue c = c.toNat - 48) ∧
    (97 ≤ c.toNat → c.toNat ≤ 122 → digitValue c = c.toNat - 97 + 10) ∧
      (65 ≤ c.toNat → c.toNat ≤ 90 → digitValue c = c.toNat - 65 + 10) := by
  have hletter (h : ¬(48 ≤ c.toNat ∧ c.toNat ≤ 57)) : digitValue c = c.toLower.toNat - 97 + 10 :=
    if_neg fun hdigit => h (isDecimalDigit_iff.1 hdigit)
  refine ⟨fun hlow hhigh => if_pos (isDecimalDigit_iff.2 ⟨hlow, hhigh⟩),
    fun hlow hhigh => ?_, fun hlow hhigh => ?_⟩
  · rw [hletter (by omega)]
    rcases toLower_cases c with hcase | ⟨-, heq⟩
    · omega
    · rw [heq]
  · rw [hletter (by omega)]
    rcases toLower_cases c with hcase | ⟨hcase, -⟩ <;> omega

theorem Base.isDigit_iff {b : Base} {c : Char} : b.isDigit c ↔ isHexadecimalDigit c ∧ digitValue c < b.radix := by
  obtain ⟨hdigit, hlower, hupper⟩ := digitValue_eq c
  rw [isHexadecimalDigit_iff]
  cases b with
  | binary =>
    simp only [isDigit, radix, Bool.or_eq_true, beq_iff_eq, ← Char.toNat_inj]
    show c.toNat = 48 ∨ c.toNat = 49 ↔ _
    omega
  | octal =>
    simp only [isDigit, radix, Bool.and_eq_true, decide_eq_true_eq]
    show 48 ≤ c.toNat ∧ c.toNat ≤ 55 ↔ _
    omega
  | decimal =>
    simp only [isDigit, radix, isDecimalDigit_iff]
    omega
  | hexadecimal =>
    simp only [isDigit, radix, isHexadecimalDigit_iff]
    omega

theorem Base.one_lt_radix (b : Base) : 1 < b.radix := by
  cases b <;> decide

theorem Base.radix_le (b : Base) : b.radix ≤ 16 := by
  cases b <;> decide

/-- The conversions take exactly the digits of the radix. -/
theorem toDigit_eq (b : Base) (c : Char) : toDigit b.radix c =
    if b.isDigit c then some (digitValue c) else none := by
  obtain ⟨hdigit, hlower, hupper⟩ := digitValue_eq c
  have hradix := b.radix_le
  have hhex := isHexadecimalDigit_iff (c := c)
  -- a letter behind the `f` is worth more than any radix
  have hfilter (hrange : 48 ≤ c.toNat ∧ c.toNat ≤ 57 ∨ 97 ≤ c.toNat ∧ c.toNat ≤ 122 ∨
      65 ≤ c.toNat ∧ c.toNat ≤ 90) :
      (some (digitValue c)).filter (· < b.radix) =
        if isHexadecimalDigit c ∧ digitValue c < b.radix then some (digitValue c) else none := by
    have hiff : isHexadecimalDigit c ∧ digitValue c < b.radix ↔ digitValue c < b.radix :=
      and_iff_right_of_imp fun hlt => hhex.2 (by omega)
    simp only [Option.filter_some, decide_eq_true_eq, hiff]
  simp only [Base.isDigit_iff]
  unfold toDigit
  dsimp only
  split
  · rename_i h
    obtain ⟨hlow, hhigh⟩ : 48 ≤ c.toNat ∧ c.toNat ≤ 57 := h
    rw [← hfilter (by omega), hdigit hlow hhigh]
    rfl
  split
  · rename_i h
    obtain ⟨hlow, hhigh⟩ : 97 ≤ c.toNat ∧ c.toNat ≤ 122 := h
    rw [← hfilter (by omega), hlower hlow hhigh]
    rfl
  split
  · rename_i h
    obtain ⟨hlow, hhigh⟩ : 65 ≤ c.toNat ∧ c.toNat ≤ 90 := h
    rw [← hfilter (by omega), hupper hlow hhigh]
    rfl
  · rename_i hdec hlow hup
    have hdec : ¬(48 ≤ c.toNat ∧ c.toNat ≤ 57) := hdec
    have hlow : ¬(97 ≤ c.toNat ∧ c.toNat ≤ 122) := hlow
    have hup : ¬(65 ≤ c.toNat ∧ c.toNat ≤ 90) := hup
    exact (if_neg fun h => absurd (hhex.1 h.1) (by omega)).symm

/-! ### Numbers -/

namespace Base

/-- The number that digits denote, the first of which is the highest. -/
def value (b : Base) (digits : List Char) : Nat := Nat.ofDigits b.radix (digits.reverse.map digitValue)

@[simp] theorem value_nil (b : Base) : b.value [] = 0 := rfl

theorem value_concat (b : Base) (digits : List Char) (c : Char) :
    b.value (digits ++ [c]) = b.value digits * b.radix + digitValue c := by
  rw [value, List.reverse_concat, List.map_cons, Nat.ofDigits_cons, Nat.mul_comm, Nat.add_comm]
  rfl

end Base

theorem digitsValue_eq (b : Base) (digits : List Char) :
    digitsValue b.radix digits = if digits.all b.isDigit then some (b.value digits) else none := by
  induction digits using List.reverseRecOn with
  | nil => rfl
  | append_singleton digits c ih =>
    have hstep : digitsValue b.radix (digits ++ [c]) =
        (digitsValue b.radix digits).bind fun acc => (toDigit b.radix c).map (acc * b.radix + ·) := by
      rw [digitsValue, List.foldlM_append]
      simp only [List.foldlM_cons, List.foldlM_nil, bind_pure]
      rfl
    rw [hstep, ih, toDigit_eq, List.all_append, List.all_cons, List.all_nil, Bool.and_true, b.value_concat]
    cases digits.all b.isDigit <;> cases b.isDigit c <;> rfl

/-- There are digits of the base, nothing else, and they denote a number below `bound`. -/
structure Base.Fits (b : Base) (digits : List Char) (bound : Nat) : Prop where
  ne_nil : digits ≠ []
  isDigit : digits.all b.isDigit
  value_lt : b.value digits < bound

instance (b : Base) (digits : List Char) (bound : Nat) : Decidable (b.Fits digits bound) :=
  decidable_of_iff (digits ≠ [] ∧ digits.all b.isDigit ∧ b.value digits < bound)
    ⟨fun h => ⟨h.1, h.2.1, h.2.2⟩, fun h => ⟨h.ne_nil, h.isDigit, h.value_lt⟩⟩

theorem Base.isDigit_ne_underscore {b : Base} {c : Char} (h : b.isDigit c) : (c != '_') = true := by
  rw [bne_iff_ne]
  rintro rfl
  exact absurd (isDigit_iff.1 h).1 (by decide)

theorem Base.Fits.filter_ne_underscore {b : Base} {digits : List Char} {bound : Nat} (h : b.Fits digits bound) :
    digits.filter (· != '_') = digits :=
  List.filter_eq_self.2 fun c hc => isDigit_ne_underscore (List.all_eq_true.1 h.isDigit c hc)

theorem Base.Fits.any_ne_underscore {b : Base} {digits : List Char} {bound : Nat} (h : b.Fits digits bound) :
    digits.any (· != '_') = true := by
  obtain ⟨c, hc⟩ := List.exists_mem_of_ne_nil digits h.ne_nil
  exact List.any_eq_true.2 ⟨c, hc, isDigit_ne_underscore (List.all_eq_true.1 h.isDigit c hc)⟩

/-- The conversions give the number that is written when it fits the type, and nothing otherwise. -/
theorem fromStrRadix_eq_some {bound : Nat} {b : Base} {digits : List Char} {n : Nat}
    (hsign : digits.head? ≠ some '+') :
    fromStrRadix bound b.radix digits = some n ↔ b.Fits digits bound ∧ n = b.value digits := by
  have hdigits : (if digits.head? = some '+' ∧ digits.length ≠ 1 then digits.tail else digits) = digits :=
    if_neg fun h => hsign h.1
  unfold fromStrRadix
  simp only [hdigits, digitsValue_eq]
  by_cases hnil : digits = []
  · rw [if_pos hnil]
    exact ⟨nofun, fun h => absurd hnil h.1.ne_nil⟩
  rw [if_neg hnil]
  by_cases hall : digits.all b.isDigit
  · rw [if_pos hall, Option.filter_eq_some_iff, Option.some.injEq, decide_eq_true_eq]
    constructor
    · rintro ⟨rfl, hlt⟩
      exact ⟨⟨hnil, hall, hlt⟩, rfl⟩
    · rintro ⟨hfits, rfl⟩
      exact ⟨rfl, hfits.value_lt⟩
  · rw [if_neg hall]
    exact ⟨nofun, fun h => absurd h.1.isDigit hall⟩

theorem fromStrRadix_eq_none {bound : Nat} {b : Base} {digits : List Char} (hsign : digits.head? ≠ some '+')
    (h : ¬b.Fits digits bound) : fromStrRadix bound b.radix digits = none :=
  Option.eq_none_iff_forall_ne_some.2 fun _ hn => h ((fromStrRadix_eq_some hsign).1 hn).1

/-- A signed number without a sign is read like an unsigned one. -/
theorem fromStrRadixSigned_eq {bound radix : Nat} {digits : List Char} (hsign : digits.head? ≠ some '-') :
    fromStrRadixSigned bound radix digits = (fromStrRadix bound radix digits).map Int.ofNat :=
  if_neg fun h => hsign h.1

/-! ### Writing numbers -/

/-- The text of digits without underscores. -/
def IntText.ofDigits (b : Base) (digits : List Char) (hne : digits ≠ []) (hdigits : digits.all b.isDigit) :
    IntText where
  base := b
  digits := digits
  hasDigit := ⟨digits.head hne, List.head_mem hne, List.all_eq_true.1 hdigits _ (List.head_mem hne)⟩
  areDigits c hc := Or.inr (List.all_eq_true.1 hdigits c hc)
  startsWithDigit := by
    rintro rfl c hc rfl
    exact absurd (List.all_eq_true.1 hdigits '_' (List.mem_of_mem_head? hc)) (by decide)

private theorem digitChar_spec :
    ∀ d < 16, isHexadecimalDigit (Nat.digitChar d) ∧ digitValue (Nat.digitChar d) = d := by
  decide

theorem Base.isDigit_digitChar {b : Base} {d : Nat} (hd : d < b.radix) :
    b.isDigit d.digitChar ∧ digitValue d.digitChar = d := by
  obtain ⟨hhex, hvalue⟩ := digitChar_spec d (Nat.lt_of_lt_of_le hd b.radix_le)
  exact ⟨isDigit_iff.2 ⟨hhex, hvalue.symm ▸ hd⟩, hvalue⟩

/-- The written digits are digits of the base and denote the number. -/
theorem Base.value_toDigits (b : Base) (n : Nat) :
    (Nat.toDigits b.radix n).all b.isDigit ∧ b.value (Nat.toDigits b.radix n) = n := by
  induction n using Nat.strongRecOn with
  | ind n ih =>
    rw [Nat.toDigits_eq_if b.one_lt_radix]
    split
    · rename_i hlt
      obtain ⟨hdigit, hvalue⟩ := isDigit_digitChar hlt
      have hconcat := b.value_concat [] n.digitChar
      rw [List.nil_append, value_nil, Nat.zero_mul, Nat.zero_add, hvalue] at hconcat
      exact ⟨by simp [hdigit], hconcat⟩
    · rename_i hle
      have hpos : 0 < n := by
        have := b.one_lt_radix
        omega
      obtain ⟨hall, hvalue⟩ := ih (n / b.radix) (Nat.div_lt_self hpos b.one_lt_radix)
      obtain ⟨hdigit, hlast⟩ := isDigit_digitChar (Nat.mod_lt n (Nat.lt_trans Nat.zero_lt_one b.one_lt_radix))
      refine ⟨by simp [hall, hdigit], ?_⟩
      rw [b.value_concat, hvalue, hlast]
      exact Nat.div_add_mod' n b.radix

/-- A letter means the same in upper and in lower case. -/
private theorem digitValue_toLower (c : Char) (h : isHexadecimalDigit c.toLower) :
    isHexadecimalDigit c ∧ digitValue c = digitValue c.toLower := by
  rcases toLower_cases c with ⟨hlow, hhigh, hcase⟩ | ⟨-, heq⟩
  · have hhex := isHexadecimalDigit_iff.1 h
    obtain ⟨-, -, hupper⟩ := digitValue_eq c
    obtain ⟨-, hlower, -⟩ := digitValue_eq c.toLower
    rw [hupper hlow hhigh, hlower (by omega) (by omega)]
    exact ⟨isHexadecimalDigit_iff.2 (by omega), by omega⟩
  · rw [heq] at h ⊢
    exact ⟨h, rfl⟩

/-- The digits of a number, in any letter case, denote it. -/
theorem Base.value_of_toDigits {b : Base} {n : Nat} {digits : List Char}
    (h : digits.map Char.toLower = Nat.toDigits b.radix n) :
    digits ≠ [] ∧ digits.all b.isDigit ∧ b.value digits = n := by
  obtain ⟨hall, hvalue⟩ := b.value_toDigits n
  rw [← h] at hall hvalue
  have hcase : ∀ c ∈ digits, b.isDigit c ∧ digitValue c = digitValue c.toLower := fun c hc => by
    obtain ⟨hhex, hlt⟩ := isDigit_iff.1 (List.all_eq_true.1 hall c.toLower (List.mem_map_of_mem hc))
    obtain ⟨hhex', heq⟩ := digitValue_toLower c hhex
    exact ⟨isDigit_iff.2 ⟨hhex', heq ▸ hlt⟩, heq⟩
  refine ⟨?_, List.all_eq_true.2 fun c hc => (hcase c hc).1, ?_⟩
  · rintro rfl
    exact Nat.toDigits_ne_nil h.symm
  · rw [← hvalue, value, value, ← List.map_reverse, List.map_map]
    exact congrArg _ (List.map_congr_left fun c hc => (hcase c (List.mem_reverse.1 hc)).2)

end PuralinguaIR
