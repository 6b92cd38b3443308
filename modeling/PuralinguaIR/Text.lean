import Mathlib.Algebra.Group.Nat.Defs
import Mathlib.Data.List.Basic

/-!
# Texts and byte positions

A text is a list of characters; positions in it count the bytes of its UTF-8 form. `slice cs a b` is the part
of `cs` from the byte `a` up to the byte `b`; it is missing when the range is reversed, leaves the text or cuts
a character. The key fact is `slice_append`: a part of a text is found again at its byte positions.
-/

namespace Text

/-- The number of bytes of a text in UTF-8. -/
def byteLen : List Char → Nat
  | [] => 0
  | c :: cs => c.utf8Size + byteLen cs

/-- The text before and the text from the byte `n`. -/
def splitAtByte : List Char → Nat → Option (List Char × List Char)
  | cs, 0 => some ([], cs)
  | [], _ + 1 => none
  | c :: cs, n + 1 =>
    if c.utf8Size ≤ n + 1 then
      (splitAtByte cs (n + 1 - c.utf8Size)).map fun p => (c :: p.1, p.2)
    else none

/-- The part of a text between two byte positions. -/
def slice (cs : List Char) (start stop : Nat) : Option (List Char) :=
  if start ≤ stop then
    (splitAtByte cs start).bind fun p => (splitAtByte p.2 (stop - start)).map (·.1)
  else none

@[simp] theorem byteLen_nil : byteLen [] = 0 := rfl

@[simp] theorem byteLen_cons (c : Char) (cs : List Char) : byteLen (c :: cs) = c.utf8Size + byteLen cs := rfl

@[simp] theorem byteLen_append (xs ys : List Char) : byteLen (xs ++ ys) = byteLen xs + byteLen ys := by
  induction xs with
  | nil => simp
  | cons c xs ih => simp [ih, Nat.add_assoc]

theorem byteLen_replicate (n : Nat) (c : Char) : byteLen (List.replicate n c) = n * c.utf8Size := by
  induction n with
  | zero => simp
  | succ n ih => simp [List.replicate_succ, ih, Nat.succ_mul, Nat.add_comm]

theorem byteLen_eq_zero {cs : List Char} : byteLen cs = 0 ↔ cs = [] := by
  cases cs with
  | nil => simp
  | cons c cs =>
    have := c.utf8Size_pos
    simp only [byteLen_cons, reduceCtorEq, iff_false]
    omega

@[simp] theorem splitAtByte_zero (cs : List Char) : splitAtByte cs 0 = some ([], cs) := by
  cases cs <;> rfl

theorem splitAtByte_append (xs ys : List Char) : splitAtByte (xs ++ ys) (byteLen xs) = some (xs, ys) := by
  induction xs with
  | nil => simp
  | cons c xs ih =>
    obtain ⟨n, hn⟩ : ∃ n, c.utf8Size + byteLen xs = n + 1 :=
      ⟨c.utf8Size + byteLen xs - 1, by have := c.utf8Size_pos; omega⟩
    have hsub : n + 1 - c.utf8Size = byteLen xs := by omega
    rw [List.cons_append, byteLen_cons, hn, splitAtByte, if_pos (by omega), hsub, ih]
    rfl

/-- Two parts with the same number of bytes in front are the same. -/
theorem append_inj_of_byteLen {a b c d : List Char} (h : a ++ b = c ++ d) (hlen : byteLen a = byteLen c) :
    a = c ∧ b = d := by
  have hsplit := splitAtByte_append a b
  rw [h, hlen, splitAtByte_append, Option.some.injEq, Prod.mk.injEq] at hsplit
  exact ⟨hsplit.1.symm, hsplit.2.symm⟩

theorem splitAtByte_suffix {cs xs ys : List Char} {n : Nat} (h : splitAtByte cs n = some (xs, ys)) :
    ys <:+ cs := by
  induction cs generalizing n xs with
  | nil =>
    cases n with
    | zero =>
      cases h
      exact List.suffix_refl _
    | succ n => cases h
  | cons c cs ih =>
    cases n with
    | zero =>
      cases h
      exact List.suffix_refl _
    | succ n =>
      rw [splitAtByte] at h
      split at h
      · obtain ⟨⟨xs', ys'⟩, hsplit, heq⟩ := Option.map_eq_some_iff.1 h
        cases heq
        exact (ih hsplit).trans (List.suffix_cons c cs)
      · cases h

/-- A part of a text is found at its byte positions. -/
theorem slice_append (xs ys zs : List Char) :
    slice (xs ++ ys ++ zs) (byteLen xs) (byteLen xs + byteLen ys) = some ys := by
  rw [slice, if_pos (by omega), List.append_assoc, splitAtByte_append]
  simp [splitAtByte_append]

/-- `slice_append` with the positions given by equations. -/
theorem slice_of_eq {cs xs ys zs : List Char} {a b : Nat} (h : cs = xs ++ ys ++ zs) (ha : a = byteLen xs)
    (hb : b = byteLen xs + byteLen ys) : slice cs a b = some ys := by
  subst h ha hb
  exact slice_append xs ys zs

end Text
