import PuralinguaIR.TypeDef

/-!
# Broken tokens

`TokenKind.broken?` says which tokens are broken off or contain what no token may contain. The parser looks for
the ones `TokenKind.isInvalid` knows, and refuses a source that has one of them (`File.parse_err_of_isInvalid`).
Raw strings without a number of hashes and block comments without an end are not among them, and sources with
these may be accepted (`File.parse_err_iff_isInvalid`).
-/

namespace PuralinguaIR

open Effect Effect.Prog Reading

/-! ### Kinds of broken tokens -/

/-- Literals without an end, raw strings without a proper start or end or with too many hashes, block comments
without an end, bad identifiers and unknown characters. -/
inductive BrokenKind where
  | char | byte | str | byteStr | rawStr | rawByteStr | blockComment | identifier | unknown
deriving DecidableEq, Repr

namespace BrokenKind

/-- The kinds the parser refuses before it reads anything. -/
def isInvalid : BrokenKind → Bool
  | rawStr | rawByteStr | blockComment => false
  | _ => true

end BrokenKind

/-- The way in which a token is broken, if it is. -/
def TokenKind.broken? : TokenKind → Option BrokenKind
  | literal (.char false) _ => some .char
  | literal (.byte false) _ => some .byte
  | literal (.str false) _ => some .str
  | literal (.byteStr false) _ => some .byteStr
  | literal (.rawStr none) _ => some .rawStr
  | literal (.rawByteStr none) _ => some .rawByteStr
  | comment (.block _ false) => some .blockComment
  | invalidIdentifier => some .identifier
  | unknown => some .unknown
  | _ => none

theorem TokenKind.isInvalid_eq (k : TokenKind) : k.isInvalid = k.broken?.any BrokenKind.isInvalid := by
  cases k with
  | comment c => rcases c with _ | ⟨_, _ | _⟩ <;> rfl
  | literal kind suffixStart => cases kind <;> rename_i b <;> cases b <;> rfl
  | _ => rfl

/-! ### What the parser refuses -/

/-- An invalid token is neither edited nor dropped. -/
theorem edit_of_isInvalid {src : List Char} {tk : TokenInfo} (h : tk.kind.isInvalid) : edit src tk = some tk := by
  obtain ⟨kind, span⟩ := tk
  have hident : kind ≠ .identifier := by
    rintro rfl
    cases h
  simp only [edit, if_neg hident]
  cases kind <;> first | rfl | cases h

section Scanned

variable [UniLexer] [UniParser]

/-- A source with an invalid token is refused with such a token. -/
theorem File.parse_err_of_isInvalid {src : List Char} (h : ∃ tk ∈ scan src, tk.kind.isInvalid)
    (lastIndex : UInt32) : ∃ tk ∈ lex src, tk.kind.isInvalid ∧ File.parse src lastIndex = .err (.unexpect tk) := by
  obtain ⟨tk, htk, hinvalid⟩ := h
  have hmem : tk ∈ lex src := List.mem_filterMap.2 ⟨tk, htk, edit_of_isInvalid hinvalid⟩
  unfold File.parse
  cases hfind : (lex src).find? (·.kind.isInvalid) with
  | none => exact absurd hinvalid (List.find?_eq_none.1 hfind tk hmem)
  | some tk' =>
    have hinvalid' := List.find?_some hfind
    exact ⟨tk', List.mem_of_find?_eq_some hfind, hinvalid', rfl⟩

/-- A source is refused when one of its broken tokens is of an invalid kind. -/
theorem File.parse_err_of_broken {src : List Char} {tk : TokenInfo} (htk : tk ∈ scan src) {b : BrokenKind}
    (hb : tk.kind.broken? = some b) (hinvalid : b.isInvalid) (lastIndex : UInt32) :
    ∃ e, File.parse src lastIndex = .err e := by
  have hkind : tk.kind.isInvalid := by
    rw [TokenKind.isInvalid_eq, hb]
    exact hinvalid
  obtain ⟨tk', -, -, herr⟩ := File.parse_err_of_isInvalid ⟨tk, htk, hkind⟩ lastIndex
  exact ⟨_, herr⟩

end Scanned

/-! ### What the parser accepts -/

/-- A class whose only method loads the given literal. -/
private def loading (literal : String) : List Char :=
  ("class[0]A\x7bmethod[0]m()->[!]A\x7blocals(v:[!]A)Load " ++ literal ++ "->v;\x7d\x7d").toList

private def withoutEnd : List Char := "class[0]A\x7b\x7d/*".toList

private def accepts (src : List Char) : Bool :=
  match @File.parse plainParser asciiLexer src 0 with
  | .ok _ => true
  | _ => false

private theorem not_err_of_accepts {src : List Char} (h : accepts src) :
    ¬∃ e, @File.parse plainParser asciiLexer src 0 = .err e := by
  rintro ⟨e, he⟩
  simp [accepts, he] at h

/-- The broken tokens of other kinds are accepted somewhere. -/
private theorem exists_accepted {b : BrokenKind} (h : b.isInvalid = false) :
    ∃ src, (∃ tk ∈ @scan asciiLexer src, tk.kind.broken? = some b) ∧ accepts src := by
  cases b with
  | rawStr => exact ⟨loading "r##x", by decide +kernel, by decide +kernel⟩
  | rawByteStr => exact ⟨loading "br##x", by decide +kernel, by decide +kernel⟩
  | blockComment => exact ⟨withoutEnd, by decide +kernel, by decide +kernel⟩
  | _ => cases h

/-- Every source with a broken token of the kind `b` is refused if and only if this kind is an invalid one. -/
theorem File.parse_err_iff_isInvalid (b : BrokenKind) :
    (∀ (_ : UniLexer) (_ : UniParser) (src : List Char) (lastIndex : UInt32),
      (∃ tk ∈ scan src, tk.kind.broken? = some b) → ∃ e, File.parse src lastIndex = .err e) ↔ b.isInvalid := by
  constructor
  · intro h
    by_contra hb
    obtain ⟨src, htk, haccepts⟩ := exists_accepted (by simpa using hb)
    exact not_err_of_accepts haccepts (h asciiLexer plainParser src 0 htk)
  · rintro hinvalid _ _ src lastIndex ⟨tk, htk, hb⟩
    exact File.parse_err_of_broken htk hb hinvalid lastIndex

/-- A class whose name is a string without an end is refused. -/
theorem File.parse_err_iff_isInvalid_str :
    ∃ e, @File.parse plainParser asciiLexer "class[public 0]\"A\x7b\x7d".toList 0 = .err e :=
  (File.parse_err_iff_isInvalid .str).2 rfl asciiLexer plainParser _ 0 (by decide +kernel)

/-- A class whose name is a raw string without a quote and a class with a block comment without an end after it
are accepted. -/
theorem File.parse_ok_of_broken :
    let _ := plainParser
    let _ := asciiLexer
    let name := "class[public 0]r##x\x7b\x7d".toList
    let comment := "class[public 0]A\x7b\x7d/*".toList
    ((∃ tk ∈ scan name, tk.kind.broken? = some .rawStr) ∧
      File.parse name 0 = .ok ⟨[.class ⟨⟨.public, .class false false⟩, 0, none, ⟨"#"⟩, [], false, none, [],
        []⟩]⟩) ∧
    (∃ tk ∈ scan comment, tk.kind.broken? = some .blockComment) ∧
      File.parse comment 0 =
        .ok ⟨[.class ⟨⟨.public, .class false false⟩, 0, none, ⟨"A"⟩, [], false, none, [], []⟩]⟩ := by
  decide +kernel

end PuralinguaIR
