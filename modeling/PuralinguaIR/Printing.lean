import PuralinguaIR.Lexer

/-!
# Printed tokens

A `PrintedToken` is a token as it is written: a keyword, a name, a special character or a literal, with the
conditions under which its text is one token. `printTokens` writes a list of them with a `Gap` between any two
neighbours, and `printedInfos` says at which bytes they stand.
-/

namespace PuralinguaIR

open Text

/-! ### Names -/

section Names

variable [UniLexer]

/-- The text of an identifier. -/
structure IdentText where
  start : Char
  cont : List Char
  isStart : isRustIdStart start
  isCont : ∀ c ∈ cont, isXidContinue c

def IdentText.text (x : IdentText) : List Char := x.start :: x.cont

/-- No keyword and no statement keyword is spelled like the identifier. -/
def IdentText.IsFree (x : IdentText) : Prop :=
  (∀ k : Keyword, k.asStr ≠ String.ofList x.text) ∧ ∀ k : StatementKeyword, k.asStr ≠ String.ofList x.text

end Names

/-! ### Integers -/

namespace Base

/-- What is written before the digits. -/
def marker : Base → List Char
  | binary => ['0', 'b']
  | octal => ['0', 'o']
  | decimal => []
  | hexadecimal => ['0', 'x']

def isDigit : Base → Char → Bool
  | binary, c => c == '0' || c == '1'
  | octal, c => '0' ≤ c && c ≤ '7'
  | decimal, c => isDecimalDigit c
  | hexadecimal, c => isHexadecimalDigit c

end Base

/-- The digits of an integer, at least one, with underscores; a decimal integer begins with a digit. -/
structure IntText where
  base : Base
  digits : List Char
  hasDigit : ∃ c ∈ digits, base.isDigit c
  areDigits : ∀ c ∈ digits, c = '_' ∨ base.isDigit c
  startsWithDigit : base = .decimal → ∀ c ∈ digits.head?, c ≠ '_'

def IntText.text (n : IntText) : List Char := n.base.marker ++ n.digits

/-- The suffixes of integers. -/
inductive IntSuffix where
  | u8 | u16 | u32 | u64
  | i8 | i16 | i32 | i64
  | usize | isize
deriving DecidableEq, Repr

def IntSuffix.asStr : IntSuffix → String
  | u8 => "u8"
  | u16 => "u16"
  | u32 => "u32"
  | u64 => "u64"
  | i8 => "i8"
  | i16 => "i16"
  | i32 => "i32"
  | i64 => "i64"
  | usize => "usize"
  | isize => "isize"

/-! ### Strings -/

/-- Every backslash begins an escape of one character, and no quote stands outside an escape. -/
def isEscaped : List Char → Bool
  | [] => true
  | '\\' :: _ :: cs => isEscaped cs
  | c :: cs => c != '\\' && c != '"' && isEscaped cs

/-- The inside of a string. -/
structure StrText where
  body : List Char
  isEscaped : PuralinguaIR.isEscaped body

def StrText.text (s : StrText) : List Char := '"' :: s.body ++ ['"']

/-- The inside of a raw string, in which a quote with all the hashes does not occur. -/
structure RawText where
  nHashes : UInt8
  content : List Char
  isOpen : ¬ '"' :: List.replicate nHashes.toNat '#' <:+: content

def RawText.hashes (s : RawText) : List Char := List.replicate s.nHashes.toNat '#'

def RawText.text (s : RawText) : List Char := s.hashes ++ '"' :: s.content ++ '"' :: s.hashes

/-! ### Gaps -/

/-- A text that closes the given number of block comments, the last one at its end. Comments opened in it are
closed in it too; the marks are read from the left. -/
inductive Closes : (depth : Nat) → List Char → Prop where
  | last : Closes 1 ['*', '/']
  | close {depth cs} : Closes (depth + 1) cs → Closes (depth + 2) ('*' :: '/' :: cs)
  | «open» {depth cs} : Closes (depth + 1) cs → Closes depth ('/' :: '*' :: cs)
  | char {depth c cs} : (c = '/' → cs.head? ≠ some '*') → (c = '*' → cs.head? ≠ some '/') → Closes depth cs →
      Closes depth (c :: cs)

/-- What stands between two tokens. -/
inductive Gap where
  | space
  | comment (body : List Char) (closes : Closes 1 body)

def Gap.text : Gap → List Char
  | space => [' ']
  | comment body _ => ' ' :: '/' :: '*' :: body ++ [' ']

/-! ### Tokens -/

section Tokens

variable [UniLexer]

inductive PrintedToken where
  | keyword (k : Keyword)
  | statementKeyword (k : StatementKeyword)
  | identifier (x : IdentText) (isFree : x.IsFree)
  | rawIdentifier (x : IdentText)
  | specialChar (c : SpecialChar) (ne : c ≠ .underscore)
  | int (n : IntText) (suffix : Option IntSuffix)
  | str (s : StrText)
  | rawStr (s : RawText)
  | byteStr (s : StrText)
  | rawByteStr (s : RawText)
  | char (c : Char) (ne : c ≠ '\\')

namespace PrintedToken

def text : PrintedToken → List Char
  | keyword k => k.asStr.toList
  | statementKeyword k => k.asStr.toList
  | identifier x _ => x.text
  | rawIdentifier x => 'r' :: '#' :: x.text
  | specialChar c _ => c.asStr.toList
  | int n suffix => n.text ++ (suffix.map (·.asStr.toList)).getD []
  | str s => s.text
  | rawStr s => 'r' :: s.text
  | byteStr s => 'b' :: s.text
  | rawByteStr s => 'b' :: 'r' :: s.text
  | char c _ => ['\'', c, '\'']

/-- The kind of the token; a literal records the byte at which its value ends. -/
def kind (t : PrintedToken) : TokenKind :=
  match t with
  | keyword k => .keyword k
  | statementKeyword k => .statementKeyword k
  | identifier _ _ => .identifier
  | rawIdentifier _ => .rawIdentifier
  | specialChar c _ => .specialChar c
  | int n _ => .literal (.int n.base false) (byteLen n.text)
  | str _ => .literal (.str true) (byteLen t.text)
  | rawStr s => .literal (.rawStr (some s.nHashes)) (byteLen t.text)
  | byteStr _ => .literal (.byteStr true) (byteLen t.text)
  | rawByteStr s => .literal (.rawByteStr (some s.nHashes)) (byteLen t.text)
  | char _ _ => .literal (.char true) (byteLen t.text)

end PrintedToken

/-- The texts of tokens, each but the last followed by its gap. -/
def printTokens : List (PrintedToken × Gap) → List Char
  | [] => []
  | [(t, _)] => t.text
  | (t, gap) :: ts => t.text ++ gap.text ++ printTokens ts

/-- The tokens with the bytes at which they stand, when the first one begins at `pos`. -/
def printedInfos (pos : Nat) : List (PrintedToken × Gap) → List TokenInfo
  | [] => []
  | (t, gap) :: ts =>
    ⟨t.kind, ⟨pos, pos + byteLen t.text⟩⟩ :: printedInfos (pos + byteLen t.text + byteLen gap.text) ts

end Tokens

end PuralinguaIR
