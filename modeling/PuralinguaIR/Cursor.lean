import PuralinguaIR.Token

/-!
# The cursor of the lexer

The cursor stands inside one token: `eaten` is the part of the token already read, `rest` what follows it in the
source, and `tokenPos` the byte at which the token begins. `UniLexer` collects what the lexer takes from its
Unicode tables: three classes of characters, of which only the ASCII part and the separation from white space
are relied on.
-/

namespace PuralinguaIR

open Text

def isAscii (c : Char) : Bool := c.toNat < 128

/-- The white space of the driver: tab, new line, vertical tab, form feed, carriage return, space, next line,
the two directional marks, and the line and paragraph separators. -/
def isWhiteSpaceChar (c : Char) : Bool :=
  [0x09, 0x0A, 0x0B, 0x0C, 0x0D, 0x20, 0x85, 0x200E, 0x200F, 0x2028, 0x2029].contains c.toNat

/-- The character classes of the lexer. -/
class UniLexer where
  isRustIdStart : Char → Bool
  isXidContinue : Char → Bool
  isEmojiChar : Char → Bool
  isRustIdStart_ascii : ∀ c, isAscii c → isRustIdStart c = (c.isAlpha || c == '_')
  isXidContinue_ascii : ∀ c, isAscii c → isXidContinue c = (c.isAlphanum || c == '_')
  isRustIdStart_whiteSpace : ∀ c, isWhiteSpaceChar c → isRustIdStart c = false

export UniLexer (isRustIdStart isXidContinue isEmojiChar)

theorem isWhiteSpaceChar_cases {c : Char} (h : isWhiteSpaceChar c) :
    c.toNat ∈ [0x09, 0x0A, 0x0B, 0x0C, 0x0D, 0x20, 0x85, 0x200E, 0x200F, 0x2028, 0x2029] := by
  simpa [isWhiteSpaceChar, List.contains_eq_mem] using h

private theorem not_alpha_of_whiteSpace {c : Char} (h : isWhiteSpaceChar c) :
    (c.isAlpha || c == '_') = false := by
  have hc := isWhiteSpaceChar_cases h
  have hof : c = Char.ofNat c.toNat := by simp
  rw [hof]
  simp only [List.mem_cons, List.not_mem_nil, or_false] at hc
  rcases hc with h | h | h | h | h | h | h | h | h | h | h <;> rw [h] <;> decide

/-- The tables with letters, digits and the underscore only. -/
@[reducible] def asciiLexer : UniLexer where
  isRustIdStart c := c.isAlpha || c == '_'
  isXidContinue c := c.isAlphanum || c == '_'
  isEmojiChar _ := false
  isRustIdStart_ascii _ _ := rfl
  isXidContinue_ascii _ _ := rfl
  isRustIdStart_whiteSpace _ := not_alpha_of_whiteSpace

/-- The character a cursor shows at the end of the source. -/
def eofChar : Char := Char.ofNat 0

structure Cursor where
  originalSource : List Char
  tokenPos : Nat
  eaten : List Char
  rest : List Char
deriving Repr

namespace Cursor

def first (c : Cursor) : Char := c.rest.headD eofChar

def second (c : Cursor) : Char := c.rest.tail.headD eofChar

def isEof (c : Cursor) : Bool := c.rest.isEmpty

def posWithinToken (c : Cursor) : Nat := byteLen c.eaten

/-- Move on to `rest'`, a final part of the text that is left. -/
def skipTo (c : Cursor) (rest' : List Char) : Cursor :=
  { c with eaten := c.eaten ++ c.rest.take (c.rest.length - rest'.length), rest := rest' }

def bump (c : Cursor) : Cursor := c.skipTo c.rest.tail

def eatWhile (p : Char → Bool) (c : Cursor) : Cursor := c.skipTo (c.rest.dropWhile p)

def eatUntil (b : Char) (c : Cursor) : Cursor := c.skipTo (c.rest.dropWhile (· != b))

def bumpBytes (n : Nat) (c : Cursor) : Cursor :=
  match splitAtByte c.rest n with
  | some (_, rest') => c.skipTo rest'
  | none => c

theorem skipTo_append (c : Cursor) {xs ys : List Char} (h : c.rest = xs ++ ys) :
    c.skipTo ys = { c with eaten := c.eaten ++ xs, rest := ys } := by
  simp [skipTo, h]

@[simp] theorem skipTo_rest (c : Cursor) (r : List Char) : (c.skipTo r).rest = r := rfl

@[simp] theorem skipTo_originalSource (c : Cursor) (r : List Char) :
    (c.skipTo r).originalSource = c.originalSource := rfl

@[simp] theorem skipTo_self (c : Cursor) : c.skipTo c.rest = c := by
  simp [skipTo]

/-- Moving on in two steps. -/
theorem skipTo_skipTo (c : Cursor) {u v w : List Char} (h : c.rest = u ++ (v ++ w)) :
    (c.skipTo (v ++ w)).skipTo w = c.skipTo w := by
  have hw : c.rest = (u ++ v) ++ w := by rw [h, List.append_assoc]
  rw [c.skipTo_append h, c.skipTo_append hw, skipTo_append _ rfl, List.append_assoc]

theorem bump_eq (c : Cursor) {x : Char} {xs : List Char} (h : c.rest = x :: xs) : c.bump = c.skipTo xs := by
  simp [bump, h]

theorem first_eq (c : Cursor) : c.first = c.rest.headD eofChar := rfl

theorem first_of_rest {c : Cursor} {x : Char} {xs : List Char} (h : c.rest = x :: xs) : c.first = x := by
  rw [first, h]
  rfl

theorem second_of_rest {c : Cursor} {x y : Char} {xs : List Char} (h : c.rest = x :: y :: xs) : c.second = y := by
  rw [second, h]
  rfl

/-- `eatWhile` takes the characters that satisfy `p` and stops at the first one that does not. -/
theorem eatWhile_eq {p : Char → Bool} (c : Cursor) {xs rest : List Char} (h : c.rest = xs ++ rest)
    (hxs : ∀ x ∈ xs, p x) (hrest : ∀ x ∈ rest.head?, p x = false) : c.eatWhile p = c.skipTo rest := by
  have hdrop : c.rest.dropWhile p = rest := by
    rw [h, List.dropWhile_append_of_pos hxs]
    cases rest with
    | nil => rfl
    | cons r rest => exact List.dropWhile_cons_of_neg (by simp [hrest r (by simp)])
  rw [eatWhile, hdrop]

theorem posWithinToken_first {c : Cursor} {x : Char} (h : c.eaten = [x]) : c.posWithinToken = x.utf8Size := by
  rw [posWithinToken, h]
  rfl

theorem posWithinToken_skipTo {c : Cursor} {u w : List Char} (h : c.rest = u ++ w) :
    (c.skipTo w).posWithinToken = c.posWithinToken + byteLen u := by
  rw [c.skipTo_append h]
  exact byteLen_append _ _

end Cursor

end PuralinguaIR
