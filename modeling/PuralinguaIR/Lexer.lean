import PuralinguaIR.Cursor

/-!
# The lexer

`parse` reads one token whose first character has been taken; each of its loops is a recursion on the text that
is left and returns what remains. `scan` is the driver over a whole source, `edit` turns identifiers into
keywords and drops white space and comments, and `lex` is the token list the parser works on.
-/

namespace PuralinguaIR

open Text

variable [UniLexer]

/-! ### Comments -/

def lineComment (c : Cursor) : Comment × Cursor :=
  let c := c.bump
  let docStyle :=
    if c.first = '!' then some DocStyle.inner
    else if c.first = '/' ∧ c.second ≠ '/' then some DocStyle.outer
    else none
  (.line docStyle, c.eatUntil '\n')

/-- The loop of `blockComment`: the depth at its end and the text that is left. -/
def blockCommentLoop (depth : Nat) : List Char → Nat × List Char
  | [] => (depth, [])
  | '/' :: '*' :: cs => blockCommentLoop (depth + 1) cs
  | '*' :: '/' :: cs => if depth - 1 = 0 then (0, cs) else blockCommentLoop (depth - 1) cs
  | _ :: cs => blockCommentLoop depth cs

def blockComment (c : Cursor) : Comment × Cursor :=
  let c := c.bump
  let docStyle :=
    if c.first = '!' then some DocStyle.inner
    else if c.first = '*' ∧ c.second ≠ '*' ∧ c.second ≠ '/' then some DocStyle.outer
    else none
  let (depth, rest') := blockCommentLoop 1 c.rest
  (.block docStyle (depth == 0), c.skipTo rest')

/-! ### Identifiers -/

/-- The guard `!c.is_ascii() && c.is_emoji_char()`. -/
def isNonAsciiEmoji (c : Char) : Bool := !isAscii c && isEmojiChar c

def eatIdentifier (c : Cursor) : Cursor :=
  if isRustIdStart c.first then c.bump.eatWhile isXidContinue else c

def rawIdentifier (c : Cursor) : TokenKind × Cursor := (.rawIdentifier, eatIdentifier c.bump)

def invalidIdentifier (c : Cursor) : TokenKind × Cursor :=
  (.invalidIdentifier,
    c.eatWhile fun x => isXidContinue x || isNonAsciiEmoji x || x == Char.ofNat 0x200D)

def identifierOrUnknownPrefix (c : Cursor) : TokenKind × Cursor :=
  let c := c.eatWhile isXidContinue
  if c.first = '#' ∨ c.first = '"' ∨ c.first = '\'' then (.unknownPrefix, c)
  else if isNonAsciiEmoji c.first then invalidIdentifier c
  else (.identifier, c)

/-- Eats the suffix of a literal, such as `u8`. -/
def eatLiteralSuffix (c : Cursor) : Cursor := eatIdentifier c

/-! ### Quoted literals -/

/-- The loop of `singleQuotedString`: whether a closing quote was met, and the text that is left. -/
def singleQuotedLoop : List Char → Bool × List Char
  | [] => (false, [])
  | '\'' :: cs => (true, cs)
  | '/' :: cs => (false, '/' :: cs)
  -- a line may end inside a character only right before the closing quote
  | '\n' :: cs => if cs.headD eofChar ≠ '\'' then (false, '\n' :: cs) else singleQuotedLoop cs
  | ['\\'] => (false, [])
  | '\\' :: _ :: cs => singleQuotedLoop cs
  | _ :: cs => singleQuotedLoop cs

def singleQuotedString (c : Cursor) : Bool × Cursor :=
  if c.second = '\'' ∧ c.first ≠ '\\' then (true, c.bump.bump)
  else
    let (terminated, rest') := singleQuotedLoop c.rest
    (terminated, c.skipTo rest')

/-- The loop of `doubleQuotedString`: whether a closing quote was met, and the text that is left. -/
def doubleQuotedLoop : List Char → Bool × List Char
  | [] => (false, [])
  | '"' :: cs => (true, cs)
  | '\\' :: '\\' :: cs => doubleQuotedLoop cs
  | '\\' :: '"' :: cs => doubleQuotedLoop cs
  | _ :: cs => doubleQuotedLoop cs

def doubleQuotedString (c : Cursor) : Bool × Cursor :=
  let (terminated, rest') := doubleQuotedLoop c.rest
  (terminated, c.skipTo rest')

/-- A quoted literal of the given kind, read by `body`; only a terminated one takes a suffix. -/
def quotedLiteral (body : Cursor → Bool × Cursor) (makeKind : Bool → LiteralKind) (c : Cursor) :
    TokenKind × Cursor :=
  let (terminated, c) := body c
  let suffixStart := c.posWithinToken
  let c := if terminated then eatLiteralSuffix c else c
  (.literal (makeKind terminated) suffixStart, c)

def char (c : Cursor) : TokenKind × Cursor := quotedLiteral singleQuotedString .char c

/-! ### Raw strings -/

inductive RawStrError where
  | invalidStarter (badChar : Char)
  | noTerminator (expected found : Nat) (possibleTerminatorOffset : Option Nat)
  | tooManyDelimiters (found : Nat)
deriving DecidableEq, Repr

/-- Eats at most `limit` hashes: their number and the text that is left. -/
def eatHashes : (limit : Nat) → List Char → Nat × List Char
  | limit + 1, '#' :: cs =>
    let (n, rest') := eatHashes limit cs
    (n + 1, rest')
  | _, cs => (0, cs)

/-- The terminator search of `rawStringUnvalidated`; every turn takes at least the quote it stopped at, so a
turn for each character that is left is enough. -/
def rawStringLoop (prefixLen startPos nStartHashes : Nat) :
    (fuel : Nat) → (maxHashes : Nat) → (possibleTerminatorOffset : Option Nat) → Cursor →
      Except RawStrError Nat × Cursor
  | 0, maxHashes, offset, c => (.error (.noTerminator nStartHashes maxHashes offset), c)
  | fuel + 1, maxHashes, offset, c =>
    let c := c.eatUntil '"'
    if c.isEof then (.error (.noTerminator nStartHashes maxHashes offset), c)
    else
      let c := c.bump
      let (nEndHashes, rest') := eatHashes nStartHashes c.rest
      let c := c.skipTo rest'
      if nEndHashes = nStartHashes then (.ok nStartHashes, c)
      else if nEndHashes > maxHashes then
        rawStringLoop prefixLen startPos nStartHashes fuel nEndHashes
          (some (c.posWithinToken - startPos - nEndHashes + prefixLen)) c
      else rawStringLoop prefixLen startPos nStartHashes fuel maxHashes offset c

def rawStringUnvalidated (c : Cursor) (prefixLen : Nat) : Except RawStrError Nat × Cursor :=
  let startPos := c.posWithinToken
  let (nStartHashes, rest') := eatHashes c.rest.length c.rest
  let c := c.skipTo rest'
  if c.rest.head? = some '"' then
    let c := c.bump
    rawStringLoop prefixLen startPos nStartHashes (c.rest.length + 1) 0 none c
  else (.error (.invalidStarter c.first), c.bump)

def rawDoubleQuotedString (c : Cursor) (prefixLen : Nat) : Except RawStrError UInt8 × Cursor :=
  match rawStringUnvalidated c prefixLen with
  | (.error e, c) => (.error e, c)
  | (.ok nHashes, c) =>
    if nHashes < 256 then (.ok (UInt8.ofNat nHashes), c) else (.error (.tooManyDelimiters nHashes), c)

/-- A raw literal of the given kind; only a valid one takes a suffix. -/
def rawLiteral (prefixLen : Nat) (makeKind : Option UInt8 → LiteralKind) (c : Cursor) : TokenKind × Cursor :=
  let (res, c) := rawDoubleQuotedString c prefixLen
  let suffixStart := c.posWithinToken
  let c := if res.isOk then eatLiteralSuffix c else c
  (.literal (makeKind res.toOption) suffixStart, c)

def byteString (c : Cursor) : TokenKind × Cursor :=
  if c.first = '\'' then quotedLiteral singleQuotedString .byte c.bump
  else if c.first = '"' then quotedLiteral doubleQuotedString .byteStr c.bump
  else if c.first = 'r' ∧ (c.second = '"' ∨ c.second = '#') then rawLiteral 2 .rawByteStr c.bump
  else identifierOrUnknownPrefix c

/-! ### Numbers -/

/-- The loop of the two digit readers: whether a digit was met, and the text that is left. -/
def eatDigits (isDigit : Char → Bool) (hasDigits : Bool) : List Char → Bool × List Char
  | [] => (hasDigits, [])
  | c :: cs =>
    if c = '_' then eatDigits isDigit hasDigits cs
    else if isDigit c then eatDigits isDigit true cs
    else (hasDigits, c :: cs)

def isDecimalDigit (c : Char) : Bool := '0' ≤ c && c ≤ '9'

def isHexadecimalDigit (c : Char) : Bool :=
  isDecimalDigit c || ('a' ≤ c && c ≤ 'f') || ('A' ≤ c && c ≤ 'F')

def eatDecimalDigits (c : Cursor) : Bool × Cursor :=
  let (hasDigits, rest') := eatDigits isDecimalDigit false c.rest
  (hasDigits, c.skipTo rest')

def eatHexadecimalDigits (c : Cursor) : Bool × Cursor :=
  let (hasDigits, rest') := eatDigits isHexadecimalDigit false c.rest
  (hasDigits, c.skipTo rest')

def eatFloatExponent (c : Cursor) : Bool × Cursor :=
  eatDecimalDigits (if c.first = '-' ∨ c.first = '+' then c.bump else c)

/-- The second half of `number`: a fraction or an exponent makes the literal a float. -/
def numberTail (base : Base) (c : Cursor) : LiteralKind × Cursor :=
  if c.first = '.' ∧ c.second ≠ '.' ∧ isRustIdStart c.second = false then
    let c := c.bump
    if isDecimalDigit c.first then
      let c := (eatDecimalDigits c).2
      if c.first = 'e' ∨ c.first = 'E' then
        let (hasDigits, c) := eatFloatExponent c.bump
        (.float base (!hasDigits), c)
      else (.float base false, c)
    else (.float base false, c)
  else if c.first = 'e' ∨ c.first = 'E' then
    let (hasDigits, c) := eatFloatExponent c.bump
    (.float base (!hasDigits), c)
  else (.int base false, c)

/-- Digits after a base prefix, which is taken here. -/
def prefixedNumber (base : Base) (eat : Cursor → Bool × Cursor) (c : Cursor) : LiteralKind × Cursor :=
  let (hasDigits, c) := eat c.bump
  -- without a digit the literal ends here and is marked as empty
  if hasDigits then numberTail base c else (.int base true, c)

def number (c : Cursor) (firstDigit : Char) : LiteralKind × Cursor :=
  if firstDigit = '0' then
    if c.first = 'b' then prefixedNumber .binary eatDecimalDigits c
    else if c.first = 'o' then prefixedNumber .octal eatDecimalDigits c
    else if c.first = 'x' then prefixedNumber .hexadecimal eatHexadecimalDigits c
    else if isDecimalDigit c.first ∨ c.first = '_' then numberTail .decimal (eatDecimalDigits c).2
    else if c.first = '.' ∨ c.first = 'e' ∨ c.first = 'E' then numberTail .decimal c
    else (.int .decimal false, c)
  else numberTail .decimal (eatDecimalDigits c).2

/-! ### One token -/

/-- The source from the byte `pos`. -/
def sourceFrom (src : List Char) (pos : Nat) : List Char :=
  match splitAtByte src pos with
  | some (_, rest) => rest
  | none => []

/-- Reads one token whose first character has been taken; nothing when no token begins with it. -/
def parse (c : Cursor) (prevPos : Nat) (firstChar : Char) : Option TokenKind × Cursor :=
  if firstChar = '/' then
    if c.first = '/' then
      let (comment, c) := lineComment c
      (some (.comment comment), c)
    else if c.first = '*' then
      let (comment, c) := blockComment c
      (some (.comment comment), c)
    else (some (.specialChar .solidus), c)
  else if firstChar = 'r' then
    if c.first = '#' ∧ isRustIdStart c.second then
      let (kind, c) := rawIdentifier c
      (some kind, c)
    else if c.first = '#' ∨ c.first = '"' then
      let (kind, c) := rawLiteral 1 .rawStr c
      (some kind, c)
    else
      let (kind, c) := identifierOrUnknownPrefix c
      (some kind, c)
  else if firstChar = 'b' then
    let (kind, c) := byteString c
    (some kind, c)
  else if isRustIdStart firstChar then
    let (kind, c) := identifierOrUnknownPrefix c
    (some kind, c)
  else if isDecimalDigit firstChar then
    let (literalKind, c) := number c firstChar
    let suffixStart := c.posWithinToken
    (some (.literal literalKind suffixStart), eatLiteralSuffix c)
  else if firstChar = '#' ∧ (c.first = '"' ∨ c.first = '#') then (some .guardedStrPrefix, c.bump)
  else if firstChar = '\'' then
    let (kind, c) := char c
    (some kind, c)
  else if firstChar = '"' then
    let (kind, c) := quotedLiteral doubleQuotedString .str c
    (some kind, c)
  else
    match SpecialChar.parsePrefix (sourceFrom c.originalSource prevPos) with
    | some specialChar =>
      (some (.specialChar specialChar), c.bumpBytes (byteLen specialChar.asStr.toList - 1))
    | none =>
      if isNonAsciiEmoji firstChar then
        let (kind, c) := invalidIdentifier c
        (some kind, c)
      else (none, c)

/-! ### The driver -/

/-- The token that begins at the byte `pos` with the character `firstChar`, and the text after it. -/
def scanToken (src : List Char) (pos : Nat) (firstChar : Char) (rest : List Char) : TokenInfo × List Char :=
  if isWhiteSpaceChar firstChar then (⟨.whiteSpace, ⟨pos, pos + firstChar.utf8Size⟩⟩, rest)
  else
    let (kind, c) := parse ⟨src, pos, [firstChar], rest⟩ pos firstChar
    (⟨kind.getD .unknown, ⟨pos, pos + c.posWithinToken⟩⟩, c.rest)

/-- The tokens of `rest`, which begins at the byte `pos` of `src`; every token takes at least one character. -/
def scanFrom (src : List Char) : (fuel : Nat) → (pos : Nat) → (rest : List Char) → List TokenInfo
  | 0, _, _ => []
  | _ + 1, _, [] => []
  | fuel + 1, pos, c :: cs =>
    let (tk, rest') := scanToken src pos c cs
    tk :: scanFrom src fuel tk.span.stop rest'

/-- All tokens of a source, white space and comments included. -/
def scan (src : List Char) : List TokenInfo := scanFrom src src.length 0 src

/-- The text of the source that a span covers. -/
def textOf (src : List Char) (span : Span) : Option (List Char) := slice src span.start span.stop

/-- An identifier that spells a keyword becomes that keyword; white space and comments are dropped. -/
def edit (src : List Char) (tk : TokenInfo) : Option TokenInfo :=
  let tk :=
    if tk.kind = .identifier then
      let text := String.ofList ((textOf src tk.span).getD [])
      match Keyword.tryFrom text with
      | some kw => { tk with kind := .keyword kw }
      | none =>
        match StatementKeyword.tryFrom text with
        | some kw => { tk with kind := .statementKeyword kw }
        | none => tk
    else tk
  match tk.kind with
  | .whiteSpace => none
  -- comments go, with an end or without
  | .comment _ => none
  | _ => some tk

/-- The tokens the parser works on. -/
def lex (src : List Char) : List TokenInfo := (scan src).filterMap (edit src)

end PuralinguaIR
