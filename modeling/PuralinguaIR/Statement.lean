import PuralinguaIR.Operands

/-!
# Parsing statements

`LoadableContent.parse` reads what a `Load` statement loads, with any number of hyphens before it, and
`Statement.parse` reads one statement up to its semicolon.
-/

namespace PuralinguaIR

open Text Effect Effect.Prog Reading

variable [UniParser]

/-! ### Contents of a load -/

/-- The UTF-8 form of a text. -/
def utf8Bytes (cs : List Char) : List UInt8 := cs.flatMap String.utf8EncodeChar

def assert (b : Bool) : Parser Unit := if b then pure () else panic

/-- `bytes[start..stop]`. -/
def sliceBytesOrPanic (bytes : List UInt8) (start stop : Nat) : Parser (List UInt8) :=
  if start ≤ stop ∧ stop ≤ bytes.length then pure ((bytes.take stop).drop start) else panic

namespace LoadableContent

/-- `value_s[start..]`, the digits after the prefix of the base. -/
def digitsOf (radix : Nat) (valueS : List Char) : Parser (List Char) :=
  sliceOrPanic valueS (if radix = 10 then 0 else 2) (byteLen valueS)

/-- A number of an unsigned type with the values below `bound`. -/
def unsigned (bound : Nat) (make : Nat → LoadableContent) (radix : Nat) (valueS : List Char) :
    Parser LoadableContent := do
  let v ← okOr .parseInt (fromStrRadix bound radix (← digitsOf radix valueS))
  pure (make v)

/-- A number of a signed type with the values from `-bound` up to `bound`, negated after it has been read. -/
def signed (bound : Nat) (make : Int → LoadableContent) (isNegative : Option Bool) (radix : Nat)
    (valueS : List Char) : Parser LoadableContent := do
  let v ← okOr .parseInt (fromStrRadixSigned bound radix (← digitsOf radix valueS))
  if isNegative = some Bool.true then
    if -v < bound then pure (make (-v)) else panic
  else pure (make v)

def u8OfDigits : Nat → List Char → Parser LoadableContent := unsigned (2 ^ 8) fun n => .u8 (UInt8.ofNat n)

def u16OfDigits : Nat → List Char → Parser LoadableContent := unsigned (2 ^ 16) fun n => .u16 (UInt16.ofNat n)

def u32OfDigits : Nat → List Char → Parser LoadableContent := unsigned (2 ^ 32) fun n => .u32 (UInt32.ofNat n)

def u64OfDigits : Nat → List Char → Parser LoadableContent := unsigned (2 ^ 64) fun n => .u64 (UInt64.ofNat n)

def i8OfDigits : Option Bool → Nat → List Char → Parser LoadableContent :=
  signed (2 ^ 7) fun v => .i8 (Int8.ofInt v)

def i16OfDigits : Option Bool → Nat → List Char → Parser LoadableContent :=
  signed (2 ^ 15) fun v => .i16 (Int16.ofInt v)

def i32OfDigits : Option Bool → Nat → List Char → Parser LoadableContent :=
  signed (2 ^ 31) fun v => .i32 (Int32.ofInt v)

def i64OfDigits : Option Bool → Nat → List Char → Parser LoadableContent :=
  signed (2 ^ 63) fun v => .i64 (Int64.ofInt v)

/-- The number that the digits of `valueS` denote, with the suffix `ty`. -/
def ofDigits (ty : String) (isNegative : Option Bool) (radix : Nat) (valueS : List Char) :
    Parser LoadableContent :=
  match ty with
  | "u8" => u8OfDigits radix valueS
  | "u16" => u16OfDigits radix valueS
  | "u32" => u32OfDigits radix valueS
  | "u64" => u64OfDigits radix valueS
  | "usize" =>
    match sizeOfUsize with
    | 1 => u8OfDigits radix valueS
    | 2 => u16OfDigits radix valueS
    | 4 => u32OfDigits radix valueS
    | 8 => u64OfDigits radix valueS
    | _ => panic
  | "i8" => i8OfDigits isNegative radix valueS
  | "i16" => i16OfDigits isNegative radix valueS
  | "i32" => i32OfDigits isNegative radix valueS
  | "i64" => i64OfDigits isNegative radix valueS
  | "isize" =>
    match sizeOfUsize with
    | 1 => i8OfDigits isNegative radix valueS
    | 2 => i16OfDigits isNegative radix valueS
    | 4 => i32OfDigits isNegative radix valueS
    | 8 => i64OfDigits isNegative radix valueS
    | _ => panic
  | ty => fail (.custom ("Suffix `" ++ ty ++ "` is unknown"))

/-- The text of a quoted literal between the byte 1 and the byte before the suffix, unescaped. -/
def quotedText (tk : TokenInfo) (terminated : Bool) (suffixStart : Nat) (isNegative : Option Bool) :
    Parser (List Char) := do
  assert terminated
  assert isNegative.isNone
  let s ← sliceOrPanic (← tokenText tk) 1 (← subOrPanic suffixStart 1)
  okOr .unescape (toUnescaped s)

/-- What a literal token loads. -/
def ofLiteral (tk : TokenInfo) (kind : LiteralKind) (suffixStart : Nat) (isNegative : Option Bool) :
    Parser LoadableContent :=
  match kind with
  | .int base Bool.false => do
    let text ← tokenText tk
    let valueS ← sliceOrPanic text 0 suffixStart
    let ty ← sliceOrPanic text suffixStart (byteLen text)
    ofDigits (String.ofList ty) isNegative base.radix valueS
  | .int _ Bool.true => fail .expectAllLiterals
  | .float .. => panic
  | .char terminated => do
    let s ← quotedText tk terminated suffixStart isNegative
    LoadableContent.char <$> okOr (.expectLiteral .char) s.head?
  | .byte terminated => do
    let s ← quotedText tk terminated suffixStart isNegative
    LoadableContent.byte <$> okOr (.expectLiteral .byte) (utf8Bytes s).head?
  | .str terminated => do
    let s ← quotedText tk terminated suffixStart isNegative
    pure (.string (String.ofList s))
  | .byteStr terminated => do
    let s ← quotedText tk terminated suffixStart isNegative
    pure (.byteString (utf8Bytes s))
  | .rawStr nHashes => do
    assert isNegative.isNone
    -- a broken raw string has no number of hashes and is taken as one with 0
    let n := (nHashes.getD 0).toNat
    let stop ← subOrPanic suffixStart (1 + n)
    let s ← sliceOrPanic (← tokenText tk) (2 + n) stop
    pure (.string (String.ofList s))
  | .rawByteStr nHashes => do
    assert isNegative.isNone
    let n := (nHashes.getD 0).toNat
    let stop ← subOrPanic suffixStart (1 + n)
    let s ← sliceBytesOrPanic (utf8Bytes (← tokenText tk)) (2 + n) stop
    pure (.byteString s)

/-- `stream.set_index(stream.get_index() - 1)`. -/
def stepBack : Parser Unit := fun st =>
  if st.index = 0 then panic st else (.ok (), { st with index := st.index - 1 })

/-- Contents after at most `depth` tokens of hyphens. -/
def parseDepth (tyGenerics methodGenerics : List Identifier) : (depth : Nat) → (isNegative : Option Bool) →
    Parser LoadableContent
  | 0, _ => diverge
  | depth + 1, isNegative => do
    match ← consume with
    | none => fail .unexpectedEOF
    | some tk =>
      match tk.kind with
      | .specialChar .hyphen =>
        parseDepth tyGenerics methodGenerics depth (some (!isNegative.getD Bool.false))
      | .literal kind suffixStart => ofLiteral tk kind suffixStart isNegative
      | .keyword .true => pure (if isNegative = some Bool.true then .false else .true)
      | .keyword .false => pure (if isNegative = some Bool.true then .true else .false)
      | .keyword .this => do
        assert isNegative.isNone
        pure .this
      | .keyword .loadArg => do
        assert isNegative.isNone
        let _ ← require SpecialChar.parenthesisOpen
        let id ← integerValue
        let _ ← require SpecialChar.parenthesisClose
        pure (.arg id)
      | .keyword .static => do
        assert isNegative.isNone
        let _ ← require SpecialChar.parenthesisOpen
        let ty ← call (typeReference tyGenerics methodGenerics)
        let field ← call FieldReference.parse
        let _ ← require SpecialChar.parenthesisClose
        pure (.static ty field)
      | .keyword .loadField => do
        assert isNegative.isNone
        let _ ← require SpecialChar.parenthesisOpen
        let container ← call Identifier.parse
        let field ← call FieldReference.parse
        let _ ← require SpecialChar.parenthesisClose
        pure (.field container field)
      | .keyword .sizeof => do
        assert isNegative.isNone
        let _ ← require SpecialChar.parenthesisOpen
        let ty ← call (typeReference tyGenerics methodGenerics)
        let _ ← require SpecialChar.parenthesisClose
        pure (.size ty)
      -- the token that begins no content is given back
      | _ => do
        stepBack
        fail .expectAllLiterals

/-- What a `Load` statement loads; each hyphen takes a token. -/
def parse (isNegative : Option Bool) (tyGenerics methodGenerics : List Identifier) : Parser LoadableContent :=
  withTurns fun depth => parseDepth tyGenerics methodGenerics depth isNegative

end LoadableContent

/-! ### Parts of statements -/

def ArrayLen.parse : Parser ArrayLen :=
  firstOf [ArrayLen.static <$> integerValue, ArrayLen.dynamic <$> call Identifier.parse]

def CheckKind.parse : Parser CheckKind :=
  firstOf [do
    let _ ← call (require Keyword.checkAllZero)
    pure .allZero]

def JumpCondition.parse : Parser JumpCondition :=
  firstOf [
    do
      let _ ← call (require Keyword.if)
      let val ← call Identifier.parse
      pure (.ifTrue val),
    do
      let _ ← call (require Keyword.success)
      let kind ← call CheckKind.parse
      let toCheck ← call Identifier.parse
      pure (.checkSuccess kind toCheck),
    do
      let _ ← call (require Keyword.failure)
      let kind ← call CheckKind.parse
      let toCheck ← call Identifier.parse
      pure (.checkFailure kind toCheck),
    pure .unconditional]

def JumpTargetType.parse : Parser JumpTargetType :=
  firstOf [
    do
      let _ ← call (require Keyword.jumpAbsolute)
      pure .absolute,
    do
      let _ ← call (require Keyword.jumpForward)
      pure .forward,
    do
      let _ ← call (require Keyword.jumpBackward)
      pure .backward]

/-- The arguments of a call. -/
def commonArgs : Parser (List Identifier) :=
  punctuated Bool.false (call Identifier.parse) (require SpecialChar.comma)

/-- The arguments in parentheses, the arrow and the result, with which five statements end. -/
def argsAndResult : Parser (List Identifier × Identifier) := do
  let _ ← require SpecialChar.parenthesisOpen
  let args ← call commonArgs
  let _ ← require SpecialChar.parenthesisClose
  let _ ← require SpecialChar.thinArrow
  let result ← call Identifier.parse
  let _ ← require SpecialChar.semicolon
  pure (args, result)

/-! ### Statements -/

/-- The statement keyword of a token of this kind. -/
def TokenKind.statementKeyword? : TokenKind → Option StatementKeyword
  | statementKeyword k => some k
  | _ => none

/-- The operands of the statement with the given keyword. -/
def Statement.parseOperands (tyGenerics methodGenerics : List Identifier) : StatementKeyword → Parser Statement
  | .load => do
    let literal ← call (LoadableContent.parse none tyGenerics methodGenerics)
    let _ ← require SpecialChar.thinArrow
    let var ← call Identifier.parse
    let _ ← require SpecialChar.semicolon
    pure (.load literal var)
  | .readPointerTo => do
    let ptr ← call Identifier.parse
    let size ← call Identifier.parse
    let _ ← require SpecialChar.thinArrow
    let destination ← call Identifier.parse
    let _ ← require SpecialChar.semicolon
    pure (.readPointerTo ptr size destination)
  | .writePointer => do
    let source ← call Identifier.parse
    let size ← call Identifier.parse
    let _ ← require SpecialChar.thinArrow
    let ptr ← call Identifier.parse
    let _ ← require SpecialChar.semicolon
    pure (.writePointer source size ptr)
  | .check => do
    let kind ← call CheckKind.parse
    let toCheck ← call Identifier.parse
    let _ ← require SpecialChar.thinArrow
    let result ← call Identifier.parse
    let _ ← require SpecialChar.semicolon
    pure (.check kind toCheck result)
  | .newObject => do
    let ty ← call (typeReference tyGenerics methodGenerics)
    let ctor ← call (MethodReference.parse tyGenerics methodGenerics)
    let (args, result) ← argsAndResult
    pure (.newObject ty ctor args result)
  | .newArray => do
    let elementTy ← call (typeReference tyGenerics methodGenerics)
    let len ← call ArrayLen.parse
    let _ ← require SpecialChar.thinArrow
    let result ← call Identifier.parse
    let _ ← require SpecialChar.semicolon
    pure (.newArray elementTy len result)
  | .instanceCall => do
    let val ← call Identifier.parse
    let method ← call (MethodReference.parse tyGenerics methodGenerics)
    let (args, result) ← argsAndResult
    pure (.instanceCall val method args result)
  | .interfaceCall => do
    let val ← call Identifier.parse
    let _ ← require Keyword.as
    let interface ← call (typeReference tyGenerics methodGenerics)
    let method ← call (MethodReference.parse tyGenerics methodGenerics)
    let (args, result) ← argsAndResult
    pure (.interfaceCall val interface method args result)
  | .staticCall => do
    let ty ← call (typeReference tyGenerics methodGenerics)
    let method ← call (MethodReference.parse tyGenerics methodGenerics)
    let (args, result) ← argsAndResult
    pure (.staticCall ty method args result)
  | .nonPurusCall => do
    let _ ← require SpecialChar.numberSign
    let config ← call Identifier.parse
    let fPointer ← call Identifier.parse
    let (args, result) ← argsAndResult
    pure (.nonPurusCall config fPointer args result)
  | .setField => do
    let val ← call Identifier.parse
    let _ ← require SpecialChar.thinArrow
    let container ← call Identifier.parse
    let _ ← require SpecialChar.period
    let field ← call FieldReference.parse
    let _ ← require SpecialChar.semicolon
    pure (.setField val container field)
  | .setThisField => do
    let val ← call Identifier.parse
    let _ ← require SpecialChar.thinArrow
    let field ← call FieldReference.parse
    let _ ← require SpecialChar.semicolon
    pure (.setThisField val field)
  | .setStaticField => do
    let val ← call Identifier.parse
    let _ ← require SpecialChar.thinArrow
    let ty ← call (typeReference tyGenerics methodGenerics)
    let field ← call FieldReference.parse
    let _ ← require SpecialChar.semicolon
    pure (.setStaticField val ty field)
  | .throw => do
    let val ← call Identifier.parse
    let _ ← require SpecialChar.semicolon
    pure (.throw val)
  | .returnVal => do
    let val ← call Identifier.parse
    let _ ← require SpecialChar.semicolon
    pure (.returnVal val)
  | .jump => do
    let condition ← call JumpCondition.parse
    let ty ← call JumpTargetType.parse
    let val ← integerValue
    let _ ← require SpecialChar.semicolon
    pure (.jump condition ty val)
  | .nop => do
    let _ ← require SpecialChar.semicolon
    pure .nop

def Statement.parse (tyGenerics methodGenerics : List Identifier) : Parser Statement := do
  let statementTk ← requireF (·.kind.statementKeyword?.isSome)
  match statementTk.kind.statementKeyword? with
  | some k => Statement.parseOperands tyGenerics methodGenerics k
  | none => panic

end PuralinguaIR
