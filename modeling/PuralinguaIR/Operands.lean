import PuralinguaIR.Ast

/-!
# Parsing operands

Names, numbers, and references to types, methods and fields, as they occur inside statements and headers.
-/

namespace PuralinguaIR

open Text Effect Effect.Prog Reading

/-! ### Numbers of the standard library -/

/-- The value of a digit in the given radix. -/
def toDigit (radix : Nat) (c : Char) : Option Nat :=
  let d :=
    if '0' ≤ c ∧ c ≤ '9' then some (c.toNat - '0'.toNat)
    else if 'a' ≤ c ∧ c ≤ 'z' then some (c.toNat - 'a'.toNat + 10)
    else if 'A' ≤ c ∧ c ≤ 'Z' then some (c.toNat - 'A'.toNat + 10)
    else none
  d.filter (· < radix)

/-- The number a list of digits denotes. -/
def digitsValue (radix : Nat) (cs : List Char) : Option Nat :=
  cs.foldlM (fun acc c => (toDigit radix c).map (acc * radix + ·)) 0

/-- `from_str_radix` of an unsigned type with the values below `bound`. -/
def fromStrRadix (bound radix : Nat) (s : List Char) : Option Nat :=
  let digits := if s.head? = some '+' ∧ s.length ≠ 1 then s.tail else s
  if digits = [] then none else (digitsValue radix digits).filter (· < bound)

/-- `from_str_radix` of a signed type with the values from `-bound` up to `bound`, which is excluded. -/
def fromStrRadixSigned (bound radix : Nat) (s : List Char) : Option Int :=
  if s.head? = some '-' ∧ s.length ≠ 1 then
    ((digitsValue radix s.tail).filter (· ≤ bound)).map fun n => -(n : Int)
  else (fromStrRadix bound radix s).map Int.ofNat

/-- `u32::try_from` of a 64-bit number. -/
def tryU32 (n : UInt64) : Option UInt32 := if n.toNat < 2 ^ 32 then some (UInt32.ofNat n.toNat) else none

/-! ### Integers and names -/

def LiteralKind.toType : LiteralKind → LiteralKindType
  | int .. => .int
  | float .. => .float
  | char _ => .char
  | byte _ => .byte
  | str _ => .str
  | byteStr _ => .byteStr
  | rawStr _ => .rawStr
  | rawByteStr _ => .rawByteStr

def TokenKind.isLiteralOf (type : LiteralKindType) : TokenKind → Bool
  | literal kind _ => kind.toType == type
  | _ => false

variable [UniParser]

namespace IntegerToken

def parse : Parser TokenInfo := requireF (·.kind.isLiteralOf .int)

/-- The value of an integer token, if its digits are digits of its base and the value fits 64 bits. -/
def getValue (tk : TokenInfo) : Parser (Option UInt64) :=
  match tk.kind with
  | .literal (.int base false) suffixStart => do
    let valueS ← sliceOrPanic (← tokenText tk) 0 suffixStart
    let digits ← if base = .decimal then pure valueS else sliceOrPanic valueS 2 (byteLen valueS)
    pure ((fromStrRadix (2 ^ 64) base.radix digits).map UInt64.ofNat)
  | _ => pure none

end IntegerToken

/-- The value of the next token, an integer; a value that cannot be read is a panic. -/
def integerValue : Parser UInt64 := do
  let tk ← call IntegerToken.parse
  unwrap (← IntegerToken.getValue tk)

/-- The same for a 32-bit number. -/
def integerIndex : Parser UInt32 := do
  unwrap (tryU32 (← integerValue))

def Identifier.parse : Parser Identifier := do
  match ← current with
  | none => fail .unexpectedEOF
  | some tk =>
    match tk.kind with
    | .literal (.str true) suffixStart => do
      let s ← sliceOrPanic (← tokenText tk) 1 (← subOrPanic suffixStart 1)
      advance
      let s ← okOr .unescape (toUnescaped s)
      pure ⟨String.ofList s⟩
    | .literal (.rawStr nHashes) suffixStart => do
      let n := (nHashes.getD 0).toNat
      let stop ← subOrPanic suffixStart (1 + n)
      advance
      let s ← sliceOrPanic (← tokenText tk) (2 + n) stop
      pure ⟨String.ofList s⟩
    | .identifier => do
      advance
      pure ⟨String.ofList (← tokenText tk)⟩
    | .rawIdentifier => do
      advance
      let text ← tokenText tk
      let s ← sliceOrPanic text 2 (byteLen text)
      pure ⟨String.ofList s⟩
    | _ => fail (.unexpect tk)

def ItemRef.parse : Parser ItemRef :=
  firstOf [ItemRef.byIndex <$> integerIndex, ItemRef.byName <$> call Identifier.parse]

def FieldReference.parse : Parser FieldReference :=
  firstOf [FieldReference.byIndex <$> integerIndex, FieldReference.byName <$> call Identifier.parse]

/-! ### References -/

/-- The values of a parser that is run until it fails. -/
def whileOk {α : Type} (p : Parser α) : Parser (List α) :=
  withTurns fun turns => foldWhileOk p (fun xs x => pure (xs ++ [x])) turns []

/-- The token before the position. -/
def previousToken : Parser TokenInfo := fun st =>
  if st.index = 0 then panic st else unwrap st.tokens[st.index - 1]? st

/-- The assembly of a type reference: `!` or a name. -/
def assemblyName : Parser String := do
  match ← attempt (require SpecialChar.exclamationMark) with
  | some tk => pure (String.ofList (← tokenText tk))
  | none => pure (← call Identifier.parse).var

/-- The position of a name in a list of generic names. -/
def position (generics : List Identifier) (name : Identifier) : Option Nat := generics.findIdx? (·.var == name.var)

/-- Type references nested at most `depth` deep. -/
def typeReferenceDepth (tyGenerics methodGenerics : List Identifier) : (depth : Nat) → Parser TypeReference
  | 0 => diverge
  | depth + 1 => do
    match ← attempt (require SpecialChar.bracketOpen) with
    | some _ => do
      let assemblyName ← assemblyName
      let _ ← require SpecialChar.bracketClose
      let typeName ← call Identifier.parse
      match ← attempt (require SpecialChar.lessThanSign) with
      | some _ => do
        -- an empty list of arguments is accepted and means none
        let generics ← punctuated Bool.false (typeReferenceDepth tyGenerics methodGenerics depth)
          (require SpecialChar.comma)
        let _ ← require SpecialChar.greaterThanSign
        pure (.common assemblyName typeName.var none generics)
      | none => pure (.common assemblyName typeName.var none [])
    | none => do
      let ident ← call Identifier.parse
      match position tyGenerics ident with
      | some pos => pure (.typeGeneric (some ident.var) (UInt32.ofNat pos))
      | none =>
        match position methodGenerics ident with
        | some pos => pure (.methodGeneric (some ident.var) (UInt32.ofNat pos))
        | none => do
          let tk ← previousToken
          fail (.unexpect tk)

/-- A type reference; each level of nesting takes a token. -/
def typeReference (tyGenerics methodGenerics : List Identifier) : Parser TypeReference :=
  withTurns (typeReferenceDepth tyGenerics methodGenerics)

def MethodReference.parse (tyGenerics methodGenerics : List Identifier) : Parser MethodReference := do
  let index ← call ItemRef.parse
  match ← attempt (require SpecialChar.bracketOpen) with
  | some _ => do
    let generics ← whileOk (call (typeReference tyGenerics methodGenerics))
    let _ ← require SpecialChar.bracketClose
    pure ⟨index, generics⟩
  | none => pure ⟨index, []⟩

end PuralinguaIR
