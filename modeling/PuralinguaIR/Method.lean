import PuralinguaIR.Statement

/-!
# Parsing methods and fields

The attribute loops shared by all definitions, the generic names of a definition, and the parsers of fields and of
methods with their parameters, local variables, exception table and statements.
-/

namespace PuralinguaIR

open Text Effect Effect.Prog Reading

variable [UniParser]

/-! ### Attributes -/

/-- Whether a kind is a keyword that satisfies `p`. -/
def TokenKind.isKeyword (p : Keyword → Bool) : TokenKind → Bool
  | keyword k => p k
  | _ => false

/-- The loop of the attribute parsers: a keyword changes the attributes, an integer is kept as the index. -/
def attrLoop {β : Type} (isModifier : Keyword → Bool) (set : Keyword → β → Option β) (init : β) :
    Parser (β × Option TokenInfo) :=
  withTurns fun turns =>
    foldWhileOk (requireF fun tk => tk.kind.isKeyword isModifier || tk.kind.isInt)
      (fun (result, index) tk =>
        if tk.kind.isInt then pure (result, some tk)
        else
          match tk.kind with
          | .keyword kw => do pure (← unwrap (set kw result), index)
          | _ => panic)
      turns (init, none)

/-- The value of the index of a method or field, if it has one that fits 32 bits. -/
def indexValue : Option TokenInfo → Parser (Option UInt32)
  | some tk => do pure ((← IntegerToken.getValue tk).bind tryU32)
  | none => pure none

/-- The keywords that set the visibility. -/
def Visibility.ofKeyword : Keyword → Option Visibility
  | .public => some .public
  | .private => some .private
  | .internal => some .assemblyOnly
  | _ => none

/-! ### Generic names -/

structure ParseGenericResult where
  generics : List Identifier
  isGenericInfinite : Bool
deriving DecidableEq, Repr

def ParseGenericResult.parse : Parser ParseGenericResult := do
  match ← attempt (expect SpecialChar.bracketOpen) with
  | none => pure ⟨[], false⟩
  | some _ => do
    let generics ← whileOk (call Identifier.parse)
    let isGenericInfinite := (← attempt (expect SpecialChar.plus)).isSome
    let _ ← expect SpecialChar.bracketClose
    pure ⟨generics, isGenericInfinite⟩

/-! ### Fields -/

def Field.setAttr (kw : Keyword) (attr : FieldAttr) : Option FieldAttr :=
  match Visibility.ofKeyword kw with
  | some vis => some { attr with vis }
  | none =>
    match kw with
    | .static => some { attr with static := true }
    | _ => none

def Field.parseAttr : Parser (FieldAttr × UInt32) := do
  let (result, index) ← attrLoop Keyword.isFieldModifier Field.setAttr ⟨.private, false⟩
  match ← indexValue index with
  | some index => pure (result, index)
  | none => fail (.expectLiteral .int)

/-- A field, from its keyword on; the keyword is taken inside a debug assertion. -/
def Field.parseIn (debugAssertions : Bool) (tyGenerics : List Identifier) : Parser Field := do
  if debugAssertions then
    let tk ← consume
    assert (tk.any (·.kind == .keyword .field))
  let _ ← expect SpecialChar.bracketOpen
  let (attr, index) ← call Field.parseAttr
  let _ ← expect SpecialChar.bracketClose
  let name ← call Identifier.parse
  let _ ← expect SpecialChar.colon
  let ty ← call (typeReference tyGenerics [])
  let _ ← expect SpecialChar.semicolon
  pure { attr, index, name, ty }

/-- A field, with debug assertions on. -/
def Field.parse (tyGenerics : List Identifier) : Parser Field := Field.parseIn true tyGenerics

/-! ### Parts of methods -/

/-- What the attribute loop of a method collects. -/
structure MethodAttrState where
  attr : MethodAttr TypeReference
  callConvention : CallConvention
  isOverride : Bool

def Method.setAttr (kw : Keyword) (s : MethodAttrState) : Option MethodAttrState :=
  match Visibility.ofKeyword kw with
  | some vis => some { s with attr.vis := vis }
  | none =>
    match kw with
    | .static => some { s with attr.static := true }
    | .hideWhenCapturing => some { s with attr.hideWhenCapturing := true }
    | .override => some { s with isOverride := true }
    | .callConventionC => some { s with callConvention := .cDecl }
    | .callConventionCWithVararg => some { s with callConvention := .cDeclWithVararg }
    | .callConventionFASTCALL => some { s with callConvention := .fastcall }
    | .callConventionSTDCALL => some { s with callConvention := .stdcall }
    | .callConventionSystemV => some { s with callConvention := .systemV }
    | .callConventionWIN64 => some { s with callConvention := .win64 }
    | _ => none

/-- The attributes of a method that mentions none. -/
def Method.defaultAttr : MethodAttr TypeReference := ⟨.private, false, false, none, []⟩

def Method.parseAttr : Parser (MethodAttr TypeReference × CallConvention × UInt32) := do
  let (s, index) ←
    attrLoop Keyword.isMethodModifier Method.setAttr ⟨Method.defaultAttr, .platformDefault, false⟩
  let index ← indexValue index
  -- the number of an overriding method is also the number it overrides
  let attr := if s.isOverride then { s.attr with overrides := index } else s.attr
  match index with
  | some index => pure (attr, s.callConvention, index)
  | none => fail (.expectLiteral .int)

def Parameter.parse (tyGenerics methodGenerics : List Identifier) : Parser Parameter := do
  let _ ← require SpecialChar.bracketOpen
  let attr ← withTurns fun turns =>
    foldWhileOk (requireF (·.kind.isKeyword Keyword.isParameterModifier))
      (fun (_ : ParameterAttr) tk =>
        match tk.kind with
        | .keyword .ref => pure ⟨true⟩
        | _ => panic)
      turns ⟨false⟩
  let _ ← require SpecialChar.bracketClose
  let ty ← call (typeReference tyGenerics methodGenerics)
  pure { attr, ty }

/-- The local variables of a method: their types are added to its attributes, their names are the result. -/
def parseLocals (attr : MethodAttr TypeReference) (tyGenerics methodGenerics : List Identifier) :
    Parser (MethodAttr TypeReference × List Identifier) := do
  match ← attempt (expect Keyword.locals) with
  | none => pure (attr, [])
  | some _ => do
    let _ ← expect SpecialChar.parenthesisOpen
    let (attr, locals) ← withTurns fun turns =>
      foldWhileOk (call Identifier.parse)
        (fun ((attr : MethodAttr TypeReference), (locals : List Identifier)) name => do
          let _ ← expect SpecialChar.colon
          let ty ← typeReference tyGenerics methodGenerics
          pure ({ attr with localVariableTypes := attr.localVariableTypes ++ [ty] }, locals ++ [name]))
        turns (attr, [])
    let _ ← expect SpecialChar.parenthesisClose
    pure (attr, locals)

/-! ### Exception tables -/

def parseLoc : Parser ExceptionLoc := do
  let isRel := (← attempt (expect Keyword.tryRel)).isSome
  let loc ← integerValue
  pure { isRel, loc }

def parse2Loc : Parser (ExceptionLoc × ExceptionLoc) := do
  let a ← parseLoc
  let _ ← expect SpecialChar.doubledDot
  let b ← parseLoc
  pure (a, b)

/-- The handlers of an exception table entry met so far. -/
structure Handlers where
  «catch» : Option (ExceptionLoc × ExceptionLoc)
  «finally» : Option (ExceptionLoc × ExceptionLoc)
  fault : Option (ExceptionLoc × ExceptionLoc)
deriving DecidableEq, Repr

/-- One turn of the handler loop; a handler met before is taken and not used. -/
def parseHandler (h : Handlers) : Parser Handlers := do
  let isCatch := (← attempt (expect Keyword.exceptionCatch)).isSome
  if isCatch && h.catch.isNone then
    pure { h with «catch» := some (← parse2Loc) }
  else do
    let isFinally := (← attempt (expect Keyword.exceptionFinally)).isSome
    if isFinally && h.finally.isNone then
      pure { h with «finally» := some (← parse2Loc) }
    else do
      let isFault := (← attempt (expect Keyword.exceptionFault)).isSome
      if isFault && h.fault.isNone then
        pure { h with fault := some (← parse2Loc) }
      else pure h

/-- A type and one of its methods, written the method first. -/
def parseMethodIn (tyGenerics methodGenerics : List Identifier) : Parser (TypeReference × MethodReference) := do
  let m ← call (MethodReference.parse tyGenerics methodGenerics)
  let _ ← expect Keyword.in
  let ty ← call (typeReference tyGenerics methodGenerics)
  pure (ty, m)

def parseExceptionTableEntry (tyGenerics methodGenerics : List Identifier) : Parser ExceptionTableEntry := do
  let tryBegin ← integerValue
  let _ ← expect SpecialChar.doubledDot
  let tryEnd ← parseLoc
  let exceptionType ← typeReference tyGenerics methodGenerics
  let filter ← do
    match ← attempt (expect Keyword.where) with
    | some _ => some <$> parseMethodIn tyGenerics methodGenerics
    | none => pure none
  let _ ← expect SpecialChar.arrow
  let _ ← expect SpecialChar.braceOpen
  let h ← withTurns fun turns => foldUntilOk (expect SpecialChar.braceClose) parseHandler turns ⟨none, none, none⟩
  match h.catch with
  | some «catch» =>
    pure { tryBegin, tryEnd, exceptionType, filter, «catch», «finally» := h.finally, fault := h.fault }
  | none => fail (.custom "No catch in an exception table")

def parseExceptionTable (tyGenerics methodGenerics : List Identifier) : Parser (List ExceptionTableEntry) := do
  match ← attempt (expect Keyword.exceptionTable) with
  | none => pure []
  | some _ => do
    let _ ← expect SpecialChar.braceOpen
    withTurns fun turns =>
      foldUntilOk (expect SpecialChar.braceClose)
        (fun entries => do pure (entries ++ [← parseExceptionTableEntry tyGenerics methodGenerics])) turns []

/-! ### Methods -/

/-- A method, from its keyword on. -/
def Method.parse (tyGenerics : List Identifier) : Parser Method := do
  let tk ← consume
  assert (tk.any (·.kind == .keyword .method))
  let _ ← expect SpecialChar.bracketOpen
  let (attr, callConv, index) ← call Method.parseAttr
  let _ ← expect SpecialChar.bracketClose
  let name ← call Identifier.parse
  let ⟨generics, isGenericInfinite⟩ ← call ParseGenericResult.parse
  let _ ← expect SpecialChar.parenthesisOpen
  let args ← punctuated Bool.false (call (Parameter.parse tyGenerics generics)) (require SpecialChar.comma)
  let _ ← expect SpecialChar.parenthesisClose
  let _ ← expect SpecialChar.thinArrow
  let returnType ← call (typeReference tyGenerics generics)
  let impl ← do
    match ← attempt (expect Keyword.impl) with
    | some _ => some <$> parseMethodIn tyGenerics generics
    | none => pure none
  -- bounds are not implemented
  if (← attempt (expect Keyword.where)).isSome then panic
  let _ ← expect SpecialChar.braceOpen
  let (attr, locals) ← call (parseLocals attr tyGenerics generics)
  let exceptionTable ← call (parseExceptionTable tyGenerics generics)
  let statements ← withTurns fun turns =>
    foldUntilOk (expect SpecialChar.braceClose)
      (fun statements => do pure (statements ++ [← call (Statement.parse tyGenerics generics)])) turns []
  pure { attr, callConv, index, name, generics, isGenericInfinite, args, returnType, impl, locals, exceptionTable,
         statements }

end PuralinguaIR
