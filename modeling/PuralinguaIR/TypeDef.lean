import PuralinguaIR.Method

/-!
# Parsing type definitions and files

The three kinds of type definition share the attributes with the index, the generic names and the members; each
header is read in its own order. `File.parse` reads a whole source: a token that no source may hold is refused
before the first definition.
-/

namespace PuralinguaIR

open Text Effect Effect.Prog Reading

/-! ### Attributes -/

inductive TypeSpecificAttrType where
  | «class» | struct | interface
deriving DecidableEq, Repr

namespace TypeSpecificAttrType

/-- The attributes of a kind of type with no flag set. -/
def empty : TypeSpecificAttrType → TypeSpecificAttr
  | «class» => .class false false
  | struct => .struct false false
  | interface => .interface

def isModifier : TypeSpecificAttrType → Keyword → Bool
  | «class» => Keyword.isClassModifier
  | struct => Keyword.isStructModifier
  | interface => Keyword.isInterfaceModifier

end TypeSpecificAttrType

/-- Sets the flag a keyword stands for in its kind of type. -/
def TypeSpecificAttr.insert (kw : Keyword) : TypeSpecificAttr → Option TypeSpecificAttr
  | .class static isPartial =>
    match kw with
    | .static => some (.class true isPartial)
    | .partial_ => some (.class static true)
    | _ => none
  | .struct ref isPartial =>
    match kw with
    | .ref => some (.struct true isPartial)
    | .partial_ => some (.struct ref true)
    | _ => none
  | .interface => none

def TypeAttr.set (kw : Keyword) (attr : TypeAttr) : Option TypeAttr :=
  match Visibility.ofKeyword kw with
  | some vis => some { attr with vis }
  | none => (attr.specific.insert kw).map fun specific => { attr with specific }

variable [UniParser]

structure TypeAttrAndIndex where
  attr : TypeAttr
  index : TokenInfo

def TypeAttrAndIndex.parse (type : TypeSpecificAttrType) : Parser TypeAttrAndIndex := do
  let (attr, index) ← attrLoop type.isModifier TypeAttr.set ⟨.private, type.empty⟩
  match index with
  | some index => pure { attr, index }
  | none => fail (.expectLiteral .int)

/-- The attributes and the index of a definition; an index that is no 32-bit number is a panic. -/
def attrAndIndex (type : TypeSpecificAttrType) : Parser (TypeAttr × UInt32) := do
  let { attr, index } ← call (TypeAttrAndIndex.parse type)
  let index ← unwrap (tryU32 (← unwrap (← IntegerToken.getValue index)))
  pure (attr, index)

/-! ### Members -/

/-- The end of a body: its closing brace, or the end of the input. -/
def bodyEnd : Parser Unit := do
  match ← attempt (require SpecialChar.braceClose) with
  | some _ => pure ()
  | none =>
    match ← current with
    | some tk => fail (.unexpect tk)
    | none => pure ()

/-- One member of a body. -/
def parseMember (tyGenerics : List Identifier) (withFields : Bool) (members : List Method × List Field) :
    Parser (List Method × List Field) := do
  match ← current with
  | none => fail .unexpectedEOF
  | some tk =>
    match tk.kind with
    | .keyword .method => do
      let method ← call (Method.parse tyGenerics)
      pure (members.1 ++ [method], members.2)
    | .keyword .field =>
      if withFields then do
        let field ← call (Field.parse tyGenerics)
        pure (members.1, members.2 ++ [field])
      else fail (.unexpect tk)
    | _ => fail (.unexpect tk)

/-- The body of a definition from its opening brace on. -/
def parseMembers (tyGenerics : List Identifier) (withFields : Bool) : Parser (List Method × List Field) := do
  let _ ← expect SpecialChar.braceOpen
  withTurns fun turns => foldUntilOk bodyEnd (parseMember tyGenerics withFields) turns ([], [])

/-- Bounds of generics are not implemented. -/
def parseBounds : Parser Unit := do
  if (← attempt (expect Keyword.where)).isSome then panic

/-! ### The three kinds of definition -/

def ClassDef.parse : Parser ClassDef := do
  let _ ← call (require Keyword.class)
  let _ ← call (require SpecialChar.bracketOpen)
  let (attr, index) ← attrAndIndex .class
  let _ ← call (require SpecialChar.bracketClose)
  let main ← do
    match ← attempt (expect Keyword.main) with
    | some _ => do
      let _ ← expect SpecialChar.parenthesisOpen
      let id ← integerIndex
      let _ ← expect SpecialChar.parenthesisClose
      pure (some id)
    | none => pure none
  let name ← call Identifier.parse
  let ⟨generics, isGenericInfinite⟩ ← call ParseGenericResult.parse
  let parent ← do
    match ← attempt (expect SpecialChar.colon) with
    | some _ => some <$> call (typeReference generics [])
    | none => pure none
  parseBounds
  let (methods, fields) ← parseMembers generics true
  pure { attr, index, main, name, generics, isGenericInfinite, parent, methods, fields }

/-- A struct; the token after its attributes is a closing brace. -/
def StructDef.parse : Parser StructDef := do
  let _ ← call (require Keyword.struct)
  let _ ← call (require SpecialChar.bracketOpen)
  let (attr, index) ← attrAndIndex .struct
  let _ ← call (require SpecialChar.braceClose)
  let name ← call Identifier.parse
  let ⟨generics, isGenericInfinite⟩ ← call ParseGenericResult.parse
  parseBounds
  let (methods, fields) ← parseMembers generics true
  pure { attr, index, name, generics, isGenericInfinite, methods, fields }

def InterfaceDef.parse : Parser InterfaceDef := do
  let _ ← call (require Keyword.interface)
  let _ ← call (require SpecialChar.bracketOpen)
  let (attr, index) ← attrAndIndex .interface
  let _ ← call (require SpecialChar.bracketClose)
  let name ← call Identifier.parse
  let ⟨generics, isGenericInfinite⟩ ← call ParseGenericResult.parse
  let requiredInterfaces ← do
    match ← attempt (expect SpecialChar.colon) with
    | some _ => call (punctuated true (call (typeReference generics [])) (require SpecialChar.comma))
    | none => pure []
  parseBounds
  let (methods, _) ← parseMembers generics false
  pure { attr, index, name, generics, isGenericInfinite, requiredInterfaces, methods }

def TypeDef.parse : Parser TypeDef := do
  match ← current with
  | none => fail .unexpectedEOF
  | some tok =>
    match tok.kind with
    | .keyword .class => TypeDef.class <$> call ClassDef.parse
    | .keyword .struct => TypeDef.struct <$> call StructDef.parse
    | .keyword .interface => TypeDef.interface <$> call InterfaceDef.parse
    | _ => fail (.unexpect tok)

/-! ### Files -/

/-- The stream over the tokens of a source. -/
def ParseStream.new [UniLexer] (source : List Char) : ParseStream := ⟨source, lex source, 0⟩

omit [UniParser] in
theorem ParseStream.rest_new [UniLexer] (source : List Char) : (ParseStream.new source).rest = lex source := rfl

/-- The end of the input. -/
def isEof : Parser Unit := do
  match ← current with
  | some tk => fail (.unexpect tk)
  | none => pure ()

/-- One definition of a file, its index moved up by `lastIndex`; a sum that leaves 32 bits is a panic. -/
def File.parseType (lastIndex : UInt32) (types : List TypeDef) : Parser (List TypeDef) := do
  let ty ← TypeDef.parse
  if ty.index.toNat + lastIndex.toNat < 2 ^ 32 then
    pure (types ++ [ty.setIndex (ty.index + lastIndex)])
  else panic

def File.parseTypes (lastIndex : UInt32) : Parser File := do
  let types ← withTurns fun turns => foldUntilOk isEof (File.parseType lastIndex) turns []
  pure ⟨types⟩

/-- The file a source holds. -/
def File.parse [UniLexer] (source : List Char) (lastIndex : UInt32) : Outcome ParseError File :=
  match (lex source).find? (·.kind.isInvalid) with
  | some tk => .err (.unexpect tk)
  | none => (File.parseTypes lastIndex (ParseStream.new source)).1

end PuralinguaIR
