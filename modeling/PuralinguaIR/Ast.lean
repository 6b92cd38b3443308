import PuralinguaIR.ParseStream

/-!
# Parsed definitions

The values the parser produces: type references, method and field references, statements, methods, fields, the
three kinds of type definition, and files. Keyword tokens kept by the parser only as markers are left out.
-/

namespace PuralinguaIR

/-! ### References -/

structure Identifier where
  var : String
deriving DecidableEq, Repr

/-- A reference to a type: a named type of an assembly with its arguments, or a parameter by its position. -/
inductive TypeReference where
  | common (assemblyName name : String) (index : Option UInt32) (generics : List TypeReference)
  | methodGeneric (name : Option String) (index : UInt32)
  | typeGeneric (name : Option String) (index : UInt32)
deriving Repr

namespace TypeReference

mutual

private def decEq : (r r' : TypeReference) → Decidable (r = r')
  | common a n i g, common a' n' i' g' =>
    match decEqList g g' with
    | isTrue h =>
      if h' : a = a' ∧ n = n' ∧ i = i' then isTrue (by simp [h, h'])
      else isFalse fun e => by cases e; exact h' ⟨rfl, rfl, rfl⟩
    | isFalse h => isFalse fun e => by cases e; exact h rfl
  | methodGeneric n i, methodGeneric n' i' =>
    if h : n = n' ∧ i = i' then isTrue (by simp [h]) else isFalse fun e => by cases e; exact h ⟨rfl, rfl⟩
  | typeGeneric n i, typeGeneric n' i' =>
    if h : n = n' ∧ i = i' then isTrue (by simp [h]) else isFalse fun e => by cases e; exact h ⟨rfl, rfl⟩
  | common .., methodGeneric .. => isFalse fun e => by cases e
  | common .., typeGeneric .. => isFalse fun e => by cases e
  | methodGeneric .., common .. => isFalse fun e => by cases e
  | methodGeneric .., typeGeneric .. => isFalse fun e => by cases e
  | typeGeneric .., common .. => isFalse fun e => by cases e
  | typeGeneric .., methodGeneric .. => isFalse fun e => by cases e

private def decEqList : (rs rs' : List TypeReference) → Decidable (rs = rs')
  | [], [] => isTrue rfl
  | r :: rs, r' :: rs' =>
    match decEq r r', decEqList rs rs' with
    | isTrue h, isTrue h' => isTrue (by rw [h, h'])
    | isFalse h, _ => isFalse fun e => by cases e; exact h rfl
    | _, isFalse h => isFalse fun e => by cases e; exact h rfl
  | [], _ :: _ => isFalse fun e => by cases e
  | _ :: _, [] => isFalse fun e => by cases e

end

instance : DecidableEq TypeReference := decEq

/-- Induction on the nesting of type arguments. -/
@[elab_as_elim]
theorem nested_induction {motive : TypeReference → Prop}
    (common : ∀ assemblyName name index generics, (∀ g ∈ generics, motive g) →
      motive (common assemblyName name index generics))
    (methodGeneric : ∀ name index, motive (methodGeneric name index))
    (typeGeneric : ∀ name index, motive (typeGeneric name index)) (r : TypeReference) : motive r := by
  refine TypeReference.rec (motive_1 := motive) (motive_2 := fun rs => ∀ g ∈ rs, motive g) ?_ methodGeneric
    typeGeneric ?_ ?_ r
  · exact fun assemblyName name index generics ih => common assemblyName name index generics ih
  · exact fun g hg => absurd hg List.not_mem_nil
  · rintro r rs hr hrs g hg
    rcases List.mem_cons.1 hg with rfl | hg
    · exact hr
    · exact hrs g hg

end TypeReference

inductive ItemRef where
  | byIndex (index : UInt32)
  | byName (name : Identifier)
deriving DecidableEq, Repr

inductive FieldReference where
  | byIndex (index : UInt32)
  | byName (name : Identifier)
deriving DecidableEq, Repr

structure MethodReference where
  index : ItemRef
  generics : List TypeReference
deriving DecidableEq, Repr

/-! ### Attributes -/

inductive Visibility where
  | «public» | «private» | assemblyOnly
deriving DecidableEq, Repr

/-- The part of the attributes of a type that depends on its kind. -/
inductive TypeSpecificAttr where
  | «class» (static isPartial : Bool)
  | struct (ref isPartial : Bool)
  | interface
deriving DecidableEq, Repr

structure TypeAttr where
  vis : Visibility
  specific : TypeSpecificAttr
deriving DecidableEq, Repr

structure FieldAttr where
  vis : Visibility
  static : Bool
deriving DecidableEq, Repr

structure ParameterAttr where
  byRef : Bool
deriving DecidableEq, Repr

/-- The attributes of a method; `overrides` is the slot an overriding method takes over. -/
structure MethodAttr (T : Type) where
  vis : Visibility
  static : Bool
  hideWhenCapturing : Bool
  overrides : Option UInt32
  localVariableTypes : List T
deriving DecidableEq, Repr

inductive CallConvention where
  | platformDefault | cDecl | cDeclWithVararg | fastcall | stdcall | systemV | win64
deriving DecidableEq, Repr

inductive GenericCountRequirement where
  | atLeast (start : UInt32)
  | exact (count : UInt32)
deriving DecidableEq, Repr

/-- The requirement of a list of generic names, which `+` makes open. -/
def genericCountRequirement (generics : List Identifier) (isGenericInfinite : Bool) : GenericCountRequirement :=
  if isGenericInfinite then .atLeast (UInt32.ofNat generics.length) else .exact (UInt32.ofNat generics.length)

/-! ### Statements -/

inductive ArrayLen where
  | static (len : UInt64)
  | dynamic (len : Identifier)
deriving DecidableEq, Repr

inductive CheckKind where
  | allZero
deriving DecidableEq, Repr

inductive JumpCondition where
  | ifTrue (val : Identifier)
  | checkSuccess (kind : CheckKind) (toCheck : Identifier)
  | checkFailure (kind : CheckKind) (toCheck : Identifier)
  | unconditional
deriving DecidableEq, Repr

inductive JumpTargetType where
  | absolute | forward | backward
deriving DecidableEq, Repr

inductive LoadableContent where
  | u8 (val : UInt8) | u16 (val : UInt16) | u32 (val : UInt32) | u64 (val : UInt64)
  | i8 (val : Int8) | i16 (val : Int16) | i32 (val : Int32) | i64 (val : Int64)
  | string (val : String)
  | char (val : Char)
  | byteString (val : List UInt8)
  | byte (val : UInt8)
  | true | false
  | this
  | arg (id : UInt64)
  | static (ty : TypeReference) (field : FieldReference)
  | field (container : Identifier) (field : FieldReference)
  | size (ty : TypeReference)
deriving DecidableEq, Repr

inductive Statement where
  | load (content : LoadableContent) (var : Identifier)
  | readPointerTo (ptr size destination : Identifier)
  | writePointer (source size ptr : Identifier)
  | check (kind : CheckKind) (toCheck result : Identifier)
  | newObject (ty : TypeReference) (ctor : MethodReference) (args : List Identifier) (result : Identifier)
  | newArray (elementTy : TypeReference) (len : ArrayLen) (result : Identifier)
  | instanceCall (val : Identifier) (method : MethodReference) (args : List Identifier) (result : Identifier)
  | staticCall (ty : TypeReference) (method : MethodReference) (args : List Identifier) (result : Identifier)
  | interfaceCall (val : Identifier) (interface : TypeReference) (method : MethodReference)
      (args : List Identifier) (result : Identifier)
  | nonPurusCall (config fPointer : Identifier) (args : List Identifier) (result : Identifier)
  | setField (val container : Identifier) (field : FieldReference)
  | setThisField (val : Identifier) (field : FieldReference)
  | setStaticField (val : Identifier) (ty : TypeReference) (field : FieldReference)
  | throw (val : Identifier)
  | returnVal (val : Identifier)
  | jump (condition : JumpCondition) (ty : JumpTargetType) (val : UInt64)
  | nop
deriving DecidableEq, Repr

/-! ### Methods and fields -/

structure ExceptionLoc where
  isRel : Bool
  loc : UInt64
deriving DecidableEq, Repr

structure ExceptionTableEntry where
  tryBegin : UInt64
  tryEnd : ExceptionLoc
  exceptionType : TypeReference
  filter : Option (TypeReference × MethodReference)
  «catch» : ExceptionLoc × ExceptionLoc
  «finally» : Option (ExceptionLoc × ExceptionLoc)
  fault : Option (ExceptionLoc × ExceptionLoc)
deriving DecidableEq, Repr

structure Parameter where
  attr : ParameterAttr
  ty : TypeReference
deriving DecidableEq, Repr

structure Method where
  attr : MethodAttr TypeReference
  callConv : CallConvention
  index : UInt32
  name : Identifier
  generics : List Identifier
  isGenericInfinite : Bool
  args : List Parameter
  returnType : TypeReference
  impl : Option (TypeReference × MethodReference)
  locals : List Identifier
  exceptionTable : List ExceptionTableEntry
  statements : List Statement
deriving DecidableEq, Repr

structure Field where
  attr : FieldAttr
  index : UInt32
  name : Identifier
  ty : TypeReference
deriving DecidableEq, Repr

/-! ### Type definitions -/

structure ClassDef where
  attr : TypeAttr
  index : UInt32
  main : Option UInt32
  name : Identifier
  generics : List Identifier
  isGenericInfinite : Bool
  parent : Option TypeReference
  methods : List Method
  fields : List Field
deriving DecidableEq, Repr

structure StructDef where
  attr : TypeAttr
  index : UInt32
  name : Identifier
  generics : List Identifier
  isGenericInfinite : Bool
  methods : List Method
  fields : List Field
deriving DecidableEq, Repr

structure InterfaceDef where
  attr : TypeAttr
  index : UInt32
  name : Identifier
  generics : List Identifier
  isGenericInfinite : Bool
  requiredInterfaces : List TypeReference
  methods : List Method
deriving DecidableEq, Repr

inductive TypeDef where
  | «class» (d : ClassDef)
  | struct (d : StructDef)
  | interface (d : InterfaceDef)
deriving DecidableEq, Repr

namespace TypeDef

def index : TypeDef → UInt32
  | «class» d => d.index
  | struct d => d.index
  | interface d => d.index

def setIndex (index : UInt32) : TypeDef → TypeDef
  | «class» d => «class» { d with index }
  | struct d => struct { d with index }
  | interface d => interface { d with index }

def methods : TypeDef → List Method
  | «class» d => d.methods
  | struct d => d.methods
  | interface d => d.methods

def fields : TypeDef → List Field
  | «class» d => d.fields
  | struct d => d.fields
  | interface _ => []

end TypeDef

structure File where
  types : List TypeDef
deriving DecidableEq, Repr

end PuralinguaIR
