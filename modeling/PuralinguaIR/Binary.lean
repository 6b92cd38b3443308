import PuralinguaIR.AbstractInfo

/-!
# Assemblies

The compiled forms: tokens that name types and methods by an index into a table, instructions, and definitions.
An `Assembly` holds the tables. `AssemblyBuilder` collects the two tables whose code is elsewhere: a string and
a reference to a type of another assembly are put where the returned index says, and nothing that is there
before is moved.
-/

namespace PuralinguaIR

open Effect Effect.Prog

/-! ### Tokens -/

inductive TypeType where
  | typeDef | typeRef | typeSpec | typeGeneric | methodGeneric
deriving DecidableEq, Repr

structure TypeToken where
  ty : TypeType
  index : UInt32
deriving DecidableEq, Repr

inductive MethodType where
  | method | methodSpec
deriving DecidableEq, Repr

structure MethodToken where
  ty : MethodType
  index : UInt32
deriving DecidableEq, Repr

/-- A string by its position in the table of strings. -/
structure StringRef where
  index : Nat
deriving DecidableEq, Repr

structure TypeRef where
  assembly : StringRef
  index : UInt32
deriving DecidableEq, Repr

structure TypeSpec where
  ty : TypeToken
  generics : List TypeToken
deriving DecidableEq, Repr

structure MethodSpec where
  m : UInt32
  generics : List TypeToken
deriving DecidableEq, Repr

/-! ### Instructions -/

/-- A register, by the position of its local variable: a machine word, which the 64 bits of an address hold. -/
structure RegisterAddr where
  addr : Nat
deriving DecidableEq, Repr

inductive LoadContent where
  | u8 (val : UInt8) | u16 (val : UInt16) | u32 (val : UInt32) | u64 (val : UInt64)
  | i8 (val : Int8) | i16 (val : Int16) | i32 (val : Int32) | i64 (val : Int64)
  | string (s : StringRef)
  | true | false
  | this
  | arg (id : UInt64)
  | static (ty : TypeToken) (field : UInt32)
  | field (container : RegisterAddr) (field : UInt32)
  | typeValueSize (ty : TypeToken)
deriving DecidableEq, Repr

inductive ToCheckContent where
  | isAllZero (addr : RegisterAddr)
deriving DecidableEq, Repr

structure JumpTarget where
  ty : JumpTargetType
  val : UInt64
deriving DecidableEq, Repr

inductive InstructionJumpCondition where
  | unconditional
  | if (register : RegisterAddr)
  | ifCheckSucceeds (content : ToCheckContent)
  | ifCheckFails (content : ToCheckContent)
deriving DecidableEq, Repr

inductive InstructionNew where
  | newObject (ty : TypeToken) (ctorName : MethodToken) (args : List RegisterAddr) (output : RegisterAddr)
  | newArray (elementType : TypeToken) (len : UInt64) (output : RegisterAddr)
  | newDynamicArray (elementType : TypeToken) (lenAddr output : RegisterAddr)
deriving DecidableEq, Repr

inductive InstructionCall where
  | instanceCall (val : RegisterAddr) (method : MethodToken) (args : List RegisterAddr) (retAt : RegisterAddr)
  | staticCall (ty : TypeToken) (method : MethodToken) (args : List RegisterAddr) (retAt : RegisterAddr)
  | interfaceCall (interface : TypeToken) (val : RegisterAddr) (method : MethodToken) (args : List RegisterAddr)
      (retAt : RegisterAddr)
  | dynamicNonPurusCall (fPointer config : RegisterAddr) (args : List RegisterAddr) (retAt : RegisterAddr)
deriving DecidableEq, Repr

inductive InstructionSet where
  | common (val container : RegisterAddr) (field : UInt32)
  | this (val : RegisterAddr) (field : UInt32)
  | static (val : RegisterAddr) (ty : TypeToken) (field : UInt32)
deriving DecidableEq, Repr

inductive Instruction where
  | load (addr : RegisterAddr) (content : LoadContent)
  | readPointerTo (ptr size destination : RegisterAddr)
  | writePointer (source size ptr : RegisterAddr)
  | check (output : RegisterAddr) (content : ToCheckContent)
  | new (i : InstructionNew)
  | call (i : InstructionCall)
  | set (i : InstructionSet)
  | throw (exceptionAddr : RegisterAddr)
  | returnVal (registerAddr : RegisterAddr)
  | jump (target : JumpTarget) (condition : InstructionJumpCondition)
  | nop
deriving DecidableEq, Repr

/-! ### Definitions -/

namespace Binary

structure Parameter where
  ty : TypeToken
  attr : ParameterAttr
deriving DecidableEq, Repr

/-- A range of instructions. -/
structure Range where
  start : UInt64
  stop : UInt64
deriving DecidableEq, Repr

structure ExceptionTableEntry where
  range : Range
  exceptionType : TypeToken
  filter : Option (TypeToken × MethodToken)
  «catch» : Range
  «finally» : Option Range
  fault : Option Range
deriving DecidableEq, Repr

structure Method where
  name : StringRef
  attr : MethodAttr TypeToken
  genericCountRequirement : GenericCountRequirement
  args : List Parameter
  returnType : TypeToken
  callConvention : CallConvention
  instructions : List Instruction
  exceptionTable : List ExceptionTableEntry
deriving DecidableEq, Repr

structure Field where
  name : StringRef
  attr : FieldAttr
  ty : TypeToken
deriving DecidableEq, Repr

/-- The table of an implemented interface: the slot of the method that implements each of its methods. -/
structure InterfaceImplementation where
  target : TypeToken
  map : List UInt32
deriving DecidableEq, Repr

structure ClassDef where
  main : Option UInt32
  name : StringRef
  attr : TypeAttr
  genericCountRequirement : GenericCountRequirement
  parent : Option TypeToken
  methodTable : List Method
  fields : List Field
  interfaces : List InterfaceImplementation
deriving DecidableEq, Repr

structure StructDef where
  name : StringRef
  attr : TypeAttr
  genericCountRequirement : GenericCountRequirement
  methodTable : List Method
  fields : List Field
deriving DecidableEq, Repr

structure InterfaceDef where
  name : StringRef
  attr : TypeAttr
  genericCountRequirement : GenericCountRequirement
  requiredInterfaces : List TypeToken
  methodTable : List Method
deriving DecidableEq, Repr

inductive TypeDef where
  | «class» (d : ClassDef)
  | struct (d : StructDef)
  | interface (d : InterfaceDef)
deriving DecidableEq, Repr

end Binary

/-! ### Tables -/

structure Assembly where
  strings : List String
  typeRefs : List TypeRef
  typeSpecs : List TypeSpec
  methodSpecs : List MethodSpec
  typeDefs : List Binary.TypeDef
deriving DecidableEq, Repr

/-- The tables of the assembly library: where a value is put, and the table that holds it. -/
class AssemblyBuilder where
  addString : String → List String → StringRef × List String
  addString_prefix : ∀ s xs, xs <+: (addString s xs).2
  addString_get : ∀ s xs, (addString s xs).2[(addString s xs).1.index]? = some s
  addTypeRef : TypeRef → List TypeRef → UInt32 × List TypeRef
  addTypeRef_prefix : ∀ r xs, xs <+: (addTypeRef r xs).2
  /-- A table with more entries than there are indices cannot be asked for more. -/
  addTypeRef_get : ∀ r xs, (addTypeRef r xs).2.length ≤ 2 ^ 32 →
    (addTypeRef r xs).2[(addTypeRef r xs).1.toNat]? = some r

/-- Put a value into a table unless it is there. -/
def intern {α : Type} [DecidableEq α] (x : α) (xs : List α) : Nat × List α :=
  match xs.idxOf? x with
  | some i => (i, xs)
  | none => (xs.length, xs ++ [x])

theorem intern_prefix {α : Type} [DecidableEq α] (x : α) (xs : List α) : xs <+: (intern x xs).2 := by
  unfold intern
  split
  · exact List.prefix_refl xs
  · exact List.prefix_append xs [x]

theorem intern_get {α : Type} [DecidableEq α] (x : α) (xs : List α) :
    (intern x xs).2[(intern x xs).1]? = some x := by
  unfold intern
  split
  · rename_i i h
    obtain ⟨hi, hx, -⟩ := List.findIdx?_eq_some_iff_getElem.1 h
    rw [List.getElem?_eq_getElem hi, beq_iff_eq.1 hx]
  · simp

/-- The tables without repetitions. -/
@[reducible] def internBuilder : AssemblyBuilder where
  addString s xs := (⟨(intern s xs).1⟩, (intern s xs).2)
  addString_prefix := intern_prefix
  addString_get := intern_get
  addTypeRef r xs := (UInt32.ofNat (intern r xs).1, (intern r xs).2)
  addTypeRef_prefix := intern_prefix
  addTypeRef_get r xs h := by
    have hlen : (intern r xs).2.length ≤ 2 ^ 32 := h
    have hget := intern_get r xs
    have hlt : (intern r xs).1 < (intern r xs).2.length := (List.getElem?_eq_some_iff.1 hget).1
    rw [UInt32.toNat_ofNat', Nat.mod_eq_of_lt (by omega)]
    exact hget

end PuralinguaIR
