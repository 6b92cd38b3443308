import PuralinguaIR.CompileMethod
import PuralinguaIR.Loading

/-!
# Building

The types of the loaded file are compiled one after the other and put into the assembly. The tables of the
interfaces a class implements are kept in a hash map, whose entries come in an order that is not determined
(`EntryOrder`).
-/

namespace PuralinguaIR

open Effect Effect.Prog

/-- An order of the entries of a hash map. -/
structure EntryOrder where
  entries : Implementations → Implementations
  entries_perm : ∀ m, (entries m).Perm m

/-- The order in which the entries were made. -/
def EntryOrder.same : EntryOrder := ⟨id, fun _ => .refl _⟩

/-- The values of a table. Every key is compared with the key before it, and the first one with `0`; a
difference is a panic. -/
def flattenTable (last : UInt32) : List (UInt32 × UInt32) → Option (List UInt32)
  | [] => some []
  -- the next key is compared with this one: nothing is counted up
  | (k, v) :: rest => if k = last then (v :: ·) <$> flattenTable k rest else none

/-- Run a part of the compiler with no tables and no overriding methods so far. -/
def TypeBuilder.run {α : Type} (p : TypeBuilder α) : Builder α := fun a =>
  ((p ⟨a, [], 0⟩).1, (p ⟨a, [], 0⟩).2.assembly)

def pushTypeDef (d : Binary.TypeDef) : Builder Unit := modify fun a => { a with typeDefs := a.typeDefs ++ [d] }

variable [CompilerService] [AssemblyBuilder]

def compileImplementation (entry : TypeReference × SortedMap UInt32 UInt32) :
    Builder Binary.InterfaceImplementation := do
  let target ← compileTypeReference entry.1
  let map ← unwrap (flattenTable 0 entry.2.entries)
  pure { target, map }

/-- The methods of a class share the tables and the number of overriding methods. -/
def compileMethods (currentTy : TypeInformation) (methods : List Method) : TypeBuilder (List Binary.Method) :=
  methods.zipIdx.mapM fun (m, ind) => compileMethod currentTy (UInt32.ofNat ind) m

/-- The methods of a struct or an interface are compiled each on its own. -/
def compileMethodsAlone (currentTy : TypeInformation) (methods : List Method) : Builder (List Binary.Method) :=
  methods.zipIdx.mapM fun (m, ind) => (compileMethod currentTy (UInt32.ofNat ind) m).run

def compileClass (order : EntryOrder) (d : ClassDef) : Builder Binary.ClassDef := TypeBuilder.run do
  let name ← onAssembly (addString d.name.var)
  let parent ← onAssembly (d.parent.mapM compileTypeReference)
  let methodTable ← compileMethods d.toAbstract d.methods
  let fields ← onAssembly (d.fields.mapM compileField)
  -- the tables are complete only after the last method
  let s ← get
  let interfaces ← onAssembly ((order.entries s.implementations).mapM compileImplementation)
  pure { main := d.main, name, attr := d.attr,
         genericCountRequirement := genericCountRequirement d.generics d.isGenericInfinite,
         parent, methodTable, fields, interfaces }

def compileStruct (d : StructDef) : Builder Binary.StructDef := do
  let name ← addString d.name.var
  let methodTable ← compileMethodsAlone d.toAbstract d.methods
  let fields ← d.fields.mapM compileField
  pure { name, attr := d.attr, genericCountRequirement := genericCountRequirement d.generics d.isGenericInfinite,
         methodTable, fields }

def compileInterface (d : InterfaceDef) : Builder Binary.InterfaceDef := do
  let name ← addString d.name.var
  let requiredInterfaces ← d.requiredInterfaces.mapM compileTypeReference
  let methodTable ← compileMethodsAlone d.toAbstract d.methods
  pure { name, attr := d.attr, genericCountRequirement := genericCountRequirement d.generics d.isGenericInfinite,
         requiredInterfaces, methodTable }

def compileType (order : EntryOrder) : TypeDef → Builder Unit
  | .class d => do pushTypeDef (.class (← compileClass order d))
  | .struct d => do pushTypeDef (.struct (← compileStruct d))
  | .interface d => do pushTypeDef (.interface (← compileInterface d))

/-- A type must have the number of its place, counted from the last index. -/
def checkTypeIndex (lastIndex : UInt32) (ind : Nat) (ty : TypeDef) : Builder Unit := do
  let expected ← unwrap (checkedAdd (UInt32.ofNat ind) lastIndex)
  if expected = ty.index then pure () else panic

/-- The build, when the tables of the interfaces of the type at each place come in the given order. -/
def Compiler.buildImpl (orders : Nat → EntryOrder) (c : Compiler) : Builder Unit :=
  c.file.types.zipIdx.forM fun (ty, ind) => do
    checkTypeIndex (c.lastIndex.getD 0) ind ty
    compileType (orders ind) ty

end PuralinguaIR
