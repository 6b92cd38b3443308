import PuralinguaIR.Compile
import PuralinguaIR.SortedMap

/-!
# Compiling methods

Every statement becomes one instruction: the names of local variables become registers, references become
tokens. While the methods of a type are compiled one after the other, the compiler checks their numbers and
collects the methods that implement methods of interfaces; this is the state of a `TypeBuilder` beside the
assembly.
-/

namespace PuralinguaIR

open Effect Effect.Prog

/-! ### Variables -/

/-- The register of a local variable. -/
def mapVariable (var : Identifier) (locals : List Identifier) : Builder RegisterAddr :=
  okOr (.varNotFound var.var) ((position locals var).map RegisterAddr.mk)

section Statements

variable [CompilerService]

def resolveVariableTypeByAddr (addr : RegisterAddr) (m : Method) : Option TypeInformation := do
  let r ← m.attr.localVariableTypes[addr.addr]?
  resolveTypeReference r

/-- What the service knows about the type a local variable is declared with. -/
def resolveVariableType (var : Identifier) (m : Method) : Option TypeInformation := do
  let addr ← position m.locals var
  resolveVariableTypeByAddr ⟨addr⟩ m

variable [AssemblyBuilder] (currentTy : TypeInformation) (m : Method)

/-! ### Statements -/

/-- Characters and bytes cannot be loaded. -/
def compileLoadContent : LoadableContent → Builder LoadContent
  | .u8 val => pure (.u8 val)
  | .u16 val => pure (.u16 val)
  | .u32 val => pure (.u32 val)
  | .u64 val => pure (.u64 val)
  | .i8 val => pure (.i8 val)
  | .i16 val => pure (.i16 val)
  | .i32 val => pure (.i32 val)
  | .i64 val => pure (.i64 val)
  | .string val => do pure (.string (← addString val))
  | .char _ => panic
  | .byteString _ => panic
  | .byte _ => panic
  | .true => pure .true
  | .false => pure .false
  | .this => pure .this
  | .arg id => pure (.arg id)
  | .static ty field => do
    let token ← compileTypeReference ty
    let field ← compileFieldReference (resolveTypeReference ty) true field
    pure (.static token field)
  | .field container field => do
    let container ← mapVariable container m.locals
    let field ← compileFieldReference (resolveVariableTypeByAddr container m) false field
    pure (.field container field)
  | .size ty => do pure (.typeValueSize (← compileTypeReference ty))

def compileToCheck : CheckKind → RegisterAddr → ToCheckContent
  | .allZero, toCheck => .isAllZero toCheck

def compileJumpCondition : JumpCondition → Builder InstructionJumpCondition
  | .unconditional => pure .unconditional
  | .ifTrue val => do pure (.if (← mapVariable val m.locals))
  | .checkSuccess kind toCheck => do pure (.ifCheckSucceeds (compileToCheck kind (← mapVariable toCheck m.locals)))
  | .checkFailure kind toCheck => do pure (.ifCheckFails (compileToCheck kind (← mapVariable toCheck m.locals)))

def compileStatement : Statement → Builder Instruction
  | .load content var => do
    let addr ← mapVariable var m.locals
    let content ← compileLoadContent m content
    pure (.load addr content)
  | .readPointerTo ptr size destination => do
    let ptr ← mapVariable ptr m.locals
    let size ← mapVariable size m.locals
    let destination ← mapVariable destination m.locals
    pure (.readPointerTo ptr size destination)
  | .writePointer source size ptr => do
    let source ← mapVariable source m.locals
    let size ← mapVariable size m.locals
    let ptr ← mapVariable ptr m.locals
    pure (.writePointer source size ptr)
  | .check kind toCheck result => do
    -- the result is looked up before what is checked
    let output ← mapVariable result m.locals
    let toCheck ← mapVariable toCheck m.locals
    pure (.check output (compileToCheck kind toCheck))
  | .newObject ty ctor args result => do
    let token ← compileTypeReference ty
    let ctorName ← compileMethodReference (resolveTypeReference ty) false ctor
    let args ← args.mapM (mapVariable · m.locals)
    let output ← mapVariable result m.locals
    pure (.new (.newObject token ctorName args output))
  | .newArray elementTy len result => do
    let elementType ← compileTypeReference elementTy
    let output ← mapVariable result m.locals
    match len with
    | .dynamic len => do
      let lenAddr ← mapVariable len m.locals
      pure (.new (.newDynamicArray elementType lenAddr output))
    | .static len => pure (.new (.newArray elementType len output))
  | .instanceCall val method args result => do
    let valAddr ← mapVariable val m.locals
    let method ← compileMethodReference (resolveVariableType val m) false method
    let args ← args.mapM (mapVariable · m.locals)
    let retAt ← mapVariable result m.locals
    pure (.call (.instanceCall valAddr method args retAt))
  | .staticCall ty method args result => do
    let token ← compileTypeReference ty
    let method ← compileMethodReference (resolveTypeReference ty) true method
    let args ← args.mapM (mapVariable · m.locals)
    let retAt ← mapVariable result m.locals
    pure (.call (.staticCall token method args retAt))
  | .interfaceCall val interface method args result => do
    let valAddr ← mapVariable val m.locals
    let interface ← compileTypeReference interface
    -- the name is looked up in the type of the value, not in the interface
    let method ← compileMethodReference (resolveVariableType val m) false method
    let args ← args.mapM (mapVariable · m.locals)
    let retAt ← mapVariable result m.locals
    pure (.call (.interfaceCall interface valAddr method args retAt))
  | .nonPurusCall config fPointer args result => do
    -- the configuration is written first and looked up second
    let fPointer ← mapVariable fPointer m.locals
    let config ← mapVariable config m.locals
    let args ← args.mapM (mapVariable · m.locals)
    let retAt ← mapVariable result m.locals
    pure (.call (.dynamicNonPurusCall fPointer config args retAt))
  | .setField val container field => do
    let val ← mapVariable val m.locals
    let container ← mapVariable container m.locals
    -- the name is looked up in the current type, whatever the type of the container
    let field ← compileFieldReference (some currentTy) false field
    pure (.set (.common val container field))
  | .setThisField val field => do
    let val ← mapVariable val m.locals
    let field ← compileFieldReference (some currentTy) false field
    pure (.set (.this val field))
  | .setStaticField val ty field => do
    let val ← mapVariable val m.locals
    let token ← compileTypeReference ty
    let field ← compileFieldReference (resolveTypeReference ty) true field
    pure (.set (.static val token field))
  | .throw val => do pure (.throw (← mapVariable val m.locals))
  | .returnVal val => do pure (.returnVal (← mapVariable val m.locals))
  | .jump condition ty val => do
    let condition ← compileJumpCondition m condition
    pure (.jump ⟨ty, val⟩ condition)
  | .nop => pure .nop

end Statements

/-! ### Exception tables -/

/-- A sum of machine words, which panics when it overflows. -/
def ExceptionLoc.resolve (loc : ExceptionLoc) (begin : UInt64) : Builder UInt64 :=
  if loc.isRel then
    if loc.loc.toNat + begin.toNat < 2 ^ 64 then pure (loc.loc + begin) else panic
  else pure loc.loc

def resolveRange (tryBegin : UInt64) (range : ExceptionLoc × ExceptionLoc) : Builder Binary.Range := do
  let start ← range.1.resolve tryBegin
  let stop ← range.2.resolve tryBegin
  pure { start, stop }

section Methods

variable [CompilerService] [AssemblyBuilder]

def compileFilter (filter : TypeReference × MethodReference) : Builder (TypeToken × MethodToken) := do
  let token ← compileTypeReference filter.1
  let method ← compileMethodReference (resolveTypeReference filter.1) true filter.2
  pure (token, method)

def compileExceptionTableEntry (entry : ExceptionTableEntry) : Builder Binary.ExceptionTableEntry := do
  let stop ← entry.tryEnd.resolve entry.tryBegin
  let exceptionType ← compileTypeReference entry.exceptionType
  let filter ← entry.filter.mapM compileFilter
  let «catch» ← resolveRange entry.tryBegin entry.catch
  let «finally» ← entry.finally.mapM (resolveRange entry.tryBegin)
  let fault ← entry.fault.mapM (resolveRange entry.tryBegin)
  pure { range := ⟨entry.tryBegin, stop⟩, exceptionType, filter, «catch», «finally», fault }

/-! ### Method numbers -/

def checkedAdd (a b : UInt32) : Option UInt32 := if a.toNat + b.toNat < 2 ^ 32 then some (a + b) else none

def checkedSub (a b : UInt32) : Option UInt32 := if b ≤ a then some (a - b) else none

/-- The tables of the interfaces implemented so far: the slot of the method that implements each of their
methods. -/
abbrev Implementations := List (TypeReference × SortedMap UInt32 UInt32)

/-- Change the table of an interface, which is empty when there is none. -/
def Implementations.update (ty : TypeReference) (f : SortedMap UInt32 UInt32 → SortedMap UInt32 UInt32) :
    Implementations → Implementations
  | [] => [(ty, f .empty)]
  | (ty', map) :: rest => if ty' = ty then (ty', f map) :: rest else (ty', map) :: update ty f rest

structure TypeState where
  assembly : Assembly
  implementations : Implementations
  overrideCount : UInt32

/-- A part of the compiler that goes through the methods of a type. -/
abbrev TypeBuilder (α : Type) := Prog TypeState BuildError α

def onAssembly {α : Type} (p : Builder α) : TypeBuilder α :=
  zoom TypeState.assembly (fun assembly s => { s with assembly }) p

omit [CompilerService] [AssemblyBuilder] in
theorem onAssembly_run {α : Type} {p : Builder α} {s s' : TypeState} {o : Outcome BuildError α}
    (h : onAssembly p s = (o, s')) : p s.assembly = (o, s'.assembly) ∧
        s' = { s with assembly := s'.assembly } := by
  have h₁ : (p s.assembly).1 = o := congrArg Prod.fst h
  have h₂ : { s with assembly := (p s.assembly).2 } = s' := congrArg Prod.snd h
  subst h₁ h₂
  exact ⟨rfl, rfl⟩

omit [CompilerService] [AssemblyBuilder] in
theorem onAssembly_ok {α : Type} {p : Builder α} {s : TypeState} {a' : Assembly} {x : α}
    (h : p s.assembly = (.ok x, a')) : onAssembly p s = (.ok x, { s with assembly := a' }) := by
  simp [onAssembly, zoom, h]

/-- The number a method must have that overrides nothing: that of its place, after the slots of the parent but
one, where overriding methods before it take no place. `none` is a panic. -/
def expectedIndex (currentTy : TypeInformation) (currentIndex overrideCount : UInt32) : Option UInt32 := do
  let parentLen ← match currentTy.parent with
    | some parent => do
      let parent ← resolveTypeReference parent
      checkedSub (UInt32.ofNat parent.methods.length) 1
    | none => some 0
  checkedSub (← checkedAdd currentIndex parentLen) overrideCount

def checkIndex (currentTy : TypeInformation) (currentIndex : UInt32) (m : Method) : TypeBuilder Unit := do
  let s ← get
  match m.attr.overrides with
  | none => do
    let expected ← unwrap (expectedIndex currentTy currentIndex s.overrideCount)
    if m.index = expected then pure () else panic
  | some _ => do
    let overrideCount ← unwrap (checkedAdd s.overrideCount 1)
    modify fun s => { s with overrideCount }

/-- Enter a method into the table of the interface it implements a method of. -/
def implement (m : Method) : TypeBuilder Unit :=
  match m.impl with
  | none => pure ()
  | some (ty, interfaceMethod) => do
    -- the entry of the interface is made even when the method is not found
    modify fun s => { s with implementations := s.implementations.update ty id }
    let r ← onAssembly (compileMethodReference (resolveTypeReference ty) false interfaceMethod)
    match r.ty with
    | .method =>
      modify fun s => { s with implementations := s.implementations.update ty (·.insert r.index m.index) }
    | .methodSpec => panic

/-! ### Methods -/

def MethodAttr.tryMapTypes {T U : Type} (f : T → Builder U) (attr : MethodAttr T) : Builder (MethodAttr U) := do
  let localVariableTypes ← attr.localVariableTypes.mapM f
  pure { attr with localVariableTypes }

def compileParameter (p : Parameter) : Builder Binary.Parameter := do
  let ty ← compileTypeReference p.ty
  pure { ty, attr := p.attr }

def compileMethodBody (currentTy : TypeInformation) (m : Method) : Builder Binary.Method := do
  let name ← addString m.name.var
  let attr ← m.attr.tryMapTypes compileTypeReference
  let args ← m.args.mapM compileParameter
  let returnType ← compileTypeReference m.returnType
  let instructions ← m.statements.mapM (compileStatement currentTy m)
  let exceptionTable ← m.exceptionTable.mapM compileExceptionTableEntry
  pure { name, attr, genericCountRequirement := genericCountRequirement m.generics m.isGenericInfinite, args,
         returnType, callConvention := m.callConv, instructions, exceptionTable }

def compileMethod (currentTy : TypeInformation) (currentIndex : UInt32) (m : Method) :
    TypeBuilder Binary.Method := do
  checkIndex currentTy currentIndex m
  implement m
  onAssembly (compileMethodBody currentTy m)

end Methods

end PuralinguaIR
