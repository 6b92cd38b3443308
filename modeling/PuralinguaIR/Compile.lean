import PuralinguaIR.Binary

/-!
# Compiling references

A reference to a type, a field or a method is compiled to a token or an index. The service is asked for the
type a reference means (`resolveTypeReference`), and names are looked up in the answer. The compiler writes the
entries it needs into the tables of the assembly: nested type arguments first, then the entry that uses them.
-/

namespace PuralinguaIR

open Effect Effect.Prog

inductive BuildError where
  | typeNotFound (r : TypeReference)
  | fieldNotFound (r : FieldReference)
  | methodNotFound (r : MethodReference)
  | varNotFound (var : String)
deriving DecidableEq, Repr

/-- A part of the compiler: it works on the assembly that is built. -/
abbrev Builder (α : Type) := Prog Assembly BuildError α

/-! ### Tables -/

section Tables

variable [AssemblyBuilder]

def addString (s : String) : Builder StringRef := fun a =>
  (.ok (AssemblyBuilder.addString s a.strings).1, { a with strings := (AssemblyBuilder.addString s a.strings).2 })

def addTypeRef (r : TypeRef) : Builder UInt32 := fun a =>
  (.ok (AssemblyBuilder.addTypeRef r a.typeRefs).1,
    { a with typeRefs := (AssemblyBuilder.addTypeRef r a.typeRefs).2 })

end Tables

/-- Push an entry; the index is that of the last entry, cut to 32 bits. -/
def pushTypeSpec (spec : TypeSpec) : Builder TypeToken := do
  modify fun a => { a with typeSpecs := a.typeSpecs ++ [spec] }
  let a ← get
  pure ⟨.typeSpec, UInt32.ofNat (a.typeSpecs.length - 1)⟩

/-- Push an entry; the index is that of the last entry, cut to 32 bits. -/
def pushMethodSpec (spec : MethodSpec) : Builder MethodToken := do
  modify fun a => { a with methodSpecs := a.methodSpecs ++ [spec] }
  let a ← get
  pure ⟨.methodSpec, UInt32.ofNat (a.methodSpecs.length - 1)⟩

/-! ### Types -/

section References

variable [CompilerService] [AssemblyBuilder]

/-- What the service knows about a type. -/
def resolveTypeReference : TypeReference → Option TypeInformation
  | .common assemblyName name index generics =>
    (CompilerService.query
      { assemblyName := some assemblyName, genericCount := some (UInt32.ofNat generics.length),
        typeName := some name, tryDecorate := false, exact := true, index }).getLast?
  | .methodGeneric .. => none
  | .typeGeneric .. => none

/-- The identifier of a named type: the one that is written, or else the one the service knows. -/
def TypeReference.id? (r : TypeReference) : Option UInt32 :=
  match r with
  | .common _ _ index _ => index.or ((resolveTypeReference r).map (·.id))
  | .methodGeneric .. => none
  | .typeGeneric .. => none

mutual

def compileTypeReference : TypeReference → Builder TypeToken
  | .common assemblyName name index generics => do
    let id ← okOr (.typeNotFound (.common assemblyName name index generics))
      (TypeReference.id? (.common assemblyName name index generics))
    if assemblyName = CompilerService.assemblyName ∧ generics.isEmpty then
      pure ⟨.typeDef, id⟩
    -- a type with arguments is referred to like one of another assembly, also when it is of this one
    else do
      let assembly ← addString assemblyName
      let typeRef ← addTypeRef ⟨assembly, id⟩
      if generics.isEmpty then pure ⟨.typeRef, typeRef⟩
      else do
        let generics ← compileTypeReferences generics
        pushTypeSpec ⟨⟨.typeRef, typeRef⟩, generics⟩
  | .methodGeneric _ index => pure ⟨.methodGeneric, index⟩
  | .typeGeneric _ index => pure ⟨.typeGeneric, index⟩

def compileTypeReferences : List TypeReference → Builder (List TypeToken)
  | [] => pure []
  | r :: rs => do
    let token ← compileTypeReference r
    let tokens ← compileTypeReferences rs
    pure (token :: tokens)

end

theorem compileTypeReferences_eq (rs : List TypeReference) :
    compileTypeReferences rs = rs.mapM compileTypeReference := by
  induction rs with
  | nil => rfl
  | cons r rs ih => rw [compileTypeReferences, ih, List.mapM_cons]

/-! ### Fields and methods -/

/-- The identifier of a field: the one that is written, or else that of the first field with this name. -/
def FieldReference.lookup (container : Option TypeInformation) (isStatic : Bool) : FieldReference → Option UInt32
  | byIndex x => some x
  | byName rr => do
    let container ← container
    (container.fields.find? fun x => x.name == rr.var && x.attr.static == isStatic).map (·.id)

/-- The identifier of a method: the one that is written, or else that of the first method with this name. -/
def ItemRef.lookup (container : Option TypeInformation) (isStatic : Bool) : ItemRef → Option UInt32
  | byIndex index => some index
  | byName rr => do
    let container ← container
    (container.methods.find? fun x => x.name == rr.var && x.isStatic == isStatic).map (·.id)

def compileFieldReference (container : Option TypeInformation) (isStatic : Bool) (r : FieldReference) :
    Builder UInt32 :=
  okOr (.fieldNotFound r) (r.lookup container isStatic)

def compileMethodReference (container : Option TypeInformation) (isStatic : Bool) (r : MethodReference) :
    Builder MethodToken := do
  let index ← okOr (.methodNotFound r) (r.index.lookup container isStatic)
  if r.generics.isEmpty then pure ⟨.method, index⟩
  else do
    let generics ← r.generics.mapM compileTypeReference
    pushMethodSpec ⟨index, generics⟩

/-- What compiling a reference to a method can do. -/
theorem compileMethodReference_cases {container : Option TypeInformation} {isStatic : Bool} {r : MethodReference}
    {a a' : Assembly} {token : MethodToken} (h : compileMethodReference container isStatic r a = (.ok token, a')) :
    ∃ k, r.index.lookup container isStatic = some k ∧
      (r.generics = [] ∧ token = ⟨.method, k⟩ ∧ a' = a ∨
        r.generics ≠ [] ∧ token.ty = .methodSpec ∧ ∃ tokens, a'.methodSpecs.getLast? = some ⟨k, tokens⟩) := by
  obtain ⟨k, a₁, hok, hrun⟩ := bind_eq_ok.1 h
  obtain ⟨hk, rfl⟩ := okOr_eq_ok.1 hok
  refine ⟨k, hk, ?_⟩
  split at hrun
  · rename_i hempty
    cases hrun
    exact Or.inl ⟨List.isEmpty_iff.1 hempty, rfl, rfl⟩
  · rename_i hempty
    obtain ⟨tokens, a₂, -, hpush⟩ := bind_eq_ok.1 hrun
    cases hpush
    exact Or.inr ⟨fun hnil => hempty (List.isEmpty_iff.2 hnil), rfl, tokens, List.getLast?_concat⟩

def compileField (field : Field) : Builder Binary.Field := do
  let name ← addString field.name.var
  let ty ← compileTypeReference field.ty
  pure { name, attr := field.attr, ty }

end References

end PuralinguaIR
