import PuralinguaIR.BuildRuns
import PuralinguaIR.MethodPanics

/-!
# What can be built

A build succeeds exactly when every type has the number of its place and can be built: its methods have the numbers
they must have, everything it refers to resolves, and its methods implement only first methods of interfaces
(`TypeDef.Buildable`). So neither the assembly that is built upon nor the order of a hash map decides whether a
build succeeds (`Compiler.buildImpl_ok_iff`).
-/

namespace PuralinguaIR

open Effect Effect.Prog

section Building

variable [CompilerService]

/-! ### Conditions -/

/-- What comes behind the check of its number can be compiled. -/
structure Method.Buildable (currentTy : TypeInformation) (m : Method) : Prop where
  impl : m.ImplResolves
  header : m.HeaderResolves
  parts : m.PartsResolve currentTy

/-- A method on its own, at its place: no overriding methods are counted before it. -/
structure Method.BuildableAt (currentTy : TypeInformation) (ind : Nat) (m : Method) : Prop
    extends m.Buildable currentTy where
  index : m.attr.overrides = none → expectedIndex currentTy (UInt32.ofNat ind) 0 = some m.index

/-- A class whose tables can be written out: they have no key but `0`. -/
structure ClassDef.Buildable (d : ClassDef) : Prop extends d.Resolves where
  tables : ∀ m ∈ d.methods, ∀ ty r, m.impl = some (ty, r) → r.index.lookup (resolveTypeReference ty) false = some 0

structure StructDef.Buildable (d : StructDef) : Prop where
  methods : ∀ (ind : Nat) (m : Method), d.methods[ind]? = some m → m.BuildableAt d.toAbstract ind
  fields : ∀ f ∈ d.fields, f.ty.Resolves

structure InterfaceDef.Buildable (d : InterfaceDef) : Prop where
  requiredInterfaces : ∀ r ∈ d.requiredInterfaces, r.Resolves
  methods : ∀ (ind : Nat) (m : Method), d.methods[ind]? = some m → m.BuildableAt d.toAbstract ind

def TypeDef.Buildable : TypeDef → Prop
  | .class d => d.Buildable
  | .struct d => d.Buildable
  | .interface d => d.Buildable

variable [AssemblyBuilder] {currentTy : TypeInformation} {m : Method}

/-! ### Methods -/

private theorem buildable_ok (currentTy : TypeInformation) (m : Method) :
    OkIff (implement m >>= fun _ => onAssembly (compileMethodBody currentTy m)) (m.Buildable currentTy) :=
  (OkIff.of_ends (rest_ends currentTy m)).congr
    ⟨fun ⟨h₁, h₂, h₃⟩ => ⟨h₁, h₂, h₃⟩, fun h => ⟨h.impl, h.header, h.parts⟩⟩

/-- A method that has been compiled could be. -/
theorem compileMethod_buildable {i : UInt32} {s s' : TypeState} {bm : Binary.Method}
    (h : compileMethod currentTy i m s = (.ok bm, s')) : m.Buildable currentTy := by
  obtain ⟨_, s₁, -, h⟩ := bind_eq_ok.1 h
  exact (buildable_ok currentTy m).of_run h

private theorem compileMethod_run_ok (ind : Nat) (m : Method) :
    OkIff (compileMethod currentTy (UInt32.ofNat ind) m).run (m.BuildableAt currentTy ind) := by
  intro a
  constructor
  · rintro ⟨bm, a', h⟩
    obtain ⟨s, hs, -⟩ := TypeBuilder.run_eq_ok.1 h
    refine ⟨compileMethod_buildable hs, fun hnone => ?_⟩
    obtain ⟨_, s₁, hcheck, -⟩ := bind_eq_ok.1 hs
    rcases checkIndex_eq_ok.1 hcheck with ⟨-, hindex, -⟩ | ⟨⟨slot, hsome⟩, -⟩
    · exact hindex
    · rw [hnone] at hsome
      cases hsome
  · intro h
    have hcheck : ∃ s₁, checkIndex currentTy (UInt32.ofNat ind) m ⟨a, [], 0⟩ = (.ok (), s₁) := by
      cases hover : m.attr.overrides with
      | none => exact ⟨_, checkIndex_eq_ok.2 (.inl ⟨hover, h.index hover, rfl⟩)⟩
      | some slot => exact ⟨_, checkIndex_eq_ok.2 (.inr ⟨⟨slot, hover⟩, 1, rfl, rfl⟩)⟩
    obtain ⟨s₁, hcheck⟩ := hcheck
    obtain ⟨bm, s₂, hrest⟩ := (buildable_ok currentTy m s₁).2 h.toBuildable
    exact ⟨bm, s₂.assembly, TypeBuilder.run_eq_ok.2 ⟨s₂, bind_step hcheck hrest, rfl⟩⟩

theorem compileMethodsAlone_ok (currentTy : TypeInformation) (methods : List Method) :
    OkIff (compileMethodsAlone currentTy methods)
      (∀ (ind : Nat) (m : Method), methods[ind]? = some m → m.BuildableAt currentTy ind) := by
  have hmapM : OkIff (compileMethodsAlone currentTy methods)
      (∀ x ∈ methods.zipIdx, x.1.BuildableAt currentTy x.2) :=
    .mapM fun x _ => compileMethod_run_ok x.2 x.1
  refine hmapM.congr ⟨fun h ind m hm => ?_, fun h x hx => ?_⟩
  · exact h (m, ind) (List.mk_mem_zipIdx_iff_getElem?.2 hm)
  · exact h x.2 x.1 (List.mem_zipIdx_iff_getElem?.1 hx)

/-! ### Types -/

private theorem compileField_ok (f : Field) : OkIff (compileField f) f.ty.Resolves := by
  refine ((OkIff.of_succeeds (addString_succeeds f.name.var)).bind fun _ => ?_).congr (by rw [true_and])
  exact (OkIff.of_ends (compileTypeReference_ends f.ty)).bind_pure _

theorem compileStruct_ok (d : StructDef) : OkIff (compileStruct d) d.Buildable := by
  have hfields : OkIff (d.fields.mapM compileField) (∀ f ∈ d.fields, f.ty.Resolves) :=
    .mapM fun f _ => compileField_ok f
  refine ((OkIff.of_succeeds (addString_succeeds d.name.var)).bind fun _ =>
    (compileMethodsAlone_ok d.toAbstract d.methods).bind fun _ => hfields.bind_pure _).congr ?_
  exact ⟨fun ⟨_, hmethods, hfields⟩ => ⟨hmethods, hfields⟩, fun h => ⟨trivial, h.methods, h.fields⟩⟩

theorem compileInterface_ok (d : InterfaceDef) : OkIff (compileInterface d) d.Buildable := by
  have hrequired : OkIff (d.requiredInterfaces.mapM compileTypeReference)
      (∀ r ∈ d.requiredInterfaces, r.Resolves) :=
    .mapM fun r _ => .of_ends (compileTypeReference_ends r)
  refine ((OkIff.of_succeeds (addString_succeeds d.name.var)).bind fun _ =>
    hrequired.bind fun _ => (compileMethodsAlone_ok d.toAbstract d.methods).bind_pure _).congr ?_
  exact ⟨fun ⟨_, hrequired, hmethods⟩ => ⟨hrequired, hmethods⟩, fun h =>
    ⟨trivial, h.requiredInterfaces, h.methods⟩⟩

omit [AssemblyBuilder] in
/-- A method of a class that has been compiled resolves, the interface of its clause because its table has been
written out. -/
private theorem method_resolves {m : Method} (hm : m.Buildable currentTy)
    (hinterface : ∀ ty r, m.impl = some (ty, r) → ty.Resolves) : m.Resolves currentTy where
  localTypes := hm.header.localTypes
  args := hm.header.args
  returnType := hm.header.returnType
  impl ty r himpl := by
    obtain ⟨hlookup, hgenerics⟩ := hm.impl (ty, r) himpl
    exact ⟨hinterface ty r himpl, hgenerics, hlookup⟩
  statements := hm.parts.statements
  exceptionTable := hm.parts.exceptionTable

/-- The interface of a method has a table, which has been written out. -/
private theorem interface_resolves {tables : Implementations} {methods : List Method}
    (hfiles : tables.Files methods)
    {order : EntryOrder} {interfaces : List Binary.InterfaceImplementation} {a a' : Assembly}
    (h : (order.entries tables).mapM compileImplementation a = (.ok interfaces, a')) {m : Method}
    (hm : m ∈ methods)
    (hlookup : m.ImplResolves) {ty : TypeReference} {r : MethodReference} (himpl : m.impl = some (ty, r)) :
    ty.Resolves := by
  obtain ⟨k, hk⟩ := Option.isSome_iff_exists.1 (hlookup (ty, r) himpl).1
  have hentry : (k, m.index) ∈ implementing ty methods := mem_implementing.2 ⟨m, hm, r, himpl, hk, rfl⟩
  obtain ⟨map, hmem, -⟩ := hfiles.keys.2 ⟨_, hentry, rfl⟩
  obtain ⟨table, -, s₁, s₂, htable⟩ :=
    exists_of_forall₂ (forall₂_of_mapM h) ((order.entries_perm tables).mem_iff.2 hmem)
  exact compileTypeReference_resolves (compileImplementation_eq_ok htable).2.2

theorem compileClass_ok (order : EntryOrder) (d : ClassDef) : OkIff (compileClass order d) d.Buildable := by
  intro a
  constructor
  · rintro ⟨bd, a', h⟩
    obtain ⟨mk, s, hhead, interfaces, hinterfaces, -⟩ := compileClass_eq_ok.1 h
    obtain ⟨-, hfiles, hnumbered, -, -⟩ := compileClassHead_eq_ok hhead
    obtain ⟨name, s₁, -, hhead⟩ := bind_eq_ok.1 hhead
    obtain ⟨parent, s₂, hparent, hhead⟩ := bind_eq_ok.1 hhead
    obtain ⟨methodTable, s₃, hmethods, hhead⟩ := bind_eq_ok.1 hhead
    obtain ⟨fields, s₄, hfields, -⟩ := bind_eq_ok.1 hhead
    have hbuildable : ∀ m ∈ d.methods, m.Buildable d.toAbstract := by
      intro m hm
      obtain ⟨i, hi⟩ := List.mem_iff_getElem?.1 hm
      obtain ⟨bm, -, t₁, t₂, hrun⟩ :=
        exists_of_forall₂ (forall₂_of_mapM hmethods) (List.mk_mem_zipIdx_iff_getElem?.2 hi)
      exact compileMethod_buildable hrun
    have hresolves : ∀ m ∈ d.methods, m.Resolves d.toAbstract := fun m hm =>
      method_resolves (hbuildable m hm) fun _ _ => interface_resolves hfiles hinterfaces hm (hbuildable m hm).impl
    have hparent' : OkIff (d.parent.mapM compileTypeReference) (∀ r ∈ d.parent, r.Resolves) :=
      .of_ends (.optionMapM fun r _ => compileTypeReference_ends r)
    have hfields' : OkIff (d.fields.mapM compileField) (∀ f ∈ d.fields, f.ty.Resolves) :=
      .mapM fun f _ => compileField_ok f
    exact ⟨⟨hparent'.of_run (onAssembly_run hparent).1, checkIndices_iff.1 hnumbered, hresolves,
      hfields'.of_run (onAssembly_run hfields).1⟩, implements_first hresolves hfiles hinterfaces⟩
  · intro h
    obtain ⟨mk, s, hhead, -, hfiles⟩ := compileClassHead_succeeds h.toResolves a
    obtain ⟨interfaces, a', hinterfaces⟩ := tables_succeed h.methods hfiles h.tables order s.assembly
    exact ⟨mk interfaces, a', compileClass_eq_ok.2 ⟨mk, s, hhead, interfaces, hinterfaces, rfl⟩⟩

theorem compileType_ok (order : EntryOrder) (t : TypeDef) : OkIff (compileType order t) t.Buildable := by
  have hpush (bt : Binary.TypeDef) : OkIff (pushTypeDef bt) True := .of_succeeds fun a => ⟨(), _, rfl⟩
  cases t with
  | «class» d => exact ((compileClass_ok order d).bind fun bd => hpush (.class bd)).congr (by rw [and_true]; rfl)
  | struct d => exact ((compileStruct_ok d).bind fun bd => hpush (.struct bd)).congr (by rw [and_true]; rfl)
  | interface d =>
    exact ((compileInterface_ok d).bind fun bd => hpush (.interface bd)).congr (by rw [and_true]; rfl)

/-! ### The build -/

omit [CompilerService] [AssemblyBuilder] in
theorem checkTypeIndex_ok (lastIndex : UInt32) (ind : Nat) (t : TypeDef) :
    OkIff (checkTypeIndex lastIndex ind t) (checkedAdd (UInt32.ofNat ind) lastIndex = some t.index) := by
  unfold checkTypeIndex
  cases checkedAdd (UInt32.ofNat ind) lastIndex with
  | none => exact fun a => iff_of_false (fun ⟨_, _, h⟩ => nomatch h) nofun
  | some expected =>
    rw [unwrap_some, pure_bind, Option.some.injEq]
    split
    · rename_i heq
      exact fun a => iff_of_true ⟨(), a, rfl⟩ heq
    · rename_i hne
      exact fun a => iff_of_false (fun ⟨_, _, h⟩ => nomatch h) hne

omit [AssemblyBuilder] in
/-- The type has the number of the place and can be built. -/
def Compiler.BuildableAt (c : Compiler) (i : Nat) (t : TypeDef) : Prop :=
  checkedAdd (UInt32.ofNat i) (c.lastIndex.getD 0) = some t.index ∧ t.Buildable

omit [AssemblyBuilder] in
/-- Every loaded type has the number of its place and can be built. -/
def Compiler.Buildable (c : Compiler) : Prop := ∀ i t, c.file.types[i]? = some t → c.BuildableAt i t

theorem buildType_ok (order : EntryOrder) (c : Compiler) (i : Nat) (t : TypeDef) :
    OkIff (checkTypeIndex (c.lastIndex.getD 0) i t >>= fun _ => compileType order t) (c.BuildableAt i t) :=
  (checkTypeIndex_ok _ i t).bind fun _ => compileType_ok order t

theorem Compiler.buildImpl_ok (orders : Nat → EntryOrder) (c : Compiler) :
    OkIff (c.buildImpl orders) c.Buildable := by
  have hbuild : OkIff (c.buildImpl orders) (∀ x ∈ c.file.types.zipIdx, c.BuildableAt x.2 x.1) :=
    .forM fun x _ => buildType_ok (orders x.2) c x.2 x.1
  refine hbuild.congr ⟨fun h i t ht => ?_, fun h x hx => ?_⟩
  · exact h (t, i) (List.mk_mem_zipIdx_iff_getElem?.2 ht)
  · exact h x.2 x.1 (List.mem_zipIdx_iff_getElem?.1 hx)

/-- Whether a build succeeds depends neither on the assembly it builds upon nor on the order in which the tables
come: it does exactly when every type has the number of its place and can be built. -/
theorem Compiler.buildImpl_ok_iff {c : Compiler} {orders : Nat → EntryOrder} {a : Assembly} :
    (∃ a', c.buildImpl orders a = (.ok (), a')) ↔ c.Buildable :=
  (Compiler.buildImpl_ok orders c).unit a

end Building

end PuralinguaIR
