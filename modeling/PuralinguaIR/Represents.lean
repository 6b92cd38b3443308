import PuralinguaIR.BuildRuns
import PuralinguaIR.Emits
import PuralinguaIR.ExceptionRanges

/-!
# What the built assembly represents

The definition a type is compiled to says what the type says: names are those of the table of strings, each
token means the type or the method of the reference in its place, instructions have the operands and the
references of their statements, ranges are the written ones, and a table of an interface holds the methods that
are filed for it (`TypeDef.RepresentedBy`). The build represents every type as the compiler looks names up; it
represents the type as it is declared exactly when the two ways to look names up agree in all its statements
(`Compiler.buildImpl_represents`).
-/

namespace PuralinguaIR

open Effect Effect.Prog

/-! ### References of statements and instructions -/

/-- Where a name is looked up that a statement uses for a variable: the type with the field that is written, and
the type with the method an interface is called for. -/
structure Lookups where
  fieldIn : TypeInformation → Method → Identifier → Option TypeInformation
  methodIn : Method → Identifier → TypeReference → Option TypeInformation

/-- Where the compiler looks: in the current type, and in the type of the value. -/
def Lookups.compiled [CompilerService] : Lookups where
  fieldIn currentTy _ _ := some currentTy
  methodIn m val _ := resolveVariableType val m

/-- Where the names are declared: in the type of the container, and in the interface. -/
def Lookups.declared [CompilerService] : Lookups where
  fieldIn _ m container := resolveVariableType container m
  methodIn _ _ interface := resolveTypeReference interface

/-- A reference, with the type in which its name is looked up. -/
inductive Reference where
  | type (r : TypeReference)
  | method (container : Option TypeInformation) (isStatic : Bool) (r : MethodReference)
  | field (container : Option TypeInformation) (isStatic : Bool) (r : FieldReference)

/-- What a reference is compiled to. -/
inductive CompiledReference where
  | type (token : TypeToken)
  | method (token : MethodToken)
  | field (id : UInt32)

section References

variable [CompilerService]

def LoadableContent.references (m : Method) : LoadableContent → List Reference
  | static ty f => [.type ty, .field (resolveTypeReference ty) Bool.true f]
  | field container f => [.field (resolveVariableType container m) Bool.false f]
  | size ty => [.type ty]
  | _ => []

/-- The references of a statement, in the order of its instruction. -/
def Statement.references (l : Lookups) (currentTy : TypeInformation) (m : Method) : Statement → List Reference
  | load content _ => content.references m
  | newObject ty ctor _ _ => [.type ty, .method (resolveTypeReference ty) false ctor]
  | newArray ty _ _ => [.type ty]
  | instanceCall val method _ _ => [.method (resolveVariableType val m) false method]
  | staticCall ty method _ _ => [.type ty, .method (resolveTypeReference ty) true method]
  | interfaceCall val interface method _ _ => [.type interface, .method (l.methodIn m val interface) false method]
  | setField _ container field => [.field (l.fieldIn currentTy m container) false field]
  | setThisField _ field => [.field (some currentTy) false field]
  | setStaticField _ ty field => [.type ty, .field (resolveTypeReference ty) true field]
  | _ => []

end References

def LoadContent.references : LoadContent → List CompiledReference
  | static ty f => [.type ty, .field f]
  | field _ f => [.field f]
  | typeValueSize ty => [.type ty]
  | _ => []

def Instruction.references : Instruction → List CompiledReference
  | load _ content => content.references
  | new (.newObject ty ctor _ _) => [.type ty, .method ctor]
  | new (.newArray ty _ _) => [.type ty]
  | new (.newDynamicArray ty _ _) => [.type ty]
  | call (.instanceCall _ method _ _) => [.method method]
  | call (.staticCall ty method _ _) => [.type ty, .method method]
  | call (.interfaceCall interface _ method _ _) => [.type interface, .method method]
  | set (.common _ _ field) => [.field field]
  | set (.this _ field) => [.field field]
  | set (.static _ ty field) => [.type ty, .field field]
  | _ => []

/-! ### Representation -/

section Representation

variable [CompilerService] (a : Assembly) (l : Lookups) (currentTy : TypeInformation) (m : Method)

/-- A token means what the reference means. -/
def TypeReference.RepresentedBy (r : TypeReference) (token : TypeToken) : Prop :=
  ∃ t, r.resolve = some t ∧ DecodesType a token t

/-- A reference and what it is compiled to have one meaning. -/
inductive Reference.RepresentedBy : Reference → CompiledReference → Prop where
  | type {r token} : TypeReference.RepresentedBy a r token → RepresentedBy (.type r) (.type token)
  | method {container isStatic token t} {r : MethodReference} : r.resolve container isStatic = some t →
      DecodesMethod a token t → RepresentedBy (.method container isStatic r) (.method token)
  | field {container isStatic id} {r : FieldReference} : r.lookup container isStatic = some id →
      RepresentedBy (.field container isStatic r) (.field id)

/-- An instruction has the operands and the references of its statement. -/
structure Statement.RepresentedBy (s : Statement) (i : Instruction) : Prop where
  operands : s.Translates m a.strings i
  references : List.Forall₂ (Reference.RepresentedBy a) (s.references l currentTy m) i.references

/-- The method a filter calls. -/
structure filterRepresentedBy (f : TypeReference × MethodReference) (bf : TypeToken × MethodToken) : Prop where
  container : f.1.RepresentedBy a bf.1
  method : Reference.RepresentedBy a (.method (resolveTypeReference f.1) true f.2) (.method bf.2)

/-- A range of the code with its handlers, the type it handles and the filter. -/
structure ExceptionTableEntry.RepresentedBy (e : ExceptionTableEntry) (be : Binary.ExceptionTableEntry) :
    Prop where
  ranges : e.Exact be
  exceptionType : e.exceptionType.RepresentedBy a be.exceptionType
  filter : Option.Rel (filterRepresentedBy a) e.filter be.filter

structure Parameter.RepresentedBy (p : Parameter) (bp : Binary.Parameter) : Prop where
  attr : bp.attr = p.attr
  ty : p.ty.RepresentedBy a bp.ty

structure Method.RepresentedBy (bm : Binary.Method) : Prop where
  name : a.strings[bm.name.index]? = some m.name.var
  attr : bm.attr = { m.attr with localVariableTypes := bm.attr.localVariableTypes }
  localVariableTypes :
    List.Forall₂ (TypeReference.RepresentedBy a) m.attr.localVariableTypes bm.attr.localVariableTypes
  genericCount : bm.genericCountRequirement = genericCountRequirement m.generics m.isGenericInfinite
  args : List.Forall₂ (Parameter.RepresentedBy a) m.args bm.args
  returnType : m.returnType.RepresentedBy a bm.returnType
  callConvention : bm.callConvention = m.callConv
  instructions : List.Forall₂ (Statement.RepresentedBy a l currentTy m) m.statements bm.instructions
  exceptionTable : List.Forall₂ (ExceptionTableEntry.RepresentedBy a) m.exceptionTable bm.exceptionTable

structure Field.RepresentedBy (f : Field) (bf : Binary.Field) : Prop where
  name : a.strings[bf.name.index]? = some f.name.var
  attr : bf.attr = f.attr
  ty : f.ty.RepresentedBy a bf.ty

/-- The table of an interface, with the numbers of the methods filed for it; none is filed for a slot but `0`. -/
structure tableRepresentedBy (entry : TypeReference × SortedMap UInt32 UInt32)
    (table : Binary.InterfaceImplementation) : Prop where
  target : entry.1.RepresentedBy a table.target
  keys : ∀ e ∈ entry.2.entries, e.1 = 0
  map : table.map = entry.2.entries.map Prod.snd

structure ClassDef.RepresentedBy (d : ClassDef) (bd : Binary.ClassDef) : Prop where
  main : bd.main = d.main
  name : a.strings[bd.name.index]? = some d.name.var
  attr : bd.attr = d.attr
  genericCount : bd.genericCountRequirement = genericCountRequirement d.generics d.isGenericInfinite
  parent : Option.Rel (TypeReference.RepresentedBy a) d.parent bd.parent
  methodTable : List.Forall₂ (Method.RepresentedBy a l d.toAbstract) d.methods bd.methodTable
  fields : List.Forall₂ (Field.RepresentedBy a) d.fields bd.fields
  interfaces : ∃ tables : Implementations, tables.Files d.methods ∧
    List.Forall₂ (tableRepresentedBy a) tables bd.interfaces

/-- A struct; the methods of interfaces that its methods implement are left out. -/
structure StructDef.RepresentedBy (d : StructDef) (bd : Binary.StructDef) : Prop where
  name : a.strings[bd.name.index]? = some d.name.var
  attr : bd.attr = d.attr
  genericCount : bd.genericCountRequirement = genericCountRequirement d.generics d.isGenericInfinite
  methodTable : List.Forall₂ (Method.RepresentedBy a l d.toAbstract) d.methods bd.methodTable
  fields : List.Forall₂ (Field.RepresentedBy a) d.fields bd.fields

structure InterfaceDef.RepresentedBy (d : InterfaceDef) (bd : Binary.InterfaceDef) : Prop where
  name : a.strings[bd.name.index]? = some d.name.var
  attr : bd.attr = d.attr
  genericCount : bd.genericCountRequirement = genericCountRequirement d.generics d.isGenericInfinite
  requiredInterfaces : List.Forall₂ (TypeReference.RepresentedBy a) d.requiredInterfaces bd.requiredInterfaces
  methodTable : List.Forall₂ (Method.RepresentedBy a l d.toAbstract) d.methods bd.methodTable

/-- A definition that says what the type says. -/
inductive TypeDef.RepresentedBy : TypeDef → Binary.TypeDef → Prop where
  | «class» {d bd} : ClassDef.RepresentedBy a l d bd → RepresentedBy (.class d) (.class bd)
  | struct {d bd} : StructDef.RepresentedBy a l d bd → RepresentedBy (.struct d) (.struct bd)
  | interface {d bd} : InterfaceDef.RepresentedBy a l d bd → RepresentedBy (.interface d) (.interface bd)

end Representation

/-! ### What is represented stays represented -/

section Lasting

variable [CompilerService] {l : Lookups} {currentTy : TypeInformation} {m : Method}

omit [CompilerService] in
theorem addString_lasts (s : String) : Lasts Assembly.Extends fun a (ref : StringRef) =>
    a.strings[ref.index]? = some s :=
  fun _ _ _ h hs => getElem?_of_isPrefix h.strings hs

theorem TypeReference.RepresentedBy.lasts (r : TypeReference) :
    Lasts Assembly.Extends fun a token => r.RepresentedBy a token :=
  fun _ _ _ h ⟨t, ht, hd⟩ => ⟨t, ht, (hd.iff_of_extends h t).2 rfl⟩

theorem Reference.RepresentedBy.lasts (r : Reference) :
    Lasts Assembly.Extends fun a c => Reference.RepresentedBy a r c := by
  intro a a' c h hr
  cases hr with
  | type hr => exact .type (TypeReference.RepresentedBy.lasts _ _ _ _ h hr)
  | method hr hd => exact .method hr ((hd.iff_of_extends h _).2 rfl)
  | field hr => exact .field hr

theorem Statement.RepresentedBy.lasts (s : Statement) :
    Lasts Assembly.Extends fun a i => s.RepresentedBy a l currentTy m i :=
  fun a a' _ h hs => ⟨hs.operands.mono h.strings,
    Lasts.forall₂ Reference.RepresentedBy.lasts _ a a' _ h hs.references⟩

theorem filterRepresentedBy.lasts (f : TypeReference × MethodReference) :
    Lasts Assembly.Extends fun a bf => filterRepresentedBy a f bf :=
  fun a a' _ h hf => ⟨TypeReference.RepresentedBy.lasts _ a a' _ h hf.container,
    Reference.RepresentedBy.lasts _ a a' _ h hf.method⟩

theorem ExceptionTableEntry.RepresentedBy.lasts (e : ExceptionTableEntry) :
    Lasts Assembly.Extends fun a be => e.RepresentedBy a be :=
  fun a a' _ h he => ⟨he.ranges, TypeReference.RepresentedBy.lasts _ a a' _ h he.exceptionType,
    Lasts.rel filterRepresentedBy.lasts _ a a' _ h he.filter⟩

theorem Parameter.RepresentedBy.lasts (p : Parameter) : Lasts Assembly.Extends fun a bp => p.RepresentedBy a bp :=
  fun a a' _ h hp => ⟨hp.attr, TypeReference.RepresentedBy.lasts _ a a' _ h hp.ty⟩

theorem Field.RepresentedBy.lasts (f : Field) : Lasts Assembly.Extends fun a bf => f.RepresentedBy a bf :=
  fun a a' _ h hf => ⟨addString_lasts _ a a' _ h hf.name, hf.attr,
    TypeReference.RepresentedBy.lasts _ a a' _ h hf.ty⟩

theorem Method.RepresentedBy.lasts (m : Method) :
    Lasts Assembly.Extends fun a bm => m.RepresentedBy a l currentTy bm := by
  intro a a' bm h hm
  refine { hm with
    name := addString_lasts _ a a' _ h hm.name
    localVariableTypes := ?_
    args := ?_
    returnType := TypeReference.RepresentedBy.lasts _ a a' _ h hm.returnType
    instructions := ?_
    exceptionTable := ?_ }
  · exact Lasts.forall₂ TypeReference.RepresentedBy.lasts _ a a' _ h hm.localVariableTypes
  · exact Lasts.forall₂ Parameter.RepresentedBy.lasts _ a a' _ h hm.args
  · exact Lasts.forall₂ Statement.RepresentedBy.lasts _ a a' _ h hm.instructions
  · exact Lasts.forall₂ ExceptionTableEntry.RepresentedBy.lasts _ a a' _ h hm.exceptionTable

theorem tableRepresentedBy.lasts (entry : TypeReference × SortedMap UInt32 UInt32) :
    Lasts Assembly.Extends fun a table => tableRepresentedBy a entry table :=
  fun a a' _ h ht => ⟨TypeReference.RepresentedBy.lasts _ a a' _ h ht.target, ht.keys, ht.map⟩

/-- A represented table read at a slot gives the method that is filed for it. -/
theorem tableRepresentedBy.slot_iff {a : Assembly} {entry : TypeReference × SortedMap UInt32 UInt32}
    {table : Binary.InterfaceImplementation} (h : tableRepresentedBy a entry table) (k v : UInt32) :
    table.map[k.toNat]? = some v ↔ (k, v) ∈ entry.2.entries := by
  rw [h.map]
  rcases SortedMap.entries_of_single_key h.keys with hentries | ⟨w, hentries⟩
  · simp [hentries]
  · rw [hentries, List.map_singleton, List.mem_singleton, Prod.mk.injEq]
    constructor
    · intro hget
      obtain ⟨hlt, hv⟩ := List.getElem?_eq_some_iff.1 hget
      have hk : k.toNat = 0 := by simpa using hlt
      exact ⟨UInt32.toNat_inj.1 hk, by simpa [hk] using hv.symm⟩
    · rintro ⟨rfl, rfl⟩
      rfl

theorem TypeDef.RepresentedBy.lasts (t : TypeDef) : Lasts Assembly.Extends fun a bt => t.RepresentedBy a l bt := by
  intro a a' bt h ht
  cases ht with
  | «class» hd =>
    obtain ⟨tables, hfiles, htables⟩ := hd.interfaces
    refine .class { hd with
      name := addString_lasts _ a a' _ h hd.name
      parent := Lasts.rel TypeReference.RepresentedBy.lasts _ a a' _ h hd.parent
      methodTable := Lasts.forall₂ Method.RepresentedBy.lasts _ a a' _ h hd.methodTable
      fields := Lasts.forall₂ Field.RepresentedBy.lasts _ a a' _ h hd.fields
      interfaces := ⟨tables, hfiles, ?_⟩ }
    exact Lasts.forall₂ tableRepresentedBy.lasts _ a a' _ h htables
  | struct hd =>
    exact .struct { hd with
      name := addString_lasts _ a a' _ h hd.name
      methodTable := Lasts.forall₂ Method.RepresentedBy.lasts _ a a' _ h hd.methodTable
      fields := Lasts.forall₂ Field.RepresentedBy.lasts _ a a' _ h hd.fields }
  | interface hd =>
    exact .interface { hd with
      name := addString_lasts _ a a' _ h hd.name
      requiredInterfaces := Lasts.forall₂ TypeReference.RepresentedBy.lasts _ a a' _ h hd.requiredInterfaces
      methodTable := Lasts.forall₂ Method.RepresentedBy.lasts _ a a' _ h hd.methodTable }

end Lasting

/-! ### What is compiled is represented -/

/-- The values of a part of the compiler satisfy `V`, if an index holds every position of the tables. -/
abbrev Compiles {α : Type} (p : Builder α) (V : Assembly → α → Prop) : Prop :=
  Emits Assembly.Extends Assembly.Addressable p V

instance : Bounds Assembly.Extends Assembly.Addressable := ⟨fun _ _ h hs => hs.of_extends h⟩

section Compiling

variable [CompilerService] [AssemblyBuilder] {currentTy : TypeInformation} {m : Method}

omit [CompilerService] in
theorem addString_compiles (s : String) : Compiles (addString s) fun a ref => a.strings[ref.index]? = some s :=
  ⟨addString_keeps s, fun _ _ _ h _ => addString_get h⟩

theorem compileTypeReference_compiles (r : TypeReference) :
    Compiles (compileTypeReference r) fun a token => r.RepresentedBy a token :=
  ⟨compileTypeReference_keeps r, fun _ _ _ h ha => compileTypeReference_decodes h ha⟩

theorem compileMethodReference_compiles (container : Option TypeInformation) (isStatic : Bool)
    (r : MethodReference) : Compiles (compileMethodReference container isStatic r) fun a token =>
      Reference.RepresentedBy a (.method container isStatic r) (.method token) := by
  refine ⟨compileMethodReference_keeps container isStatic r, fun _ _ _ h ha => ?_⟩
  obtain ⟨t, ht, hd⟩ := compileMethodReference_decodes h ha
  exact .method ht hd

omit [AssemblyBuilder] in
theorem compileFieldReference_compiles (container : Option TypeInformation) (isStatic : Bool)
    (r : FieldReference) : Compiles (compileFieldReference container isStatic r) fun a id =>
      Reference.RepresentedBy a (.field container isStatic r) (.field id) :=
  (Emits.okOr _ _).mono fun _ _ h => .field h

/-! ### Statements -/

omit [AssemblyBuilder] in
private theorem field_lasts (container : Option TypeInformation) (isStatic : Bool) (r : FieldReference) :
    Lasts Assembly.Extends fun a id => Reference.RepresentedBy a (.field container isStatic r) (.field id) :=
  (Reference.RepresentedBy.lasts _).comap .field

omit [AssemblyBuilder] in
private theorem method_lasts (container : Option TypeInformation) (isStatic : Bool) (r : MethodReference) :
    Lasts Assembly.Extends fun a token => Reference.RepresentedBy a (.method container isStatic r)
    (.method token) :=
  (Reference.RepresentedBy.lasts _).comap .method

private theorem loadContent_references (content : LoadableContent) :
    Compiles (compileLoadContent m content) fun a c =>
      List.Forall₂ (Reference.RepresentedBy a) (content.references m) c.references := by
  cases content with
  | string val => exact .skip (addString_keeps val) fun s => .pure fun a => .nil
  | static ty f =>
    refine .bind (compileTypeReference_compiles ty) (TypeReference.RepresentedBy.lasts ty) fun token => ?_
    refine .bind (compileFieldReference_compiles _ _ f) (field_lasts _ _ f) fun id => ?_
    exact .pure fun a hf ht => .cons (.type ht) (.cons hf .nil)
  | field container f =>
    have hvar : Compiles (mapVariable container m.locals) fun _ r => position m.locals container = some r.addr :=
      ⟨mapVariable_keeps _ _, fun _ _ _ h _ => (mapVariable_eq_ok.1 h).1⟩
    refine .bind hvar (fun _ _ _ _ h => h) fun r => ?_
    refine .bind (compileFieldReference_compiles _ _ f) (field_lasts _ _ f) fun id => .pure fun a hf hr => ?_
    rw [resolveVariableTypeByAddr_eq hr] at hf
    exact .cons hf .nil
  | size ty =>
    refine .bind (compileTypeReference_compiles ty) (TypeReference.RepresentedBy.lasts ty) fun token => ?_
    exact .pure fun a ht => .cons (.type ht) .nil
  | char val => exact .panic
  | byteString val => exact .panic
  | byte val => exact .panic
  | _ => exact .pure fun a => .nil

omit [CompilerService] [AssemblyBuilder] in
private theorem args_keeps (args : List Identifier) :
    Keeps Assembly.Extends (args.mapM (mapVariable · m.locals)) :=
  Keeps.mapM fun x _ => mapVariable_keeps x _

private theorem statement_references (s : Statement) :
    Compiles (compileStatement currentTy m s) fun a i =>
      List.Forall₂ (Reference.RepresentedBy a) (s.references .compiled currentTy m) i.references := by
  cases s with
  | load content var =>
    refine .skip (mapVariable_keeps _ _) fun r => ?_
    refine .bind (loadContent_references content) (Lasts.forall₂ Reference.RepresentedBy.lasts _ |>.comap _)
      fun c => ?_
    exact .pure fun a h => h
  | newObject ty ctor args result =>
    refine .bind (compileTypeReference_compiles ty) (TypeReference.RepresentedBy.lasts ty) fun token => ?_
    refine .bind (compileMethodReference_compiles _ _ ctor) (method_lasts _ _ ctor) fun ctorToken => ?_
    refine .skip (args_keeps args) fun as => .skip (mapVariable_keeps _ _) fun r => ?_
    exact .pure fun a hm ht => .cons (.type ht) (.cons hm .nil)
  | newArray ty len result =>
    refine .bind (compileTypeReference_compiles ty) (TypeReference.RepresentedBy.lasts ty) fun token => ?_
    refine .skip (mapVariable_keeps _ _) fun r => ?_
    cases len with
    | dynamic len => exact .skip (mapVariable_keeps _ _) fun l => .pure fun a ht => .cons (.type ht) .nil
    | static len => exact .pure fun a ht => .cons (.type ht) .nil
  | instanceCall val method args result =>
    refine .skip (mapVariable_keeps _ _) fun v => ?_
    refine .bind (compileMethodReference_compiles _ _ method) (method_lasts _ _ method) fun token => ?_
    refine .skip (args_keeps args) fun as => .skip (mapVariable_keeps _ _) fun r => ?_
    exact .pure fun a hm => .cons hm .nil
  | staticCall ty method args result =>
    refine .bind (compileTypeReference_compiles ty) (TypeReference.RepresentedBy.lasts ty) fun token => ?_
    refine .bind (compileMethodReference_compiles _ _ method) (method_lasts _ _ method) fun methodToken => ?_
    refine .skip (args_keeps args) fun as => .skip (mapVariable_keeps _ _) fun r => ?_
    exact .pure fun a hm ht => .cons (.type ht) (.cons hm .nil)
  | interfaceCall val interface method args result =>
    refine .skip (mapVariable_keeps _ _) fun v => ?_
    refine .bind (compileTypeReference_compiles interface) (TypeReference.RepresentedBy.lasts interface)
      fun token => ?_
    refine .bind (compileMethodReference_compiles _ _ method) (method_lasts _ _ method) fun methodToken => ?_
    refine .skip (args_keeps args) fun as => .skip (mapVariable_keeps _ _) fun r => ?_
    exact .pure fun a hm ht => .cons (.type ht) (.cons hm .nil)
  | setField val container f =>
    refine .skip (mapVariable_keeps _ _) fun v => .skip (mapVariable_keeps _ _) fun c => ?_
    refine .bind (compileFieldReference_compiles _ _ f) (field_lasts _ _ f) fun id => ?_
    exact .pure fun a hf => .cons hf .nil
  | setThisField val f =>
    refine .skip (mapVariable_keeps _ _) fun v => ?_
    refine .bind (compileFieldReference_compiles _ _ f) (field_lasts _ _ f) fun id => ?_
    exact .pure fun a hf => .cons hf .nil
  | setStaticField val ty f =>
    refine .skip (mapVariable_keeps _ _) fun v => ?_
    refine .bind (compileTypeReference_compiles ty) (TypeReference.RepresentedBy.lasts ty) fun token => ?_
    refine .bind (compileFieldReference_compiles _ _ f) (field_lasts _ _ f) fun id => ?_
    exact .pure fun a hf ht => .cons (.type ht) (.cons hf .nil)
  | readPointerTo ptr size destination =>
    refine .skip (mapVariable_keeps _ _) fun p => .skip (mapVariable_keeps _ _) fun s => ?_
    exact .skip (mapVariable_keeps _ _) fun d => .pure fun a => .nil
  | writePointer source size ptr =>
    refine .skip (mapVariable_keeps _ _) fun r => .skip (mapVariable_keeps _ _) fun s => ?_
    exact .skip (mapVariable_keeps _ _) fun p => .pure fun a => .nil
  | check kind toCheck result =>
    exact .skip (mapVariable_keeps _ _) fun r => .skip (mapVariable_keeps _ _) fun c => .pure fun a => .nil
  | nonPurusCall config fPointer args result =>
    refine .skip (mapVariable_keeps _ _) fun f => .skip (mapVariable_keeps _ _) fun c => ?_
    exact .skip (args_keeps args) fun as => .skip (mapVariable_keeps _ _) fun r => .pure fun a => .nil
  | throw val => exact .skip (mapVariable_keeps _ _) fun v => .pure fun a => .nil
  | returnVal val => exact .skip (mapVariable_keeps _ _) fun v => .pure fun a => .nil
  | jump condition ty val => exact .skip (compileJumpCondition_keeps condition) fun c => .pure fun a => .nil
  | nop => exact .pure fun a => .nil

theorem compileStatement_compiles (hm : m.locals.length = m.attr.localVariableTypes.length) (s : Statement) :
    Compiles (compileStatement currentTy m s) fun a i => s.RepresentedBy a .compiled currentTy m i :=
  ⟨compileStatement_keeps s, fun b b' i h ha =>
    ⟨compileStatement_translates hm h, (statement_references s).value b b' i h ha⟩⟩

/-! ### Members -/

private theorem filter_compiles (f : TypeReference × MethodReference) :
    Compiles (compileFilter f) fun a bf => filterRepresentedBy a f bf := by
  refine .bind (compileTypeReference_compiles _) (TypeReference.RepresentedBy.lasts _) fun token => ?_
  refine .bind (compileMethodReference_compiles _ _ _) (method_lasts _ _ _) fun methodToken => ?_
  exact .pure fun a hm ht => ⟨ht, hm⟩

private theorem entry_references (e : ExceptionTableEntry) : Compiles (compileExceptionTableEntry e) fun a be =>
    e.exceptionType.RepresentedBy a be.exceptionType ∧ Option.Rel (filterRepresentedBy a) e.filter be.filter := by
  refine .skip (resolve_keeps _ _) fun stop => ?_
  refine .bind (compileTypeReference_compiles _) (TypeReference.RepresentedBy.lasts _) fun exceptionType => ?_
  refine .bind (.optionMapM filter_compiles) (Lasts.rel filterRepresentedBy.lasts _) fun filter => ?_
  refine .skip (resolveRange_keeps _ _) fun «catch» => ?_
  refine .skip (Keeps.optionMapM (resolveRange_keeps _)) fun «finally» => ?_
  exact .skip (Keeps.optionMapM (resolveRange_keeps _)) fun fault => .pure fun a hf ht => ⟨ht, hf⟩

theorem compileExceptionTableEntry_compiles (e : ExceptionTableEntry) :
    Compiles (compileExceptionTableEntry e) fun a be => e.RepresentedBy a be := by
  refine ⟨compileExceptionTableEntry_keeps e, fun b b' be h ha => ?_⟩
  obtain ⟨htype, hfilter⟩ := (entry_references e).value b b' be h ha
  exact ⟨(compileExceptionTableEntry_eq_ok h).2, htype, hfilter⟩

private theorem parameter_compiles (p : Parameter) :
    Compiles (compileParameter p) fun a bp => p.RepresentedBy a bp :=
  .bind (compileTypeReference_compiles _) (TypeReference.RepresentedBy.lasts _) fun _ =>
    .pure fun _ ht => ⟨rfl, ht⟩

theorem compileField_compiles (f : Field) : Compiles (compileField f) fun a bf => f.RepresentedBy a bf := by
  refine .bind (addString_compiles _) (addString_lasts _) fun name => ?_
  refine .bind (compileTypeReference_compiles _) (TypeReference.RepresentedBy.lasts _) fun ty => ?_
  exact .pure fun a ht hn => ⟨hn, rfl, ht⟩

/-- Local variables keep their types, and a method is what it was beside them. -/
private theorem attr_compiles (attr : MethodAttr TypeReference) :
    Compiles (attr.tryMapTypes compileTypeReference) fun a battr =>
      battr = { attr with localVariableTypes := battr.localVariableTypes } ∧
        List.Forall₂ (TypeReference.RepresentedBy a) attr.localVariableTypes battr.localVariableTypes := by
  refine .bind (.mapM (fun r _ => compileTypeReference_compiles r) TypeReference.RepresentedBy.lasts)
    (Lasts.forall₂ TypeReference.RepresentedBy.lasts _) fun types => ?_
  exact .pure fun a ht => ⟨rfl, ht⟩

theorem compileMethodBody_compiles (hm : m.locals.length = m.attr.localVariableTypes.length) :
    Compiles (compileMethodBody currentTy m) fun a bm => m.RepresentedBy a .compiled currentTy bm := by
  have hattr : Lasts Assembly.Extends fun a (battr : MethodAttr TypeToken) =>
      battr = { m.attr with localVariableTypes := battr.localVariableTypes } ∧
        List.Forall₂ (TypeReference.RepresentedBy a) m.attr.localVariableTypes battr.localVariableTypes :=
    .and (fun _ _ _ _ h => h) ((Lasts.forall₂ TypeReference.RepresentedBy.lasts _).comap _)
  refine .bind (addString_compiles _) (addString_lasts _) fun name => .bind (attr_compiles _) hattr fun attr => ?_
  refine .bind (.mapM (fun p _ => parameter_compiles p) Parameter.RepresentedBy.lasts)
    (Lasts.forall₂ Parameter.RepresentedBy.lasts _) fun args => ?_
  refine .bind (compileTypeReference_compiles _) (TypeReference.RepresentedBy.lasts _) fun returnType => ?_
  refine .bind (.mapM (fun s _ => compileStatement_compiles hm s) Statement.RepresentedBy.lasts)
    (Lasts.forall₂ Statement.RepresentedBy.lasts _) fun instructions => ?_
  refine .bind (.mapM (fun e _ => compileExceptionTableEntry_compiles e) ExceptionTableEntry.RepresentedBy.lasts)
    (Lasts.forall₂ ExceptionTableEntry.RepresentedBy.lasts _) fun table => ?_
  exact .pure fun a htable hinstr hret hargs hattr hname =>
    ⟨hname, hattr.1, hattr.2, rfl, hargs, hret, rfl, hinstr, htable⟩

/-! ### Types -/

/-- The same for a part of the compiler that goes through the methods of a type. -/
abbrev TypeCompiles {α : Type} (p : TypeBuilder α) (V : Assembly → α → Prop) : Prop :=
  Emits (onTables Assembly.Extends) (fun s => s.assembly.Addressable) p fun s => V s.assembly

omit [CompilerService] [AssemblyBuilder] in
instance : Bounds (onTables Assembly.Extends) fun s => s.assembly.Addressable := ⟨fun _ _ h hs => hs.of_extends h⟩

omit [CompilerService] [AssemblyBuilder] in
theorem onAssembly_compiles {α : Type} {p : Builder α} {V : Assembly → α → Prop} (hp : Compiles p V) :
    TypeCompiles (onAssembly p) V :=
  hp.zoom fun _ _ => rfl

omit [CompilerService] [AssemblyBuilder] in
theorem TypeBuilder.run_compiles {α : Type} {p : TypeBuilder α} {V : Assembly → α → Prop} (hp : TypeCompiles p V) :
    Compiles p.run V := by
  refine ⟨TypeBuilder.run_keeps hp.keeps, fun a a' x h ha => ?_⟩
  obtain ⟨s, hrun, rfl⟩ := TypeBuilder.run_eq_ok.1 h
  exact hp.value _ s x hrun ha

theorem compileMethod_compiles (hm : m.locals.length = m.attr.localVariableTypes.length) (i : UInt32) :
    TypeCompiles (compileMethod currentTy i m) fun a bm => m.RepresentedBy a .compiled currentTy bm :=
  .skip (checkIndex_keeps i) fun _ => .skip implement_keeps fun _ =>
    onAssembly_compiles (compileMethodBody_compiles hm)

theorem compileMethods_compiles {methods : List Method}
    (hm : ∀ m ∈ methods, m.locals.length = m.attr.localVariableTypes.length) :
    TypeCompiles (compileMethods currentTy methods) fun a bms =>
      List.Forall₂ (Method.RepresentedBy a .compiled currentTy) methods bms :=
  .mapM_zipIdx (fun m hmem _ => compileMethod_compiles (hm m hmem) _) fun m _ _ bm h =>
    Method.RepresentedBy.lasts m _ _ bm h

theorem compileMethodsAlone_compiles {methods : List Method}
    (hm : ∀ m ∈ methods, m.locals.length = m.attr.localVariableTypes.length) :
    Compiles (compileMethodsAlone currentTy methods) fun a bms =>
      List.Forall₂ (Method.RepresentedBy a .compiled currentTy) methods bms :=
  .mapM_zipIdx (fun m hmem _ => TypeBuilder.run_compiles (compileMethod_compiles (hm m hmem) _))
    Method.RepresentedBy.lasts

theorem compileImplementation_compiles (entry : TypeReference × SortedMap UInt32 UInt32) :
    Compiles (compileImplementation entry) fun a table => tableRepresentedBy a entry table := by
  refine .bind (compileTypeReference_compiles _) (TypeReference.RepresentedBy.lasts _) fun target => ?_
  refine .bind (.unwrap _) (fun _ _ _ _ h => h) fun map => .pure fun a hmap ht => ?_
  obtain ⟨hkeys, hvalues⟩ := flattenTable_eq_some.1 hmap
  exact ⟨ht, hkeys, hvalues.symm⟩

/-- All of a class but the tables of its interfaces. -/
private theorem compileClass_members (order : EntryOrder) {d : ClassDef}
    (hm : ∀ m ∈ d.methods, m.locals.length = m.attr.localVariableTypes.length) :
    Compiles (compileClass order d) fun a bd =>
      (∃ tables : Implementations, tables.Files d.methods ∧
        List.Forall₂ (tableRepresentedBy a) tables bd.interfaces) → d.RepresentedBy a .compiled bd := by
  refine TypeBuilder.run_compiles ?_
  refine .bind (onAssembly_compiles (addString_compiles _)) (fun _ _ _ h => addString_lasts _ _ _ _ h)
    fun name => ?_
  refine .bind (onAssembly_compiles (.optionMapM compileTypeReference_compiles))
    (fun _ _ _ h => Lasts.rel TypeReference.RepresentedBy.lasts _ _ _ _ h) fun parent => ?_
  refine .bind (compileMethods_compiles hm) (fun _ _ _ h => Lasts.forall₂ Method.RepresentedBy.lasts _ _ _ _ h)
    fun methodTable => ?_
  refine .bind (onAssembly_compiles (.mapM (fun f _ => compileField_compiles f) Field.RepresentedBy.lasts))
    (fun _ _ _ h => Lasts.forall₂ Field.RepresentedBy.lasts _ _ _ _ h) fun fields => ?_
  refine .skip Keeps.get fun s => ?_
  refine .skip (onAssembly_keeps (Keeps.mapM fun e _ => compileImplementation_keeps e)) fun interfaces => ?_
  exact .pure fun s hfields hmethods hparent hname htables =>
    ⟨rfl, hname, rfl, rfl, hparent, hmethods, hfields, htables⟩

omit [AssemblyBuilder] in
theorem Implementations.Files.perm {tables tables' : Implementations} {methods : List Method}
    (h : tables.Files methods) (hperm : tables'.Perm tables) : tables'.Files methods :=
  ⟨(hperm.map _).nodup_iff.2 h.nodup, fun ty map => hperm.mem_iff.trans (h.mem_iff ty map)⟩

omit [CompilerService] [AssemblyBuilder] in
/-- What is represented on the way is represented at the end. -/
theorem YieldsBetween.of_compiles {α : Type} {p : Builder α} {V : Assembly → α → Prop} {a a' : Assembly} {x : α}
    (h : YieldsBetween a a' p x) (hp : Compiles p V) (hV : Lasts Assembly.Extends V) (ha : a'.Addressable) :
    V a' x := by
  obtain ⟨s₁, s₂, -, hrun, hext⟩ := h
  exact hV s₂ a' x hext (hp.value s₁ s₂ x hrun (ha.of_extends hext))

theorem compileDefinition_compiles (order : EntryOrder) {t : TypeDef}
    (hm : ∀ m ∈ t.methods, m.locals.length = m.attr.localVariableTypes.length) :
    Compiles (compileDefinition order t) fun a bt => t.RepresentedBy a .compiled bt := by
  cases t with
  | «class» d =>
    refine ⟨compileDefinition_keeps order _, fun a a' bt h ha => ?_⟩
    obtain ⟨bd, hd, rfl⟩ := map_eq_ok.1 h
    obtain ⟨tables, hfiles, -, htables⟩ := compileClass_tables hd
    refine .class ((compileClass_members order hm).value a a' bd hd ha
      ⟨order.entries tables, hfiles.perm (order.entries_perm tables), ?_⟩)
    exact htables.of_compiles (.mapM (fun e _ => compileImplementation_compiles e) tableRepresentedBy.lasts)
      (Lasts.forall₂ tableRepresentedBy.lasts _) ha
  | struct d =>
    refine .map (Emits.mono (V := fun a bd => d.RepresentedBy a .compiled bd) ?_ fun a bd h => .struct h)
    refine .bind (addString_compiles _) (addString_lasts _) fun name => ?_
    refine .bind (compileMethodsAlone_compiles hm) (Lasts.forall₂ Method.RepresentedBy.lasts _)
      fun methodTable => ?_
    refine .bind (.mapM (fun f _ => compileField_compiles f) Field.RepresentedBy.lasts)
      (Lasts.forall₂ Field.RepresentedBy.lasts _) fun fields => ?_
    exact .pure fun a hfields hmethods hname => ⟨hname, rfl, rfl, hmethods, hfields⟩
  | interface d =>
    refine .map (Emits.mono (V := fun a bd => d.RepresentedBy a .compiled bd) ?_ fun a bd h => .interface h)
    refine .bind (addString_compiles _) (addString_lasts _) fun name => ?_
    refine .bind (.mapM (fun r _ => compileTypeReference_compiles r) TypeReference.RepresentedBy.lasts)
      (Lasts.forall₂ TypeReference.RepresentedBy.lasts _) fun requiredInterfaces => ?_
    refine .bind (compileMethodsAlone_compiles hm) (Lasts.forall₂ Method.RepresentedBy.lasts _)
      fun methodTable => ?_
    exact .pure fun a hmethods hrequired hname => ⟨hname, rfl, rfl, hrequired, hmethods⟩

end Compiling

/-! ### Names as they are declared -/

section Declared

variable [CompilerService] {a : Assembly} {currentTy : TypeInformation} {m : Method}

/-- The name in a statement is looked up where it is declared: a field that is written has the number that the type
of its container gives it, and a method of an interface that is called the number that the interface gives it. -/
def Statement.LookupsAgree (currentTy : TypeInformation) (m : Method) : Statement → Prop
  | setField _ container field =>
    field.lookup (some currentTy) false = field.lookup (resolveVariableType container m) false
  | interfaceCall val interface method _ _ =>
    method.index.lookup (resolveVariableType val m) false =
      method.index.lookup (resolveTypeReference interface) false
  | _ => True

def TypeDef.LookupsAgree (t : TypeDef) : Prop := ∀ m ∈ t.methods, ∀ s ∈ m.statements, s.LookupsAgree t.toAbstract m

/-- What represents a method of one type represents that of another exactly when its name has the same number. -/
private theorem method_representedBy_iff {container : Option TypeInformation} {isStatic : Bool}
    {r : MethodReference} {c : CompiledReference} (h : Reference.RepresentedBy a (.method container isStatic r) c)
    (container' : Option TypeInformation) : Reference.RepresentedBy a (.method container' isStatic r) c ↔
      r.index.lookup container isStatic = r.index.lookup container' isStatic := by
  cases h with
  | @method _ _ token t _ hr hd =>
    obtain ⟨index, hindex, hr⟩ := Option.bind_eq_some_iff.1 hr
    obtain ⟨ts, hts, ht⟩ := Option.bind_eq_some_iff.1 hr
    cases ht
    constructor
    · intro h'
      cases h' with
      | @method _ _ _ t' _ hr' hd' =>
        obtain ⟨index', hindex', hr'⟩ := Option.bind_eq_some_iff.1 hr'
        obtain ⟨ts', -, ht'⟩ := Option.bind_eq_some_iff.1 hr'
        cases ht'
        have hmeaning : (⟨index', ts'⟩ : ResolvedMethod) = ⟨index, ts⟩ := (hd.iff_of_extends (.refl a) _).1 hd'
        rw [hindex, hindex', (ResolvedMethod.mk.inj hmeaning).1]
    · intro hlookup
      have hindex' : r.index.lookup container' isStatic = some index := hlookup ▸ hindex
      exact .method (Option.bind_eq_some_iff.2 ⟨index, hindex', Option.bind_eq_some_iff.2 ⟨ts, hts, rfl⟩⟩) hd

private theorem field_representedBy_iff {container : Option TypeInformation} {isStatic : Bool} {r : FieldReference}
    {c : CompiledReference} (h : Reference.RepresentedBy a (.field container isStatic r) c)
    (container' : Option TypeInformation) : Reference.RepresentedBy a (.field container' isStatic r) c ↔
      r.lookup container isStatic = r.lookup container' isStatic := by
  cases h with
  | field hid =>
    rw [hid]
    constructor
    · intro h'
      cases h' with
      | field hid' => exact hid'.symm
    · exact fun hid' => .field hid'.symm

/-- Compiled from a statement, an instruction represents the statement as its names are declared exactly when they
are looked up there. -/
theorem Statement.RepresentedBy.declared_iff {s : Statement} {i : Instruction}
    (h : s.RepresentedBy a .compiled currentTy m i) :
    s.RepresentedBy a .declared currentTy m i ↔ s.LookupsAgree currentTy m := by
  have hreferences := h.references
  cases s with
  | setField val container field =>
    obtain ⟨c, cs, hc, hnil, hcs⟩ := List.forall₂_cons_left_iff.1 hreferences
    cases hnil
    have hiff := field_representedBy_iff hc (resolveVariableType container m)
    constructor
    · intro h'
      have hreferences' := h'.references
      rw [hcs] at hreferences'
      cases hreferences' with
      | cons hc' _ => exact hiff.1 hc'
    · intro hagree
      refine ⟨h.operands, ?_⟩
      rw [hcs]
      exact .cons (hiff.2 hagree) .nil
  | interfaceCall val interface method args result =>
    obtain ⟨ct, cs, hct, hrest, hcs⟩ := List.forall₂_cons_left_iff.1 hreferences
    obtain ⟨c, cs, hc, hnil, rfl⟩ := List.forall₂_cons_left_iff.1 hrest
    cases hnil
    have hiff := method_representedBy_iff hc (resolveTypeReference interface)
    constructor
    · intro h'
      have hreferences' := h'.references
      rw [hcs] at hreferences'
      cases hreferences' with
      | cons _ hrest' =>
        cases hrest' with
        | cons hc' _ => exact hiff.1 hc'
    · intro hagree
      refine ⟨h.operands, ?_⟩
      rw [hcs]
      exact .cons hct (.cons (hiff.2 hagree) .nil)
  | _ => exact ⟨fun _ => trivial, fun _ => ⟨h.operands, hreferences⟩⟩

omit [CompilerService] in
/-- Where a second relation holds of related elements under a condition, it holds of related lists when all
elements satisfy the condition. -/
private theorem forall₂_iff {α β : Type} {P Q : α → β → Prop} {C : α → Prop} {xs : List α} {ys : List β}
    (h : List.Forall₂ P xs ys) (hiff : ∀ x ∈ xs, ∀ y, P x y → (Q x y ↔ C x)) :
    List.Forall₂ Q xs ys ↔ ∀ x ∈ xs, C x := by
  induction h with
  | nil => simp
  | @cons x y xs ys hxy _ ih =>
    have hhead := hiff x (by simp) y hxy
    have htail := ih fun z hz => hiff z (by simp [hz])
    rw [List.forall₂_cons, List.forall_mem_cons, hhead, htail]

theorem Method.RepresentedBy.declared_iff {bm : Binary.Method} (h : m.RepresentedBy a .compiled currentTy bm) :
    m.RepresentedBy a .declared currentTy bm ↔ ∀ s ∈ m.statements, s.LookupsAgree currentTy m := by
  have hiff := forall₂_iff h.instructions fun s _ i (hs : s.RepresentedBy a .compiled currentTy m i) =>
    hs.declared_iff
  exact ⟨fun h' => hiff.1 h'.instructions, fun hagree => { h with instructions := hiff.2 hagree }⟩

theorem TypeDef.RepresentedBy.declared_iff {t : TypeDef} {bt : Binary.TypeDef}
    (h : t.RepresentedBy a .compiled bt) : t.RepresentedBy a .declared bt ↔ t.LookupsAgree := by
  have hmethods {currentTy : TypeInformation} {methods : List Method} {bms : List Binary.Method}
      (h : List.Forall₂ (Method.RepresentedBy a .compiled currentTy) methods bms) :
      List.Forall₂ (Method.RepresentedBy a .declared currentTy) methods bms ↔
        ∀ m ∈ methods, ∀ s ∈ m.statements, s.LookupsAgree currentTy m :=
    forall₂_iff h fun m _ bm hm => hm.declared_iff
  cases h with
  | «class» hd =>
    refine ⟨fun h' => ?_, fun hagree => .class { hd with methodTable := (hmethods hd.methodTable).2 hagree }⟩
    cases h' with
    | «class» hd' => exact (hmethods hd.methodTable).1 hd'.methodTable
  | struct hd =>
    refine ⟨fun h' => ?_, fun hagree => .struct { hd with methodTable := (hmethods hd.methodTable).2 hagree }⟩
    cases h' with
    | struct hd' => exact (hmethods hd.methodTable).1 hd'.methodTable
  | interface hd =>
    refine ⟨fun h' => ?_, fun hagree => .interface { hd with methodTable := (hmethods hd.methodTable).2 hagree }⟩
    cases h' with
    | interface hd' => exact (hmethods hd.methodTable).1 hd'.methodTable

/-! ### The built assembly -/

/-- The definition a type is built to represents the type as the compiler looks names up, and as they are declared
exactly when both ways agree in its statements. -/
theorem Compiler.buildImpl_represents [AssemblyBuilder] {c : Compiler} {orders : Nat → EntryOrder}
    {b b' : Assembly}
    (hlocals : ∀ t ∈ c.file.types, ∀ m ∈ t.methods, m.locals.length = m.attr.localVariableTypes.length)
    (h : c.buildImpl orders b = (.ok (), b')) (hb : b'.Addressable) {i : Nat} {t : TypeDef}
    (ht : c.file.types[i]? = some t) : ∃ bt, b'.typeDefs[b.typeDefs.length + i]? = some bt ∧
      t.RepresentedBy b' .compiled bt ∧ (t.RepresentedBy b' .declared bt ↔ t.LookupsAgree) := by
  obtain ⟨bt, hbt, hyields⟩ := Compiler.buildImpl_get h ht
  have hcompiled := hyields.of_compiles (compileDefinition_compiles _ (hlocals t (List.mem_of_getElem? ht)))
    (TypeDef.RepresentedBy.lasts t) hb
  exact ⟨bt, hbt, hcompiled, hcompiled.declared_iff⟩

end Declared

/-- A class with a field that a method writes through a variable of the class. -/
private def writesOwnField : ClassDef :=
  plainClass "A" 0 none
    [{ plainMethod "f" 0 with
        attr := { Method.defaultAttr with localVariableTypes := [ownType "A"] }
        locals := [⟨"v"⟩]
        statements := [.setField ⟨"v"⟩ ⟨"v"⟩ (.byName ⟨"x"⟩), .returnVal ⟨"v"⟩] }]
    [plainField "x" 0 (ownType "A")]

/-- `Compiler.buildImpl_represents` for a class that writes a field of its own. -/
theorem Compiler.buildImpl_represents_own :
    let _ := ownService [] [.class writesOwnField]
    let _ := internBuilder
    let c : Compiler := ⟨⟨[.class writesOwnField]⟩, some 0⟩
    let b : Assembly := ⟨[], [], [], [], []⟩
    let b' := (c.buildImpl (fun _ => .same) b).2
    ∃ bt, b'.typeDefs[0]? = some bt ∧ (TypeDef.class writesOwnField).RepresentedBy b' .declared bt := by
  intro _ _ c b b'
  have hbuild : c.buildImpl (fun _ => .same) b = (.ok (), b') := run_of_fst (by decide +kernel)
  have hb : b'.Addressable := ⟨by decide +kernel, by decide +kernel, by decide +kernel⟩
  have hlocals : ∀ t ∈ c.file.types, ∀ m ∈ t.methods, m.locals.length = m.attr.localVariableTypes.length :=
    List.forall_mem_singleton.2 (List.forall_mem_singleton.2 rfl)
  obtain ⟨bt, hbt, -, hiff⟩ := Compiler.buildImpl_represents hlocals hbuild hb (i := 0) rfl
  have hagree : (FieldReference.byName ⟨"x"⟩).lookup (some writesOwnField.toAbstract) false =
      (FieldReference.byName ⟨"x"⟩).lookup (resolveTypeReference (ownType "A")) false := by decide
  refine ⟨bt, hbt, hiff.2 (List.forall_mem_singleton.2 fun s hs => ?_)⟩
  rcases List.mem_cons.1 hs with rfl | hs
  · exact hagree
  · obtain rfl := List.mem_singleton.1 hs
    trivial

end PuralinguaIR
