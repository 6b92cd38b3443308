import PuralinguaIR.FailedBuilds
import PuralinguaIR.Faults
import PuralinguaIR.ParentClauses

/-!
# What a failed build reports

Every error of a build is true of what is written: a type, a method or a field that is not found is named by a
reference of the type that could not be built and has no meaning there, and a variable that is not found stands
in a statement whose method does not declare it (`TypeDef.Lacks`). The types before have been built
(`Compiler.buildImpl_blames`).
-/

namespace PuralinguaIR

open Effect Effect.Prog

section Missing

variable [CompilerService]

/-! ### What is missing -/

/-- The error says that the type or one of its arguments is not found. -/
inductive TypeReference.Lacks : TypeReference → BuildError → Prop where
  | self {assemblyName name index generics} : TypeReference.id? (.common assemblyName name index generics) = none →
      Lacks (.common assemblyName name index generics) (.typeNotFound (.common assemblyName name index generics))
  | argument {assemblyName name index generics g e} : g ∈ generics → Lacks g e →
      Lacks (.common assemblyName name index generics) e

/-- The error says that what is referred to, or a type argument, is not found. -/
inductive Reference.Lacks : Reference → BuildError → Prop where
  | type {r e} : TypeReference.Lacks r e → Lacks (.type r) e
  | method {container isStatic} {r : MethodReference} : r.index.lookup container isStatic = none →
      Lacks (.method container isStatic r) (.methodNotFound r)
  | argument {container isStatic g e} {r : MethodReference} : g ∈ r.generics → TypeReference.Lacks g e →
      Lacks (.method container isStatic r) e
  | field {container isStatic} {r : FieldReference} : r.lookup container isStatic = none →
      Lacks (.field container isStatic r) (.fieldNotFound r)

/-- The error says that something the statement refers to is not found, or a variable that is not declared. -/
inductive Statement.Lacks (currentTy : TypeInformation) (m : Method) (s : Statement) : BuildError → Prop where
  | reference {r e} : r ∈ s.references .compiled currentTy m → r.Lacks e → Lacks currentTy m s e
  | operand {x} : x ∈ s.operands → x ∉ m.locals → Lacks currentTy m s (.varNotFound x.var)

def ExceptionTableEntry.references (e : ExceptionTableEntry) : List Reference :=
  .type e.exceptionType ::
    (e.filter.map fun f => [.type f.1, .method (resolveTypeReference f.1) true f.2]).getD []

/-- The references of a method outside its statements, but for the interface of its clause. -/
def Method.references (m : Method) : List Reference :=
  (m.impl.map fun p => .method (resolveTypeReference p.1) false p.2).toList ++
    m.attr.localVariableTypes.map .type ++ m.args.map (.type ·.ty) ++ .type m.returnType ::
      m.exceptionTable.flatMap ExceptionTableEntry.references

inductive Method.Lacks (currentTy : TypeInformation) (m : Method) : BuildError → Prop where
  | reference {r e} : r ∈ m.references → r.Lacks e → Lacks currentTy m e
  | statement {s e} : s ∈ m.statements → s.Lacks currentTy m e → Lacks currentTy m e

/-- The types a type refers to outside its methods; only a class refers to the interfaces of its clauses. -/
def TypeDef.references : TypeDef → List TypeReference
  | .class d => d.parent.toList ++ d.fields.map (·.ty) ++ d.methods.filterMap fun m => m.impl.map Prod.fst
  | .struct d => d.fields.map (·.ty)
  | .interface d => d.requiredInterfaces

/-- The error names something that the type refers to and that is not found. -/
inductive TypeDef.Lacks (t : TypeDef) : BuildError → Prop where
  | reference {r e} : r ∈ t.references → TypeReference.Lacks r e → Lacks t e
  | method {m e} : m ∈ t.methods → m.Lacks t.toAbstract e → Lacks t e

end Missing

section Diagnostics

variable [CompilerService] [AssemblyBuilder] {currentTy : TypeInformation} {m : Method}

/-! ### References -/

omit [CompilerService] in
theorem addString_blames (s : String) {E : BuildError → Prop} : Blames (addString s) E :=
  .of_okOrPanics (addString_succeeds s).okOrPanics

mutual

theorem compileTypeReference_blames (r : TypeReference) : Blames (compileTypeReference r) r.Lacks := by
  cases r with
  | common assemblyName name index generics =>
    rw [compileTypeReference]
    refine Blames.bind (.okOr fun hnone => .self hnone) fun id => ?_
    split
    · exact .pure _
    refine (addString_blames _).bind fun assembly => ?_
    refine Blames.bind (.of_okOrPanics (addTypeRef_succeeds _).okOrPanics) fun typeRef => ?_
    split
    · exact .pure _
    refine Blames.bind ((compileTypeReferences_blames generics).mono fun e ⟨g, hg, he⟩ => ?_) fun tokens => ?_
    · exact .argument hg he
    · exact .of_okOrPanics (pushTypeSpec_succeeds _).okOrPanics
  | methodGeneric name index =>
    rw [compileTypeReference]
    exact .pure _
  | typeGeneric name index =>
    rw [compileTypeReference]
    exact .pure _

theorem compileTypeReferences_blames (rs : List TypeReference) :
    Blames (compileTypeReferences rs) fun e => ∃ r ∈ rs, r.Lacks e := by
  cases rs with
  | nil =>
    rw [compileTypeReferences]
    exact .pure _
  | cons r rs =>
    rw [compileTypeReferences]
    refine ((compileTypeReference_blames r).mono fun e he => ⟨r, List.mem_cons_self, he⟩).bind fun token => ?_
    refine ((compileTypeReferences_blames rs).mono fun e ⟨r', hr', he⟩ =>
      ⟨r', List.mem_cons_of_mem r hr', he⟩).bind ?_
    exact fun tokens => .pure _

end

omit [AssemblyBuilder] in
theorem compileFieldReference_blames (container : Option TypeInformation) (isStatic : Bool) (r : FieldReference) :
    Blames (compileFieldReference container isStatic r) (Reference.field container isStatic r).Lacks :=
  .okOr fun hnone => .field hnone

theorem compileMethodReference_blames (container : Option TypeInformation) (isStatic : Bool)
    (r : MethodReference) :
    Blames (compileMethodReference container isStatic r) (Reference.method container isStatic r).Lacks := by
  unfold compileMethodReference
  refine Blames.bind (.okOr fun hnone => .method hnone) fun k => ?_
  split
  · exact .pure _
  · refine Blames.bind (.mapM fun g hg => ?_) fun tokens => .of_okOrPanics (pushMethodSpec_succeeds _).okOrPanics
    exact (compileTypeReference_blames g).mono fun e he => .argument hg he

/-! ### Statements -/

section Statements

variable {s : Statement}

omit [AssemblyBuilder] in
private theorem operand_blames {x : Identifier} (hx : x ∈ s.operands) :
    Blames (mapVariable x m.locals) (s.Lacks currentTy m) := by
  refine .okOr fun hnone => .operand hx fun hmem => ?_
  rw [Option.map_eq_none_iff] at hnone
  have hsome := position_isSome.2 hmem
  rw [hnone] at hsome
  cases hsome

omit [AssemblyBuilder] in
private theorem operands_blames {xs : List Identifier} (hxs : ∀ x ∈ xs, x ∈ s.operands) :
    Blames (xs.mapM (mapVariable · m.locals)) (s.Lacks currentTy m) :=
  .mapM fun x hx => operand_blames (hxs x hx)

omit [AssemblyBuilder] in
/-- The arguments and the result of a call. -/
private theorem args_blames {α : Type} {args : List Identifier} {result : Identifier}
    (hargs : ∀ x ∈ args, x ∈ s.operands) (hresult : result ∈ s.operands)
    (f : List RegisterAddr → RegisterAddr → α) :
    Blames (do
      let args ← args.mapM (mapVariable · m.locals)
      let result ← mapVariable result m.locals
      (pure (f args result) : Builder α)) (s.Lacks currentTy m) :=
  (operands_blames hargs).bind fun _ => (operand_blames hresult).bind fun _ => .pure _

private theorem type_blames {ty : TypeReference} (h : .type ty ∈ s.references .compiled currentTy m) :
    Blames (compileTypeReference ty) (s.Lacks currentTy m) :=
  (compileTypeReference_blames ty).mono fun _ he => .reference h (.type he)

private theorem method_blames {container : Option TypeInformation} {isStatic : Bool} {r : MethodReference}
    (h : .method container isStatic r ∈ s.references .compiled currentTy m) :
    Blames (compileMethodReference container isStatic r) (s.Lacks currentTy m) :=
  (compileMethodReference_blames container isStatic r).mono fun _ he => .reference h he

omit [AssemblyBuilder] in
private theorem field_blames {container : Option TypeInformation} {isStatic : Bool} {r : FieldReference}
    (h : .field container isStatic r ∈ s.references .compiled currentTy m) :
    Blames (compileFieldReference container isStatic r) (s.Lacks currentTy m) :=
  (compileFieldReference_blames container isStatic r).mono fun _ he => .reference h he

private theorem loadContent_blames (content : LoadableContent) (var : Identifier) :
    Blames (compileLoadContent m content) ((Statement.load content var).Lacks currentTy m) := by
  cases content with
  | string val => exact (addString_blames val).bind fun _ => .pure _
  | char val => exact .panic
  | byteString val => exact .panic
  | byte val => exact .panic
  | static ty f =>
    refine (type_blames (by simp [Statement.references, LoadableContent.references])).bind fun token => ?_
    exact (field_blames (by simp [Statement.references, LoadableContent.references])).bind fun id => .pure _
  | field container f =>
    refine Blames.bind_of (operand_blames (by simp [Statement.operands, LoadableContent.operands]))
      fun _ r _ hr => ?_
    rw [resolveVariableTypeByAddr_eq (mapVariable_eq_ok.1 hr).1]
    exact (field_blames (by simp [Statement.references, LoadableContent.references])).bind fun id => .pure _
  | size ty =>
    exact (type_blames (by simp [Statement.references, LoadableContent.references])).bind fun token => .pure _
  | _ => exact .pure _

omit [AssemblyBuilder] in
private theorem jumpCondition_blames (condition : JumpCondition) (ty : JumpTargetType) (val : UInt64) :
    Blames (compileJumpCondition m condition) ((Statement.jump condition ty val).Lacks currentTy m) := by
  cases condition with
  | unconditional => exact .pure _
  | _ => exact (operand_blames (by simp [Statement.operands, JumpCondition.operands])).bind fun _ => .pure _

theorem compileStatement_blames (s : Statement) :
    Blames (compileStatement currentTy m s) (s.Lacks currentTy m) := by
  cases s with
  | load content var =>
    refine (operand_blames (by simp [Statement.operands])).bind fun addr => ?_
    exact (loadContent_blames content var).bind fun content => .pure _
  | readPointerTo ptr size destination =>
    refine (operand_blames (by simp [Statement.operands])).bind fun ptr => ?_
    refine (operand_blames (by simp [Statement.operands])).bind fun size => ?_
    exact (operand_blames (by simp [Statement.operands])).bind fun destination => .pure _
  | writePointer source size ptr =>
    refine (operand_blames (by simp [Statement.operands])).bind fun source => ?_
    refine (operand_blames (by simp [Statement.operands])).bind fun size => ?_
    exact (operand_blames (by simp [Statement.operands])).bind fun ptr => .pure _
  | check kind toCheck result =>
    refine (operand_blames (by simp [Statement.operands])).bind fun output => ?_
    exact (operand_blames (by simp [Statement.operands])).bind fun toCheck => .pure _
  | newObject ty ctor args result =>
    refine (type_blames (by simp [Statement.references])).bind fun token => ?_
    refine (method_blames (by simp [Statement.references])).bind fun ctor => ?_
    exact args_blames (by simp +contextual [Statement.operands]) (by simp [Statement.operands]) _
  | newArray ty len result =>
    refine (type_blames (by simp [Statement.references])).bind fun token => ?_
    cases len with
    | dynamic len =>
      refine (operand_blames (by simp [Statement.operands])).bind fun output => ?_
      exact (operand_blames (by simp [Statement.operands])).bind fun lenAddr => .pure _
    | static len => exact (operand_blames (by simp [Statement.operands])).bind fun output => .pure _
  | instanceCall val method args result =>
    refine (operand_blames (by simp [Statement.operands])).bind fun valAddr => ?_
    refine (method_blames (by simp [Statement.references])).bind fun method => ?_
    exact args_blames (by simp +contextual [Statement.operands]) (by simp [Statement.operands]) _
  | staticCall ty method args result =>
    refine (type_blames (by simp [Statement.references])).bind fun token => ?_
    refine (method_blames (by simp [Statement.references])).bind fun method => ?_
    exact args_blames (by simp +contextual [Statement.operands]) (by simp [Statement.operands]) _
  | interfaceCall val interface method args result =>
    refine (operand_blames (by simp [Statement.operands])).bind fun valAddr => ?_
    refine (type_blames (by simp [Statement.references])).bind fun interface => ?_
    refine (method_blames (by simp [Statement.references, Lookups.compiled])).bind fun method => ?_
    exact args_blames (by simp +contextual [Statement.operands]) (by simp [Statement.operands]) _
  | nonPurusCall config fPointer args result =>
    refine (operand_blames (by simp [Statement.operands])).bind fun fPointer => ?_
    refine (operand_blames (by simp [Statement.operands])).bind fun config => ?_
    exact args_blames (by simp +contextual [Statement.operands]) (by simp [Statement.operands]) _
  | setField val container field =>
    refine (operand_blames (by simp [Statement.operands])).bind fun val => ?_
    refine (operand_blames (by simp [Statement.operands])).bind fun container => ?_
    exact (field_blames (by simp [Statement.references, Lookups.compiled])).bind fun field => .pure _
  | setThisField val field =>
    refine (operand_blames (by simp [Statement.operands])).bind fun val => ?_
    exact (field_blames (by simp [Statement.references])).bind fun field => .pure _
  | setStaticField val ty field =>
    refine (operand_blames (by simp [Statement.operands])).bind fun val => ?_
    refine (type_blames (by simp [Statement.references])).bind fun token => ?_
    exact (field_blames (by simp [Statement.references])).bind fun field => .pure _
  | throw val => exact (operand_blames (by simp [Statement.operands])).bind fun val => .pure _
  | returnVal val => exact (operand_blames (by simp [Statement.operands])).bind fun val => .pure _
  | jump condition ty val => exact (jumpCondition_blames condition ty val).bind fun condition => .pure _
  | nop => exact .pure _

end Statements

/-! ### Methods -/

private theorem entry_blames (entry : ExceptionTableEntry) :
    Blames (compileExceptionTableEntry entry) fun e => ∃ r ∈ entry.references, r.Lacks e := by
  have htype : ∀ ty, .type ty ∈ entry.references →
      Blames (compileTypeReference ty) fun e => ∃ r ∈ entry.references, r.Lacks e :=
    fun ty h => (compileTypeReference_blames ty).mono fun _ he => ⟨_, h, .type he⟩
  have hfilter : ∀ f ∈ entry.filter, Blames (compileFilter f) fun e => ∃ r ∈ entry.references, r.Lacks e := by
    intro f hf
    refine (htype f.1 (by simp [ExceptionTableEntry.references, Option.mem_def.1 hf])).bind fun token => ?_
    refine Blames.bind ((compileMethodReference_blames _ true f.2).mono fun _ he => ⟨_, ?_, he⟩) fun method =>
      .pure _
    simp [ExceptionTableEntry.references, Option.mem_def.1 hf]
  refine Blames.bind (.of_okOrPanics (entry.tryEnd.resolve_okOrPanics _)) fun stop => ?_
  refine (htype entry.exceptionType (by simp [ExceptionTableEntry.references])).bind fun exceptionType => ?_
  refine (Blames.optionMapM hfilter).bind fun filter => ?_
  refine Blames.bind (.of_okOrPanics (resolveRange_okOrPanics _ _)) fun «catch» => ?_
  refine Blames.bind (.of_okOrPanics (.optionMapM (resolveRange_okOrPanics _))) fun «finally» => ?_
  exact Blames.bind (.of_okOrPanics (.optionMapM (resolveRange_okOrPanics _))) fun fault => .pure _

private theorem methodBody_blames (m : Method) : Blames (compileMethodBody currentTy m) (m.Lacks currentTy) := by
  have htype : ∀ ty, .type ty ∈ m.references → Blames (compileTypeReference ty) (m.Lacks currentTy) :=
    fun ty h => (compileTypeReference_blames ty).mono fun _ he => .reference h (.type he)
  refine (addString_blames _).bind fun name => ?_
  refine Blames.bind (Blames.bind (.mapM fun ty hty => htype ty ?_) fun types => .pure _) fun attr => ?_
  · simp [Method.references, hty]
  refine Blames.bind (.mapM fun p hp => (htype p.ty ?_).bind fun ty => .pure _) fun args => ?_
  · simp only [Method.references, List.mem_append, List.mem_map]
    exact .inl (.inr ⟨p, hp, rfl⟩)
  refine (htype m.returnType (by simp [Method.references])).bind fun returnType => ?_
  refine Blames.bind (.mapM fun s hs => ?_) fun instructions => ?_
  · exact (compileStatement_blames s).mono fun e he => .statement hs he
  refine Blames.bind (.mapM fun entry hentry => (entry_blames entry).mono ?_) fun table => .pure _
  rintro e ⟨r, hr, he⟩
  refine .reference ?_ he
  simp only [Method.references, List.mem_append, List.mem_cons, List.mem_flatMap]
  exact .inr (.inr ⟨entry, hentry, hr⟩)

theorem compileMethod_blames (i : UInt32) (m : Method) :
    Blames (compileMethod currentTy i m) (m.Lacks currentTy) := by
  refine Blames.bind (.of_okOrPanics checkIndex_okOrPanics) fun _ => ?_
  refine Blames.bind ?_ fun _ => (methodBody_blames m).zoom _ _
  unfold implement
  cases himpl : m.impl with
  | none => exact .pure _
  | some p =>
    refine Blames.bind (.modify _) fun _ => Blames.bind (.zoom ?_ _ _) fun r => ?_
    · refine (compileMethodReference_blames _ false p.2).mono fun e he => .reference ?_ he
      simp [Method.references, himpl]
    · split
      · exact .modify _
      · exact .panic

omit [CompilerService] [AssemblyBuilder] in
private theorem TypeBuilder.run_eq_err {α : Type} {p : TypeBuilder α} {a a' : Assembly} {e : BuildError}
    (h : p.run a = (.err e, a')) : ∃ s, p ⟨a, [], 0⟩ = (.err e, s) :=
  ⟨_, run_of_fst (congrArg Prod.fst h)⟩

private theorem methodsAlone_blames (methods : List Method) :
    Blames (compileMethodsAlone currentTy methods) fun e => ∃ m ∈ methods, m.Lacks currentTy e := by
  refine .mapM fun x hx a e a' he => ?_
  have hmem : x.1 ∈ methods := List.fst_mem_of_mem_zipIdx hx
  obtain ⟨s, herr⟩ := TypeBuilder.run_eq_err he
  exact ⟨x.1, hmem, compileMethod_blames _ x.1 _ e s herr⟩

/-! ### Types -/

private theorem field_type_blames {t : TypeDef} {fields : List Field} (h : ∀ f ∈ fields, f.ty ∈ t.references) :
    Blames (fields.mapM compileField) t.Lacks := by
  refine .mapM fun f hf => (addString_blames _).bind fun name => ?_
  exact ((compileTypeReference_blames f.ty).mono fun e he => .reference (h f hf) he).bind fun ty => .pure _

private theorem compileClassHead_blames (d : ClassDef) : Blames (compileClassHead d) (TypeDef.class d).Lacks := by
  refine Blames.bind ((addString_blames _).zoom _ _) fun name => Blames.bind (.zoom ?_ _ _) fun parent => ?_
  · refine .optionMapM fun r hr => (compileTypeReference_blames r).mono fun e he => .reference ?_ he
    simp [TypeDef.references, Option.mem_def.1 hr]
  refine Blames.bind (.mapM fun x hx => ?_) fun methods => ?_
  · exact (compileMethod_blames _ x.1).mono fun e he => .method (List.fst_mem_of_mem_zipIdx hx) he
  refine Blames.bind (.zoom (field_type_blames fun f hf => ?_) _ _) fun fields => .pure _
  simp only [TypeDef.references, List.mem_append, List.mem_map]
  exact .inl (.inr ⟨f, hf, rfl⟩)

private theorem compileClass_blames (order : EntryOrder) (d : ClassDef) :
    Blames (compileClass order d) (TypeDef.class d).Lacks := by
  intro a e a' he
  rw [compileClass_eq] at he
  obtain ⟨s', herr⟩ := TypeBuilder.run_eq_err he
  rcases bind_eq_err.1 herr with herr | ⟨mk, s, hhead, herr⟩
  · exact compileClassHead_blames d _ e _ herr
  -- the tables hold interfaces of clauses only
  obtain ⟨-, hfiles, -⟩ := compileClassHead_eq_ok hhead
  rw [bind_of_ok (get_run s)] at herr
  refine Blames.bind (.zoom (.mapM fun entry hentry => ?_) _ _) (fun interfaces => .pure _) s e _ herr
  have hmem : entry ∈ s.implementations := (order.entries_perm _).mem_iff.1 hentry
  obtain ⟨x, hx⟩ := List.exists_mem_of_ne_nil _ ((hfiles.mem_iff entry.1 entry.2).1 hmem).1
  obtain ⟨m, hm, r, himpl, -⟩ := mem_implementing.1 hx
  refine Blames.bind ((compileTypeReference_blames _).mono fun e he => .reference ?_ he) fun target => ?_
  · simp only [TypeDef.references, List.mem_append, List.mem_filterMap]
    exact .inr ⟨m, hm, by rw [himpl]; rfl⟩
  · exact Blames.bind (.unwrap _) fun map => .pure _

theorem compileType_blames (order : EntryOrder) (t : TypeDef) : Blames (compileType order t) t.Lacks := by
  have hpush (bt : Binary.TypeDef) : Blames (pushTypeDef bt) t.Lacks := .modify _
  cases t with
  | «class» d => exact (compileClass_blames order d).bind fun bd => hpush _
  | struct d =>
    refine Blames.bind ((addString_blames _).bind fun name => ?_) fun bd => hpush _
    refine Blames.bind ((methodsAlone_blames d.methods).mono fun e ⟨m, hm, he⟩ => .method hm he) fun methods => ?_
    exact (field_type_blames fun f hf => List.mem_map_of_mem hf).bind fun fields => .pure _
  | interface d =>
    refine Blames.bind ((addString_blames _).bind fun name => ?_) fun bd => hpush _
    refine Blames.bind (.mapM fun r hr => ?_) fun required => ?_
    · exact (compileTypeReference_blames r).mono fun e he => .reference hr he
    exact Blames.bind ((methodsAlone_blames d.methods).mono fun e ⟨m, hm, he⟩ => .method hm he) fun methods =>
      .pure _

/-! ### The build -/

/-- A build that reports an error has built the types up to the first that cannot be built, which has the number of
its place, and the error is true of this type. -/
theorem Compiler.buildImpl_blames {c : Compiler} {orders : Nat → EntryOrder} {a a' : Assembly} {e : BuildError}
    (h : c.buildImpl orders a = (.err e, a')) : ∃ i t, c.file.types[i]? = some t ∧
      (∀ j u, j < i → c.file.types[j]? = some u → c.BuildableAt j u) ∧
        checkedAdd (UInt32.ofNat i) (c.lastIndex.getD 0) = some t.index ∧ ¬t.Buildable ∧ t.Lacks e := by
  obtain ⟨k, a₁, hbefore, ⟨-, hrun⟩ | ⟨t, ht, -, hrun⟩⟩ := c.buildImpl_taken orders a
  · rw [hrun] at h
    cases h
  have hbuildable := (Compiler.buildImpl_ok orders _).of_run hbefore
  have hchecks : OkOrPanics (checkTypeIndex (c.lastIndex.getD 0) k t) := by
    refine OkOrPanics.bind (.unwrap _) fun expected => ?_
    split
    · exact .pure ()
    · exact .panic
  rw [hrun] at h
  refine ⟨k, t, ht, fun j u hj hu => hbuildable j u ((List.getElem?_take_of_lt hj).trans hu), ?_⟩
  rcases bind_eq_err.1 h with h | ⟨_, a₂, hcheck, h⟩
  · exact absurd h hchecks.ne_err
  · refine ⟨(checkTypeIndex_ok _ k t).of_run hcheck, fun hbuildable => ?_, compileType_blames _ t a₂ e a' h⟩
    obtain ⟨_, a₃, hok⟩ := (compileType_ok (orders k) t a₂).2 hbuildable
    rw [hok] at h
    cases h

end Diagnostics

/-- `Compiler.buildImpl_blames` for two classes, the second of which has a parent that is not known. -/
theorem Compiler.buildImpl_blames_parent :
    let types := [TypeDef.class (plainClass "A" 0 none [] []),
      .class (plainClass "B" 1 (some (ownType "C")) [] [])]
    let _ := ownService [] types
    let _ := internBuilder
    let c : Compiler := ⟨⟨types⟩, some 0⟩
    (c.buildImpl (fun _ => .same) ⟨[], [], [], [], []⟩).1 = .err (.typeNotFound (ownType "C")) ∧
      ∃ (i : Nat) (t : TypeDef), c.file.types[i]? = some t ∧ ¬t.Buildable ∧
          t.Lacks (.typeNotFound (ownType "C")) := by
  intro types _ _ c
  have herr : (c.buildImpl (fun _ => .same) ⟨[], [], [], [], []⟩).1 = .err (.typeNotFound (ownType "C")) := by
    decide +kernel
  obtain ⟨i, t, ht, -, -, hnot, hlacks⟩ := Compiler.buildImpl_blames (run_of_fst herr)
  exact ⟨herr, i, t, ht, hnot, hlacks⟩

end PuralinguaIR
