import PuralinguaIR.Agreement
import PuralinguaIR.Build

/-!
# How a build ends

The compiler writes into the tables of the assembly and puts the indices it gets into the entries it makes, but
it never decides anything by them. So the end of a build, and its error when there is one, depends on the loaded
file, on what the service knows and on the order of the interface tables: not on how the tables of the assembly
are kept (`AssemblyBuilder`), nor on what they hold before (`Compiler.buildImpl_end`).
-/

namespace PuralinguaIR

open Effect Effect.Prog

/-- Whatever the assemblies hold, two parts of the compiler end in the same way, with related values. -/
abbrev SameEnd {α β : Type} (V : α → β → Prop) (p : Builder α) (q : Builder β) : Prop :=
  Agrees (fun _ _ => True) Eq V p q

/-- The same with any values. -/
abbrev SameVerdict {α β : Type} (p : Builder α) (q : Builder β) : Prop := SameEnd (fun _ _ => True) p q

section Verdicts

variable {A B : AssemblyBuilder}

/-! ### Tables -/

theorem addString_verdict (s : String) : SameVerdict (@addString A s) (@addString B s) :=
  fun _ _ _ => ⟨.ok trivial, trivial⟩

theorem addTypeRef_verdict (r r' : TypeRef) : SameVerdict (@addTypeRef A r) (@addTypeRef B r') :=
  fun _ _ _ => ⟨.ok trivial, trivial⟩

theorem pushTypeSpec_verdict (spec spec' : TypeSpec) : SameVerdict (pushTypeSpec spec) (pushTypeSpec spec') :=
  fun _ _ _ => ⟨.ok trivial, trivial⟩

/-- The tokens are alike, and when they are numbers of methods, the same number. -/
def MethodToken.SameMethod (t t' : MethodToken) : Prop := t.ty = t'.ty ∧ (t.ty = .method → t.index = t'.index)

theorem pushMethodSpec_end (spec spec' : MethodSpec) :
    SameEnd MethodToken.SameMethod (pushMethodSpec spec) (pushMethodSpec spec') :=
  fun _ _ _ => ⟨.ok ⟨rfl, nofun⟩, trivial⟩

/-! ### References -/

theorem okOr_end {α : Type} (e : BuildError) (o : Option α) : SameEnd Eq (okOr e o) (okOr e o) :=
  .okOr rfl (by cases o <;> constructor; rfl)

variable [CompilerService]

mutual

theorem compileTypeReference_verdict (r : TypeReference) :
    SameVerdict (@compileTypeReference _ A r) (@compileTypeReference _ B r) := by
  cases r with
  | common assemblyName name index generics =>
    unfold compileTypeReference
    refine (okOr_end _ _).andThen fun id => ?_
    split
    · exact .pure trivial
    refine (addString_verdict _).andAny fun assembly assembly' => ?_
    refine (addTypeRef_verdict _ _).andAny fun index index' => ?_
    split
    · exact .pure trivial
    · refine (compileTypeReferences_verdict generics).andAny fun tokens tokens' => ?_
      exact pushTypeSpec_verdict _ _
  | methodGeneric name index =>
    unfold compileTypeReference
    exact .pure trivial
  | typeGeneric name index =>
    unfold compileTypeReference
    exact .pure trivial

theorem compileTypeReferences_verdict (rs : List TypeReference) :
    SameVerdict (@compileTypeReferences _ A rs) (@compileTypeReferences _ B rs) := by
  cases rs with
  | nil =>
    unfold compileTypeReferences
    exact .pure trivial
  | cons r rs =>
    unfold compileTypeReferences
    refine (compileTypeReference_verdict r).andAny fun token token' => ?_
    exact (compileTypeReferences_verdict rs).andAny fun tokens tokens' => .pure trivial

end

theorem compileMethodReference_end (container : Option TypeInformation) (isStatic : Bool) (r : MethodReference) :
    SameEnd MethodToken.SameMethod (@compileMethodReference _ A container isStatic r)
      (@compileMethodReference _ B container isStatic r) := by
  unfold compileMethodReference
  refine (okOr_end _ _).andThen fun index => ?_
  split
  · exact .pure ⟨rfl, fun _ => rfl⟩
  · refine (Agrees.mapM_same compileTypeReference_verdict _).andAny fun generics generics' => ?_
    exact pushMethodSpec_end _ _

theorem compileMethodReference_verdict (container : Option TypeInformation) (isStatic : Bool)
    (r : MethodReference) :
    SameVerdict (@compileMethodReference _ A container isStatic r)
    (@compileMethodReference _ B container isStatic r) :=
  (compileMethodReference_end container isStatic r).mono fun _ _ _ => trivial

theorem compileField_verdict (field : Field) :
    SameVerdict (@compileField _ A field) (@compileField _ B field) := by
  refine (addString_verdict _).andAny fun name name' => ?_
  exact (compileTypeReference_verdict _).andAny fun ty ty' => .pure trivial

/-! ### Statements -/

section Statements

variable {α β : Type}

omit [CompilerService] in
/-- A variable, and then the next part, which may use its register. -/
theorem variable_verdict (x : Identifier) (m : Method) {f : RegisterAddr → Builder α}
    {g : RegisterAddr → Builder β} (hf : ∀ r, SameVerdict (f r) (g r)) :
    SameVerdict (mapVariable x m.locals >>= f) (mapVariable x m.locals >>= g) :=
  (okOr_end _ _).andThen hf

omit [CompilerService] in
/-- The arguments and the result of a call. -/
theorem args_verdict (args : List Identifier) (result : Identifier) (m : Method)
    (f : List RegisterAddr → RegisterAddr → α) (g : List RegisterAddr → RegisterAddr → β) :
    SameVerdict (do
      let args ← args.mapM (mapVariable · m.locals)
      let result ← mapVariable result m.locals
      (pure (f args result) : Builder α)) (do
      let args ← args.mapM (mapVariable · m.locals)
      let result ← mapVariable result m.locals
      (pure (g args result) : Builder β)) := by
  refine (Agrees.mapM_same (fun _ => okOr_end _ _) args).andAny fun addrs addrs' => ?_
  exact variable_verdict result m fun output => .pure trivial

theorem compileLoadContent_verdict (m : Method) (content : LoadableContent) :
    SameVerdict (@compileLoadContent _ A m content) (@compileLoadContent _ B m content) := by
  cases content with
  | string val => exact (addString_verdict val).andAny fun index index' => .pure trivial
  | char val | byteString val | byte val => exact .panic
  | static ty field =>
    refine (compileTypeReference_verdict ty).andAny fun token token' => ?_
    exact (okOr_end _ _).andThen fun index => .pure trivial
  | field container field =>
    refine variable_verdict container m fun addr => ?_
    exact (okOr_end _ _).andThen fun index => .pure trivial
  | size ty => exact (compileTypeReference_verdict ty).andAny fun token token' => .pure trivial
  | _ => exact .pure trivial

omit [CompilerService] in
theorem compileJumpCondition_verdict (m : Method) (condition : JumpCondition) :
    SameVerdict (compileJumpCondition m condition) (compileJumpCondition m condition) := by
  cases condition with
  | unconditional => exact .pure trivial
  | ifTrue val => exact variable_verdict val m fun addr => .pure trivial
  | checkSuccess kind toCheck | checkFailure kind toCheck =>
    exact variable_verdict toCheck m fun addr => .pure trivial

theorem compileStatement_verdict (currentTy : TypeInformation) (m : Method) (s : Statement) :
    SameVerdict (@compileStatement _ A currentTy m s) (@compileStatement _ B currentTy m s) := by
  cases s with
  | load content var =>
    refine variable_verdict var m fun addr => ?_
    exact (compileLoadContent_verdict m content).andAny fun load load' => .pure trivial
  | readPointerTo ptr size destination =>
    refine variable_verdict ptr m fun ptrAddr => ?_
    refine variable_verdict size m fun sizeAddr => ?_
    exact variable_verdict destination m fun output => .pure trivial
  | writePointer source size ptr =>
    refine variable_verdict source m fun sourceAddr => ?_
    refine variable_verdict size m fun sizeAddr => ?_
    exact variable_verdict ptr m fun ptrAddr => .pure trivial
  | check kind toCheck result =>
    refine variable_verdict result m fun output => ?_
    exact variable_verdict toCheck m fun addr => .pure trivial
  | newObject ty ctor args result =>
    refine (compileTypeReference_verdict ty).andAny fun token token' => ?_
    refine (compileMethodReference_verdict _ _ ctor).andAny fun ctorName ctorName' => ?_
    exact args_verdict args result m _ _
  | newArray elementTy len result =>
    refine (compileTypeReference_verdict elementTy).andAny fun elementType elementType' => ?_
    refine variable_verdict result m fun output => ?_
    cases len with
    | static len => exact .pure trivial
    | dynamic len => exact variable_verdict len m fun lenAddr => .pure trivial
  | instanceCall val method args result =>
    refine variable_verdict val m fun valAddr => ?_
    refine (compileMethodReference_verdict _ _ method).andAny fun token token' => ?_
    exact args_verdict args result m _ _
  | staticCall ty method args result =>
    refine (compileTypeReference_verdict ty).andAny fun ty ty' => ?_
    refine (compileMethodReference_verdict _ _ method).andAny fun token token' => ?_
    exact args_verdict args result m _ _
  | interfaceCall val interface method args result =>
    refine variable_verdict val m fun valAddr => ?_
    refine (compileTypeReference_verdict interface).andAny fun interface interface' => ?_
    refine (compileMethodReference_verdict _ _ method).andAny fun token token' => ?_
    exact args_verdict args result m _ _
  | nonPurusCall config fPointer args result =>
    refine variable_verdict fPointer m fun pointerAddr => ?_
    refine variable_verdict config m fun configAddr => ?_
    exact args_verdict args result m _ _
  | setField val container field =>
    refine variable_verdict val m fun valAddr => ?_
    refine variable_verdict container m fun containerAddr => ?_
    exact (okOr_end _ _).andThen fun index => .pure trivial
  | setThisField val field =>
    refine variable_verdict val m fun valAddr => ?_
    exact (okOr_end _ _).andThen fun index => .pure trivial
  | setStaticField val ty field =>
    refine variable_verdict val m fun valAddr => ?_
    refine (compileTypeReference_verdict ty).andAny fun token token' => ?_
    exact (okOr_end _ _).andThen fun index => .pure trivial
  | throw val | returnVal val => exact variable_verdict val m fun addr => .pure trivial
  | jump condition ty val =>
    exact (compileJumpCondition_verdict m condition).andAny fun compiled compiled' => .pure trivial
  | nop => exact .pure trivial

end Statements

/-! ### Exception tables -/

omit [CompilerService] in
theorem ExceptionLoc.resolve_end (loc : ExceptionLoc) (begin : UInt64) :
    SameEnd Eq (loc.resolve begin) (loc.resolve begin) := by
  unfold ExceptionLoc.resolve
  split
  · split
    · exact .pure rfl
    · exact .panic
  · exact .pure rfl

omit [CompilerService] in
theorem resolveRange_verdict (tryBegin : UInt64) (range : ExceptionLoc × ExceptionLoc) :
    SameVerdict (resolveRange tryBegin range) (resolveRange tryBegin range) := by
  refine (range.1.resolve_end _).andThen fun start => ?_
  exact (range.2.resolve_end _).andThen fun stop => .pure trivial

theorem compileFilter_verdict (filter : TypeReference × MethodReference) :
    SameVerdict (@compileFilter _ A filter) (@compileFilter _ B filter) := by
  refine (compileTypeReference_verdict _).andAny fun ty ty' => ?_
  exact (compileMethodReference_verdict _ _ _).andAny fun method method' => .pure trivial

theorem compileExceptionTableEntry_verdict (entry : ExceptionTableEntry) :
    SameVerdict (@compileExceptionTableEntry _ A entry) (@compileExceptionTableEntry _ B entry) := by
  have hrange := Agrees.optionMapM (resolveRange_verdict entry.tryBegin)
  refine (entry.tryEnd.resolve_end _).andThen fun stop => ?_
  refine (compileTypeReference_verdict _).andAny fun exceptionType exceptionType' => ?_
  refine (Agrees.optionMapM compileFilter_verdict _).andAny fun filter filter' => ?_
  refine (resolveRange_verdict _ _).andAny fun range range' => ?_
  refine (hrange entry.finally).andAny fun onFinally onFinally' => ?_
  exact (hrange entry.fault).andAny fun onFault onFault' => .pure trivial

/-! ### Methods -/

/-- The compiler has come to the same tables of interfaces and the same number of overriding methods. -/
def SameTables (s t : TypeState) : Prop :=
  s.implementations = t.implementations ∧ s.overrideCount = t.overrideCount

omit [CompilerService] in
theorem onAssembly_end {α β : Type} {V : α → β → Prop} {p : Builder α} {q : Builder β} (h : SameEnd V p q) :
    Agrees SameTables Eq V (onAssembly p) (onAssembly q) :=
  .zoom (fun _ _ _ => trivial) (fun _ _ _ _ hst _ => hst) h

omit [CompilerService] in
/-- Both sides change the tables in the same way. -/
theorem modify_end {f : Implementations → Implementations} :
    Agrees SameTables (Eq (α := BuildError)) (fun _ _ => True)
      (modify fun s => { s with implementations := f s.implementations })
      (modify fun s => { s with implementations := f s.implementations }) :=
  .modify fun _ _ hst => ⟨congrArg f hst.1, hst.2⟩

omit [CompilerService] in
theorem unwrap_end {σ τ α : Type} {R : σ → τ → Prop} (o : Option α) :
    Agrees R (Eq (α := BuildError)) Eq (unwrap o) (unwrap o) :=
  .unwrap (by cases o <;> constructor; rfl)

theorem checkIndex_verdict (currentTy : TypeInformation) (currentIndex : UInt32) (m : Method) :
    Agrees SameTables Eq (fun _ _ => True) (checkIndex currentTy currentIndex m)
      (checkIndex currentTy currentIndex m) := by
  unfold checkIndex
  refine Agrees.get.bind fun s t hst => ?_
  rw [hst.2]
  cases m.attr.overrides with
  | none =>
    refine (unwrap_end _).andThen fun expected => ?_
    split
    · exact .pure trivial
    · exact .panic
  | some _ =>
    refine (unwrap_end _).andThen fun overrideCount => ?_
    exact .modify fun s t hst => ⟨hst.1, rfl⟩

theorem implement_verdict (m : Method) :
    Agrees SameTables Eq (fun _ _ => True) (@implement _ A m) (@implement _ B m) := by
  unfold implement
  cases m.impl with
  | none => exact .pure trivial
  | some p =>
    refine modify_end.andAny fun _ _ => ?_
    refine (onAssembly_end (compileMethodReference_end _ _ p.2)).bind ?_
    -- the index is looked at again, but it is the number of a method and not one of the tables'
    rintro ⟨ty, index⟩ ⟨_, index'⟩ ⟨rfl, hindex⟩
    cases ty with
    | method =>
      obtain rfl : index = index' := hindex rfl
      exact modify_end
    | methodSpec => exact .panic

theorem compileMethodBody_verdict (currentTy : TypeInformation) (m : Method) :
    SameVerdict (@compileMethodBody _ A currentTy m) (@compileMethodBody _ B currentTy m) := by
  have hparameter (p : Parameter) : SameVerdict (@compileParameter _ A p) (@compileParameter _ B p) :=
    (compileTypeReference_verdict p.ty).andAny fun ty ty' => .pure trivial
  refine (addString_verdict _).andAny fun name name' => ?_
  refine Agrees.andAny (V := fun _ _ => True) ?_ fun attr attr' => ?_
  · exact (Agrees.mapM_same compileTypeReference_verdict _).andAny fun locals locals' => .pure trivial
  refine (Agrees.mapM_same hparameter _).andAny fun args args' => ?_
  refine (compileTypeReference_verdict _).andAny fun returnType returnType' => ?_
  refine (Agrees.mapM_same (compileStatement_verdict currentTy m) _).andAny fun instructions instructions' => ?_
  exact (Agrees.mapM_same compileExceptionTableEntry_verdict _).andAny fun entries entries' => .pure trivial

theorem compileMethod_verdict (currentTy : TypeInformation) (currentIndex : UInt32) (m : Method) :
    Agrees SameTables Eq (fun _ _ => True) (@compileMethod _ A currentTy currentIndex m)
      (@compileMethod _ B currentTy currentIndex m) := by
  refine (checkIndex_verdict currentTy currentIndex m).andAny fun _ _ => ?_
  refine (implement_verdict m).andAny fun _ _ => ?_
  exact onAssembly_end (compileMethodBody_verdict currentTy m)

/-! ### Types -/

omit [CompilerService] in
theorem TypeBuilder.run_end {α β : Type} {V : α → β → Prop} {p : TypeBuilder α} {q : TypeBuilder β}
    (h : Agrees SameTables Eq V p q) : SameEnd V p.run q.run :=
  fun a b _ => ⟨(h ⟨a, [], 0⟩ ⟨b, [], 0⟩ ⟨rfl, rfl⟩).1, trivial⟩

theorem compileImplementation_verdict (entry : TypeReference × SortedMap UInt32 UInt32) :
    SameVerdict (@compileImplementation _ A entry) (@compileImplementation _ B entry) := by
  refine (compileTypeReference_verdict _).andAny fun target target' => ?_
  exact (unwrap_end _).andThen fun table => .pure trivial

theorem compileMethods_end (currentTy : TypeInformation) (methods : List Method) :
    Agrees SameTables Eq (List.Forall₂ fun _ _ => True) (@compileMethods _ A currentTy methods)
      (@compileMethods _ B currentTy methods) := by
  refine .mapM_same ?_ _
  rintro ⟨m, i⟩
  exact compileMethod_verdict currentTy _ m

theorem compileMethodsAlone_end (currentTy : TypeInformation) (methods : List Method) :
    SameEnd (List.Forall₂ fun _ _ => True) (@compileMethodsAlone _ A currentTy methods)
      (@compileMethodsAlone _ B currentTy methods) := by
  refine .mapM_same ?_ _
  rintro ⟨m, i⟩
  exact TypeBuilder.run_end (compileMethod_verdict currentTy _ m)

theorem compileClass_verdict (order : EntryOrder) (d : ClassDef) :
    SameVerdict (@compileClass _ A order d) (@compileClass _ B order d) := by
  refine TypeBuilder.run_end ?_
  refine (onAssembly_end (addString_verdict _)).andAny fun name name' => ?_
  refine (onAssembly_end (Agrees.optionMapM compileTypeReference_verdict _)).andAny fun parent parent' => ?_
  refine (compileMethods_end _ _).andAny fun methods methods' => ?_
  refine (onAssembly_end (Agrees.mapM_same compileField_verdict _)).andAny fun fields fields' => ?_
  refine Agrees.get.bind fun s t hst => ?_
  -- the tables are the same, so their entries come in the same order
  rw [hst.1]
  exact (onAssembly_end (Agrees.mapM_same compileImplementation_verdict _)).andAny fun tables tables' =>
    .pure trivial

theorem compileType_verdict (order : EntryOrder) (t : TypeDef) :
    SameVerdict (@compileType _ A order t) (@compileType _ B order t) := by
  have hpush (bt bt' : Binary.TypeDef) : SameVerdict (pushTypeDef bt) (pushTypeDef bt') :=
    .modify fun _ _ _ => trivial
  cases t with
  | «class» d => exact (compileClass_verdict order d).andAny fun built built' => hpush _ _
  | struct d =>
    refine Agrees.andAny (V := fun _ _ => True) ?_ fun built built' => hpush _ _
    refine (addString_verdict _).andAny fun name name' => ?_
    refine (compileMethodsAlone_end _ _).andAny fun methods methods' => ?_
    exact (Agrees.mapM_same compileField_verdict _).andAny fun fields fields' => .pure trivial
  | interface d =>
    refine Agrees.andAny (V := fun _ _ => True) ?_ fun built built' => hpush _ _
    refine (addString_verdict _).andAny fun name name' => ?_
    refine (Agrees.mapM_same compileTypeReference_verdict _).andAny fun required required' => ?_
    exact (compileMethodsAlone_end _ _).andAny fun methods methods' => .pure trivial

/-! ### The build -/

/-- How a build ends depends neither on the code that keeps the tables nor on the assembly it starts with: it
succeeds on both, panics on both or reports the same error on both. -/
theorem Compiler.buildImpl_end (c : Compiler) (orders : Nat → EntryOrder) (a b : Assembly) :
    (@Compiler.buildImpl _ A orders c a).1 = (@Compiler.buildImpl _ B orders c b).1 := by
  have hbuild : SameEnd Eq (@Compiler.buildImpl _ A orders c) (@Compiler.buildImpl _ B orders c) := by
    refine .forM (X := Eq) ?_ (List.forall₂_same.2 fun _ _ => rfl)
    rintro x _ rfl
    refine Agrees.andAny (V := fun _ _ => True) ?_ fun _ _ => ?_
    · refine (unwrap_end _).andThen fun expected => ?_
      split
      · exact .pure trivial
      · exact .panic
    · exact (compileType_verdict (orders x.2) x.1).mono fun _ _ _ => rfl
  exact (hbuild a b trivial).1.eq

end Verdicts

end PuralinguaIR
