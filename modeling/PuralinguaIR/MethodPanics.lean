import PuralinguaIR.Outcomes
import PuralinguaIR.Resolving

/-!
# What a method panics on

Behind the check of its number a method panics on three things: a character, byte or byte string that is to be
loaded, a location of the exception table that does not fit a machine word, and type arguments of the method it
implements. Each is reached only if everything before it resolves (`Method.Panics`, `rest_ends`).
-/

namespace PuralinguaIR

open Effect Effect.Prog

section Panics

variable [CompilerService]

/-! ### Conditions -/

/-- Contents that cannot be loaded. -/
def LoadableContent.Unloadable : LoadableContent → Prop
  | char _ | byteString _ | byte _ => True
  | _ => False

def Statement.Panics (m : Method) : Statement → Prop
  | load content var => var ∈ m.locals ∧ content.Unloadable
  | _ => False

structure ExceptionTableEntry.HandlersResolve (e : ExceptionTableEntry) : Prop where
  «catch» : rangeResolves e.tryBegin e.catch
  «finally» : ∀ r ∈ e.finally, rangeResolves e.tryBegin r
  fault : ∀ r ∈ e.fault, rangeResolves e.tryBegin r

/-- A location of the entry is out of range, and is computed. -/
def ExceptionTableEntry.Panics (e : ExceptionTableEntry) : Prop :=
  ¬e.tryEnd.Resolves e.tryBegin ∨
    e.exceptionType.Resolves ∧ (∀ f ∈ e.filter, f.1.Resolves ∧ f.2.Resolves (resolveTypeReference f.1) true) ∧
      ¬e.HandlersResolve

/-- The clause of a method names a method of an interface that is known, without type arguments. -/
def Method.ImplResolves (m : Method) : Prop :=
  ∀ c ∈ m.impl, (c.2.index.lookup (resolveTypeReference c.1) false).isSome ∧ c.2.generics = []

/-- The clause of a method names a method of an interface that is known, with type arguments. -/
def Method.ImplPanics (m : Method) : Prop :=
  ∃ c ∈ m.impl, c.2.Resolves (resolveTypeReference c.1) false ∧ c.2.generics ≠ []

/-- The types in the header of a method resolve. -/
structure Method.HeaderResolves (m : Method) : Prop where
  localTypes : ∀ ty ∈ m.attr.localVariableTypes, ty.Resolves
  args : ∀ p ∈ m.args, p.ty.Resolves
  returnType : m.returnType.Resolves

/-- The statements and the exception table of a method resolve. -/
structure Method.PartsResolve (currentTy : TypeInformation) (m : Method) : Prop where
  statements : ∀ s ∈ m.statements, s.Resolves currentTy m
  exceptionTable : ∀ e ∈ m.exceptionTable, e.Resolves

/-- The first statement that does not resolve panics, or all do and the first entry of the exception table that
does not panics. -/
def Method.PartsPanic (currentTy : TypeInformation) (m : Method) : Prop :=
  FirstBad (·.Resolves currentTy m) (·.Panics m) m.statements ∨
    (∀ s ∈ m.statements, s.Resolves currentTy m) ∧
      FirstBad ExceptionTableEntry.Resolves ExceptionTableEntry.Panics m.exceptionTable

/-- What comes behind the check of its number makes a method panic. -/
def Method.Panics (currentTy : TypeInformation) (m : Method) : Prop :=
  m.ImplPanics ∨ m.ImplResolves ∧ m.HeaderResolves ∧ m.PartsPanic currentTy

variable [AssemblyBuilder] {currentTy : TypeInformation} {m : Method}

/-! ### References -/

theorem compileTypeReference_ends (r : TypeReference) : EndsAs (compileTypeReference r) r.Resolves False :=
  .of_returns (compileTypeReference_returns r) compileTypeReference_succeeds fun _ _ _ h =>
    compileTypeReference_resolves h

omit [CompilerService] [AssemblyBuilder] in
theorem compileFieldReference_ends (container : Option TypeInformation) (isStatic : Bool) (r : FieldReference) :
    EndsAs (compileFieldReference container isStatic r) (r.Resolves container isStatic) False :=
  .okOr _ _

theorem compileMethodReference_ends (container : Option TypeInformation) (isStatic : Bool) (r : MethodReference) :
    EndsAs (compileMethodReference container isStatic r) (r.Resolves container isStatic) False := by
  have hgenerics : EndsAs (r.generics.mapM compileTypeReference) (∀ g ∈ r.generics, g.Resolves) False :=
    .mapM_returns fun g _ => compileTypeReference_ends g
  unfold compileMethodReference
  refine EndsAs.bind_returns (.okOr _ _) fun k => ?_
  split
  · rename_i hempty
    exact (EndsAs.pure _).congr (by simp [List.isEmpty_iff.1 hempty]) .rfl
  · refine (hgenerics.bind_returns fun tokens => ?_).congr (by rw [and_true]) .rfl
    exact .of_succeeds (pushMethodSpec_succeeds _)

omit [CompilerService] [AssemblyBuilder] in
theorem mapVariable_ends (x : Identifier) (locals : List Identifier) :
    EndsAs (mapVariable x locals) (x ∈ locals) False :=
  (EndsAs.okOr _ _).congr (by rw [Option.isSome_map]; exact position_isSome) .rfl

omit [CompilerService] [AssemblyBuilder] in
theorem mapM_mapVariable_ends (xs locals : List Identifier) :
    EndsAs (xs.mapM (mapVariable · locals)) (∀ x ∈ xs, x ∈ locals) False :=
  .mapM_returns fun x _ => mapVariable_ends x locals

/-! ### Statements -/

theorem compileLoadContent_ends (content : LoadableContent) : EndsAs (compileLoadContent m content)
    (content.Resolves m ∧ ∀ x ∈ content.operands, x ∈ m.locals) content.Unloadable := by
  cases content with
  | char val => exact EndsAs.panic.congr (by simp [LoadableContent.Resolves]) .rfl
  | byteString val => exact EndsAs.panic.congr (by simp [LoadableContent.Resolves]) .rfl
  | byte val => exact EndsAs.panic.congr (by simp [LoadableContent.Resolves]) .rfl
  | string val =>
    refine ((EndsAs.of_succeeds (addString_succeeds val)).bind_pure _).congr ?_ .rfl
    simp [LoadableContent.Resolves, LoadableContent.operands]
  | static ty f =>
    refine ((compileTypeReference_ends ty).bind_returns fun _ =>
      (compileFieldReference_ends _ true f).bind_pure _).congr ?_ .rfl
    simp [LoadableContent.Resolves, LoadableContent.operands]
  | field container f =>
    have hfield (a : Assembly) (r : RegisterAddr) (a' : Assembly)
        (hr : mapVariable container m.locals a = (.ok r, a')) :
        EndsAs (LoadContent.field r <$> compileFieldReference (resolveVariableTypeByAddr r m) false f)
          (f.Resolves (resolveVariableType container m) false) False := by
      rw [resolveVariableTypeByAddr_eq (mapVariable_eq_ok.1 hr).1]
      exact (compileFieldReference_ends _ _ f).map _
    refine ((mapVariable_ends container m.locals).bind_of _ _ hfield).congr
      ?_ (by simp [LoadableContent.Unloadable])
    simp [LoadableContent.Resolves, LoadableContent.operands, and_comm]
  | size ty =>
    refine ((compileTypeReference_ends ty).bind_pure _).congr ?_ .rfl
    simp [LoadableContent.Resolves, LoadableContent.operands]
  | _ => exact (EndsAs.pure _).congr (by simp [LoadableContent.Resolves, LoadableContent.operands]) .rfl

omit [CompilerService] [AssemblyBuilder] in
theorem compileJumpCondition_ends (condition : JumpCondition) :
    EndsAs (compileJumpCondition m condition) (∀ x ∈ condition.operands, x ∈ m.locals) False := by
  cases condition with
  | unconditional => exact (EndsAs.pure _).congr (by simp [JumpCondition.operands]) .rfl
  | _ => exact ((mapVariable_ends _ _).bind_pure _).congr (by simp [JumpCondition.operands]) .rfl

theorem compileStatement_ends (s : Statement) :
    EndsAs (compileStatement currentTy m s) (s.Resolves currentTy m) (s.Panics m) := by
  have hvar (x : Identifier) := mapVariable_ends x m.locals
  have hargs (xs : List Identifier) := mapM_mapVariable_ends xs m.locals
  have htype := compileTypeReference_ends
  have hmethod := compileMethodReference_ends
  have hfield := compileFieldReference_ends
  cases s
  case' newArray ty len result => cases len
  case load content var =>
    refine ((hvar var).bind fun _ => (compileLoadContent_ends content).bind_pure _).congr ?_ ?_
    · simp only [Statement.Resolves, Statement.operands, Statement.ReferencesResolve, List.forall_mem_cons]
      tauto
    · simp [Statement.Panics]
  case' nop => refine (EndsAs.pure _).congr ?_ .rfl
  case' readPointerTo ptr size destination =>
    refine ((hvar ptr).bind_returns fun _ => (hvar size).bind_returns fun _ =>
      (hvar destination).bind_pure _).congr ?_ .rfl
  case' writePointer source size ptr =>
    refine ((hvar source).bind_returns fun _ => (hvar size).bind_returns fun _ =>
      (hvar ptr).bind_pure _).congr ?_ .rfl
  case' check kind toCheck result =>
    refine ((hvar result).bind_returns fun _ => (hvar toCheck).bind_pure _).congr ?_ .rfl
  case' newObject ty ctor args result =>
    refine ((htype ty).bind_returns fun _ => (hmethod _ false ctor).bind_returns fun _ =>
      (hargs args).bind_returns fun _ => (hvar result).bind_pure _).congr ?_ .rfl
  case' newArray.dynamic ty result len =>
    refine ((htype ty).bind_returns fun _ => (hvar result).bind_returns fun _ =>
      (hvar len).bind_pure _).congr ?_ .rfl
  case' newArray.static ty result len =>
    refine ((htype ty).bind_returns fun _ => (hvar result).bind_pure _).congr ?_ .rfl
  case' instanceCall val method args result =>
    refine ((hvar val).bind_returns fun _ => (hmethod _ false method).bind_returns fun _ =>
      (hargs args).bind_returns fun _ => (hvar result).bind_pure _).congr ?_ .rfl
  case' staticCall ty method args result =>
    refine ((htype ty).bind_returns fun _ => (hmethod _ true method).bind_returns fun _ =>
      (hargs args).bind_returns fun _ => (hvar result).bind_pure _).congr ?_ .rfl
  case' interfaceCall val interface method args result =>
    refine ((hvar val).bind_returns fun _ => (htype interface).bind_returns fun _ =>
      (hmethod _ false method).bind_returns fun _ => (hargs args).bind_returns fun _ =>
      (hvar result).bind_pure _).congr ?_ .rfl
  case' nonPurusCall config fPointer args result =>
    refine ((hvar fPointer).bind_returns fun _ => (hvar config).bind_returns fun _ =>
      (hargs args).bind_returns fun _ => (hvar result).bind_pure _).congr ?_ .rfl
  case' setField val container field =>
    refine ((hvar val).bind_returns fun _ => (hvar container).bind_returns fun _ =>
      (hfield _ false field).bind_pure _).congr ?_ .rfl
  case' setThisField val field =>
    refine ((hvar val).bind_returns fun _ => (hfield _ false field).bind_pure _).congr ?_ .rfl
  case' setStaticField val ty field =>
    refine ((hvar val).bind_returns fun _ => (htype ty).bind_returns fun _ =>
      (hfield _ true field).bind_pure _).congr ?_ .rfl
  case' throw val =>
    refine ((hvar val).bind_pure _).congr ?_ .rfl
  case' returnVal val =>
    refine ((hvar val).bind_pure _).congr ?_ .rfl
  case' jump condition ty val =>
    refine ((compileJumpCondition_ends condition).bind_pure _).congr ?_ .rfl
  -- the conditions differ in their order
  all_goals
    simp only [Statement.Resolves, Statement.operands, Statement.ReferencesResolve, List.forall_mem_cons,
      List.forall_mem_append, List.not_mem_nil]
    tauto

/-! ### Exception tables -/

omit [CompilerService] [AssemblyBuilder] in
theorem resolve_ends (loc : ExceptionLoc) (begin : UInt64) :
    EndsAs (loc.resolve begin) (loc.Resolves begin) (¬loc.Resolves begin) := by
  refine ⟨resolve_succeeds, fun h a => ⟨a, ?_⟩, fun h h' => absurd h h'⟩
  obtain ⟨hrel, hlarge⟩ := Classical.not_imp.1 h
  rw [ExceptionLoc.resolve, if_pos hrel, if_neg hlarge]
  rfl

omit [CompilerService] [AssemblyBuilder] in
theorem resolveRange_ends (begin : UInt64) (range : ExceptionLoc × ExceptionLoc) :
    EndsAs (resolveRange begin range) (rangeResolves begin range) (¬rangeResolves begin range) := by
  refine ((resolve_ends range.1 begin).bind fun _ => (resolve_ends range.2 begin).bind_pure _).congr .rfl ?_
  rw [rangeResolves]
  tauto

omit [CompilerService] [AssemblyBuilder] in
theorem optionRange_ends (begin : UInt64) (range : Option (ExceptionLoc × ExceptionLoc)) :
    EndsAs (range.mapM (resolveRange begin)) (∀ r ∈ range, rangeResolves begin r)
      (¬∀ r ∈ range, rangeResolves begin r) :=
  (EndsAs.optionMapM fun r _ => resolveRange_ends begin r).congr .rfl (by simp)

theorem compileFilter_ends (f : TypeReference × MethodReference) :
    EndsAs (compileFilter f) (f.1.Resolves ∧ f.2.Resolves (resolveTypeReference f.1) true) False :=
  (compileTypeReference_ends f.1).bind_returns fun _ => (compileMethodReference_ends _ true f.2).bind_pure _

theorem compileExceptionTableEntry_ends (e : ExceptionTableEntry) :
    EndsAs (compileExceptionTableEntry e) e.Resolves e.Panics := by
  have hfilter : EndsAs (e.filter.mapM compileFilter)
      (∀ f ∈ e.filter, f.1.Resolves ∧ f.2.Resolves (resolveTypeReference f.1) true) False :=
    (EndsAs.optionMapM fun f _ => compileFilter_ends f).congr .rfl (by simp)
  refine ((resolve_ends e.tryEnd e.tryBegin).bind fun _ =>
      (compileTypeReference_ends e.exceptionType).bind fun _ =>
    hfilter.bind fun _ => (resolveRange_ends e.tryBegin e.catch).bind fun _ =>
      (optionRange_ends e.tryBegin e.finally).bind fun _ =>
        (optionRange_ends e.tryBegin e.fault).bind_pure _).congr ?_ ?_
  · constructor
    · rintro ⟨hend, htype, hfilter, hcatch, hfinally, hfault⟩
      exact ⟨hend, htype, hfilter, hcatch, hfinally, hfault⟩
    · rintro ⟨hend, htype, hfilter, hcatch, hfinally, hfault⟩
      exact ⟨hend, htype, hfilter, hcatch, hfinally, hfault⟩
  · have hhandlers : e.HandlersResolve ↔ rangeResolves e.tryBegin e.catch ∧
        (∀ r ∈ e.finally, rangeResolves e.tryBegin r) ∧ ∀ r ∈ e.fault, rangeResolves e.tryBegin r :=
      ⟨fun h => ⟨h.catch, h.finally, h.fault⟩, fun ⟨h₁, h₂, h₃⟩ => ⟨h₁, h₂, h₃⟩⟩
    rw [ExceptionTableEntry.Panics, hhandlers]
    tauto

/-! ### Methods -/

theorem compileMethodBody_ends : EndsAs (compileMethodBody currentTy m)
    (m.HeaderResolves ∧ m.PartsResolve currentTy) (m.HeaderResolves ∧ m.PartsPanic currentTy) := by
  have hattr : EndsAs (m.attr.tryMapTypes compileTypeReference) (∀ ty ∈ m.attr.localVariableTypes, ty.Resolves)
      False :=
    (EndsAs.mapM_returns fun ty _ => compileTypeReference_ends ty).bind_pure _
  have hargs : EndsAs (m.args.mapM compileParameter) (∀ p ∈ m.args, p.ty.Resolves) False :=
    .mapM_returns fun p _ => (compileTypeReference_ends p.ty).bind_pure _
  have hstatements : EndsAs (m.statements.mapM (compileStatement currentTy m))
      (∀ s ∈ m.statements, s.Resolves currentTy m) _ := .mapM fun s _ => compileStatement_ends s
  have htable : EndsAs (m.exceptionTable.mapM compileExceptionTableEntry) (∀ e ∈ m.exceptionTable, e.Resolves) _ :=
    .mapM fun e _ => compileExceptionTableEntry_ends e
  refine ((EndsAs.of_succeeds (addString_succeeds m.name.var)).bind fun _ => hattr.bind fun _ =>
      hargs.bind fun _ =>
    (compileTypeReference_ends m.returnType).bind fun _ => hstatements.bind fun _ => htable.bind_pure _).congr
      ?_ ?_
  · constructor
    · rintro ⟨-, hlocals, hargs, hret, hstatements, htable⟩
      exact ⟨⟨hlocals, hargs, hret⟩, hstatements, htable⟩
    · rintro ⟨⟨hlocals, hargs, hret⟩, hstatements, htable⟩
      exact ⟨trivial, hlocals, hargs, hret, hstatements, htable⟩
  · have hheader : m.HeaderResolves ↔ (∀ ty ∈ m.attr.localVariableTypes, ty.Resolves) ∧
        (∀ p ∈ m.args, p.ty.Resolves) ∧ m.returnType.Resolves :=
      ⟨fun h => ⟨h.localTypes, h.args, h.returnType⟩, fun ⟨h₁, h₂, h₃⟩ => ⟨h₁, h₂, h₃⟩⟩
    rw [hheader, Method.PartsPanic]
    tauto

theorem implement_ends : EndsAs (implement m) m.ImplResolves m.ImplPanics := by
  unfold implement
  cases himpl : m.impl with
  | none =>
    exact (EndsAs.pure ()).congr (by simp [Method.ImplResolves, himpl]) (by simp [Method.ImplPanics, himpl])
  | some clause =>
    obtain ⟨ty, r⟩ := clause
    have href := (compileMethodReference_ends (resolveTypeReference ty) false r).zoom TypeState.assembly
      fun assembly s => { s with assembly }
    refine ((EndsAs.modify _).bind fun _ =>
      href.bind_of (r.generics = []) (r.generics ≠ []) fun s token s' h => ?_).congr ?_ ?_
    · -- a token of a method without type arguments is no specification
      obtain ⟨k, -, ⟨hgenerics, rfl, -⟩ | ⟨hgenerics, htoken, -⟩⟩ :=
        compileMethodReference_cases (onAssembly_run h).1
      · exact (EndsAs.modify _).congr (iff_of_true trivial hgenerics) (iff_of_false id fun h => h hgenerics)
      · rw [htoken]
        exact EndsAs.panic.congr (iff_of_false id hgenerics) (iff_of_true trivial hgenerics)
    · simp only [Method.ImplResolves, himpl, Option.mem_some_iff, forall_eq', MethodReference.Resolves, true_and]
      constructor
      · rintro ⟨⟨hlookup, -⟩, hgenerics⟩
        exact ⟨hlookup, hgenerics⟩
      · rintro ⟨hlookup, hgenerics⟩
        exact ⟨⟨hlookup, by simp [hgenerics]⟩, hgenerics⟩
    · simp [Method.ImplPanics, himpl]

/-- What comes behind the check of the number of a method. -/
theorem rest_ends (currentTy : TypeInformation) (m : Method) :
    EndsAs (implement m >>= fun _ => onAssembly (compileMethodBody currentTy m))
    (m.ImplResolves ∧ m.HeaderResolves ∧ m.PartsResolve currentTy) (m.Panics currentTy) :=
  implement_ends.bind fun _ => compileMethodBody_ends.zoom _ _

end Panics

end PuralinguaIR
