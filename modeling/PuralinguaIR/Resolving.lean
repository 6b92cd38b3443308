import PuralinguaIR.Slots

/-!
# What can be compiled

A reference resolves when the service and the names in its answers give it a meaning; a statement resolves when
its references do, its names are local variables, and what it loads can be loaded. What resolves is compiled in
every state of the assembly (`compileStatement_succeeds`, `compileMethodBody_succeeds`).
-/

namespace PuralinguaIR

open Effect Effect.Prog

section Resolving

variable [CompilerService]

/-! ### References -/

def TypeReference.Resolves (r : TypeReference) : Prop := r.resolve.isSome

def MethodReference.Resolves (container : Option TypeInformation) (isStatic : Bool) (r : MethodReference) : Prop :=
  (r.index.lookup container isStatic).isSome ∧ ∀ g ∈ r.generics, g.Resolves

def FieldReference.Resolves (container : Option TypeInformation) (isStatic : Bool) (r : FieldReference) : Prop :=
  (r.lookup container isStatic).isSome

theorem TypeReference.resolve_common_eq_some {assemblyName name : String} {index : Option UInt32}
    {generics : List TypeReference} {t : ResolvedType} :
    (common assemblyName name index generics).resolve = some t ↔
      ∃ id ts, (common assemblyName name index generics).id? = some id ∧ resolveAll generics = some ts ∧
        t = .common assemblyName id ts := by
  rw [resolve]
  constructor
  · intro ht
    obtain ⟨id, hid, ht⟩ := Option.bind_eq_some_iff.1 ht
    obtain ⟨ts, hts, ht⟩ := Option.bind_eq_some_iff.1 ht
    exact ⟨id, ts, hid, hts, (Option.some.inj ht).symm⟩
  · rintro ⟨id, ts, hid, hts, rfl⟩
    rw [hid, hts]
    rfl

theorem TypeReference.resolveAll_isSome {rs : List TypeReference} :
    (resolveAll rs).isSome ↔ ∀ r ∈ rs, r.Resolves := by
  constructor
  · intro h r hr
    obtain ⟨ts, hts⟩ := Option.isSome_iff_exists.1 h
    obtain ⟨t, -, ht⟩ := exists_of_forall₂ (resolveAll_eq_some.1 hts) hr
    exact Option.isSome_iff_exists.2 ⟨t, ht⟩
  · intro h
    induction rs with
    | nil => rfl
    | cons r rs ih =>
      obtain ⟨t, ht⟩ := Option.isSome_iff_exists.1 (h r (by simp))
      obtain ⟨ts, hts⟩ := Option.isSome_iff_exists.1 (ih fun r' hr' => h r' (by simp [hr']))
      rw [resolveAll, ht, hts]
      rfl

theorem TypeReference.resolves_common {assemblyName name : String} {index : Option UInt32}
    {generics : List TypeReference} : (common assemblyName name index generics).Resolves ↔
      (common assemblyName name index generics).id?.isSome ∧ ∀ g ∈ generics, g.Resolves := by
  rw [← resolveAll_isSome]
  constructor
  · intro h
    obtain ⟨t, ht⟩ := Option.isSome_iff_exists.1 h
    obtain ⟨id, ts, hid, hts, -⟩ := resolve_common_eq_some.1 ht
    rw [hid, hts]
    exact ⟨rfl, rfl⟩
  · rintro ⟨hid, hts⟩
    obtain ⟨id, hid⟩ := Option.isSome_iff_exists.1 hid
    obtain ⟨ts, hts⟩ := Option.isSome_iff_exists.1 hts
    exact Option.isSome_iff_exists.2 ⟨_, resolve_common_eq_some.2 ⟨id, ts, hid, hts, rfl⟩⟩

/-! ### Statements -/

section Statements

variable (currentTy : TypeInformation) (m : Method)

def LoadableContent.Resolves : LoadableContent → Prop
  | char _ | byteString _ | byte _ => False
  | static ty f => ty.Resolves ∧ f.Resolves (resolveTypeReference ty) Bool.true
  | field container f => f.Resolves (resolveVariableType container m) Bool.false
  | size ty => ty.Resolves
  | _ => True

/-- The references in a statement resolve. -/
def Statement.ReferencesResolve : Statement → Prop
  | load content _ => content.Resolves m
  | newObject ty ctor _ _ => ty.Resolves ∧ ctor.Resolves (resolveTypeReference ty) false
  | newArray ty _ _ => ty.Resolves
  | instanceCall val method _ _ => method.Resolves (resolveVariableType val m) false
  | staticCall ty method _ _ => ty.Resolves ∧ method.Resolves (resolveTypeReference ty) true
  | interfaceCall val interface method _ _ =>
    interface.Resolves ∧ method.Resolves (resolveVariableType val m) false
  | setField _ _ field => field.Resolves (some currentTy) false
  | setThisField _ field => field.Resolves (some currentTy) false
  | setStaticField _ ty field => ty.Resolves ∧ field.Resolves (resolveTypeReference ty) true
  | _ => True

def Statement.Resolves (s : Statement) : Prop :=
  (∀ x ∈ s.operands, x ∈ m.locals) ∧ s.ReferencesResolve currentTy m

end Statements

/-! ### Methods -/

/-- A location whose sum with the beginning of its range is a machine word. -/
def ExceptionLoc.Resolves (begin : UInt64) (loc : ExceptionLoc) : Prop :=
  loc.isRel → loc.loc.toNat + begin.toNat < 2 ^ 64

def rangeResolves (begin : UInt64) (range : ExceptionLoc × ExceptionLoc) : Prop :=
  range.1.Resolves begin ∧ range.2.Resolves begin

structure ExceptionTableEntry.Resolves (e : ExceptionTableEntry) : Prop where
  tryEnd : e.tryEnd.Resolves e.tryBegin
  exceptionType : e.exceptionType.Resolves
  filter : ∀ f ∈ e.filter, f.1.Resolves ∧ f.2.Resolves (resolveTypeReference f.1) true
  «catch» : rangeResolves e.tryBegin e.catch
  «finally» : ∀ r ∈ e.finally, rangeResolves e.tryBegin r
  fault : ∀ r ∈ e.fault, rangeResolves e.tryBegin r

/-- Everything a method is compiled to resolves, and it implements a method of an interface without type
arguments. -/
structure Method.Resolves (currentTy : TypeInformation) (m : Method) : Prop where
  localTypes : ∀ ty ∈ m.attr.localVariableTypes, ty.Resolves
  args : ∀ p ∈ m.args, p.ty.Resolves
  returnType : m.returnType.Resolves
  impl : ∀ ty r, m.impl = some (ty, r) →
    ty.Resolves ∧ r.generics = [] ∧ (r.index.lookup (resolveTypeReference ty) false).isSome
  statements : ∀ s ∈ m.statements, s.Resolves currentTy m
  exceptionTable : ∀ e ∈ m.exceptionTable, e.Resolves

/-! ### Compiling what resolves -/

variable [AssemblyBuilder]

@[grind ←]
theorem compileTypeReference_succeeds {r : TypeReference} (h : r.Resolves) :
    Succeeds (compileTypeReference r) := by
  induction r using TypeReference.nested_induction with
  | common assemblyName name index generics ih =>
    obtain ⟨hid, hgenerics⟩ := TypeReference.resolves_common.1 h
    have hmap : Succeeds (generics.mapM compileTypeReference) := Succeeds.mapM fun g hg => ih g hg (hgenerics g hg)
    rw [compileTypeReference, compileTypeReferences_eq]
    grind
  | methodGeneric name index => exact Succeeds.pure _
  | typeGeneric name index => exact Succeeds.pure _

/-- What is compiled has a meaning. -/
theorem compileTypeReference_resolves {r : TypeReference} {a a' : Assembly} {token : TypeToken}
    (h : compileTypeReference r a = (.ok token, a')) : r.Resolves := by
  induction r using TypeReference.nested_induction generalizing a a' token with
  | common assemblyName name index generics ih =>
    rw [compileTypeReference] at h
    obtain ⟨id, s, hok, hrun⟩ := bind_eq_ok.1 h
    rw [TypeReference.resolves_common, (okOr_eq_ok.1 hok).1]
    refine ⟨rfl, ?_⟩
    split at hrun
    · rename_i hown
      rw [List.isEmpty_iff.1 hown.2]
      exact fun g hg => absurd hg List.not_mem_nil
    obtain ⟨ref, a₁, -, hrun⟩ := bind_eq_ok.1 hrun
    obtain ⟨j, a₂, -, hrun⟩ := bind_eq_ok.1 hrun
    split at hrun
    · rename_i hempty
      rw [List.isEmpty_iff.1 hempty]
      exact fun g hg => absurd hg List.not_mem_nil
    rw [compileTypeReferences_eq] at hrun
    obtain ⟨tokens, a₃, hmap, -⟩ := bind_eq_ok.1 hrun
    intro g hg
    obtain ⟨token', -, s₁, s₂, hg'⟩ := exists_of_forall₂ (forall₂_of_mapM hmap) hg
    exact ih g hg hg'
  | methodGeneric name index => rfl
  | typeGeneric name index => rfl

omit [CompilerService] [AssemblyBuilder] in
@[grind ←]
theorem compileFieldReference_succeeds {container : Option TypeInformation} {isStatic : Bool} {r : FieldReference}
    (h : r.Resolves container isStatic) : Succeeds (compileFieldReference container isStatic r) :=
  Succeeds.okOr h

@[grind ←]
theorem compileMethodReference_succeeds {container : Option TypeInformation} {isStatic : Bool}
    {r : MethodReference}
    (h : r.Resolves container isStatic) : Succeeds (compileMethodReference container isStatic r) := by
  obtain ⟨hindex, hgenerics⟩ := h
  have hmap : Succeeds (r.generics.mapM compileTypeReference) :=
    Succeeds.mapM fun g hg => compileTypeReference_succeeds (hgenerics g hg)
  unfold compileMethodReference
  grind

omit [CompilerService] [AssemblyBuilder] in
@[grind ←]
theorem mapVariable_succeeds {x : Identifier} {locals : List Identifier} (h : x ∈ locals) :
    Succeeds (mapVariable x locals) :=
  Succeeds.okOr (by rw [Option.isSome_map]; exact position_isSome.2 h)

variable {currentTy : TypeInformation} {m : Method}

theorem compileLoadContent_succeeds {content : LoadableContent} (h : content.Resolves m)
    (hlocal : ∀ x ∈ content.operands, x ∈ m.locals) : Succeeds (compileLoadContent m content) := by
  cases content with
  | field container f =>
    intro a
    obtain ⟨r, a₁, hr⟩ := mapVariable_succeeds (hlocal container (by simp [LoadableContent.operands])) a
    have hty := resolveVariableTypeByAddr_eq (mapVariable_eq_ok.1 hr).1
    have hf : f.Resolves (resolveVariableTypeByAddr r m) false := hty ▸ h
    obtain ⟨k, a₂, hk⟩ := compileFieldReference_succeeds hf a₁
    exact ⟨_, _, bind_step hr (bind_step hk rfl)⟩
  | static ty f => grind [compileLoadContent, LoadableContent.Resolves]
  | char val => exact absurd h id
  | byteString val => exact absurd h id
  | byte val => exact absurd h id
  | _ => grind [compileLoadContent, LoadableContent.Resolves]

omit [CompilerService] [AssemblyBuilder] in
theorem compileJumpCondition_succeeds {condition : JumpCondition} (h : ∀ x ∈ condition.operands, x ∈ m.locals) :
    Succeeds (compileJumpCondition m condition) := by
  cases condition <;> grind [compileJumpCondition, JumpCondition.operands]

theorem compileStatement_succeeds {s : Statement} (h : s.Resolves currentTy m) :
    Succeeds (compileStatement currentTy m s) := by
  obtain ⟨hlocal, hrefs⟩ := h
  cases s with
  | load content var =>
    have hcontent := compileLoadContent_succeeds hrefs fun x hx => hlocal x (by simp [Statement.operands, hx])
    have hvar := hlocal var (by simp [Statement.operands])
    grind [compileStatement]
  | newArray ty len result =>
    cases len with
    | dynamic len =>
      simp only [Statement.operands, List.forall_mem_cons] at hlocal
      grind [compileStatement, Statement.ReferencesResolve]
    | static len =>
      simp only [Statement.operands, List.forall_mem_cons] at hlocal
      grind [compileStatement, Statement.ReferencesResolve]
  | jump condition ty val =>
    have hcondition := compileJumpCondition_succeeds hlocal
    grind [compileStatement]
  | _ =>
    simp only [Statement.operands, List.forall_mem_cons, List.forall_mem_append] at hlocal
    grind [compileStatement, Statement.ReferencesResolve]

omit [CompilerService] [AssemblyBuilder] in
theorem resolve_succeeds {loc : ExceptionLoc} {begin : UInt64} (h : loc.Resolves begin) :
    Succeeds (loc.resolve begin) := by
  unfold ExceptionLoc.resolve
  split
  · rename_i hrel
    rw [if_pos (h hrel)]
    exact Succeeds.pure _
  · exact Succeeds.pure _

omit [CompilerService] [AssemblyBuilder] in
theorem resolveRange_succeeds {begin : UInt64} {range : ExceptionLoc × ExceptionLoc}
    (h : rangeResolves begin range) : Succeeds (resolveRange begin range) :=
  Succeeds.bind (resolve_succeeds h.1) fun _ => Succeeds.bind (resolve_succeeds h.2) fun _ => Succeeds.pure _

theorem compileExceptionTableEntry_succeeds {e : ExceptionTableEntry} (h : e.Resolves) :
    Succeeds (compileExceptionTableEntry e) := by
  have hfilter : ∀ f ∈ e.filter, Succeeds (compileFilter f) := fun f hf =>
    Succeeds.bind (compileTypeReference_succeeds (h.filter f hf).1) fun _ =>
      Succeeds.bind (compileMethodReference_succeeds (h.filter f hf).2) fun _ => Succeeds.pure _
  refine Succeeds.bind (resolve_succeeds h.tryEnd) fun stop => ?_
  refine Succeeds.bind (compileTypeReference_succeeds h.exceptionType) fun exceptionType => ?_
  refine Succeeds.bind (Succeeds.optionMapM hfilter) fun filter => ?_
  refine Succeeds.bind (resolveRange_succeeds h.catch) fun «catch» => ?_
  refine Succeeds.bind (Succeeds.optionMapM fun r hr => resolveRange_succeeds (h.finally r hr)) fun «finally» => ?_
  refine Succeeds.bind (Succeeds.optionMapM fun r hr => resolveRange_succeeds (h.fault r hr)) fun fault => ?_
  exact Succeeds.pure _

theorem compileField_succeeds {f : Field} (h : f.ty.Resolves) : Succeeds (compileField f) := by
  unfold compileField
  grind

theorem compileMethodBody_succeeds (h : m.Resolves currentTy) : Succeeds (compileMethodBody currentTy m) := by
  have hattr : Succeeds (m.attr.tryMapTypes compileTypeReference) :=
    Succeeds.bind (Succeeds.mapM fun ty hty => compileTypeReference_succeeds (h.localTypes ty hty)) fun _ =>
      Succeeds.pure _
  have hargs : Succeeds (m.args.mapM compileParameter) := Succeeds.mapM fun p hp =>
    Succeeds.bind (compileTypeReference_succeeds (h.args p hp)) fun _ => Succeeds.pure _
  have hinstr : Succeeds (m.statements.mapM (compileStatement currentTy m)) :=
    Succeeds.mapM fun s hs => compileStatement_succeeds (h.statements s hs)
  have htable : Succeeds (m.exceptionTable.mapM compileExceptionTableEntry) :=
    Succeeds.mapM fun e he => compileExceptionTableEntry_succeeds (h.exceptionTable e he)
  refine Succeeds.bind (addString_succeeds _) fun name => Succeeds.bind hattr fun attr => ?_
  refine Succeeds.bind hargs fun args => ?_
  refine Succeeds.bind (compileTypeReference_succeeds h.returnType) fun returnType => ?_
  exact Succeeds.bind hinstr fun instructions => Succeeds.bind htable fun exceptionTable => Succeeds.pure _

end Resolving

end PuralinguaIR
