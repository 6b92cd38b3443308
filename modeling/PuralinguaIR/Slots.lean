import PuralinguaIR.Registers

/-!
# Slots of fields and methods

Which field and which method an instruction names. A field is written through a variable at the slot the
current type gives its name and read at the slot the declared type of the variable gives it, so the two agree
exactly when these types do (`setField_load_iff`). An interface is called at the slot the type of the value
gives the name of the method, while an implementation is filed at the slot the interface gives it
(`interfaceCall_slot_iff`).
-/

namespace PuralinguaIR

open Effect Effect.Prog

section Slots

variable [CompilerService] [AssemblyBuilder] {currentTy : TypeInformation} {m : Method}

/-! ### Tables of implementations -/

omit [CompilerService] [AssemblyBuilder] in
theorem Implementations.update_update (ty : TypeReference)
    (f g : SortedMap UInt32 UInt32 → SortedMap UInt32 UInt32)
    (tables : Implementations) : (tables.update ty f).update ty g = tables.update ty (g ∘ f) := by
  induction tables with
  | nil => simp [update]
  | cons entry rest ih =>
    obtain ⟨ty', map⟩ := entry
    by_cases h : ty' = ty
    · simp [update, h]
    · simp [update, h, ih]

/-- A method is filed at the slot of the method of the interface it names. -/
theorem implement_run {x : Method} {ty : TypeReference} {r : MethodReference} (hx : x.impl = some (ty, r))
    {s s' : TypeState} (h : implement x s = (.ok (), s')) :
    ∃ k, r.index.lookup (resolveTypeReference ty) false = some k ∧ r.generics = [] ∧
      s' = { s with implementations := s.implementations.update ty (·.insert k x.index) } := by
  unfold implement at h
  rw [hx] at h
  obtain ⟨_, s₁, hentry, hrun⟩ := bind_eq_ok.1 h
  cases hentry
  obtain ⟨token, s₂, hcompile, hinsert⟩ := bind_eq_ok.1 hrun
  obtain ⟨htoken, hs₂⟩ := onAssembly_run hcompile
  obtain ⟨k, hk, ⟨hgen, rfl, ha⟩ | ⟨-, hty, -⟩⟩ := compileMethodReference_cases htoken
  · refine ⟨k, hk, hgen, ?_⟩
    cases hinsert
    rw [hs₂, ha]
    exact congrArg (TypeState.mk s.assembly · s.overrideCount)
      (Implementations.update_update ty id _ s.implementations)
  · rw [hty] at hinsert
    cases hinsert

/-! ### Calls of interfaces -/

/-- The slot a token that has just been compiled names; a method with type arguments is named by the last entry.
-/
def MethodToken.slot (token : MethodToken) (a : Assembly) : Option UInt32 :=
  match token.ty with
  | .method => some token.index
  | .methodSpec => a.methodSpecs.getLast?.map (·.m)

theorem compileMethodReference_slot {container : Option TypeInformation} {isStatic : Bool} {r : MethodReference}
    {a a' : Assembly} {token : MethodToken} (h : compileMethodReference container isStatic r a = (.ok token, a')) :
    token.slot a' = r.index.lookup container isStatic := by
  obtain ⟨k, hk, ⟨-, rfl, -⟩ | ⟨-, hty, tokens, hlast⟩⟩ := compileMethodReference_cases h
  · exact hk.symm
  · rw [MethodToken.slot, hty, hlast, hk]
    rfl

/-- The slot in a compiled call of an interface is that of the method the interface gives this name, under which
implementations of the method are filed, exactly when the type of the value gives the name the same slot. -/
theorem interfaceCall_slot_iff {val result : Identifier} {interface : TypeReference} {name : Identifier}
    {generics : List TypeReference} {args : List Identifier} {a a' : Assembly} {i : Instruction}
    (h : compileStatement currentTy m (.interfaceCall val interface ⟨.byName name, generics⟩ args result) a =
      (.ok i, a')) :
    ((∃ token v method as r k, i = .call (.interfaceCall token v method as r) ∧ method.slot a' = some k ∧
        (ItemRef.byName name).lookup (resolveTypeReference interface) false = some k) ↔
      (ItemRef.byName name).lookup (resolveVariableType val m) false =
        (ItemRef.byName name).lookup (resolveTypeReference interface) false) ∧
    ∀ (x : Method) (s s' : TypeState), x.impl = some (interface, ⟨.byName name, []⟩) →
      implement x s = (.ok (), s') →
      ∃ k, (ItemRef.byName name).lookup (resolveTypeReference interface) false = some k ∧
        s'.implementations = s.implementations.update interface (·.insert k x.index) := by
  refine ⟨?_, fun x s s' hx hs => ?_⟩
  · obtain ⟨v, a₁, -, h⟩ := bind_eq_ok.1 h
    obtain ⟨token, a₂, -, h⟩ := bind_eq_ok.1 h
    obtain ⟨method, a₃, hmethod, h⟩ := bind_eq_ok.1 h
    obtain ⟨as, a₄, has, h⟩ := bind_eq_ok.1 h
    obtain ⟨r, a₅, hr, hpure⟩ := bind_eq_ok.1 h
    have hslot := compileMethodReference_slot hmethod
    obtain ⟨k, hk, -⟩ := compileMethodReference_cases hmethod
    obtain ⟨-, rfl⟩ := mapM_mapVariable_run has
    obtain ⟨-, rfl⟩ := mapVariable_eq_ok.1 hr
    cases hpure
    dsimp only at hk hslot
    rw [hk] at hslot ⊢
    constructor
    · rintro ⟨_, _, method', _, _, k', hi, hslot', hinterface⟩
      cases hi
      rw [hinterface, ← hslot, hslot']
    · intro hinterface
      exact ⟨token, v, method, as, r, k, rfl, hslot, hinterface.symm⟩
  · obtain ⟨k, hk, -, rfl⟩ := implement_run hx hs
    exact ⟨k, hk, rfl⟩

/-! ### Fields through variables -/

omit [AssemblyBuilder] in
theorem resolveVariableTypeByAddr_eq {x : Identifier} {r : RegisterAddr} (h : position m.locals x = some r.addr) :
    resolveVariableTypeByAddr r m = resolveVariableType x m := by
  rw [resolveVariableType, h]
  rfl

omit [CompilerService] [AssemblyBuilder] in
private theorem mapVariable_of_mem {x : Identifier} {locals : List Identifier} (h : x ∈ locals) :
    ∃ r : RegisterAddr, position locals x = some r.addr ∧ ∀ a, mapVariable x locals a = (.ok r, a) := by
  obtain ⟨i, hi⟩ := Option.isSome_iff_exists.1 (position_isSome.2 h)
  exact ⟨⟨i⟩, hi, fun a => mapVariable_eq_ok.2 ⟨hi, rfl⟩⟩

omit [CompilerService] [AssemblyBuilder] in
private theorem mapVariable_of_not_mem {x : Identifier} {locals : List Identifier} (h : x ∉ locals)
    (a : Assembly) : mapVariable x locals a = (.err (.varNotFound x.var), a) := by
  have hnone : position locals x = none := by
    rw [← Option.not_isSome_iff_eq_none, position_isSome]
    exact h
  rw [mapVariable, hnone]
  rfl

variable (currentTy) in
/-- Writing a field of a local variable looks the field up in the current type. -/
private theorem setField_run {x v : Identifier} (hx : x ∈ m.locals) (hv : v ∈ m.locals) (f : Identifier)
    (a : Assembly) :
    ∃ rx rv, position m.locals v = some rv.addr ∧ compileStatement currentTy m (.setField x v (.byName f)) a =
      (((FieldReference.byName f).lookup (some currentTy) false).elim (.err (.fieldNotFound (.byName f)))
        fun k => .ok (.set (.common rx rv k)), a) := by
  obtain ⟨rx, -, hrx⟩ := mapVariable_of_mem hx
  obtain ⟨rv, hpos, hrv⟩ := mapVariable_of_mem hv
  refine ⟨rx, rv, hpos, bind_step (hrx a) (bind_step (hrv a) ?_)⟩
  cases hk : (FieldReference.byName f).lookup (some currentTy) false with
  | some k => exact bind_step (okOr_eq_ok.2 ⟨hk, rfl⟩) rfl
  | none => exact bind_of_err (by rw [compileFieldReference, hk]; rfl)

variable (currentTy) in
/-- Loading a field of a local variable looks the field up in the declared type of the variable. -/
private theorem loadField_run {y v : Identifier} (hy : y ∈ m.locals) (hv : v ∈ m.locals) (f : Identifier)
    (a : Assembly) :
    ∃ ry rv, position m.locals v = some rv.addr ∧ compileStatement currentTy m (.load (.field v (.byName f)) y) a =
      (((FieldReference.byName f).lookup (resolveVariableType v m) false).elim (.err (.fieldNotFound (.byName f)))
        fun k => .ok (.load ry (.field rv k)), a) := by
  obtain ⟨ry, -, hry⟩ := mapVariable_of_mem hy
  obtain ⟨rv, hpos, hrv⟩ := mapVariable_of_mem hv
  refine ⟨ry, rv, hpos, bind_step (hry a) ?_⟩
  rw [← resolveVariableTypeByAddr_eq hpos]
  cases hk : (FieldReference.byName f).lookup (resolveVariableTypeByAddr rv m) false with
  | some k => exact bind_step (bind_step (hrv a) (bind_step (okOr_eq_ok.2 ⟨hk, rfl⟩) rfl)) rfl
  | none => exact bind_of_err (bind_step (hrv a) (bind_of_err (by rw [compileFieldReference, hk]; rfl)))

/-- A field of a variable is written and read at one slot, that of the field in the declared type of the
variable, or both times it is not found, exactly when the current type gives the name of the field the slot the
declared type gives it, and the other two names are local variables. -/
theorem setField_load_iff {v : Identifier} (hv : v ∈ m.locals) (x y f : Identifier) (a : Assembly) :
    ((∃ k val container addr,
        (compileStatement currentTy m (.setField x v (.byName f)) a).1 = .ok (.set (.common val container k)) ∧
          (compileStatement currentTy m (.load (.field v (.byName f)) y) a).1 =
            .ok (.load addr (.field container k)) ∧
          (FieldReference.byName f).lookup (resolveVariableType v m) false = some k) ∨
      (compileStatement currentTy m (.setField x v (.byName f)) a).1 = .err (.fieldNotFound (.byName f)) ∧
        (compileStatement currentTy m (.load (.field v (.byName f)) y) a).1 = .err (.fieldNotFound (.byName f))) ↔
      x ∈ m.locals ∧ y ∈ m.locals ∧
        (FieldReference.byName f).lookup (some currentTy) false =
          (FieldReference.byName f).lookup (resolveVariableType v m) false := by
  by_cases hx : x ∈ m.locals
  swap
  · have hset : (compileStatement currentTy m (.setField x v (.byName f)) a).1 = .err (.varNotFound x.var) :=
      congrArg Prod.fst (bind_of_err (mapVariable_of_not_mem hx a))
    simp [hset, hx]
  by_cases hy : y ∈ m.locals
  swap
  · have hload : (compileStatement currentTy m (.load (.field v (.byName f)) y) a).1 = .err (.varNotFound y.var) :=
      congrArg Prod.fst (bind_of_err (mapVariable_of_not_mem hy a))
    simp [hload, hy]
  obtain ⟨rx, rv, hpos, hset⟩ := setField_run currentTy hx hv f a
  obtain ⟨ry, rv', hpos', hload⟩ := loadField_run currentTy hy hv f a
  -- the container is in one register both times
  obtain rfl : rv = rv' := by
    cases rv
    cases rv'
    exact congrArg RegisterAddr.mk (Option.some.inj (hpos.symm.trans hpos'))
  rw [hset, hload]
  -- the two answers of the service decide everything else
  cases (FieldReference.byName f).lookup (some currentTy) false with
  | none =>
    cases (FieldReference.byName f).lookup (resolveVariableType v m) false with
    | none => simp [hx, hy]
    | some k' => simp
  | some k =>
    cases (FieldReference.byName f).lookup (resolveVariableType v m) false with
    | none => simp
    | some k' =>
      constructor
      · rintro (⟨k'', val, container, addr, hs, -, hk⟩ | ⟨hs, -⟩)
        · cases hs
          exact ⟨hx, hy, hk.symm⟩
        · cases hs
      · rintro ⟨-, -, hk⟩
        cases hk
        exact Or.inl ⟨k, rx, rv, ry, rfl, rfl, rfl⟩

end Slots

/-! ### Types that give a name different slots -/

/-- A type of the assembly `A` that declares the given names, each at the slot beside it. -/
def declaring (name : String) (id : UInt32) (specific : TypeSpecificAttr) (names : List (String × UInt32)) :
    TypeInformation :=
  let self : TypeReference := .common "A" name (some id) []
  { assemblyName := "A", name, id, attr := ⟨.public, specific⟩, genericCount := .exact 0, parent := none,
    implementedInterfaces := [], fields := names.map fun n => ⟨n.1, n.2, ⟨.public, false⟩, self⟩,
    methods := names.map fun n => ⟨n.1, n.2, ⟨.public, false, false, none, []⟩, [], self⟩,
    providerName := COMPILER_ID }

/-- A method with a local variable `v` of the type `T` of the assembly `A`. -/
private def withLocal : Method :=
  ⟨⟨.public, false, false, none, [.common "A" "T" none []]⟩, .platformDefault, 0, ⟨"f"⟩, [], false, [],
    .common "A" "T" none [], none, [⟨"v"⟩], [], []⟩

/-- `interfaceCall_slot_iff` where the type and the interface agree. -/
theorem interfaceCall_slot_iff_agree :
    let I := declaring "I" 0 .interface [("m", 0)]
    let T := declaring "T" 1 (.class false false) [("m", 0), ("n", 1)]
    let _ := serviceOf [I, T]
    let i : Instruction := .call (.interfaceCall ⟨.typeDef, 0⟩ ⟨0⟩ ⟨.method, 0⟩ [] ⟨0⟩)
    ∃ token v method as r k, i = .call (.interfaceCall token v method as r) ∧
      method.slot ⟨[], [], [], [], []⟩ = some k ∧
        (ItemRef.byName ⟨"m"⟩).lookup (resolveTypeReference (.common "A" "I" none [])) false = some k := by
  intro I T _ i
  let _ := internBuilder
  have hrun : compileStatement T withLocal (.interfaceCall ⟨"v"⟩ (.common "A" "I" none []) ⟨.byName ⟨"m"⟩, []⟩
      [] ⟨"v"⟩) ⟨[], [], [], [], []⟩ = (.ok i, ⟨[], [], [], [], []⟩) := by decide
  exact ((interfaceCall_slot_iff hrun).1).2 (by decide)

/-- The type of the value declares another method first, so its slot for the name is not that of the interface. -/
theorem interfaceCall_slot_other :
    let I := declaring "I" 0 .interface [("m", 0)]
    let T := declaring "T" 1 (.class false false) [("n", 0), ("m", 1)]
    let _ := serviceOf [I, T]
    let _ := internBuilder
    (compileStatement T withLocal (.interfaceCall ⟨"v"⟩ (.common "A" "I" none []) ⟨.byName ⟨"m"⟩, []⟩ [] ⟨"v"⟩)
        ⟨[], [], [], [], []⟩).1 = .ok (.call (.interfaceCall ⟨.typeDef, 0⟩ ⟨0⟩ ⟨.method, 1⟩ [] ⟨0⟩)) ∧
      (ItemRef.byName ⟨"m"⟩).lookup (resolveTypeReference (.common "A" "I" none [])) false = some 0 := by
  decide

/-- `setField_load_iff` where the current type is the declared type. -/
theorem setField_load_iff_agree :
    let T := declaring "T" 1 (.class false false) [("f", 0), ("g", 1)]
    let _ := serviceOf [T]
    let _ := internBuilder
    (∃ k val container addr,
        (compileStatement T withLocal (.setField ⟨"v"⟩ ⟨"v"⟩ (.byName ⟨"g"⟩)) ⟨[], [], [], [], []⟩).1 =
            .ok (.set (.common val container k)) ∧
          (compileStatement T withLocal (.load (.field ⟨"v"⟩ (.byName ⟨"g"⟩)) ⟨"v"⟩) ⟨[], [], [], [], []⟩).1 =
              .ok (.load addr (.field container k)) ∧
            (FieldReference.byName ⟨"g"⟩).lookup (resolveVariableType ⟨"v"⟩ withLocal) false = some k) ∨
      (compileStatement T withLocal (.setField ⟨"v"⟩ ⟨"v"⟩ (.byName ⟨"g"⟩)) ⟨[], [], [], [], []⟩).1 =
          .err (.fieldNotFound (.byName ⟨"g"⟩)) ∧
        (compileStatement T withLocal (.load (.field ⟨"v"⟩ (.byName ⟨"g"⟩)) ⟨"v"⟩) ⟨[], [], [], [], []⟩).1 =
          .err (.fieldNotFound (.byName ⟨"g"⟩)) := by
  intro T _ _
  have hv : (⟨"v"⟩ : Identifier) ∈ withLocal.locals := by decide
  exact (setField_load_iff hv ⟨"v"⟩ ⟨"v"⟩ ⟨"g"⟩ ⟨[], [], [], [], []⟩).2 ⟨hv, hv, by decide⟩

/-- The current type has the field at another slot than the declared type of the variable. -/
theorem setField_load_other :
    let S := declaring "S" 0 (.class false false) [("g", 0), ("f", 1)]
    let T := declaring "T" 1 (.class false false) [("f", 0), ("g", 1)]
    let _ := serviceOf [S, T]
    let _ := internBuilder
    (compileStatement S withLocal (.setField ⟨"v"⟩ ⟨"v"⟩ (.byName ⟨"f"⟩)) ⟨[], [], [], [], []⟩).1 =
        .ok (.set (.common ⟨0⟩ ⟨0⟩ 1)) ∧
      (compileStatement S withLocal (.load (.field ⟨"v"⟩ (.byName ⟨"f"⟩)) ⟨"v"⟩) ⟨[], [], [], [], []⟩).1 =
        .ok (.load ⟨0⟩ (.field ⟨0⟩ 0)) := by
  decide

end PuralinguaIR
