import PuralinguaIR.Agreement
import PuralinguaIR.Build
import PuralinguaIR.Query

/-!
# Names of local variables

The local variables of a method are known to the compiler by their places only: a file whose methods name their
variables otherwise, each method in its own way, is built into the same assembly, or the build ends in the same way
and leaves the same assembly.
-/

namespace PuralinguaIR

open Effect Effect.Prog

/-! ### Renaming -/

section Rename

variable (ρ : Identifier → Identifier)

def LoadableContent.rename : LoadableContent → LoadableContent
  | .field container f => .field (ρ container) f
  | content => content

def ArrayLen.rename : ArrayLen → ArrayLen
  | .static len => .static len
  | .dynamic len => .dynamic (ρ len)

def JumpCondition.rename : JumpCondition → JumpCondition
  | .ifTrue val => .ifTrue (ρ val)
  | .checkSuccess kind toCheck => .checkSuccess kind (ρ toCheck)
  | .checkFailure kind toCheck => .checkFailure kind (ρ toCheck)
  | .unconditional => .unconditional

/-- The statement with other names for its variables. -/
def Statement.rename : Statement → Statement
  | .load content var => .load (content.rename ρ) (ρ var)
  | .readPointerTo ptr size destination => .readPointerTo (ρ ptr) (ρ size) (ρ destination)
  | .writePointer source size ptr => .writePointer (ρ source) (ρ size) (ρ ptr)
  | .check kind toCheck result => .check kind (ρ toCheck) (ρ result)
  | .newObject ty ctor args result => .newObject ty ctor (args.map ρ) (ρ result)
  | .newArray elementTy len result => .newArray elementTy (len.rename ρ) (ρ result)
  | .instanceCall val method args result => .instanceCall (ρ val) method (args.map ρ) (ρ result)
  | .staticCall ty method args result => .staticCall ty method (args.map ρ) (ρ result)
  | .interfaceCall val interface method args result =>
    .interfaceCall (ρ val) interface method (args.map ρ) (ρ result)
  | .nonPurusCall config fPointer args result => .nonPurusCall (ρ config) (ρ fPointer) (args.map ρ) (ρ result)
  | .setField val container field => .setField (ρ val) (ρ container) field
  | .setThisField val field => .setThisField (ρ val) field
  | .setStaticField val ty field => .setStaticField (ρ val) ty field
  | .throw val => .throw (ρ val)
  | .returnVal val => .returnVal (ρ val)
  | .jump condition ty val => .jump (condition.rename ρ) ty val
  | .nop => .nop

def Method.rename (m : Method) : Method :=
  { m with locals := m.locals.map ρ, statements := m.statements.map (Statement.rename ρ) }

end Rename

/-- The methods differ in the names of their variables, different names being renamed to different ones. -/
def Method.Renames (m m' : Method) : Prop := ∃ ρ : Identifier → Identifier, Function.Injective ρ ∧ m' = m.rename ρ

/-- The definitions differ in the names of variables, which each method may rename in its own way. -/
inductive TypeDef.Renames : TypeDef → TypeDef → Prop where
  | «class» {d ms} : List.Forall₂ Method.Renames d.methods ms →
      TypeDef.Renames (.class d) (.class { d with methods := ms })
  | struct {d ms} : List.Forall₂ Method.Renames d.methods ms →
      TypeDef.Renames (.struct d) (.struct { d with methods := ms })
  | interface {d ms} : List.Forall₂ Method.Renames d.methods ms →
      TypeDef.Renames (.interface d) (.interface { d with methods := ms })

/-- Errors that differ in the name of a variable. -/
inductive BuildError.Renames : BuildError → BuildError → Prop where
  | refl (e) : BuildError.Renames e e
  | varNotFound (x y) : BuildError.Renames (.varNotFound x) (.varNotFound y)

instance instReflBuildErrorRenames : Std.Refl BuildError.Renames := ⟨.refl⟩

/-- Two parts of the compiler leave equal states and give equal values, or end in the same way. -/
abbrev SameUpToNames {σ α : Type} (p q : Prog σ BuildError α) : Prop := Agrees Eq BuildError.Renames Eq p q

/-! ### Variables -/

section Variables

variable {ρ : Identifier → Identifier} (hρ : Function.Injective ρ)
include hρ

theorem position_rename (locals : List Identifier) (x : Identifier) :
    position (locals.map ρ) (ρ x) = position locals x := by
  have hvar (y z : Identifier) : (y.var == z.var) = decide (y = z) := by
    cases y
    cases z
    simp only [Identifier.mk.injEq, beq_eq_decide]
  unfold position
  rw [List.findIdx?_map]
  congr 1
  funext y
  rw [Function.comp_apply, hvar, hvar, decide_eq_decide]
  exact hρ.eq_iff

theorem mapVariable_rename (x : Identifier) (m : Method) :
    SameUpToNames (mapVariable x m.locals) (mapVariable (ρ x) (m.rename ρ).locals) := by
  unfold mapVariable Method.rename
  rw [position_rename hρ]
  cases position m.locals x with
  | none => exact .fail (.varNotFound _ _)
  | some i => exact .pure rfl

/-- A variable, and then the next part. -/
theorem variable_rename {α : Type} (x : Identifier) (m : Method) {f g : RegisterAddr → Builder α}
    (hf : ∀ r, SameUpToNames (f r) (g r)) :
    SameUpToNames (mapVariable x m.locals >>= f) (mapVariable (ρ x) (m.rename ρ).locals >>= g) :=
  (mapVariable_rename hρ x m).andThen hf

theorem variables_rename {α : Type} (xs : List Identifier) (m : Method) {f g : List RegisterAddr → Builder α}
    (hf : ∀ rs, SameUpToNames (f rs) (g rs)) :
    SameUpToNames (xs.mapM (mapVariable · m.locals) >>= f)
      ((xs.map ρ).mapM (mapVariable · (m.rename ρ).locals) >>= g) := by
  refine Agrees.andThen (.mapM_eq (X := fun x y => y = ρ x) ?_ ?_) hf
  · rintro x _ rfl
    exact mapVariable_rename hρ x m
  · exact List.forall₂_map_right_iff.2 (List.forall₂_same.2 fun _ _ => rfl)

/-- The arguments and the result of a call. -/
theorem args_rename {α : Type} (args : List Identifier) (result : Identifier) (m : Method)
    (f : List RegisterAddr → RegisterAddr → α) :
    SameUpToNames (do
      let args ← args.mapM (mapVariable · m.locals)
      let result ← mapVariable result m.locals
      (pure (f args result) : Builder α)) (do
      let args ← (args.map ρ).mapM (mapVariable · (m.rename ρ).locals)
      let result ← mapVariable (ρ result) (m.rename ρ).locals
      pure (f args result)) := by
  refine variables_rename hρ args m fun addrs => ?_
  exact variable_rename hρ result m fun output => .pure rfl

variable [CompilerService]

theorem resolveVariableType_rename (x : Identifier) (m : Method) :
    resolveVariableType (ρ x) (m.rename ρ) = resolveVariableType x m := by
  show (position (m.locals.map ρ) (ρ x)).bind _ = (position m.locals x).bind _
  rw [position_rename hρ]
  rfl

/-! ### Statements -/

variable [AssemblyBuilder] (m : Method)

theorem compileLoadContent_rename (content : LoadableContent) :
    SameUpToNames (compileLoadContent m content) (compileLoadContent (m.rename ρ) (content.rename ρ)) := by
  cases content with
  | field container field => exact variable_rename hρ container m fun addr => .refl _
  | _ => exact .refl _

omit [CompilerService] [AssemblyBuilder] in
theorem compileJumpCondition_rename (condition : JumpCondition) :
    SameUpToNames (compileJumpCondition m condition) (compileJumpCondition (m.rename ρ) (condition.rename ρ)) := by
  cases condition with
  | unconditional => exact .pure rfl
  | ifTrue val => exact variable_rename hρ val m fun addr => .pure rfl
  | checkSuccess kind toCheck => exact variable_rename hρ toCheck m fun addr => .pure rfl
  | checkFailure kind toCheck => exact variable_rename hρ toCheck m fun addr => .pure rfl

theorem compileStatement_rename (currentTy : TypeInformation) (s : Statement) :
    SameUpToNames (compileStatement currentTy m s) (compileStatement currentTy (m.rename ρ) (s.rename ρ)) := by
  cases s with
  | load content var =>
    refine variable_rename hρ var m fun addr => ?_
    exact (compileLoadContent_rename hρ m content).andThen fun load => .pure rfl
  | readPointerTo ptr size destination =>
    refine variable_rename hρ ptr m fun ptrAddr => ?_
    refine variable_rename hρ size m fun sizeAddr => ?_
    exact variable_rename hρ destination m fun output => .pure rfl
  | writePointer source size ptr =>
    refine variable_rename hρ source m fun sourceAddr => ?_
    refine variable_rename hρ size m fun sizeAddr => ?_
    exact variable_rename hρ ptr m fun ptrAddr => .pure rfl
  | check kind toCheck result =>
    refine variable_rename hρ result m fun output => ?_
    exact variable_rename hρ toCheck m fun addr => .pure rfl
  | newObject ty ctor args result =>
    refine (Agrees.refl _).andThen fun token => ?_
    refine (Agrees.refl _).andThen fun ctorName => ?_
    exact args_rename hρ args result m _
  | newArray elementTy len result =>
    refine (Agrees.refl _).andThen fun elementType => ?_
    refine variable_rename hρ result m fun output => ?_
    cases len with
    | static len => exact .pure rfl
    | dynamic len => exact variable_rename hρ len m fun lenAddr => .pure rfl
  | instanceCall val method args result =>
    refine variable_rename hρ val m fun valAddr => ?_
    rw [resolveVariableType_rename hρ]
    refine (Agrees.refl _).andThen fun method => ?_
    exact args_rename hρ args result m _
  | staticCall ty method args result =>
    refine (Agrees.refl _).andThen fun token => ?_
    refine (Agrees.refl _).andThen fun method => ?_
    exact args_rename hρ args result m _
  | interfaceCall val interface method args result =>
    refine variable_rename hρ val m fun valAddr => ?_
    refine (Agrees.refl _).andThen fun interface => ?_
    rw [resolveVariableType_rename hρ]
    refine (Agrees.refl _).andThen fun method => ?_
    exact args_rename hρ args result m _
  | nonPurusCall config fPointer args result =>
    refine variable_rename hρ fPointer m fun pointerAddr => ?_
    refine variable_rename hρ config m fun configAddr => ?_
    exact args_rename hρ args result m _
  | setField val container field =>
    refine variable_rename hρ val m fun valAddr => ?_
    exact variable_rename hρ container m fun containerAddr => .refl _
  | setThisField val field => exact variable_rename hρ val m fun valAddr => .refl _
  | setStaticField val ty field => exact variable_rename hρ val m fun valAddr => .refl _
  | throw val => exact variable_rename hρ val m fun addr => .pure rfl
  | returnVal val => exact variable_rename hρ val m fun addr => .pure rfl
  | jump condition ty val =>
    exact (compileJumpCondition_rename hρ m condition).andThen fun compiled => .pure rfl
  | nop => exact .pure rfl

theorem compileMethodBody_rename (currentTy : TypeInformation) :
    SameUpToNames (compileMethodBody currentTy m) (compileMethodBody currentTy (m.rename ρ)) := by
  have hstatements : List.Forall₂ (fun s s' => s' = s.rename ρ) m.statements
      (m.statements.map (Statement.rename ρ)) :=
    List.forall₂_map_right_iff.2 (List.forall₂_same.2 fun _ _ => rfl)
  refine (Agrees.refl _).andThen fun name => ?_
  refine (Agrees.refl _).andThen fun attr => ?_
  refine (Agrees.refl _).andThen fun args => ?_
  refine (Agrees.refl _).andThen fun returnType => ?_
  refine Agrees.andThen ?_ fun instructions => .refl _
  refine .mapM_eq ?_ hstatements
  rintro s _ rfl
  exact compileStatement_rename hρ m currentTy s

end Variables

/-! ### Methods -/

theorem onAssembly_same {α : Type} {p q : Builder α} (h : SameUpToNames p q) :
    SameUpToNames (onAssembly p) (onAssembly q) := by
  refine .zoom (fun _ _ hst => congrArg TypeState.assembly hst) ?_ h
  rintro s _ a _ rfl rfl
  rfl

theorem run_same {α : Type} {p q : TypeBuilder α} (h : SameUpToNames p q) : SameUpToNames p.run q.run := by
  rintro a _ rfl
  obtain ⟨hends, hstates⟩ := h ⟨a, [], 0⟩ _ rfl
  exact ⟨hends, congrArg TypeState.assembly hstates⟩

section Builds

variable [CompilerService] [AssemblyBuilder]

theorem compileMethod_renames {m m' : Method} (h : m.Renames m') (currentTy : TypeInformation) (i : UInt32) :
    SameUpToNames (compileMethod currentTy i m) (compileMethod currentTy i m') := by
  obtain ⟨ρ, hρ, rfl⟩ := h
  refine (Agrees.refl (checkIndex currentTy i m)).andThen fun _ => ?_
  refine (Agrees.refl (implement m)).andThen fun _ => ?_
  exact onAssembly_same (compileMethodBody_rename hρ m currentTy)

omit [CompilerService] [AssemblyBuilder] in
private theorem forall₂_zipIdx {α : Type} {P : α → α → Prop} {xs ys : List α} (h : List.Forall₂ P xs ys)
    (n : Nat) : List.Forall₂ (fun x y => P x.1 y.1 ∧ x.2 = y.2) (xs.zipIdx n) (ys.zipIdx n) := by
  induction h generalizing n with
  | nil => exact .nil
  | cons h _ ih => exact .cons ⟨h, rfl⟩ (ih (n + 1))

section Methods

variable {ms ms' : List Method} (h : List.Forall₂ Method.Renames ms ms')
include h

theorem compileMethods_renames (currentTy : TypeInformation) :
    SameUpToNames (compileMethods currentTy ms) (compileMethods currentTy ms') := by
  refine .mapM_eq ?_ (forall₂_zipIdx h 0)
  rintro ⟨m, i⟩ ⟨m', _⟩ ⟨hm, rfl⟩
  exact compileMethod_renames hm currentTy _

theorem compileMethodsAlone_renames (currentTy : TypeInformation) :
    SameUpToNames (compileMethodsAlone currentTy ms) (compileMethodsAlone currentTy ms') := by
  refine .mapM_eq ?_ (forall₂_zipIdx h 0)
  rintro ⟨m, i⟩ ⟨m', _⟩ ⟨hm, rfl⟩
  exact run_same (compileMethod_renames hm currentTy _)

omit [CompilerService] [AssemblyBuilder]

/-- What the methods declare does not name their variables. -/
theorem map_toAbstract_renames : ms'.map Method.toAbstract = ms.map Method.toAbstract := by
  induction h with
  | nil => rfl
  | cons hm _ ih =>
    obtain ⟨ρ, -, rfl⟩ := hm
    exact congrArg₂ List.cons rfl ih

theorem collectImplementedInterfaces_renames :
    collectImplementedInterfaces ms' = collectImplementedInterfaces ms := by
  refine (List.rel_foldl (P := Eq) (R := Method.Renames) ?_ rfl h).symm
  rintro result _ rfl m _ ⟨ρ, -, rfl⟩
  rfl

end Methods

/-! ### Types and files -/

omit [AssemblyBuilder] in
theorem TypeDef.Renames.toAbstract_eq {d d' : TypeDef} (h : d.Renames d') : d'.toAbstract = d.toAbstract := by
  cases h with
  | «class» h | struct h =>
    simp only [TypeDef.toAbstract, ClassDef.toAbstract, StructDef.toAbstract, map_toAbstract_renames h,
      collectImplementedInterfaces_renames h]
  | interface h => simp only [TypeDef.toAbstract, InterfaceDef.toAbstract, map_toAbstract_renames h]

theorem compileType_renames {d d' : TypeDef} (h : d.Renames d') (order : EntryOrder) :
    SameUpToNames (compileType order d) (compileType order d') := by
  have habstract := h.toAbstract_eq
  cases h with
  | @«class» d ms h =>
    have habstract : ({ d with methods := ms } : ClassDef).toAbstract = d.toAbstract := habstract
    refine Agrees.andThen (run_same ?_) fun built => .refl _
    refine (Agrees.refl _).andThen fun name => ?_
    refine (Agrees.refl _).andThen fun parent => ?_
    refine Agrees.andThen ?_ fun methods => .refl _
    rw [habstract]
    exact compileMethods_renames h _
  | @struct d ms h =>
    have habstract : ({ d with methods := ms } : StructDef).toAbstract = d.toAbstract := habstract
    refine Agrees.andThen ?_ fun built => .refl _
    refine (Agrees.refl _).andThen fun name => ?_
    refine Agrees.andThen ?_ fun methods => .refl _
    rw [habstract]
    exact compileMethodsAlone_renames h _
  | @interface d ms h =>
    have habstract : ({ d with methods := ms } : InterfaceDef).toAbstract = d.toAbstract := habstract
    refine Agrees.andThen ?_ fun built => .refl _
    refine (Agrees.refl _).andThen fun name => ?_
    refine (Agrees.refl _).andThen fun required => ?_
    refine Agrees.andThen ?_ fun methods => .refl _
    rw [habstract]
    exact compileMethodsAlone_renames h _

/-- The loaded files differ in the names of variables. -/
structure Compiler.Renames (c c' : Compiler) : Prop where
  lastIndex : c.lastIndex = c'.lastIndex
  types : List.Forall₂ TypeDef.Renames c.file.types c'.file.types

theorem Compiler.Renames.same {c c' : Compiler} (h : c.Renames c') (orders : Nat → EntryOrder) :
    SameUpToNames (c.buildImpl orders) (c'.buildImpl orders) := by
  refine .forM ?_ (forall₂_zipIdx h.types 0)
  rintro ⟨d, i⟩ ⟨d', _⟩ ⟨hd, rfl⟩
  have hindex : d.index = d'.index := by cases hd <;> rfl
  refine Agrees.andThen ?_ fun _ => compileType_renames hd _
  unfold checkTypeIndex
  rw [h.lastIndex, hindex]
  exact .refl _

/-- The names of local variables leave no trace in what is built: files that differ in them are built into the
same assembly, or both builds panic, or both report the same error but for the name of a variable, with the same
assembly left behind. -/
theorem Compiler.buildImpl_renames {c c' : Compiler} (h : c.Renames c') (orders : Nat → EntryOrder)
    (a : Assembly) : Outcome.Alike BuildError.Renames Eq (c.buildImpl orders a).1 (c'.buildImpl orders a).1 ∧
      (c.buildImpl orders a).2 = (c'.buildImpl orders a).2 :=
  h.same orders a a rfl

omit [AssemblyBuilder] in
/-- They leave no trace in what is answered either. -/
theorem Compiler.Renames.query_eq [GenericCounts] {c c' : Compiler} (h : c.Renames c')
    (options : TypeQueryOptions) : c'.query options = c.query options := by
  have htypes : c'.file.types.map TypeDef.toAbstract = c.file.types.map TypeDef.toAbstract := by
    refine List.forall₂_eq_eq_eq ▸ List.forall₂_map_left_iff.2 (List.forall₂_map_right_iff.2 (h.types.flip.imp ?_))
    exact fun _ _ hd => hd.toAbstract_eq
  unfold query
  rw [htypes]

/-- So the service may put the queries to the loaded file, and stands for another one after the renaming. -/
theorem Compiler.Renames.same_served [GenericCounts] {c c' : Compiler} (h : c.Renames c')
    (service : (TypeQueryOptions → List TypeInformation) → CompilerService) (orders : Nat → EntryOrder)
    (a : Assembly) :
    Outcome.Alike BuildError.Renames Eq (@Compiler.buildImpl (service c.query) _ orders c a).1
      (@Compiler.buildImpl (service c'.query) _ orders c' a).1 ∧
      (@Compiler.buildImpl (service c.query) _ orders c a).2 =
      (@Compiler.buildImpl (service c'.query) _ orders c' a).2 := by
  have hservice : service c'.query = service c.query := congrArg service (funext h.query_eq)
  rw [hservice]
  exact @same (service c.query) _ _ _ h orders a a rfl

end Builds

/-- A class with a method that throws its variable. -/
private def throwing (x : String) : ClassDef :=
  let m := plainMethod "m" 0
  plainClass "A" 0 none
    [{ m with attr.localVariableTypes := [ownType "A"], locals := [⟨x⟩], statements := [.throw ⟨x⟩] }] []

/-- `buildImpl_renames` at a variable `x` that is called `y`. -/
theorem Compiler.buildImpl_renames_throw :
    let _ := ownService [] [.class (throwing "x")]
    let _ := internBuilder
    let c (x : String) : Compiler := ⟨⟨[.class (throwing x)]⟩, some 0⟩
    ((c "x").buildImpl (fun _ => .same) ⟨[], [], [], [], []⟩).1 = .ok () ∧
      ((c "x").buildImpl (fun _ => .same) ⟨[], [], [], [], []⟩).2 =
        ((c "y").buildImpl (fun _ => .same) ⟨[], [], [], [], []⟩).2 := by
  intro _ _ c
  have hmethods : List.Forall₂ Method.Renames (throwing "x").methods (throwing "y").methods :=
    .cons ⟨Equiv.swap ⟨"x"⟩ ⟨"y"⟩, Equiv.injective _, by decide +kernel⟩ .nil
  have hrenames : (c "x").Renames (c "y") := ⟨rfl, .cons (.class hmethods) .nil⟩
  exact ⟨by decide +kernel, (buildImpl_renames hrenames _ _).2⟩

end PuralinguaIR
