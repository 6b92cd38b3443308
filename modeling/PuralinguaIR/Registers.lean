import Mathlib.Data.List.Nodup
import PuralinguaIR.CompileMethod
import PuralinguaIR.Decoding
import PuralinguaIR.LocalVariables

/-!
# Registers

Statements and instructions name the same variables in the same roles. `Statement.Translates` says which
instructions a statement may become, when names are mapped to the registers of a method: every operand keeps its
role, and literals and jump targets stay as they are. A method becomes one such instruction for each statement
(`compileMethod_translates`), and a statement with a name that is no local variable is refused.
-/

namespace PuralinguaIR

open Effect Effect.Prog Reading

/-! ### Local variables -/

theorem position_eq_some {xs : List Identifier} {x : Identifier} {i : Nat} (h : position xs x = some i) :
    xs[i]? = some x := by
  obtain ⟨hi, hx, -⟩ := List.findIdx?_eq_some_iff_getElem.1 h
  rw [List.getElem?_eq_getElem hi, show xs[i] = x from congrArg Identifier.mk (beq_iff_eq.1 hx)]

theorem position_isSome {xs : List Identifier} {x : Identifier} : (position xs x).isSome ↔ x ∈ xs := by
  rw [position, List.findIdx?_isSome, List.any_eq_true]
  constructor
  · rintro ⟨y, hy, hx⟩
    rwa [← show y = x from congrArg Identifier.mk (beq_iff_eq.1 hx)]
  · exact fun h => ⟨x, h, beq_self_eq_true _⟩

theorem mapVariable_eq_ok {x : Identifier} {locals : List Identifier} {a a' : Assembly} {r : RegisterAddr} :
    mapVariable x locals a = (.ok r, a') ↔ position locals x = some r.addr ∧ a' = a := by
  rw [mapVariable, okOr_eq_ok, Option.map_eq_some_iff]
  constructor
  · rintro ⟨⟨i, hi, rfl⟩, ha⟩
    exact ⟨hi, ha⟩
  · rintro ⟨hi, ha⟩
    exact ⟨⟨_, hi, rfl⟩, ha⟩

@[grind ←]
theorem mapVariable_keeps {R : Assembly → Assembly → Prop} [Std.Refl R] (x : Identifier)
    (locals : List Identifier) : Keeps R (mapVariable x locals) :=
  Keeps.okOr _ _

@[grind ←]
theorem mapVariable_returns (x : Identifier) (locals : List Identifier) : Returns (mapVariable x locals) :=
  Returns.okOr _ _

theorem mapVariable_reports {x : Identifier} {locals : List Identifier} (h : x ∉ locals) :
    Reports (mapVariable x locals) := by
  have hnone : position locals x = none := by
    rw [← Option.not_isSome_iff_eq_none, position_isSome]
    exact h
  rw [mapVariable, hnone]
  exact Reports.fail _

/-- The register `r` of a method holds its local variable `x`. -/
structure Method.Holds (m : Method) (x : Identifier) (r : RegisterAddr) : Prop where
  lt : r.addr < m.attr.localVariableTypes.length
  local_eq : m.locals[r.addr]? = some x

theorem Method.Holds.mem {m : Method} {x : Identifier} {r : RegisterAddr} (h : m.Holds x r) : x ∈ m.locals :=
  List.mem_of_getElem? h.local_eq

theorem exists_of_forall₂ {α β : Type} {R : α → β → Prop} {xs : List α} {ys : List β} (h : List.Forall₂ R xs ys)
    {x : α} (hx : x ∈ xs) : ∃ y ∈ ys, R x y := by
  induction h with
  | nil => cases hx
  | cons h _ ih =>
    rcases List.mem_cons.1 hx with rfl | hx
    · exact ⟨_, by simp, h⟩
    · obtain ⟨y, hy, h⟩ := ih hx
      exact ⟨y, by simp [hy], h⟩

private theorem forall₂_mem {m : Method} {xs : List Identifier} {rs : List RegisterAddr}
    (h : List.Forall₂ m.Holds xs rs) : ∀ x ∈ xs, x ∈ m.locals := by
  induction h with
  | nil => simp
  | cons h _ ih =>
    intro x hx
    rcases List.mem_cons.1 hx with rfl | hx
    · exact h.mem
    · exact ih x hx

/-! ### Roles -/

section Roles

variable (m : Method) (strings : List String)

/-- The contents a load may load. -/
inductive LoadableContent.Translates : LoadableContent → LoadContent → Prop where
  | u8 (val) : Translates (.u8 val) (.u8 val)
  | u16 (val) : Translates (.u16 val) (.u16 val)
  | u32 (val) : Translates (.u32 val) (.u32 val)
  | u64 (val) : Translates (.u64 val) (.u64 val)
  | i8 (val) : Translates (.i8 val) (.i8 val)
  | i16 (val) : Translates (.i16 val) (.i16 val)
  | i32 (val) : Translates (.i32 val) (.i32 val)
  | i64 (val) : Translates (.i64 val) (.i64 val)
  | string {val s} : strings[s.index]? = some val → Translates (.string val) (.string s)
  | true : Translates .true .true
  | false : Translates .false .false
  | this : Translates .this .this
  | arg (id) : Translates (.arg id) (.arg id)
  | static (ty field token id) : Translates (.static ty field) (.static token id)
  | field {container r} (field id) : m.Holds container r → Translates (.field container field) (.field r id)
  | size (ty token) : Translates (.size ty) (.typeValueSize token)

inductive JumpCondition.Translates : JumpCondition → InstructionJumpCondition → Prop where
  | unconditional : Translates .unconditional .unconditional
  | ifTrue {x r} : m.Holds x r → Translates (.ifTrue x) (.if r)
  | checkSuccess {x r} : m.Holds x r → Translates (.checkSuccess .allZero x) (.ifCheckSucceeds (.isAllZero r))
  | checkFailure {x r} : m.Holds x r → Translates (.checkFailure .allZero x) (.ifCheckFails (.isAllZero r))

/-- The instructions a statement may become. -/
inductive Statement.Translates : Statement → Instruction → Prop where
  | load {content c var r} : m.Holds var r → content.Translates m strings c →
    Translates (.load content var) (.load r c)
  | readPointerTo {ptr size destination p s d} : m.Holds ptr p → m.Holds size s → m.Holds destination d →
      Translates (.readPointerTo ptr size destination) (.readPointerTo p s d)
  | writePointer {source size ptr r s p} : m.Holds source r → m.Holds size s → m.Holds ptr p →
      Translates (.writePointer source size ptr) (.writePointer r s p)
  | check {toCheck result c r} : m.Holds toCheck c → m.Holds result r →
      Translates (.check .allZero toCheck result) (.check r (.isAllZero c))
  | newObject {args as result r} (ty ctor token method) : List.Forall₂ m.Holds args as → m.Holds result r →
      Translates (.newObject ty ctor args result) (.new (.newObject token method as r))
  | newDynamicArray {len l result r} (ty token) : m.Holds len l → m.Holds result r →
      Translates (.newArray ty (.dynamic len) result) (.new (.newDynamicArray token l r))
  | newArray {result r} (ty len token) : m.Holds result r →
      Translates (.newArray ty (.static len) result) (.new (.newArray token len r))
  | instanceCall {val v args as result r} (method token) : m.Holds val v → List.Forall₂ m.Holds args as →
      m.Holds result r → Translates (.instanceCall val method args result) (.call (.instanceCall v token as r))
  | staticCall {args as result r} (ty method token methodToken) : List.Forall₂ m.Holds args as → m.Holds result r →
      Translates (.staticCall ty method args result) (.call (.staticCall token methodToken as r))
  | interfaceCall {val v args as result r} (interface method token methodToken) : m.Holds val v →
      List.Forall₂ m.Holds args as → m.Holds result r →
      Translates (.interfaceCall val interface method args result)
        (.call (.interfaceCall token v methodToken as r))
  | nonPurusCall {config c fPointer f args as result r} : m.Holds config c → m.Holds fPointer f →
      List.Forall₂ m.Holds args as → m.Holds result r →
      Translates (.nonPurusCall config fPointer args result) (.call (.dynamicNonPurusCall f c as r))
  | setField {val v container c} (field id) : m.Holds val v → m.Holds container c →
      Translates (.setField val container field) (.set (.common v c id))
  | setThisField {val v} (field id) : m.Holds val v → Translates (.setThisField val field) (.set (.this v id))
  | setStaticField {val v} (ty field token id) : m.Holds val v →
      Translates (.setStaticField val ty field) (.set (.static v token id))
  | throw {val v} : m.Holds val v → Translates (.throw val) (.throw v)
  | returnVal {val v} : m.Holds val v → Translates (.returnVal val) (.returnVal v)
  | jump {condition c} (ty val) : condition.Translates m c →
    Translates (.jump condition ty val) (.jump ⟨ty, val⟩ c)
  | nop : Translates .nop .nop

end Roles

theorem Statement.Translates.mono {m : Method} {strings strings' : List String} (h : strings <+: strings')
    {s : Statement} {i : Instruction} (hs : s.Translates m strings i) : s.Translates m strings' i := by
  cases hs with
  | load hvar hcontent =>
    refine .load hvar ?_
    cases hcontent with
    | string hval => exact .string (getElem?_of_isPrefix h hval)
    | field field id hr => exact .field field id hr
    | _ => constructor
  | readPointerTo hp hs hd => exact .readPointerTo hp hs hd
  | writePointer hr hs hp => exact .writePointer hr hs hp
  | check hc hr => exact .check hc hr
  | newObject ty ctor token method has hr => exact .newObject ty ctor token method has hr
  | newDynamicArray ty token hl hr => exact .newDynamicArray ty token hl hr
  | newArray ty len token hr => exact .newArray ty len token hr
  | instanceCall method token hv has hr => exact .instanceCall method token hv has hr
  | staticCall ty method token methodToken has hr => exact .staticCall ty method token methodToken has hr
  | interfaceCall interface method token methodToken hv has hr =>
    exact .interfaceCall interface method token methodToken hv has hr
  | nonPurusCall hc hf has hr => exact .nonPurusCall hc hf has hr
  | setField field id hv hc => exact .setField field id hv hc
  | setThisField field id hv => exact .setThisField field id hv
  | setStaticField ty field token id hv => exact .setStaticField ty field token id hv
  | throw hv => exact .throw hv
  | returnVal hv => exact .returnVal hv
  | jump ty val hc => exact .jump ty val hc
  | nop => exact .nop

/-! ### Operands -/

def LoadableContent.operands : LoadableContent → List Identifier
  | field container _ => [container]
  | _ => []

def JumpCondition.operands : JumpCondition → List Identifier
  | ifTrue val => [val]
  | checkSuccess _ toCheck => [toCheck]
  | checkFailure _ toCheck => [toCheck]
  | unconditional => []

/-- The names of variables in a statement. -/
def Statement.operands : Statement → List Identifier
  | load content var => var :: content.operands
  | readPointerTo ptr size destination => [ptr, size, destination]
  | writePointer source size ptr => [source, size, ptr]
  | check _ toCheck result => [toCheck, result]
  | newObject _ _ args result => args ++ [result]
  | newArray _ (.dynamic len) result => [len, result]
  | newArray _ (.static _) result => [result]
  | instanceCall val _ args result => val :: (args ++ [result])
  | staticCall _ _ args result => args ++ [result]
  | interfaceCall val _ _ args result => val :: (args ++ [result])
  | nonPurusCall config fPointer args result => config :: fPointer :: (args ++ [result])
  | setField val container _ => [val, container]
  | setThisField val _ => [val]
  | setStaticField val _ _ => [val]
  | throw val => [val]
  | returnVal val => [val]
  | jump condition _ _ => condition.operands
  | nop => []

theorem JumpCondition.Translates.operands_mem {m : Method} {condition : JumpCondition}
    {c : InstructionJumpCondition} (h : condition.Translates m c) : ∀ x ∈ condition.operands, x ∈ m.locals := by
  cases h with
  | unconditional => simp [operands]
  | ifTrue h => simp [operands, h.mem]
  | checkSuccess h => simp [operands, h.mem]
  | checkFailure h => simp [operands, h.mem]

/-- All names in a statement that is translated are local variables. -/
theorem Statement.Translates.operands_mem {m : Method} {strings : List String} {s : Statement} {i : Instruction}
    (h : s.Translates m strings i) : ∀ x ∈ s.operands, x ∈ m.locals := by
  cases h with
  | load hvar hcontent =>
    cases hcontent with
    | field field id hr => simp [operands, LoadableContent.operands, hvar.mem, hr.mem]
    | _ => simp [operands, LoadableContent.operands, hvar.mem]
  | readPointerTo hp hs hd => simp [operands, hp.mem, hs.mem, hd.mem]
  | writePointer hr hs hp => simp [operands, hr.mem, hs.mem, hp.mem]
  | check hc hr => simp [operands, hc.mem, hr.mem]
  | newObject ty ctor token method has hr => simpa [operands, or_imp, forall_and, hr.mem] using forall₂_mem has
  | newDynamicArray ty token hl hr => simp [operands, hl.mem, hr.mem]
  | newArray ty len token hr => simp [operands, hr.mem]
  | instanceCall method token hv has hr =>
    simpa [operands, or_imp, forall_and, hv.mem, hr.mem] using forall₂_mem has
  | staticCall ty method token methodToken has hr =>
    simpa [operands, or_imp, forall_and, hr.mem] using forall₂_mem has
  | interfaceCall interface method token methodToken hv has hr =>
    simpa [operands, or_imp, forall_and, hv.mem, hr.mem] using forall₂_mem has
  | nonPurusCall hc hf has hr =>
    simpa [operands, or_imp, forall_and, hc.mem, hf.mem, hr.mem] using forall₂_mem has
  | setField field id hv hc => simp [operands, hv.mem, hc.mem]
  | setThisField field id hv => simp [operands, hv.mem]
  | setStaticField ty field token id hv => simp [operands, hv.mem]
  | throw hv => simp [operands, hv.mem]
  | returnVal hv => simp [operands, hv.mem]
  | jump ty val hc => exact hc.operands_mem
  | nop => simp [operands]

section Compiling

variable [CompilerService] [AssemblyBuilder] {currentTy : TypeInformation} {m : Method}

/-! ### What compiling a statement does to the assembly -/

section Keeps

variable {R : Assembly → Assembly → Prop} [Growing R]

theorem compileLoadContent_keeps (content : LoadableContent) : Keeps R (compileLoadContent m content) := by
  cases content <;> grind [compileLoadContent]

omit [CompilerService] in
theorem compileJumpCondition_keeps (condition : JumpCondition) : Keeps R (compileJumpCondition m condition) := by
  cases condition <;> grind [compileJumpCondition]

theorem compileStatement_keeps (s : Statement) : Keeps R (compileStatement currentTy m s) := by
  cases s with
  | newArray ty len result => cases len <;> grind [compileStatement]
  | load content var => grind [compileStatement, compileLoadContent_keeps]
  | jump condition ty val => grind [compileStatement, compileJumpCondition_keeps]
  | _ => grind [compileStatement]

end Keeps

/-! ### Errors -/

omit [CompilerService] in
@[grind ←]
theorem addString_succeeds (s : String) : Succeeds (addString s) := fun _ => ⟨_, _, rfl⟩

omit [CompilerService] in
@[grind ←]
theorem addTypeRef_succeeds (r : TypeRef) : Succeeds (addTypeRef r) := fun _ => ⟨_, _, rfl⟩

omit [CompilerService] [AssemblyBuilder] in
@[grind ←]
theorem pushTypeSpec_succeeds (spec : TypeSpec) : Succeeds (pushTypeSpec spec) := fun _ => ⟨_, _, rfl⟩

omit [CompilerService] [AssemblyBuilder] in
@[grind ←]
theorem pushMethodSpec_succeeds (spec : MethodSpec) : Succeeds (pushMethodSpec spec) := fun _ => ⟨_, _, rfl⟩

@[grind ←]
theorem compileTypeReference_returns (r : TypeReference) : Returns (compileTypeReference r) := by
  induction r using TypeReference.nested_induction with
  | common assemblyName name index generics ih =>
    rw [compileTypeReference, compileTypeReferences_eq]
    grind [Succeeds.returns]
  | methodGeneric name index => exact Returns.pure _
  | typeGeneric name index => exact Returns.pure _

omit [CompilerService] [AssemblyBuilder] in
@[grind ←]
theorem compileFieldReference_returns (container : Option TypeInformation) (isStatic : Bool) (r : FieldReference) :
    Returns (compileFieldReference container isStatic r) :=
  Returns.okOr _ _

@[grind ←]
theorem compileMethodReference_returns (container : Option TypeInformation) (isStatic : Bool)
    (m : MethodReference) : Returns (compileMethodReference container isStatic m) := by
  unfold compileMethodReference
  grind [Succeeds.returns]

/-- A content with a name of a variable is compiled or refused. -/
theorem compileLoadContent_returns {content : LoadableContent} (h : content.operands ≠ []) :
    Returns (compileLoadContent m content) := by
  cases content with
  | field container field => grind [compileLoadContent]
  | _ => exact absurd rfl h

omit [CompilerService] [AssemblyBuilder] in
theorem compileJumpCondition_returns (condition : JumpCondition) : Returns (compileJumpCondition m condition) := by
  cases condition <;> grind [compileJumpCondition]

theorem compileStatement_returns {s : Statement}
    (h : ∀ content var, s = .load content var → content.operands ≠ []) :
    Returns (compileStatement currentTy m s) := by
  cases s with
  | newArray ty len result => cases len <;> grind [compileStatement]
  | load content var => grind [compileStatement, compileLoadContent_returns]
  | jump condition ty val => grind [compileStatement, compileJumpCondition_returns]
  | _ => grind [compileStatement]

/-! ### Statements keep their operands -/

omit [CompilerService] [AssemblyBuilder] in
theorem Method.holds_of_position (hm : m.locals.length = m.attr.localVariableTypes.length) {x : Identifier}
    {r : RegisterAddr} (h : position m.locals x = some r.addr) : m.Holds x r := by
  have hget := position_eq_some h
  obtain ⟨hlt, -⟩ := List.getElem?_eq_some_iff.1 hget
  exact ⟨hm ▸ hlt, hget⟩

omit [CompilerService] [AssemblyBuilder] in
theorem mapVariable_holds (hm : m.locals.length = m.attr.localVariableTypes.length) {x : Identifier}
    {r : RegisterAddr} {a a' : Assembly} (h : mapVariable x m.locals a = (.ok r, a')) : m.Holds x r :=
  Method.holds_of_position hm (mapVariable_eq_ok.1 h).1

omit [CompilerService] [AssemblyBuilder] in
theorem mapM_mapVariable_run {xs locals : List Identifier} {rs : List RegisterAddr} {a a' : Assembly}
    (h : xs.mapM (mapVariable · locals) a = (.ok rs, a')) :
    List.Forall₂ (fun x r => position locals x = some r.addr) xs rs ∧ a' = a := by
  induction xs generalizing a rs with
  | nil =>
    obtain ⟨rfl, rfl⟩ : rs = [] ∧ a' = a := by simpa [mapM_nil_run, eq_comm] using h
    exact ⟨.nil, rfl⟩
  | cons x xs ih =>
    obtain ⟨r, a₁, rs, hr, hrs, rfl⟩ := mapM_cons_eq_ok.1 h
    obtain ⟨hx, rfl⟩ := mapVariable_eq_ok.1 hr
    obtain ⟨hxs, rfl⟩ := ih hrs
    exact ⟨.cons hx hxs, rfl⟩

theorem compileLoadContent_translates (hm : m.locals.length = m.attr.localVariableTypes.length)
    {content : LoadableContent} {c : LoadContent} {a a' : Assembly}
    (h : compileLoadContent m content a = (.ok c, a')) : content.Translates m a'.strings c := by
  cases content with
  | string val =>
    obtain ⟨s, a₁, hs, hc⟩ := bind_eq_ok.1 h
    cases hc
    exact .string (addString_get hs)
  | static ty field =>
    obtain ⟨token, a₁, -, h⟩ := bind_eq_ok.1 h
    obtain ⟨id, a₂, -, hc⟩ := bind_eq_ok.1 h
    cases hc
    exact .static ty field token id
  | field container field =>
    obtain ⟨r, a₁, hr, h⟩ := bind_eq_ok.1 h
    obtain ⟨id, a₂, -, hc⟩ := bind_eq_ok.1 h
    cases hc
    exact .field field id (mapVariable_holds hm hr)
  | size ty =>
    obtain ⟨token, a₁, -, hc⟩ := bind_eq_ok.1 h
    cases hc
    exact .size ty token
  | char val => cases h
  | byteString val => cases h
  | byte val => cases h
  | _ =>
    cases h
    constructor

omit [CompilerService] [AssemblyBuilder] in
theorem compileJumpCondition_translates (hm : m.locals.length = m.attr.localVariableTypes.length)
    {condition : JumpCondition} {c : InstructionJumpCondition} {a a' : Assembly}
    (h : compileJumpCondition m condition a = (.ok c, a')) : condition.Translates m c := by
  cases condition with
  | unconditional =>
    cases h
    exact .unconditional
  | ifTrue val =>
    obtain ⟨r, a₁, hr, hc⟩ := bind_eq_ok.1 h
    cases hc
    exact .ifTrue (mapVariable_holds hm hr)
  | checkSuccess kind toCheck =>
    obtain ⟨r, a₁, hr, hc⟩ := bind_eq_ok.1 h
    cases hc
    cases kind
    exact .checkSuccess (mapVariable_holds hm hr)
  | checkFailure kind toCheck =>
    obtain ⟨r, a₁, hr, hc⟩ := bind_eq_ok.1 h
    cases hc
    cases kind
    exact .checkFailure (mapVariable_holds hm hr)

/-- An instruction has the operands of the statement it is compiled from, each in its role. -/
theorem compileStatement_translates (hm : m.locals.length = m.attr.localVariableTypes.length) {s : Statement}
    {i : Instruction} {a a' : Assembly} (h : compileStatement currentTy m s a = (.ok i, a')) :
    s.Translates m a'.strings i := by
  have hvar {x r a a'} (h : mapVariable x m.locals a = (.ok r, a')) : m.Holds x r := mapVariable_holds hm h
  have hvars {xs rs a a'} (h : xs.mapM (mapVariable · m.locals) a = (.ok rs, a')) : List.Forall₂ m.Holds xs rs :=
    (mapM_mapVariable_run h).1.imp fun _ _ => Method.holds_of_position hm
  cases s with
  | load content var =>
    obtain ⟨r, a₁, hr, h⟩ := bind_eq_ok.1 h
    obtain ⟨c, a₂, hc, h⟩ := bind_eq_ok.1 h
    cases h
    exact .load (hvar hr) (compileLoadContent_translates hm hc)
  | readPointerTo ptr size destination =>
    obtain ⟨p, a₁, hp, h⟩ := bind_eq_ok.1 h
    obtain ⟨s, a₂, hs, h⟩ := bind_eq_ok.1 h
    obtain ⟨d, a₃, hd, h⟩ := bind_eq_ok.1 h
    cases h
    exact .readPointerTo (hvar hp) (hvar hs) (hvar hd)
  | writePointer source size ptr =>
    obtain ⟨r, a₁, hr, h⟩ := bind_eq_ok.1 h
    obtain ⟨s, a₂, hs, h⟩ := bind_eq_ok.1 h
    obtain ⟨p, a₃, hp, h⟩ := bind_eq_ok.1 h
    cases h
    exact .writePointer (hvar hr) (hvar hs) (hvar hp)
  | check kind toCheck result =>
    obtain ⟨r, a₁, hr, h⟩ := bind_eq_ok.1 h
    obtain ⟨c, a₂, hc, h⟩ := bind_eq_ok.1 h
    cases h
    cases kind
    exact .check (hvar hc) (hvar hr)
  | newObject ty ctor args result =>
    obtain ⟨token, a₁, -, h⟩ := bind_eq_ok.1 h
    obtain ⟨ctorToken, a₂, -, h⟩ := bind_eq_ok.1 h
    obtain ⟨as, a₃, has, h⟩ := bind_eq_ok.1 h
    obtain ⟨r, a₄, hr, h⟩ := bind_eq_ok.1 h
    cases h
    exact .newObject ty ctor token ctorToken (hvars has) (hvar hr)
  | newArray ty len result =>
    obtain ⟨token, a₁, -, h⟩ := bind_eq_ok.1 h
    obtain ⟨r, a₂, hr, h⟩ := bind_eq_ok.1 h
    cases len with
    | dynamic len =>
      obtain ⟨l, a₃, hl, h⟩ := bind_eq_ok.1 h
      cases h
      exact .newDynamicArray ty token (hvar hl) (hvar hr)
    | static len =>
      cases h
      exact .newArray ty len token (hvar hr)
  | instanceCall val method args result =>
    obtain ⟨v, a₁, hv, h⟩ := bind_eq_ok.1 h
    obtain ⟨token, a₂, -, h⟩ := bind_eq_ok.1 h
    obtain ⟨as, a₃, has, h⟩ := bind_eq_ok.1 h
    obtain ⟨r, a₄, hr, h⟩ := bind_eq_ok.1 h
    cases h
    exact .instanceCall method token (hvar hv) (hvars has) (hvar hr)
  | staticCall ty method args result =>
    obtain ⟨token, a₁, -, h⟩ := bind_eq_ok.1 h
    obtain ⟨methodToken, a₂, -, h⟩ := bind_eq_ok.1 h
    obtain ⟨as, a₃, has, h⟩ := bind_eq_ok.1 h
    obtain ⟨r, a₄, hr, h⟩ := bind_eq_ok.1 h
    cases h
    exact .staticCall ty method token methodToken (hvars has) (hvar hr)
  | interfaceCall val interface method args result =>
    obtain ⟨v, a₁, hv, h⟩ := bind_eq_ok.1 h
    obtain ⟨token, a₂, -, h⟩ := bind_eq_ok.1 h
    obtain ⟨methodToken, a₃, -, h⟩ := bind_eq_ok.1 h
    obtain ⟨as, a₄, has, h⟩ := bind_eq_ok.1 h
    obtain ⟨r, a₅, hr, h⟩ := bind_eq_ok.1 h
    cases h
    exact .interfaceCall interface method token methodToken (hvar hv) (hvars has) (hvar hr)
  | nonPurusCall config fPointer args result =>
    obtain ⟨f, a₁, hf, h⟩ := bind_eq_ok.1 h
    obtain ⟨c, a₂, hc, h⟩ := bind_eq_ok.1 h
    obtain ⟨as, a₃, has, h⟩ := bind_eq_ok.1 h
    obtain ⟨r, a₄, hr, h⟩ := bind_eq_ok.1 h
    cases h
    exact .nonPurusCall (hvar hc) (hvar hf) (hvars has) (hvar hr)
  | setField val container field =>
    obtain ⟨v, a₁, hv, h⟩ := bind_eq_ok.1 h
    obtain ⟨c, a₂, hc, h⟩ := bind_eq_ok.1 h
    obtain ⟨id, a₃, -, h⟩ := bind_eq_ok.1 h
    cases h
    exact .setField field id (hvar hv) (hvar hc)
  | setThisField val field =>
    obtain ⟨v, a₁, hv, h⟩ := bind_eq_ok.1 h
    obtain ⟨id, a₂, -, h⟩ := bind_eq_ok.1 h
    cases h
    exact .setThisField field id (hvar hv)
  | setStaticField val ty field =>
    obtain ⟨v, a₁, hv, h⟩ := bind_eq_ok.1 h
    obtain ⟨token, a₂, -, h⟩ := bind_eq_ok.1 h
    obtain ⟨id, a₃, -, h⟩ := bind_eq_ok.1 h
    cases h
    exact .setStaticField ty field token id (hvar hv)
  | throw val =>
    obtain ⟨v, a₁, hv, h⟩ := bind_eq_ok.1 h
    cases h
    exact .throw (hvar hv)
  | returnVal val =>
    obtain ⟨v, a₁, hv, h⟩ := bind_eq_ok.1 h
    cases h
    exact .returnVal (hvar hv)
  | jump condition ty val =>
    obtain ⟨c, a₁, hc, h⟩ := bind_eq_ok.1 h
    cases h
    exact .jump ty val (compileJumpCondition_translates hm hc)
  | nop =>
    cases h
    exact .nop

/-- A statement with a name that is no local variable is refused. -/
theorem compileStatement_reports (hm : m.locals.length = m.attr.localVariableTypes.length) {s : Statement}
    {x : Identifier} (hx : x ∈ s.operands) (hlocal : x ∉ m.locals) : Reports (compileStatement currentTy m s) := by
  have hnot {i a a'} : compileStatement currentTy m s a ≠ (.ok i, a') := fun h =>
    hlocal ((compileStatement_translates hm h).operands_mem x hx)
  have hreturns : Returns (compileStatement currentTy m s) → Reports (compileStatement currentTy m s) := by
    intro h a
    rcases h a with ⟨i, a', hi⟩ | he
    · exact absurd hi hnot
    · exact he
  -- loading a character panics, but only after the variable has been looked up
  by_cases hload : ∃ content var, s = .load content var ∧ content.operands = []
  swap
  · exact hreturns (compileStatement_returns fun content var hs hc => hload ⟨content, var, hs, hc⟩)
  · obtain ⟨content, var, rfl, hcontent⟩ := hload
    obtain rfl : x = var := by simpa [Statement.operands, hcontent] using hx
    exact (mapVariable_reports hlocal).bind _

/-! ### Methods -/

section Keeps

variable {R : Assembly → Assembly → Prop} [Growing R]

omit [CompilerService] in
@[grind ←]
theorem resolve_keeps (loc : ExceptionLoc) (begin : UInt64) : Keeps R (loc.resolve begin) := by
  unfold ExceptionLoc.resolve
  grind

omit [CompilerService] in
@[grind ←]
theorem resolveRange_keeps (tryBegin : UInt64) (range : ExceptionLoc × ExceptionLoc) :
    Keeps R (resolveRange tryBegin range) := by
  unfold resolveRange
  grind

@[grind ←]
theorem compileExceptionTableEntry_keeps (entry : ExceptionTableEntry) :
    Keeps R (compileExceptionTableEntry entry) := by
  have hfilter (filter) : Keeps R (compileFilter filter) := by
    unfold compileFilter
    grind
  refine Keeps.bind (resolve_keeps _ _) fun stop => ?_
  refine Keeps.bind (compileTypeReference_keeps _) fun exceptionType => ?_
  refine Keeps.bind (Keeps.optionMapM hfilter) fun filter => Keeps.bind (resolveRange_keeps _ _) fun «catch» => ?_
  refine Keeps.bind (Keeps.optionMapM (resolveRange_keeps _)) fun «finally» => ?_
  exact Keeps.bind (Keeps.optionMapM (resolveRange_keeps _)) fun fault => Keeps.pure _

@[grind ←]
theorem compileMethodBody_keeps : Keeps R (compileMethodBody currentTy m) := by
  have hattr : Keeps R (m.attr.tryMapTypes compileTypeReference) :=
    Keeps.bind (Keeps.mapM fun r _ => compileTypeReference_keeps r) fun _ => Keeps.pure _
  have hparameter (p) : Keeps R (compileParameter p) :=
    Keeps.bind (compileTypeReference_keeps _) fun _ => Keeps.pure _
  refine Keeps.bind (addString_keeps _) fun name => Keeps.bind hattr fun attr => ?_
  refine Keeps.bind (Keeps.mapM fun p _ => hparameter p) fun args => ?_
  refine Keeps.bind (compileTypeReference_keeps _) fun returnType => ?_
  refine Keeps.bind (Keeps.mapM fun s _ => compileStatement_keeps s) fun instructions => ?_
  exact Keeps.bind (Keeps.mapM fun e _ => compileExceptionTableEntry_keeps e) fun table => Keeps.pure _

end Keeps

/-- A method body has one instruction for each statement, with its operands, and as many local variables. -/
theorem compileMethodBody_translates (hm : m.locals.length = m.attr.localVariableTypes.length) {a a' : Assembly}
    {bm : Binary.Method} (h : compileMethodBody currentTy m a = (.ok bm, a')) :
    bm.attr.localVariableTypes.length = m.attr.localVariableTypes.length ∧
      List.Forall₂ (Statement.Translates m a'.strings) m.statements bm.instructions := by
  obtain ⟨name, a₁, -, h⟩ := bind_eq_ok.1 h
  obtain ⟨attr, a₂, hattr, h⟩ := bind_eq_ok.1 h
  obtain ⟨args, a₃, -, h⟩ := bind_eq_ok.1 h
  obtain ⟨returnType, a₄, -, h⟩ := bind_eq_ok.1 h
  obtain ⟨instructions, a₅, hinstr, h⟩ := bind_eq_ok.1 h
  obtain ⟨table, a₆, htable, h⟩ := bind_eq_ok.1 h
  cases h
  obtain ⟨types, a₇, htypes, hattr⟩ := bind_eq_ok.1 hattr
  cases hattr
  refine ⟨(forall₂_of_mapM htypes).length_eq.symm, ?_⟩
  have hext := (Keeps.mapM (R := Assembly.Extends) fun e _ => compileExceptionTableEntry_keeps e).of_run htable
  -- a statement is translated in the assembly it leaves; later statements only add to the strings
  have hsteps := mapM_ok (R := Assembly.Extends) (fun s _ => compileStatement_keeps s) hinstr
  refine hsteps.imp fun s i ⟨_, s₁, s₂, _, hrun, hs₂⟩ => ?_
  exact (compileStatement_translates hm hrun).mono (hs₂.trans hext).strings

theorem compileMethod_body {currentTy : TypeInformation} {currentIndex : UInt32} {m : Method} {s s' : TypeState}
    {bm : Binary.Method} (h : compileMethod currentTy currentIndex m s = (.ok bm, s')) :
    ∃ a, compileMethodBody currentTy m a = (.ok bm, s'.assembly) := by
  obtain ⟨_, s₁, -, h⟩ := bind_eq_ok.1 h
  obtain ⟨_, s₂, -, h⟩ := bind_eq_ok.1 h
  exact ⟨s₂.assembly, (onAssembly_run h).1⟩

end Compiling

/-! ### Parsed methods -/

section Parsing

variable [UniParser]

/-- A method that is parsed and compiled has one instruction for each statement, in order; the registers of an
instruction are those of the names in the statement, in the same roles, and literals, jump targets and
conditions are kept. A name that is no local variable is reported as an error. -/
theorem compileMethod_translates [CompilerService] [AssemblyBuilder] {tyGenerics : List Identifier}
    {st st' : ParseStream} {m : Method} (hparse : Method.parse tyGenerics st = (.ok m, st'))
    (currentTy : TypeInformation) (currentIndex : UInt32) (s : TypeState) :
    (∀ bm s', compileMethod currentTy currentIndex m s = (.ok bm, s') →
      bm.attr.localVariableTypes.length = m.attr.localVariableTypes.length ∧
        List.Forall₂ (Statement.Translates m s'.assembly.strings) m.statements bm.instructions) ∧
    ∀ stmt ∈ m.statements, ∀ x ∈ stmt.operands, x ∉ m.locals →
      Reports (compileStatement currentTy m stmt) ∧
        ∀ bm s', compileMethod currentTy currentIndex m s ≠ (.ok bm, s') := by
  have hm := Method.parse_locals hparse
  refine ⟨fun bm s' h => ?_, fun stmt hstmt x hx hlocal =>
    ⟨compileStatement_reports hm hx hlocal, fun bm s' h => ?_⟩⟩
  · obtain ⟨a, hbody⟩ := compileMethod_body h
    exact compileMethodBody_translates hm hbody
  · obtain ⟨a, hbody⟩ := compileMethod_body h
    obtain ⟨i, -, hi⟩ := exists_of_forall₂ (compileMethodBody_translates hm hbody).2 hstmt
    exact hlocal (hi.operands_mem x hx)

end Parsing

/-- A method with three local variables, whose statements use them in different orders. -/
private def registersMethod : Method where
  attr :=
    ⟨.private, false, false, none, [.common "B" "E" none [], .common "B" "E" none [], .common "B" "E" none []]⟩
  callConv := .platformDefault
  index := 0
  name := ⟨"m"⟩
  generics := []
  isGenericInfinite := false
  args := []
  returnType := .common "B" "E" none []
  impl := none
  locals := [⟨"e"⟩, ⟨"n"⟩, ⟨"p"⟩]
  exceptionTable := []
  statements :=
    [.load (.u8 7) ⟨"n"⟩, .writePointer ⟨"e"⟩ ⟨"n"⟩ ⟨"p"⟩, .nonPurusCall ⟨"p"⟩ ⟨"e"⟩ [⟨"n"⟩, ⟨"e"⟩] ⟨"n"⟩,
      .jump (.ifTrue ⟨"p"⟩) .forward 2, .throw ⟨"e"⟩]

private def registersSource : List Char :=
  ["method[0]m()->[B]E\x7b locals(e:[B]E n:[B]E p:[B]E) Load 7u8->n; ", "WritePointer e n->p; ",
    "NonPurusCall #p e(n,e)->n; ", "Jump if p __forward 2; ", "Throw e; \x7d"].flatMap String.toList

/-- `compileMethod_translates` at a method with several variables and statements. -/
theorem compileMethod_translates_registers :
    let _ := serviceOf [⟨"B", "E", 3, ⟨.public, .class false false⟩, .exact 0, none, [], [], [], ""⟩]
    let _ := internBuilder
    let currentTy : TypeInformation := ⟨"A", "T", 0, ⟨.public, .class false false⟩, .exact 0, none, [], [], [], ""⟩
    let s : TypeState := ⟨⟨[], [], [], [], []⟩, [], 0⟩
    List.Forall₂
      (Statement.Translates registersMethod (compileMethod currentTy 0 registersMethod s).2.assembly.strings)
      registersMethod.statements
      [.load ⟨1⟩ (.u8 7), .writePointer ⟨0⟩ ⟨1⟩ ⟨2⟩, .call (.dynamicNonPurusCall ⟨0⟩ ⟨2⟩ [⟨1⟩, ⟨0⟩] ⟨1⟩),
        .jump ⟨.forward, 2⟩ (.if ⟨2⟩), .throw ⟨0⟩] := by
  intro _ _ currentTy s
  let _ := plainParser
  let st := @ParseStream.new asciiLexer registersSource
  have hparse : Method.parse [] st = (.ok registersMethod, (Method.parse [] st).2) :=
    run_of_fst (by decide +kernel)
  let bm : Binary.Method :=
    ⟨⟨0⟩, ⟨.private, false, false, none, List.replicate 3 ⟨.typeRef, 0⟩⟩, .exact 0, [], ⟨.typeRef, 0⟩,
      .platformDefault,
      [.load ⟨1⟩ (.u8 7), .writePointer ⟨0⟩ ⟨1⟩ ⟨2⟩, .call (.dynamicNonPurusCall ⟨0⟩ ⟨2⟩ [⟨1⟩, ⟨0⟩] ⟨1⟩),
        .jump ⟨.forward, 2⟩ (.if ⟨2⟩), .throw ⟨0⟩], []⟩
  have hcompile : compileMethod currentTy 0 registersMethod s =
      (.ok bm, (compileMethod currentTy 0 registersMethod s).2) :=
    run_of_fst (by decide +kernel)
  exact ((compileMethod_translates hparse currentTy 0 s).1 bm _ hcompile).2

/-! ### Registers of declarations -/

end PuralinguaIR
