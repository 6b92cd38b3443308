import PuralinguaIR.Compile
import PuralinguaIR.Loading

/-!
# Queries

What a compiler answers when it is asked for types: the types of its file, as it reports them, that meet the
options. Whatever the options, an answer reports a loaded type, and one with the index that is asked for
(`Compiler.mem_query`).
-/

namespace PuralinguaIR

/-- Which numbers of type arguments a requirement admits. -/
class GenericCounts where
  contains : GenericCountRequirement → UInt32 → Bool

/-- A number is admitted if it is the exact one, or in the range. -/
@[reducible] def rangeCounts : GenericCounts where
  contains
    | .exact n, k => k == n
    | .atLeast start, k => decide (start ≤ k)

section Queries

variable [CompilerService] [GenericCounts]

/-- The types with the index, when one is asked for. -/
def queryIndex (index : UInt32) (exact : Bool) (types : List TypeInformation) : List TypeInformation :=
  if exact then (types.find? (·.id == index)).toList else types.filter (·.id == index)

/-- Whether a type has the name, as it is or with its number of generics. -/
def TypeInformation.hasName (typeName : String) (tryDecorate : Bool) (t : TypeInformation) : Bool :=
  t.name == typeName || (tryDecorate && t.name == CompilerService.decorate t.genericCount typeName)

def Compiler.query (c : Compiler) (options : TypeQueryOptions) : List TypeInformation :=
  if options.langId.any (· != COMPILER_ID) then []
  else if options.assemblyName.any (· != CompilerService.assemblyName) then []
  else
    let types := c.file.types.map TypeDef.toAbstract
    match options.index with
    -- with an index nothing else is asked for
    | some index => queryIndex index options.exact types
    | none =>
      let types := types.filter fun t => options.genericCount.all (GenericCounts.contains t.genericCount ·)
      let types := types.filter fun t => options.typeName.all (t.hasName · options.tryDecorate)
      let types := types.filter fun t => options.implementedInterface.all (t.implementedInterfaces.contains ·)
      if options.exact then types.take 1 else types

/-! ### What is selected -/

/-- Whether the options are meant for this compiler and its assembly. -/
def TypeQueryOptions.addressed (options : TypeQueryOptions) : Bool :=
  options.langId.all (· == COMPILER_ID) && options.assemblyName.all (· == CompilerService.assemblyName)

/-- Whether a type meets all options but the index. -/
def TypeQueryOptions.admits (options : TypeQueryOptions) (t : TypeInformation) : Bool :=
  options.implementedInterface.all (t.implementedInterfaces.contains ·) &&
    options.typeName.all (t.hasName · options.tryDecorate) &&
    options.genericCount.all (GenericCounts.contains t.genericCount ·)

/-- Whether a type meets all options. -/
def TypeQueryOptions.satisfies (options : TypeQueryOptions) (t : TypeInformation) : Bool :=
  options.index.all (t.id == ·) && options.admits t

/-- Whether a type is picked: by the index alone, if there is one. -/
def TypeQueryOptions.selects (options : TypeQueryOptions) (t : TypeInformation) : Bool :=
  match options.index with
  | some index => t.id == index
  | none => options.admits t

/-- The types of a compiler's file, as it reports them. -/
def Compiler.types (c : Compiler) : List TypeInformation := c.file.types.map TypeDef.toAbstract

omit [CompilerService] [GenericCounts] in
private theorem any_ne_eq {o : Option String} {s : String} : o.any (· != s) = !o.all (· == s) := by
  cases o <;> rfl

/-- A query picks some types of the file in their order, the first one of them if it is exact. -/
theorem Compiler.query_eq (c : Compiler) (options : TypeQueryOptions) : c.query options =
    if options.addressed then
      if options.exact then (c.types.filter options.selects).take 1 else c.types.filter options.selects
    else [] := by
  unfold query TypeQueryOptions.addressed
  rw [any_ne_eq, any_ne_eq]
  cases options.langId.all (· == COMPILER_ID) with
  | false => rfl
  | true =>
    cases options.assemblyName.all (· == CompilerService.assemblyName) with
    | false => rfl
    | true =>
      cases hindex : options.index with
      | some index =>
        have hselects : options.selects = fun t => t.id == index := by
          funext t
          rw [TypeQueryOptions.selects, hindex]
        rw [hselects, List.take_one, List.head?_filter]
        rfl
      | none =>
        have hselects : options.selects = options.admits := by
          funext t
          rw [TypeQueryOptions.selects, hindex]
        have hfilter : c.types.filter options.admits = _ := (List.filter_filter.trans List.filter_filter).symm
        rw [hselects, hfilter]
        rfl

theorem Compiler.selects_of_mem_query {c : Compiler} {options : TypeQueryOptions} {info : TypeInformation}
    (h : info ∈ c.query options) : info ∈ c.types ∧ options.selects info := by
  refine List.mem_filter.1 ?_
  rw [query_eq] at h
  split at h
  · split at h
    · exact List.mem_of_mem_take h
    · exact h
  · cases h

/-- An answer reports a loaded type. -/
theorem Compiler.mem_query {c : Compiler} {options : TypeQueryOptions} {info : TypeInformation}
    (h : info ∈ c.query options) :
    (∃ t ∈ c.file.types, t.toAbstract = info) ∧ ∀ index ∈ options.index, info.id = index := by
  obtain ⟨hmem, hselects⟩ := selects_of_mem_query h
  refine ⟨List.mem_map.1 hmem, fun index hindex => ?_⟩
  rw [TypeQueryOptions.selects, Option.mem_def.1 hindex] at hselects
  exact beq_iff_eq.1 hselects

/-- What the compiler answers when it is asked for the type of a reference. -/
def Compiler.queryReference (c : Compiler) : TypeReference → Option TypeInformation
  | .common assemblyName name index generics =>
    (c.query
      { assemblyName := some assemblyName, genericCount := some (UInt32.ofNat generics.length),
        typeName := some name, tryDecorate := false, exact := true, index }).getLast?
  | .methodGeneric .. => none
  | .typeGeneric .. => none

/-- The answer reports a loaded type, with the index that is written. -/
theorem Compiler.queryReference_eq_some {c : Compiler} {assemblyName name : String} {index : Option UInt32}
    {generics : List TypeReference} {info : TypeInformation}
    (h : c.queryReference (.common assemblyName name index generics) = some info) :
    (∃ t ∈ c.file.types, t.toAbstract = info) ∧ ∀ i ∈ index, info.id = i :=
  mem_query (List.mem_of_getLast? h)

end Queries

/-- A service of an assembly `A` with the given files, which knows the types of a compiler that has loaded
`types`. -/
@[reducible] def ownService (contents : List String) (types : List TypeDef) : CompilerService where
  FilePath := Nat
  Error := Unit
  readPath i := (contents[i]?).elim (.error ()) fun content => .ok content.toUTF8
  assemblyName := "A"
  query := @Compiler.query (serviceOf []) rangeCounts ⟨⟨types⟩, none⟩
  decorate _ s := s

/-! ### Small types -/

/-- The type of this name of the assembly `A`, as it is written. -/
def ownType (name : String) : TypeReference := .common "A" name none []

/-- A method that is written with a number, a name and the type `A` it returns. -/
def plainMethod (name : String) (index : UInt32) : Method :=
  ⟨Method.defaultAttr, .platformDefault, index, ⟨name⟩, [], false, [], ownType "A", none, [], [], []⟩

/-- A field that is written with a number, a name and a type. -/
def plainField (name : String) (index : UInt32) (ty : TypeReference) : Field :=
  ⟨⟨.private, false⟩, index, ⟨name⟩, ty⟩

/-- A class that is written with a number and a name. -/
def plainClass (name : String) (index : UInt32) (parent : Option TypeReference) (methods : List Method)
    (fields : List Field) : ClassDef :=
  ⟨⟨.private, .class false false⟩, index, none, ⟨name⟩, [], false, parent, methods, fields⟩

/-- An interface that is written with a number and a name, with the method `m`. -/
def plainInterface (name : String) (index : UInt32) : InterfaceDef :=
  ⟨⟨.private, .interface⟩, index, ⟨name⟩, [], false, [], [plainMethod "m" 0]⟩

/-- A method with a clause for the method `m` of an interface. -/
def filedMethod (name : String) (index : UInt32) (interface : String) : Method :=
  { plainMethod name index with impl := some (ownType interface, ⟨.byName ⟨"m"⟩, []⟩) }

/-! ### What an answer should be -/

section Answers

variable [CompilerService] [GenericCounts]

/-- The types that are answered meet the options and none is left out; an exact query answers with the first of
them. -/
structure Compiler.AnswersTo (c : Compiler) (options : TypeQueryOptions) : Prop where
  sound : ∀ t ∈ c.query options, options.satisfies t
  complete : options.exact = false → c.query options = c.types.filter options.satisfies
  exact : c.query { options with exact := true } = (c.query { options with exact := false }).take 1

/-- The types with the index that is asked for meet the other options: all of them, or in an exact query the
first. -/
def Compiler.IndexSuffices (c : Compiler) (options : TypeQueryOptions) : Prop :=
  ∀ index ∈ options.index,
    (options.exact = false → ∀ t ∈ c.types, t.id = index → options.admits t) ∧
      (options.exact = true → ∀ t ∈ c.types.find? (·.id == index), options.admits t)

theorem TypeQueryOptions.satisfies_of_none {options : TypeQueryOptions} (h : options.index = none) :
    options.satisfies = options.selects := by
  funext t
  rw [satisfies, selects, h]
  rfl

theorem TypeQueryOptions.satisfies_of_some {options : TypeQueryOptions} {index : UInt32}
    (h : options.index = some index) (t : TypeInformation) :
    options.satisfies t ↔ options.selects t ∧ options.admits t := by
  rw [satisfies, selects, h]
  exact Bool.and_eq_true_iff

theorem TypeQueryOptions.selects_of_some {options : TypeQueryOptions} {index : UInt32}
    (h : options.index = some index) : options.selects = (·.id == index) := by
  funext t
  rw [selects, h]

/-- A query answers to its options exactly if its index leaves nothing to the other options. -/
theorem Compiler.answersTo_iff (c : Compiler) {options : TypeQueryOptions} (h : options.addressed) :
    c.AnswersTo options ↔ c.IndexSuffices options := by
  have hquery (exact : Bool) : c.query { options with exact } =
      if exact then (c.types.filter options.selects).take 1 else c.types.filter options.selects :=
    (query_eq c _).trans (if_pos h)
  have hfirst : c.query { options with exact := true } = (c.query { options with exact := false }).take 1 := by
    rw [hquery, hquery]
    rfl
  have hall (hexact : options.exact = false) : c.query options = c.types.filter options.selects := by
    rw [show options = { options with exact := false } by rw [← hexact], hquery]
    rfl
  have hone (hexact : options.exact = true) : c.query options = (c.types.find? options.selects).toList := by
    rw [show options = { options with exact := true } by rw [← hexact], hquery, ← List.head?_filter]
    exact List.take_one
  cases hindex : options.index with
  | none =>
    -- without an index every option is looked at
    have hsatisfies := TypeQueryOptions.satisfies_of_none hindex
    refine ⟨fun _ index hi => ?_, fun _ => ⟨fun t ht => ?_, fun hexact => ?_, hfirst⟩⟩
    · cases hindex.symm.trans hi
    · rw [hsatisfies]
      exact (selects_of_mem_query ht).2
    · rw [hsatisfies, hall hexact]
  | some index =>
    have hsatisfies := TypeQueryOptions.satisfies_of_some hindex
    have hselects := TypeQueryOptions.selects_of_some hindex
    have hid (t : TypeInformation) : options.selects t ↔ t.id = index := by
      rw [hselects]
      exact beq_iff_eq
    constructor
    · rintro hanswers _ hi
      obtain rfl := Option.some.inj (hindex.symm.trans hi)
      refine ⟨fun hexact t ht ht' => ?_, fun hexact t ht => ?_⟩
      · have hmem : t ∈ c.query options := by
          rw [hall hexact]
          exact List.mem_filter.2 ⟨ht, (hid t).2 ht'⟩
        exact ((hsatisfies t).1 (hanswers.sound t hmem)).2
      · have hmem : t ∈ c.query options := by
          rw [hone hexact, hselects]
          exact Option.mem_toList.2 ht
        exact ((hsatisfies t).1 (hanswers.sound t hmem)).2
    · intro hsuffices
      obtain ⟨hevery, hfound⟩ := hsuffices index hindex
      refine ⟨fun t ht => ?_, fun hexact => ?_, hfirst⟩
      · obtain ⟨hmem, ht'⟩ := selects_of_mem_query ht
        refine (hsatisfies t).2 ⟨ht', ?_⟩
        cases hexact : options.exact with
        | false => exact hevery hexact t hmem ((hid t).1 ht')
        | true =>
          rw [hone hexact, hselects] at ht
          exact hfound hexact t (Option.mem_toList.1 ht)
      · rw [hall hexact]
        refine List.filter_congr fun t ht => Bool.eq_iff_iff.2 ?_
        rw [hsatisfies t, iff_self_and]
        exact fun ht' => hevery hexact t ht ((hid t).1 ht')

end Answers

private abbrev oneClassService : CompilerService := ownService ["class[0]A\x7b\x7d"] []

/-- The compiler of the assembly `A` that has loaded a class `A` with the number 0. -/
private def oneClass : Compiler :=
  @loadFiles asciiLexer plainParser oneClassService ([0] : List Nat) (Compiler.new.setLastIndex 0)

private theorem oneClass_loaded : oneClass.file.types = [.class (plainClass "A" 0 none [] [])] := by
  decide +kernel

/-- The number and the name of one type. -/
theorem Compiler.answersTo_iff_own :
    @AnswersTo oneClassService rangeCounts oneClass
      { index := some 0, typeName := some "A", tryDecorate := false, exact := true } := by
  refine (@answersTo_iff oneClassService rangeCounts oneClass _ (by decide)).2 fun index hindex => ?_
  obtain rfl : 0 = index := Option.some.inj hindex
  have htypes : @types oneClassService oneClass = [@TypeDef.toAbstract oneClassService _] :=
    congrArg (List.map _) oneClass_loaded
  refine ⟨fun h => absurd h (by decide), fun _ t ht => ?_⟩
  rw [htypes] at ht
  obtain rfl := Option.some.inj ht
  decide

/-- The number is that of the class `A`, whatever name is asked for. -/
theorem Compiler.query_otherName :
    let _ := oneClassService
    let _ := rangeCounts
    let options : TypeQueryOptions :=
      { index := some 0, typeName := some "B", tryDecorate := false, exact := false }
    options.addressed ∧ (oneClass.query options).map (·.name) = ["A"] ∧ ¬oneClass.AnswersTo options := by
  intro _ _ options
  have hnames : (oneClass.query options).map (·.name) = ["A"] := by decide +kernel
  refine ⟨by decide, hnames, fun h => ?_⟩
  obtain ⟨t, ht, hname⟩ := List.mem_map.1 (show "A" ∈ (oneClass.query options).map (·.name) by rw [hnames]; simp)
  have hsatisfies := h.sound t ht
  simp [TypeQueryOptions.satisfies, TypeQueryOptions.admits, TypeInformation.hasName, options, hname] at hsatisfies

end PuralinguaIR
