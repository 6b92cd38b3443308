import PuralinguaIR.Linking
import PuralinguaIR.Query

/-!
# What compilers are told

A compiler answers queries from the types it has loaded. What it tells about a type is what the definition at the
place of the type says in the end (`TypeInformation.ShownBy`), whatever programs are built and whatever other
compilers add in between, and for each place just the program that has it answers (`Assembles.shows`).
-/

namespace PuralinguaIR

open Effect Effect.Prog

/-! ### Information and definitions -/

section Shown

variable [CompilerService] (a : Assembly)

structure FieldInformation.ShownBy (f : FieldInformation) (bf : Binary.Field) : Prop where
  name : a.strings[bf.name.index]? = some f.name
  attr : bf.attr = f.attr
  ty : f.ty.RepresentedBy a bf.ty

structure ParameterInformation.ShownBy (p : ParameterInformation) (bp : Binary.Parameter) : Prop where
  attr : bp.attr = p.attr
  ty : p.ty.RepresentedBy a bp.ty

structure MethodInformation.ShownBy (m : MethodInformation) (bm : Binary.Method) : Prop where
  name : a.strings[bm.name.index]? = some m.name
  attr : bm.attr = { m.attr with localVariableTypes := bm.attr.localVariableTypes }
  localVariableTypes :
    List.Forall₂ (TypeReference.RepresentedBy a) m.attr.localVariableTypes bm.attr.localVariableTypes
  parameters : List.Forall₂ (ParameterInformation.ShownBy a) m.parameters bm.args
  returnType : m.returnType.RepresentedBy a bm.returnType

/-- The parts that all kinds of types have; the name that is told is decorated with the number of generics. -/
structure TypeInformation.PartsShown (info : TypeInformation) (name : StringRef) (attr : TypeAttr)
    (genericCount : GenericCountRequirement) (fields : List Binary.Field) (methods : List Binary.Method) :
        Prop where
  name : ∃ s, a.strings[name.index]? = some s ∧ info.name = CompilerService.decorate genericCount s
  attr : attr = info.attr
  genericCount : genericCount = info.genericCount
  fields : List.Forall₂ (FieldInformation.ShownBy a) info.fields fields
  methods : List.Forall₂ (MethodInformation.ShownBy a) info.methods methods

/-- A definition that says what is told about the type. -/
inductive TypeInformation.ShownBy (info : TypeInformation) : Binary.TypeDef → Prop
  | «class» {bd} : info.PartsShown a bd.name bd.attr bd.genericCountRequirement bd.fields bd.methodTable →
      Option.Rel (TypeReference.RepresentedBy a) info.parent bd.parent → ShownBy info (.class bd)
  | struct {bd} : info.PartsShown a bd.name bd.attr bd.genericCountRequirement bd.fields bd.methodTable →
      info.parent = none → ShownBy info (.struct bd)
  | interface {bd} : info.PartsShown a bd.name bd.attr bd.genericCountRequirement [] bd.methodTable →
      info.parent = none →
      List.Forall₂ (TypeReference.RepresentedBy a) info.implementedInterfaces bd.requiredInterfaces →
      ShownBy info (.interface bd)

variable {a} {l : Lookups} {currentTy : TypeInformation}

theorem Field.RepresentedBy.shown {f : Field} {bf : Binary.Field} (h : f.RepresentedBy a bf) :
    f.toAbstract.ShownBy a bf :=
  ⟨h.name, h.attr, h.ty⟩

theorem Method.RepresentedBy.shown {m : Method} {bm : Binary.Method} (h : m.RepresentedBy a l currentTy bm) :
    m.toAbstract.ShownBy a bm where
  name := h.name
  attr := h.attr
  localVariableTypes := h.localVariableTypes
  parameters := List.forall₂_map_left_iff.2 (h.args.imp fun _ _ hp => ⟨hp.attr, hp.ty⟩)
  returnType := h.returnType

/-- The definition that represents a type shows what the compiler tells about it. -/
theorem TypeDef.RepresentedBy.shown {t : TypeDef} {bt : Binary.TypeDef} (h : t.RepresentedBy a l bt) :
    t.toAbstract.ShownBy a bt := by
  have hfields {fs : List Field} {bfs : List Binary.Field} (h : List.Forall₂ (Field.RepresentedBy a) fs bfs) :
      List.Forall₂ (FieldInformation.ShownBy a) (fs.map Field.toAbstract) bfs :=
    List.forall₂_map_left_iff.2 (h.imp fun _ _ hf => hf.shown)
  have hmethods {currentTy : TypeInformation} {ms : List Method} {bms : List Binary.Method}
      (h : List.Forall₂ (Method.RepresentedBy a l currentTy) ms bms) :
      List.Forall₂ (MethodInformation.ShownBy a) (ms.map Method.toAbstract) bms :=
    List.forall₂_map_left_iff.2 (h.imp fun _ _ hm => hm.shown)
  cases h with
  | «class» hd =>
    refine .class ⟨⟨_, hd.name, ?_⟩, hd.attr, hd.genericCount, hfields hd.fields, hmethods hd.methodTable⟩
      hd.parent
    rw [hd.genericCount]
    rfl
  | struct hd =>
    refine .struct ⟨⟨_, hd.name, ?_⟩, hd.attr, hd.genericCount, hfields hd.fields, hmethods hd.methodTable⟩ rfl
    rw [hd.genericCount]
    rfl
  | interface hd =>
    refine .interface ⟨⟨_, hd.name, ?_⟩, hd.attr, hd.genericCount, .nil, hmethods hd.methodTable⟩ rfl
      hd.requiredInterfaces
    rw [hd.genericCount]
    rfl

end Shown

/-! ### Queries for places -/

/-- In a list whose keys count from `n` on, a key stands at its place. -/
private theorem filter_key {α : Type} {key : α → Nat} {n : Nat} {xs : List α}
    (h : ∀ i x, xs[i]? = some x → key x = n + i) (k : Nat) :
    xs.filter (key · == k) = if n ≤ k then xs[k - n]?.toList else [] := by
  induction xs generalizing n with
  | nil => simp
  | cons x xs ih =>
    have hx : key x = n := h 0 x rfl
    have htail := ih (n := n + 1) fun i y hy => by
      rw [h (i + 1) y hy]
      omega
    rw [List.filter_cons, hx, htail]
    rcases Nat.lt_trichotomy n k with hlt | rfl | hgt
    · have hsub : k - n = (k - (n + 1)) + 1 := by omega
      rw [if_neg (by simp; omega), if_pos (by omega), if_pos hlt.le, hsub, List.getElem?_cons_succ]
    · simp
    · rw [if_neg (by simp; omega), if_neg (by omega), if_neg (by omega)]

section Exports

variable [UniLexer] [UniParser] [CompilerService]

omit [UniLexer] [UniParser] in
theorem TypeDef.id_toAbstract (t : TypeDef) : t.toAbstract.id = t.index := by
  cases t <;> rfl

/-- The places of a program. -/
def Program.Covers (p : Program) (index : UInt32) : Prop :=
  p.lastIndex.toNat ≤ index.toNat ∧ index.toNat < p.lastIndex.toNat + p.definitions.length

instance instDecidableCovers (p : Program) (index : UInt32) : Decidable (p.Covers index) :=
  inferInstanceAs (Decidable (_ ∧ _))

variable [GenericCounts]

omit [UniLexer] [UniParser] in
/-- Asked for an index, a compiler whose types count from `n` on answers with the type that has it. -/
theorem Compiler.query_index {c : Compiler} {n : Nat}
    (h : ∀ i t, c.file.types[i]? = some t → t.index.toNat = n + i)
    {options : TypeQueryOptions} (haddressed : options.addressed) {index : UInt32}
    (hindex : options.index = some index) :
    c.query options = if n ≤ index.toNat then c.types[index.toNat - n]?.toList else [] := by
  have hkeys : ∀ i info, c.types[i]? = some info → info.id.toNat = n + i := by
    intro i info hinfo
    rw [types, List.getElem?_map, Option.map_eq_some_iff] at hinfo
    obtain ⟨t, ht, rfl⟩ := hinfo
    rw [TypeDef.id_toAbstract, h i t ht]
  have hselects : options.selects = fun info => info.id.toNat == index.toNat := by
    funext info
    rw [TypeQueryOptions.selects_of_some hindex, Bool.eq_iff_iff, beq_iff_eq, beq_iff_eq, UInt32.toNat_inj]
  have htake (x : Option TypeInformation) : x.toList.take 1 = x.toList := by
    cases x <;> rfl
  rw [query_eq, if_pos haddressed, hselects, filter_key hkeys]
  split <;> split <;> simp only [htake, List.take_nil]

variable [AssemblyBuilder] {p : Program} {orders : Nat → EntryOrder} {a a' : Assembly}

/-- What the compiler of a program tells about a type is what the definition at its place says after the build. -/
theorem Program.query_shown (hholds : ∀ f ∈ p.files, f.Holds p.lastIndex)
    (hlen : a.typeDefs.length = p.lastIndex.toNat)
    (hbuild : p.compiler.buildImpl orders a = (.ok (), a')) (ha : a'.Addressable) {options : TypeQueryOptions}
    {info : TypeInformation} (hinfo : info ∈ p.compiler.query options) :
    ∃ bt, a'.typeDefs[info.id.toNat]? = some bt ∧
      ∃ t : TypeDef, t.toAbstract = info ∧ t.RepresentedBy a' .compiled bt := by
  obtain ⟨-, hwritten⟩ := Compiler.buildImpl_written hholds rfl hlen hbuild ha
  obtain ⟨-, -, hperm⟩ := written_types hholds (c := p.compiler) rfl
  obtain ⟨⟨t, ht, rfl⟩, -⟩ := Compiler.mem_query hinfo
  obtain ⟨w, hw, rfl⟩ := List.mem_map.1 (hperm.mem_iff.1 ht)
  obtain ⟨f, hf, hwf⟩ := List.mem_flatMap.1 hw
  obtain ⟨bt, hbt, hrepresented, -⟩ := hwritten w hw
  refine ⟨bt, ?_, _, rfl, hrepresented⟩
  rw [TypeDef.id_toAbstract, Written.index_loaded ((hholds f hf).index_lt w hwf)]
  exact hbt

/-- The compiler of a program that has been built answers once for each place of the program, and for no other. -/
theorem Program.query_place (hholds : ∀ f ∈ p.files, f.Holds p.lastIndex)
    (hlen : a.typeDefs.length = p.lastIndex.toNat)
    (hbuild : p.compiler.buildImpl orders a = (.ok (), a')) {options : TypeQueryOptions}
    (haddressed : options.addressed) {index : UInt32} (hindex : options.index = some index) :
    (p.Covers index → ∃ info, p.compiler.query options = [info]) ∧
      (¬p.Covers index → p.compiler.query options = []) := by
  have hplaces : ∀ i t, p.compiler.file.types[i]? = some t → t.index.toNat = p.lastIndex.toNat + i := fun i t ht =>
    (Compiler.buildImpl_position rfl hlen hbuild ht).1
  obtain ⟨-, -, hperm⟩ := written_types hholds (c := p.compiler) rfl
  have hlength : p.compiler.types.length = p.definitions.length := by
    rw [Compiler.types, List.length_map, hperm.length_eq, List.length_map]
    rfl
  rw [Compiler.query_index hplaces haddressed hindex]
  constructor
  · rintro ⟨hle, hlt⟩
    have hplace : index.toNat - p.lastIndex.toNat < p.compiler.types.length := by omega
    refine ⟨p.compiler.types[index.toNat - p.lastIndex.toNat], ?_⟩
    rw [if_pos hle, List.getElem?_eq_getElem hplace]
    rfl
  · intro hnot
    split
    · rename_i hle
      have hbehind : p.compiler.types.length ≤ index.toNat - p.lastIndex.toNat := by
        by_contra hlt
        exact hnot ⟨hle, by omega⟩
      rw [List.getElem?_eq_none hbehind]
      rfl
    · rfl

variable {ps : List Program}

omit [GenericCounts] in
/-- The programs of a run lie behind the types that were there. -/
theorem Assembles.behind (h : Assembles a ps a') (ha : a'.Addressable) :
    ∀ p ∈ ps, a.typeDefs.length ≤ p.lastIndex.toNat := by
  induction h with
  | nil => exact fun _ hp => absurd hp List.not_mem_nil
  | build hholds hlen hbuild hrun ih =>
    obtain ⟨hlen₁, -⟩ := Compiler.buildImpl_written hholds rfl hlen hbuild (ha.of_extends hrun.grows.1)
    refine List.forall_mem_cons.2 ⟨hlen.le, fun q hq => ?_⟩
    have hle := ih ha q hq
    omega
  | other _ hdefs _ ih => exact fun p hp => hdefs.length_le.trans (ih ha p hp)

/-- Whatever the compilers of a run are asked, they tell what the definitions say in the end; asked for a place,
they all together give one answer if the place is one of a program, and else none. -/
theorem Assembles.shows (h : Assembles a ps a') (ha : a'.Addressable) (options : TypeQueryOptions) :
    (∀ info ∈ ps.flatMap (·.compiler.query options), ∃ bt,
        a'.typeDefs[info.id.toNat]? = some bt ∧ info.ShownBy a' bt) ∧
      ∀ index, options.addressed → options.index = some index →
        ((∃ p ∈ ps, p.Covers index) → ∃ info, ps.flatMap (·.compiler.query options) = [info]) ∧
          ((∀ p ∈ ps, ¬p.Covers index) → ps.flatMap (·.compiler.query options) = []) := by
  induction h with
  | nil =>
    refine ⟨fun _ h => absurd h List.not_mem_nil, fun _ _ _ => ⟨fun h => ?_, fun _ => rfl⟩⟩
    obtain ⟨_, hp, -⟩ := h
    exact absurd hp List.not_mem_nil
  | @build a a₁ a' p ps orders hholds hlen hbuild hrun ih =>
    obtain ⟨hshown, hanswers⟩ := ih ha
    obtain ⟨hext, hdefs⟩ := hrun.grows
    have ha₁ := ha.of_extends hext
    rw [List.flatMap_cons]
    constructor
    · intro info hinfo
      rcases List.mem_append.1 hinfo with hinfo | hinfo
      · obtain ⟨bt, hbt, t, rfl, ht⟩ := Program.query_shown hholds hlen hbuild ha₁ hinfo
        exact ⟨bt, getElem?_of_isPrefix hdefs hbt, (TypeDef.RepresentedBy.lasts t _ _ _ hext ht).shown⟩
      · exact hshown info hinfo
    · intro index haddressed hindex
      obtain ⟨hone, hnone⟩ := Program.query_place hholds hlen hbuild haddressed hindex
      obtain ⟨hsome, hnil⟩ := hanswers index haddressed hindex
      obtain ⟨hlen₁, -⟩ := Compiler.buildImpl_written hholds rfl hlen hbuild ha₁
      have hbehind := hrun.behind ha
      by_cases hp : p.Covers index
      · -- the programs that are built later lie behind the place
        have hlater : ∀ q ∈ ps, ¬q.Covers index := by
          intro q hq hcovers
          have hle := hbehind q hq
          have hlt := hp.2
          have hge := hcovers.1
          rw [hlen₁, ← Program.definitions] at hle
          omega
        obtain ⟨info, hinfo⟩ := hone hp
        rw [hinfo, hnil hlater]
        exact ⟨fun _ => ⟨info, rfl⟩, fun hnot => absurd hp (hnot p (List.mem_cons_self ..))⟩
      · rw [hnone hp, List.nil_append]
        constructor
        · intro h
          obtain ⟨q, hq, hcovers⟩ := h
          exact hsome ⟨q, (List.mem_cons.1 hq).resolve_left fun heq => hp (heq ▸ hcovers), hcovers⟩
        · exact fun hnot => hnil fun q hq => hnot q (List.mem_cons_of_mem p hq)
  | other _ _ _ ih => exact ih ha

end Exports

/-- `Assembles.shows` for the two programs, asked for a class of the second and for the type between them, which
another compiler has added. -/
theorem Assembles.shows_shapes :
    let _ := asciiLexer
    let _ := plainParser
    let _ := shapeService
    let _ := rangeCounts
    (∃ info bt, [queueProgram, circleProgram].flatMap
          (·.compiler.query { index := some 6, tryDecorate := false, exact := true }) = [info] ∧
        shapesAssembly.typeDefs[info.id.toNat]? = some bt ∧ info.ShownBy shapesAssembly bt) ∧
      [queueProgram, circleProgram].flatMap (·.compiler.query
        { index := some 5, tryDecorate := false, exact := true }) = [] := by
  intro _ _ _ _
  let _ := internBuilder
  obtain ⟨hshown, hanswers⟩ := Assembles.shows shapes_run shapesAssembly_addressable
    { index := some 6, tryDecorate := false, exact := true }
  have hcovers : circleProgram.Covers 6 := by
    decide
  obtain ⟨info, hinfo⟩ := (hanswers 6 rfl rfl).1 ⟨_, List.mem_cons_of_mem _ (List.mem_singleton.2 rfl), hcovers⟩
  obtain ⟨bt, hbt, hshows⟩ := hshown info (by rw [hinfo]; exact List.mem_singleton.2 rfl)
  obtain ⟨-, hnone⟩ := (Assembles.shows shapes_run shapesAssembly_addressable
    { index := some 5, tryDecorate := false, exact := true }).2 5 rfl rfl
  have hforeign : ∀ p ∈ [queueProgram, circleProgram], ¬p.Covers 5 := by
    decide
  exact ⟨⟨info, bt, hinfo, hbt, hshows⟩, hnone hforeign⟩

end PuralinguaIR
