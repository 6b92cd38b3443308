import PuralinguaIR.Programs

/-!
# Programs in one assembly

Several compilers write into one assembly, each behind the types of those before it. `finish_load` returns the
greatest number of a loaded type, one less than the number of types after the build
(`Compiler.finishLoad_built`). However builds of this compiler alternate with what other compilers add, a
program that has been built keeps its definitions in their places, no two programs share a place, and the
definitions go on saying what is written (`Assembles.represents`).
-/

namespace PuralinguaIR

open Text Effect Effect.Prog Reading Sorting

/-- The greatest number of a loaded type; there is none, which is a panic, when no type is loaded. -/
def Compiler.finishLoad (c : Compiler) : Option UInt32 := (c.file.types.map TypeDef.index).max?

section Linking

variable [UniLexer] [UniParser] [CompilerService]

/-! ### Programs -/

/-- The files of a program and the number of its first type. -/
structure Program where
  lastIndex : UInt32
  files : List WrittenFile

def Program.definitions (p : Program) : List Written := p.files.flatMap (·.definitions)

/-- The compiler that has loaded a program. -/
def Program.compiler (p : Program) : Compiler :=
  loadFiles (p.files.map (·.path)) (Compiler.new.setLastIndex p.lastIndex)

variable [AssemblyBuilder]

/-- The steps from one assembly to another: some programs are built in this order, each behind the types that are
there, and other compilers add types and entries of the tables. -/
inductive Assembles : Assembly → List Program → Assembly → Prop where
  | nil {a} : Assembles a [] a
  | build {a a₁ a' p ps orders} : (∀ f ∈ p.files, f.Holds p.lastIndex) → a.typeDefs.length = p.lastIndex.toNat →
      p.compiler.buildImpl orders a = (.ok (), a₁) → Assembles a₁ ps a' → Assembles a (p :: ps) a'
  | other {a a₁ a' ps} : a.Extends a₁ → a.typeDefs <+: a₁.typeDefs → Assembles a₁ ps a' → Assembles a ps a'

variable {a a' : Assembly} {ps : List Program}

/-! ### Runs -/

/-- Nothing that is there is lost or moved. -/
theorem Assembles.grows (h : Assembles a ps a') : a.Extends a' ∧ a.typeDefs <+: a'.typeDefs := by
  induction h with
  | nil => exact ⟨.refl _, List.prefix_refl _⟩
  | build _ _ hbuild _ ih =>
    obtain ⟨hext, bts, hbts, -⟩ := Compiler.buildImpl_run hbuild
    exact ⟨hext.trans ih.1, List.IsPrefix.trans ⟨bts, hbts.symm⟩ ih.2⟩
  | other hext hdefs _ ih => exact ⟨hext.trans ih.1, hdefs.trans ih.2⟩

/-- Every program of a run keeps its definitions at their numbers, which lie behind those of the programs before,
and they represent what is written. -/
theorem Assembles.represents (h : Assembles a ps a') (ha : a'.Addressable) :
    ps.Pairwise (fun p q => p.lastIndex.toNat + p.definitions.length ≤ q.lastIndex.toNat) ∧
      ∀ p ∈ ps, a.typeDefs.length ≤ p.lastIndex.toNat ∧ ∀ w ∈ p.definitions, ∃ bt,
        a'.typeDefs[p.lastIndex.toNat + w.definition.index.toNat]? = some bt ∧
          (w.loaded p.lastIndex).RepresentedBy a' .compiled bt ∧
            ((w.loaded p.lastIndex).RepresentedBy a' .declared bt ↔ (w.loaded p.lastIndex).LookupsAgree) := by
  induction h with
  | nil => exact ⟨.nil, nofun⟩
  | @build a a₁ a' p ps orders hholds hlen hbuild hrun ih =>
    obtain ⟨hpairwise, hall⟩ := ih ha
    obtain ⟨hext, hdefs⟩ := hrun.grows
    obtain ⟨hlen₁, hwritten⟩ := Compiler.buildImpl_written hholds rfl hlen hbuild (ha.of_extends hext)
    refine ⟨List.pairwise_cons.2 ⟨fun q hq => ?_, hpairwise⟩,
      List.forall_mem_cons.2 ⟨⟨hlen.le, ?_⟩, fun q hq => ?_⟩⟩
    · rw [Program.definitions, ← hlen₁]
      exact (hall q hq).1
    · intro w hw
      obtain ⟨bt, hbt, hrepresented, -⟩ := hwritten w hw
      have hlater := TypeDef.RepresentedBy.lasts _ a₁ a' bt hext hrepresented
      exact ⟨bt, getElem?_of_isPrefix hdefs hbt, hlater, hlater.declared_iff⟩
    · obtain ⟨hle, hrepresented⟩ := hall q hq
      refine ⟨Nat.le_trans ?_ hle, hrepresented⟩
      rw [hlen, hlen₁]
      exact Nat.le_add_right _ _
  | other hext hdefs _ ih =>
    obtain ⟨hpairwise, hall⟩ := ih ha
    exact ⟨hpairwise, fun p hp => ⟨Nat.le_trans hdefs.length_le (hall p hp).1, (hall p hp).2⟩⟩

/-! ### The last index -/

omit [UniLexer] [UniParser] [CompilerService] [AssemblyBuilder] in
private theorem max_eq (x y : UInt32) : max x y = if x ≤ y then y else x := rfl

instance instLawfulOrderMax : Std.LawfulOrderMax UInt32 where
  max_eq_or x y := by
    rw [max_eq]
    split <;> simp
  max_le_iff x y z := by
    rw [max_eq]
    split
    · rename_i h
      exact ⟨fun hy => ⟨UInt32.le_trans h hy, hy⟩, And.right⟩
    · rename_i h
      exact ⟨fun hx => ⟨hx, UInt32.le_trans (UInt32.le_of_lt (UInt32.not_le.1 h)) hx⟩, And.left⟩

/-- The last index of a compiler that has built its types is that of the last type of the assembly; without types
there is no last index, and the build adds nothing. -/
theorem Compiler.finishLoad_built {c : Compiler} {lastIndex : UInt32} {paths : List FilePath}
    (hc : c = loadFiles paths (Compiler.new.setLastIndex lastIndex)) {orders : Nat → EntryOrder}
    (hlen : a.typeDefs.length = lastIndex.toNat) (hbuild : c.buildImpl orders a = (.ok (), a')) :
    (c.finishLoad = none ↔ a' = a) ∧ ∀ k, c.finishLoad = some k → a'.typeDefs.length = k.toNat + 1 := by
  obtain ⟨-, bts, hbts, hbtsLen, -⟩ := Compiler.buildImpl_run hbuild
  have hindex : ∀ i t, c.file.types[i]? = some t → t.index.toNat = lastIndex.toNat + i := fun i t ht =>
    (Compiler.buildImpl_position hc hlen hbuild ht).1
  have hlen' : a'.typeDefs.length = lastIndex.toNat + c.file.types.length := by
    rw [hbts, List.length_append, hlen, hbtsLen]
  constructor
  · rw [finishLoad, List.max?_eq_none_iff, List.map_eq_nil_iff]
    constructor
    · intro hnil
      rw [Compiler.buildImpl, hnil] at hbuild
      exact (congrArg Prod.snd hbuild).symm
    · rintro rfl
      exact List.length_eq_zero_iff.1 (by omega)
  · intro k hk
    obtain ⟨hmem, hmax⟩ := List.max?_eq_some_iff.1 hk
    obtain ⟨t, ht, rfl⟩ := List.mem_map.1 hmem
    obtain ⟨i, hi⟩ := List.mem_iff_getElem?.1 ht
    obtain ⟨hlt, -⟩ := List.getElem?_eq_some_iff.1 hi
    -- the type at the last place has a number that is not greater
    have hlast := List.getElem?_eq_getElem (l := c.file.types) (i := c.file.types.length - 1) (by omega)
    have hle := UInt32.le_iff_toNat_le.1 (hmax _ (List.mem_map_of_mem (List.mem_of_getElem? hlast)))
    rw [hindex _ _ hlast, hindex i t hi] at hle
    rw [hindex i t hi]
    omega

end Linking

/-! ### Two programs and another compiler -/

/-- What another compiler makes of an assembly: it adds strings and types. -/
def Assembly.join (a : Assembly) (strings : List String) (bts : List Binary.TypeDef) : Assembly :=
  { a with strings := a.strings ++ strings, typeDefs := a.typeDefs ++ bts }

theorem Assembles.join [UniLexer] [UniParser] [CompilerService] [AssemblyBuilder] {a a' : Assembly}
    {ps : List Program}
    {strings : List String} {bts : List Binary.TypeDef} (h : Assembles (a.join strings bts) ps a') :
    Assembles a ps a' := by
  have hext : a.Extends (a.join strings bts) :=
    ⟨List.prefix_append _ _, List.prefix_refl _, List.prefix_refl _, List.prefix_refl _⟩
  exact .other hext (List.prefix_append _ _) h

def queueProgram : @Program shapeService := @Program.mk shapeService 1 queueFiles

/-- The program that stands behind six types. -/
def circleProgram : @Program shapeService :=
  @Program.mk shapeService 6 [@WrittenFile.mk shapeService (2 : Nat) [writtenRing, writtenCircle]]

theorem circleProgram_holds :
    ∀ f ∈ (@Program.files shapeService circleProgram),
        @WrittenFile.Holds asciiLexer plainParser shapeService 6 f :=
  List.forall_mem_singleton.2 (shapes_hold (by decide) rfl)

/-- The first program and a type of another compiler. -/
def middleAssembly : Assembly :=
  queueAssembly.join ["Middle"] [.struct ⟨⟨0⟩, ⟨.public, .struct false false⟩, .exact 0, [], []⟩]

def circleCompiler : Compiler := loaded 6 ([writtenRing, writtenCircle].map (·.placed 6))

theorem circleCompiler_eq : @Program.compiler asciiLexer plainParser shapeService circleProgram = circleCompiler :=
  @loadFiles_written asciiLexer plainParser shapeService 6 _ circleProgram_holds

def circleAssembly : Assembly :=
  Prog.after (@Compiler.buildImpl shapeService internBuilder (fun _ => .same) circleCompiler) middleAssembly

private theorem circle_ends :
    (@Compiler.buildImpl shapeService internBuilder (fun _ => .same) circleCompiler middleAssembly).1 =
        .ok () := by
  decide +kernel

theorem circle_built : @Compiler.buildImpl shapeService internBuilder (fun _ => .same) circleCompiler
    middleAssembly = (.ok (), circleAssembly) :=
  run_after circle_ends

theorem middleAssembly_length : middleAssembly.typeDefs.length = (6 : UInt32).toNat := by
  decide +kernel

/-- The assembly in the end, to which the other compiler has added a string. -/
def shapesAssembly : Assembly := circleAssembly.join ["End"] []

theorem shapes_run :
    @Assembles asciiLexer plainParser shapeService internBuilder hostAssembly [queueProgram, circleProgram]
      shapesAssembly := by
  let _ := asciiLexer
  let _ := plainParser
  let _ := shapeService
  let _ := internBuilder
  have hqueue : queueProgram.compiler.buildImpl (fun _ => .same) hostAssembly = (.ok (), queueAssembly) := by
    rw [show queueProgram.compiler = queueCompiler from queueCompiler_eq]
    exact queue_built
  have hcircle : circleProgram.compiler.buildImpl (fun _ => .same) middleAssembly = (.ok (), circleAssembly) := by
    rw [circleCompiler_eq]
    exact circle_built
  exact .build queueFiles_hold rfl hqueue (.join
    (.build circleProgram_holds middleAssembly_length hcircle (.join .nil)))

theorem shapesAssembly_addressable : shapesAssembly.Addressable :=
  ⟨by decide +kernel, by decide +kernel, by decide +kernel⟩

/-- `Assembles.represents` for the two programs: a class of each, between which the other compiler has added a
type. -/
theorem Assembles.represents_shapes :
    let _ := shapeService
    queueProgram.lastIndex.toNat + queueProgram.definitions.length ≤ circleProgram.lastIndex.toNat ∧
      (∃ bt, shapesAssembly.typeDefs[3]? = some bt ∧
        (writtenQueue.loaded 1).RepresentedBy shapesAssembly .compiled bt) ∧
      ∃ bt, shapesAssembly.typeDefs[6]? = some bt ∧
        (writtenCircle.loaded 6).RepresentedBy shapesAssembly .compiled bt := by
  intro _
  let _ := asciiLexer
  let _ := plainParser
  let _ := internBuilder
  obtain ⟨hpairwise, hall⟩ := Assembles.represents shapes_run shapesAssembly_addressable
  obtain ⟨-, hqueue⟩ := hall queueProgram (List.mem_cons_self ..)
  obtain ⟨-, hcircle⟩ := hall circleProgram (List.mem_cons_of_mem _ (List.mem_singleton.2 rfl))
  refine ⟨(List.pairwise_cons.1 hpairwise).1 circleProgram (List.mem_singleton.2 rfl), ?_, ?_⟩
  · obtain ⟨bt, hbt, hrepresented, -⟩ := hqueue writtenQueue (List.mem_cons_self ..)
    exact ⟨bt, hbt, hrepresented⟩
  · obtain ⟨bt, hbt, hrepresented, -⟩ := hcircle writtenCircle (List.mem_cons_of_mem _ (List.mem_singleton.2 rfl))
    exact ⟨bt, hbt, hrepresented⟩

/-- `Compiler.finishLoad_built` for the first program, which stands behind a type. -/
theorem Compiler.finishLoad_built_queue :
    queueCompiler.finishLoad = some 4 ∧ queueAssembly.typeDefs.length = (4 : UInt32).toNat + 1 := by
  let _ := asciiLexer
  let _ := plainParser
  let _ := shapeService
  let _ := internBuilder
  have hfinish : queueCompiler.finishLoad = some 4 := by
    decide +kernel
  obtain ⟨-, hlast⟩ := Compiler.finishLoad_built queueCompiler_eq.symm rfl queue_built
  exact ⟨hfinish, hlast 4 hfinish⟩

end PuralinguaIR
