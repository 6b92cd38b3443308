import Mathlib.Data.List.Perm.Basic
import PuralinguaIR.Buildable
import PuralinguaIR.Files
import PuralinguaIR.Represents
import PuralinguaIR.TypeTokens

/-!
# Programs written as text

A program is written as files, each a text of some definitions. However the definitions are divided among the
files and in whatever order these are loaded, the compiler has the definitions with their members sorted
(`loadFiles_written`). So it builds the program exactly when the definitions are numbered from `0` on and each
can be built (`Compiler.buildImpl_written_iff`), and then each stands at its number and is represented there
(`Compiler.buildImpl_written`).
-/

namespace PuralinguaIR

open Text Effect Effect.Prog Reading Sorting

section Programs

variable [UniLexer] [UniParser] [CompilerService]

/-- A file and the definitions written in it. -/
structure WrittenFile where
  path : FilePath
  definitions : List Written

/-- The file can be read and is a text of its definitions; these are well formed, and their numbers leave room for
the types before. -/
structure WrittenFile.Holds (lastIndex : UInt32) (f : WrittenFile) : Prop where
  text : ∃ ts, readText f.path = .ok (printTokens ts) ∧
    List.Forall₂ Word.SpelledBy (f.definitions.flatMap Written.words) (ts.map Prod.fst)
  wellFormed : ∀ w ∈ f.definitions, w.definition.WellFormed
  index_lt : ∀ w ∈ f.definitions, w.definition.index.toNat + lastIndex.toNat < 2 ^ 32

omit [UniLexer] [UniParser] [CompilerService] in
/-- A definition as it is loaded: behind the types before, with its members sorted. -/
def Written.loaded (lastIndex : UInt32) (w : Written) : TypeDef := (w.placed lastIndex).sortItems

variable {lastIndex : UInt32}

/-! ### Loading -/

theorem WrittenFile.Holds.parsedTypes {f : WrittenFile} (h : f.Holds lastIndex) :
    parsedTypes lastIndex f.path = f.definitions.map (·.placed lastIndex) := by
  obtain ⟨ts, hread, hts⟩ := h.text
  have hparse := File.parse_of_spells h.wellFormed h.index_lt (printTokens_valid ts) (spells_printTokens hts)
  rw [PuralinguaIR.parsedTypes, parseFile, hread]
  dsimp only
  rw [hparse]

/-- Only the definitions matter, not how they are divided among files. -/
theorem loadFiles_written {files : List WrittenFile} (h : ∀ f ∈ files, f.Holds lastIndex) :
    loadFiles (files.map (·.path)) (Compiler.new.setLastIndex lastIndex) =
      loaded lastIndex ((files.flatMap (·.definitions)).map (·.placed lastIndex)) := by
  have htypes : (files.map (·.path)).flatMap (parsedTypes lastIndex) =
      (files.flatMap (·.definitions)).map (·.placed lastIndex) := by
    rw [List.flatMap_map, List.map_flatMap]
    exact List.flatMap_congr fun f hf => (h f hf).parsedTypes
  rw [loadFiles_new, htypes]

/-- What the compiler has after loading the files. -/
theorem written_types {files : List WrittenFile} (h : ∀ f ∈ files, f.Holds lastIndex) {c : Compiler}
    (hc : c = loadFiles (files.map (·.path)) (Compiler.new.setLastIndex lastIndex)) :
    c.lastIndex = some lastIndex ∧ c.file.types.Pairwise (fun a b => a.index ≤ b.index) ∧
      c.file.types.Perm ((files.flatMap (·.definitions)).map (·.loaded lastIndex)) := by
  rw [loadFiles_written h] at hc
  have hloaded := loaded_hasLoaded lastIndex ((files.flatMap (·.definitions)).map (·.placed lastIndex))
  have hcomplete := hloaded.complete
  rw [List.map_map] at hcomplete
  subst hc
  exact ⟨rfl, hloaded.sorted, hcomplete⟩

omit [UniLexer] [UniParser] [CompilerService] in
theorem Written.index_loaded {w : Written} (h : w.definition.index.toNat + lastIndex.toNat < 2 ^ 32) :
    (w.loaded lastIndex).index.toNat = lastIndex.toNat + w.definition.index.toNat := by
  rw [loaded, TypeDef.index_sortItems, placed, TypeDef.index_setIndex, UInt32.toNat_add, Nat.mod_eq_of_lt h,
    Nat.add_comm]

/-! ### Building -/

omit [UniLexer] [UniParser] [CompilerService] in
/-- Sorted types whose numbers are those from the last index on, in some order, have the numbers of their
places. -/
private theorem index_of_perm_range {types : List TypeDef} (hsorted : types.Pairwise fun a b => a.index ≤ b.index)
    (hperm : (types.map (·.index.toNat)).Perm ((List.range types.length).map (lastIndex.toNat + ·))) {i : Nat}
    {t : TypeDef} (ht : types[i]? = some t) : t.index.toNat = lastIndex.toNat + i := by
  have hleft : (types.map (·.index.toNat)).Pairwise (· ≤ ·) :=
    List.pairwise_map.2 (hsorted.imp fun h => UInt32.le_iff_toNat_le.1 h)
  have hright : ((List.range types.length).map (lastIndex.toNat + ·)).Pairwise (· ≤ ·) :=
    List.pairwise_map.2 (List.pairwise_le_range.imp fun h => Nat.add_le_add_left h _)
  have heq := List.Perm.eq_of_pairwise (fun a b _ _ => Nat.le_antisymm) hleft hright hperm
  have hi : i < types.length := (List.getElem?_eq_some_iff.1 ht).1
  have hget := congrArg (·[i]?) heq
  simp only [List.getElem?_map, ht, List.getElem?_range hi, Option.map_some, Option.some.injEq] at hget
  exact hget

/-- A program is built exactly when its definitions are numbered from `0` on and each can be built. -/
theorem Compiler.buildImpl_written_iff [AssemblyBuilder] {files : List WrittenFile}
    (h : ∀ f ∈ files, f.Holds lastIndex) {c : Compiler}
    (hc : c = loadFiles (files.map (·.path)) (Compiler.new.setLastIndex lastIndex)) {orders : Nat → EntryOrder}
    {a : Assembly} :
    (∃ a', c.buildImpl orders a = (.ok (), a')) ↔
      ((files.flatMap (·.definitions)).map (·.definition.index.toNat)).Perm
          (List.range (files.flatMap (·.definitions)).length) ∧
        ∀ w ∈ files.flatMap (·.definitions), (w.loaded lastIndex).Buildable := by
  obtain ⟨hlast, hsorted, hperm⟩ := written_types h hc
  have hlt : ∀ w ∈ files.flatMap (·.definitions), w.definition.index.toNat + lastIndex.toNat < 2 ^ 32 := by
    intro w hw
    obtain ⟨f, hf, hw⟩ := List.mem_flatMap.1 hw
    exact (h f hf).index_lt w hw
  rw [(Compiler.buildImpl_ok orders c).unit a]
  simp only [Compiler.Buildable, Compiler.BuildableAt, hlast, Option.getD_some]
  generalize files.flatMap (·.definitions) = ws at hperm hlt ⊢
  have hlen : c.file.types.length = ws.length := by rw [hperm.length_eq, List.length_map]
  have hindices : (c.file.types.map (·.index.toNat)).Perm
      ((ws.map (·.definition.index.toNat)).map (lastIndex.toNat + ·)) := by
    refine (hperm.map _).trans ?_
    rw [List.map_map, List.map_map]
    exact .of_eq (List.map_congr_left fun w hw => Written.index_loaded (hlt w hw))
  constructor
  · intro hall
    constructor
    · have hplaces : c.file.types.map (·.index.toNat) = (List.range ws.length).map (lastIndex.toNat + ·) := by
        refine List.ext_getElem? fun i => ?_
        rw [List.getElem?_map, List.getElem?_map, ← hlen]
        cases ht : c.file.types[i]? with
        | none =>
          rw [List.getElem?_eq_none (by simpa using List.getElem?_eq_none_iff.1 ht)]
          rfl
        | some t =>
          rw [List.getElem?_range (List.getElem?_eq_some_iff.1 ht).1, Option.map_some, Option.map_some,
            index_of_place hsorted (fun i t ht => (hall i t ht).1) ht]
      rw [hplaces] at hindices
      exact (List.map_perm_map_iff fun _ _ h => Nat.add_left_cancel h).1 hindices.symm
    · intro w hw
      have hmem : w.loaded lastIndex ∈ c.file.types := hperm.mem_iff.2 (List.mem_map_of_mem hw)
      obtain ⟨i, hi⟩ := List.mem_iff_getElem?.1 hmem
      exact (hall i _ hi).2
  · rintro ⟨hrange, hbuildable⟩ i t ht
    have hindex : t.index.toNat = lastIndex.toNat + i := by
      refine index_of_perm_range hsorted (hindices.trans ?_) ht
      rw [hlen]
      exact hrange.map _
    constructor
    · have hi : i < 2 ^ 32 := by
        have := t.index.toNat_lt
        omega
      have hplace : (UInt32.ofNat i).toNat = i := by rw [UInt32.toNat_ofNat', Nat.mod_eq_of_lt hi]
      have hlt : (UInt32.ofNat i).toNat + lastIndex.toNat < 2 ^ 32 := by
        rw [hplace, Nat.add_comm, ← hindex]
        exact t.index.toNat_lt
      rw [checkedAdd, if_pos hlt, Option.some.injEq, ←
        UInt32.toNat_inj, UInt32.toNat_add, Nat.mod_eq_of_lt hlt, hplace, hindex, Nat.add_comm]
    · obtain ⟨w, hw, rfl⟩ := List.mem_map.1 (hperm.mem_iff.1 (List.mem_of_getElem? ht))
      exact hbuildable w hw

omit [UniLexer] [UniParser] [CompilerService] in
private theorem Written.loaded_locals {w : Written} (h : w.definition.WellFormed) :
    ∀ m ∈ (w.loaded lastIndex).methods, m.locals.length = m.attr.localVariableTypes.length := by
  intro m hm
  rw [loaded, TypeDef.methods_sortItems] at hm
  exact ((h.setIndex _).methods m ((sortByKey_perm _ _).mem_iff.1 hm)).locals

/-- The definitions of a program that is built stand behind those that were there, each at its number, and
represent what is written: as the compiler looks names up, and as they are declared exactly when both ways
agree. -/
theorem Compiler.buildImpl_written [AssemblyBuilder] {files : List WrittenFile}
    (h : ∀ f ∈ files, f.Holds lastIndex) {c : Compiler}
    (hc : c = loadFiles (files.map (·.path)) (Compiler.new.setLastIndex lastIndex)) {orders : Nat → EntryOrder}
    {a a' : Assembly} (hlen : a.typeDefs.length = lastIndex.toNat) (hbuild : c.buildImpl orders a = (.ok (), a'))
    (ha : a'.Addressable) :
    a'.typeDefs.length = lastIndex.toNat + (files.flatMap (·.definitions)).length ∧
      ∀ w ∈ files.flatMap (·.definitions), ∃ bt,
        a'.typeDefs[lastIndex.toNat + w.definition.index.toNat]? = some bt ∧
          (w.loaded lastIndex).RepresentedBy a' .compiled bt ∧
            ((w.loaded lastIndex).RepresentedBy a' .declared bt ↔ (w.loaded lastIndex).LookupsAgree) := by
  obtain ⟨hlast, hsorted, hperm⟩ := written_types h hc
  obtain ⟨-, bts, hbts, hbtsLen, hcompiled⟩ := Compiler.buildImpl_run hbuild
  constructor
  · rw [hbts, List.length_append, hlen, hbtsLen, hperm.length_eq, List.length_map]
  intro w hw
  obtain ⟨f, hf, hwf⟩ := List.mem_flatMap.1 hw
  obtain ⟨i, hi⟩ := List.mem_iff_getElem?.1 (hperm.mem_iff.2 (List.mem_map_of_mem hw))
  obtain ⟨bt, hbt, hyields⟩ := Compiler.buildImpl_get hbuild hi
  simp only [Nat.zero_add, hlast, Option.getD_some] at hcompiled
  have hplace := index_of_place hsorted (fun i t ht => (hcompiled i t ht).1) hi
  rw [Written.index_loaded ((h f hf).index_lt w hwf)] at hplace
  have hlocals : ∀ m ∈ (w.loaded lastIndex).methods, m.locals.length = m.attr.localVariableTypes.length :=
    Written.loaded_locals ((h f hf).wellFormed w hwf)
  have hrepresented := hyields.of_compiles (compileDefinition_compiles _ hlocals)
    (TypeDef.RepresentedBy.lasts _) ha
  refine ⟨bt, ?_, hrepresented, hrepresented.declared_iff⟩
  rwa [hplace, ← hlen]

end Programs

/-! ### A program of two files -/

/-- A file that holds the plain text of its definitions. -/
theorem WrittenFile.holds_of_plain [UniLexer] [UniParser] [CompilerService] {lastIndex : UInt32} {f : WrittenFile}
    (hread : readPath f.path = .ok (plainSource f.definitions).toUTF8)
    (hplain : ∀ w ∈ f.definitions, ∀ x ∈ w.words, x.plain.isSome)
    (hwf : ∀ w ∈ f.definitions, w.definition.WellFormed)
    (hindex : ∀ w ∈ f.definitions, w.definition.index.toNat + lastIndex.toNat < 2 ^ 32) : f.Holds lastIndex := by
  obtain ⟨ts, hts⟩ := exists_plainFile hplain
  have hsource : plainSource f.definitions = String.ofList (printTokens ts) := by
    rw [plainSource, hts]
    rfl
  have htext : readText f.path = .ok (printTokens ts) := by
    have hutf8 (s : String) : String.fromUTF8? s.toUTF8 = some s := dif_pos s.isValidUTF8
    rw [readText, hread]
    dsimp only
    rw [hutf8, hsource]
    dsimp only
    rw [String.toList_ofList]
  exact ⟨⟨ts, htext, plainText_spelled hts⟩, hwf, hindex⟩

def baseClass : ClassDef :=
  ⟨⟨.public, .class false false⟩, 3, none, ⟨"Base"⟩, [⟨"T"⟩], false, none,
    [{ drawMethod with name := ⟨"init"⟩ }], []⟩

/-- A class whose parent is a class of the program, with its methods written in the opposite order. -/
def circleClass : ClassDef where
  attr := ⟨.public, .class false false⟩
  index := 0
  main := none
  name := ⟨"Circle"⟩
  generics := []
  isGenericInfinite := false
  parent := some (.common "A" "Queue" none [shapeType])
  methods := [{ drawMethod with index := 2, name := ⟨"area"⟩ }, { drawMethod with index := 1 }]
  fields := [⟨⟨.private, false⟩, 0, ⟨"radius"⟩, .common "A" "Pair" none []⟩]

def ringStruct : StructDef :=
  ⟨⟨.private, .struct false false⟩, 1, ⟨"Ring"⟩, [], false, [],
    [⟨⟨.private, false⟩, 0, ⟨"outer"⟩, .common "A" "Circle" none []⟩]⟩

def writtenBase : Written := ⟨.class baseClass, baseClass.methods.map .inl, false, by decide⟩

def writtenCircle : Written :=
  ⟨.class circleClass, circleClass.fields.map .inr ++ circleClass.methods.map .inl, false, by decide⟩

def writtenRing : Written := ⟨.struct ringStruct, ringStruct.fields.map .inr, false, by decide⟩

/-- The definitions of two programs, the first in two files and the second in one. -/
def shapeContents : List (List Written) :=
  [[writtenQueue, writtenShape], [writtenBase, writtenPair], [writtenRing, writtenCircle]]

theorem shapes_wellFormed : ∀ w ∈ shapeContents.flatten, w.definition.WellFormed := by
  decide

theorem shapes_plain : ∀ w ∈ shapeContents.flatten, ∀ x ∈ w.words, (@Word.plain asciiLexer x).isSome := by
  decide +kernel

theorem shapes_index : ∀ w ∈ shapeContents.flatten, w.definition.index.toNat < 4 := by
  decide

/-- A service with the files, which knows the types of the first program behind one type and those of the second
behind six. -/
@[reducible] def shapeService : CompilerService :=
  ownService (shapeContents.map (@plainSource asciiLexer))
    [writtenShape.loaded 1, writtenPair.loaded 1, writtenQueue.loaded 1, writtenBase.loaded 1,
      writtenCircle.loaded 6, writtenRing.loaded 6]

theorem shapes_hold {lastIndex : UInt32} (hlast : lastIndex < 7) {i : Nat} {ws : List Written}
    (hws : shapeContents[i]? = some ws) :
    @WrittenFile.Holds asciiLexer plainParser shapeService lastIndex (@WrittenFile.mk shapeService i ws) := by
  let _ := asciiLexer
  let _ := plainParser
  let _ := shapeService
  have hread : readPath (i : Nat) = .ok (plainSource ws).toUTF8 := by
    show ((shapeContents.map plainSource)[i]?).elim _ _ = _
    rw [List.getElem?_map, hws]
    rfl
  have hmem : ∀ w ∈ ws, w ∈ shapeContents.flatten := fun w hw =>
    List.mem_flatten.2 ⟨ws, List.mem_of_getElem? hws, hw⟩
  refine WrittenFile.holds_of_plain hread ?_ ?_ ?_
  · exact fun w hw => shapes_plain w (hmem w hw)
  · exact fun w hw => shapes_wellFormed w (hmem w hw)
  · intro w hw
    have hindex := shapes_index w (hmem w hw)
    have hlast := UInt32.lt_iff_toNat_lt.1 hlast
    have hseven : (7 : UInt32).toNat = 7 := rfl
    omega

def queueFiles : List (@WrittenFile shapeService) :=
  [@WrittenFile.mk shapeService (0 : Nat) [writtenQueue, writtenShape],
    @WrittenFile.mk shapeService (1 : Nat) [writtenBase, writtenPair]]

theorem queueFiles_hold : ∀ f ∈ queueFiles, @WrittenFile.Holds asciiLexer plainParser shapeService 1 f := by
  refine List.forall_mem_cons.2 ⟨shapes_hold (by decide) ?_,
    List.forall_mem_singleton.2 (shapes_hold (by decide) ?_)⟩
  · rfl
  · rfl

def queueCompiler : Compiler :=
  loaded 1 ([writtenQueue, writtenShape, writtenBase, writtenPair].map (·.placed 1))

theorem queueCompiler_eq :
    @loadFiles asciiLexer plainParser shapeService (queueFiles.map (@WrittenFile.path shapeService))
      (Compiler.new.setLastIndex 1) = queueCompiler :=
  @loadFiles_written asciiLexer plainParser shapeService 1 _ queueFiles_hold

/-- An assembly with a type of another compiler. -/
def hostAssembly : Assembly :=
  ⟨["Host"], [], [], [], [.struct ⟨⟨0⟩, ⟨.public, .struct false false⟩, .exact 0, [], []⟩]⟩

/-- The assembly behind which the first program has been built. -/
def queueAssembly : Assembly :=
  Prog.after (@Compiler.buildImpl shapeService internBuilder (fun _ => .same) queueCompiler) hostAssembly

private theorem queue_ends :
    (@Compiler.buildImpl shapeService internBuilder (fun _ => .same) queueCompiler hostAssembly).1 = .ok () := by
  decide +kernel

theorem queue_built :
    @Compiler.buildImpl shapeService internBuilder (fun _ => .same) queueCompiler hostAssembly =
    (.ok (), queueAssembly) :=
  run_after queue_ends

/-- `Compiler.buildImpl_written_iff` at the first program: its four types are in two files and not in the order
of their numbers. -/
theorem Compiler.buildImpl_written_iff_queue :
    let _ := asciiLexer
    let _ := plainParser
    let _ := shapeService
    let _ := internBuilder
    (∃ a', (loadFiles (queueFiles.map (·.path)) (Compiler.new.setLastIndex 1)).buildImpl (fun _ => .same)
        hostAssembly = (.ok (), a')) ∧
      ([2, 0, 3, 1] : List Nat).Perm (List.range 4) ∧
        ∀ w ∈ [writtenQueue, writtenShape, writtenBase, writtenPair], (w.loaded 1).Buildable := by
  intro _ _ _ _
  have hbuild : ∃ a', (loadFiles (queueFiles.map (·.path)) (Compiler.new.setLastIndex 1)).buildImpl
      (fun _ => .same) hostAssembly = (.ok (), a') := by
    refine ⟨queueAssembly, ?_⟩
    rw [queueCompiler_eq]
    exact queue_built
  exact ⟨hbuild, (Compiler.buildImpl_written_iff queueFiles_hold rfl).1 hbuild⟩

end PuralinguaIR
