import PuralinguaIR.BuildRuns

/-!
# Tables of fields

A field is referred to by the number it is written with, and its compiled form stands where sorting by these
numbers puts it. Nothing compares the two: they agree for every field of a type exactly when the numbers are
`0`, …, `n - 1` (`Compiler.fieldReference_iff`).
-/

namespace PuralinguaIR

open Effect Effect.Prog

/-! ### Fields by name -/

private theorem find?_of_nodup {α κ : Type} [DecidableEq κ] {key : α → κ} {xs : List α} (h : (xs.map key).Nodup)
    {x : α} (hx : x ∈ xs) : xs.find? (fun y => key y = key x) = some x := by
  cases hfind : xs.find? fun y => key y = key x with
  | none => simpa using List.find?_eq_none.1 hfind x hx
  | some y =>
    have hkey : key y = key x := by simpa using List.find?_some hfind
    rw [List.inj_on_of_nodup_map h (List.mem_of_find?_eq_some hfind) hx hkey]

/-- The name and the staticness by which a field is found. -/
def Field.key (f : Field) : String × Bool := (f.name.var, f.attr.static)

section Fields

variable [CompilerService]

theorem TypeDef.fields_toAbstract (t : TypeDef) : t.toAbstract.fields = t.fields.map Field.toAbstract := by
  cases t <;> rfl

/-- Among fields with different keys, a field is found by its key. -/
theorem compileFieldReference_own {t : TypeDef} (hkeys : (t.fields.map Field.key).Nodup) {f : Field}
    (hf : f ∈ t.fields) (s : Assembly) :
    compileFieldReference (some t.toAbstract) f.attr.static (.byName f.name) s = (.ok f.index, s) := by
  refine okOr_eq_ok.2 ⟨?_, rfl⟩
  have hpred : ((fun x : FieldInformation => x.name == f.name.var && x.attr.static == f.attr.static) ∘
      Field.toAbstract) = fun y => decide (y.key = f.key) := by
    funext y
    rw [Bool.eq_iff_iff]
    simp [Field.toAbstract, Field.key]
  simp only [FieldReference.lookup, Option.bind_eq_bind, Option.bind_some, TypeDef.fields_toAbstract,
    List.find?_map, hpred, find?_of_nodup hkeys hf, Option.map_some]
  rfl

/-! ### Numbers and positions -/

omit [CompilerService] in
/-- Sorted fields stand at their numbers exactly when these are `0`, …, `n - 1`. -/
private theorem fields_at_index_iff {fields : List Field} (hkeys : (fields.map Field.key).Nodup)
    (hsorted : fields.Pairwise fun a b => a.index ≤ b.index) :
    (∀ f ∈ fields, fields[f.index.toNat]? = some f) ↔
      (fields.map (·.index.toNat)).Perm (List.range fields.length) := by
  have hnodup : fields.Nodup := hkeys.of_map
  have hrange : (fields.map (·.index.toNat)).Perm (List.range fields.length) ↔
      fields.map (·.index.toNat) = List.range fields.length := by
    refine ⟨fun h => ?_, fun h => h ▸ .refl _⟩
    refine h.eq_of_pairwise (fun a b _ _ => Nat.le_antisymm) ?_ ?_
    · exact List.pairwise_map.2 (hsorted.imp UInt32.le_iff_toNat_le.1)
    · exact List.pairwise_lt_range.imp Nat.le_of_lt
  rw [hrange]
  constructor
  · intro h
    refine List.ext_getElem (by simp) fun i hi hi' => ?_
    rw [List.getElem_map, List.getElem_range]
    have hi : i < fields.length := by simpa using hi
    obtain ⟨hlt, heq⟩ := List.getElem?_eq_some_iff.1 (h _ (List.getElem_mem hi))
    exact (List.Nodup.getElem_inj_iff hnodup).1 heq
  · intro h f hf
    obtain ⟨i, hi, rfl⟩ := List.getElem_of_mem hf
    have hindex : fields[i].index.toNat = i := by
      have hget : (fields.map (·.index.toNat))[i]? = (List.range fields.length)[i]? := by rw [h]
      simpa [hi] using hget
    rw [hindex, List.getElem?_eq_getElem hi]

/-- In a build, references to the fields of a type point to their compiled forms exactly when the fields have the
numbers `0`, …, `n - 1`. -/
theorem Compiler.fieldReference_iff [AssemblyBuilder] [UniLexer] [UniParser] {lastIndex : UInt32}
    {paths : List FilePath} {c : Compiler} (hc : c = loadFiles paths (Compiler.new.setLastIndex lastIndex))
    {orders : Nat → EntryOrder} {a a' : Assembly} (h : c.buildImpl orders a = (.ok (), a')) {i : Nat} {t : TypeDef}
    (ht : c.file.types[i]? = some t) {bt : Binary.TypeDef} (hbt : a'.typeDefs[a.typeDefs.length + i]? = some bt)
    (hkeys : (t.fields.map Field.key).Nodup) :
    (∀ f ∈ t.fields, ∃ k : UInt32,
      (∀ s, compileFieldReference (some t.toAbstract) f.attr.static (.byName f.name) s = (.ok k, s)) ∧
        t.fields[k.toNat]? = some f ∧
          ∃ bf, bt.fields[k.toNat]? = some bf ∧ YieldsBetween a a' (compileField f) bf) ↔
      (t.fields.map (·.index.toNat)).Perm (List.range t.fields.length) := by
  have hsorted : t.fields.Pairwise fun a b => a.index ≤ b.index := by
    have hmem := List.mem_of_getElem? ht
    rw [hc, loadFiles_new] at hmem
    exact (loaded_hasLoaded lastIndex _).fields_sorted t hmem
  rw [← fields_at_index_iff hkeys hsorted]
  constructor
  · intro hrefs f hf
    obtain ⟨k, hk, hget, -⟩ := hrefs f hf
    have hindex := (compileFieldReference_own hkeys hf a).symm.trans (hk a)
    cases hindex
    exact hget
  · intro hplaces f hf
    refine ⟨f.index, compileFieldReference_own hkeys hf, hplaces f hf, ?_⟩
    -- the compiled fields stand in the order of the fields
    obtain ⟨bt', hbt', s₁, s₂, hs₁, hrun, hs₂⟩ := Compiler.buildImpl_get h ht
    rw [hbt] at hbt'
    cases hbt'
    have hfields := ((compileDefinition_fields hrun).mono hs₁ hs₂).mapM fun f _ => compileField_keeps f
    obtain ⟨hlen, hget⟩ := List.forall₂_iff_get.1 hfields
    obtain ⟨hlt, hf'⟩ := List.getElem?_eq_some_iff.1 (hplaces f hf)
    have hlt' : f.index.toNat < bt.fields.length := by omega
    have hpair := (hget _ hlt hlt').2
    rw [List.get_eq_getElem, List.get_eq_getElem, hf'] at hpair
    exact ⟨_, List.getElem?_eq_getElem hlt', hpair⟩

end Fields

/-! ### Fields out of order and a field with a number of its own -/

/-- A class with one field. -/
private def oneField (index : UInt32) : TypeDef :=
  .class (plainClass "A" 0 none [] [plainField "x" index (ownType "A")])

/-- A class with three fields, as it is loaded from a file that has them in another order. -/
private def threeFields : TypeDef :=
  .class (plainClass "A" 0 none []
    [plainField "x" 0 (ownType "A"), plainField "y" 1 (ownType "A"), plainField "z" 2 (ownType "A")])

private abbrev threeService : CompilerService :=
  ownService ["class[0]A\x7bfield[1]y:[A]A;field[2]z:[A]A;field[0]x:[A]A;\x7d"] [threeFields]

private abbrev fifthService : CompilerService := ownService ["class[0]A\x7bfield[5]x:[A]A;\x7d"] [oneField 5]

private theorem three_loaded :
    @loadFiles asciiLexer plainParser threeService ([0] : List Nat) (Compiler.new.setLastIndex 0) =
      ⟨⟨[threeFields]⟩, some 0⟩ :=
  @loadFiles_eq asciiLexer plainParser threeService 0 _ _ (by decide +kernel)

private theorem fifth_loaded :
    @loadFiles asciiLexer plainParser fifthService ([0] : List Nat) (Compiler.new.setLastIndex 0) =
      ⟨⟨[oneField 5]⟩, some 0⟩ :=
  @loadFiles_eq asciiLexer plainParser fifthService 0 _ _ (by decide +kernel)

/-- `Compiler.fieldReference_iff` for a class whose fields are not written in the order of their numbers. -/
theorem Compiler.fieldReference_iff_three :
    let _ := threeService
    let _ := internBuilder
    let c := @loadFiles asciiLexer plainParser _ ([0] : List Nat) (Compiler.new.setLastIndex 0)
    let a' := (c.buildImpl (fun _ => .same) ⟨[], [], [], [], []⟩).2
    ∃ bt, a'.typeDefs[0]? = some bt ∧ ∀ f ∈ threeFields.fields, ∃ k : UInt32,
      (∀ s, compileFieldReference (some threeFields.toAbstract) f.attr.static (.byName f.name) s = (.ok k, s)) ∧
        threeFields.fields[k.toNat]? = some f ∧ ∃ bf, bt.fields[k.toNat]? = some bf ∧
          YieldsBetween ⟨[], [], [], [], []⟩ a' (compileField f) bf := by
  intro _ _ c a'
  have hloaded : c = @loadFiles asciiLexer plainParser threeService _ _ := rfl
  have hc : c = ⟨⟨[threeFields]⟩, some 0⟩ := three_loaded
  clear_value c
  have hok : (c.buildImpl (fun _ => .same) ⟨[], [], [], [], []⟩).1 = .ok () := by
    rw [hc]
    decide +kernel
  have hbuild : c.buildImpl (fun _ => .same) ⟨[], [], [], [], []⟩ = (.ok (), a') := run_of_fst hok
  have ht : c.file.types[0]? = some threeFields := by rw [hc]; rfl
  obtain ⟨bt, hbt, -⟩ := Compiler.buildImpl_get hbuild ht
  refine ⟨bt, hbt, ?_⟩
  exact (@Compiler.fieldReference_iff _ _ asciiLexer plainParser 0 _ c hloaded _ _ _ hbuild 0 _ ht _ hbt
    (by decide)).2 (by decide)

/-- The only field of a class is referred to by the number `5`, but the table of the class has one entry. -/
theorem Compiler.fieldReference_fifth :
    let _ := fifthService
    let _ := internBuilder
    let c := @loadFiles asciiLexer plainParser _ ([0] : List Nat) (Compiler.new.setLastIndex 0)
    let a : Assembly := ⟨[], [], [], [], []⟩
    c.file.types = [oneField 5] ∧ (c.buildImpl (fun _ => .same) a).1 = .ok () ∧
      ((oneField 5).fields.map Field.key).Nodup ∧ plainField "x" 5 (ownType "A") ∈ (oneField 5).fields ∧
      compileFieldReference (some (oneField 5).toAbstract) false (.byName ⟨"x"⟩) a = (.ok 5, a) ∧
      ((c.buildImpl (fun _ => .same) a).2.typeDefs[0]?).map (fun bt => bt.fields.length) = some 1 := by
  intro _ _ c a
  have hc : c = ⟨⟨[oneField 5]⟩, some 0⟩ := fifth_loaded
  clear_value c
  subst hc
  exact ⟨rfl, by decide +kernel, by decide, by decide, by decide, by decide +kernel⟩

end PuralinguaIR
