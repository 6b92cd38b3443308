import PuralinguaIR.BuildRuns

/-!
# Tokens of own types

Types get their numbers when a file is parsed, they are sorted, compared with their places and pushed one after
the other. So each loaded type stands at the position that is its number (`Compiler.buildImpl_position`), and the
token of a reference, which holds the number the compiler answers with, points to the definition of that type
(`Compiler.buildImpl_typeDefs`), also while this definition is still to come.
-/

namespace PuralinguaIR

open Effect Effect.Prog

/-! ### Places -/

/-- The numbers of sorted types that pass the check count from the last index on: they never wrap around. -/
theorem index_of_place {lastIndex : UInt32} {types : List TypeDef}
    (hsorted : types.Pairwise fun a b => a.index ≤ b.index)
    (hcheck : ∀ i t, types[i]? = some t → checkedAdd (UInt32.ofNat i) lastIndex = some t.index) {i : Nat}
    {t : TypeDef} (ht : types[i]? = some t) : t.index.toNat = lastIndex.toNat + i := by
  have hindex : ∀ j (hj : j < types.length), types[j].index.toNat = j % 2 ^ 32 + lastIndex.toNat := fun j hj => by
    have hsum := checkedAdd_eq_some (hcheck j _ (List.getElem?_eq_getElem hj))
    rwa [UInt32.toNat_ofNat'] at hsum
  -- the type after the last place with a number of its own would come before the second one
  have hlen : types.length ≤ 2 ^ 32 := by
    by_contra hlong
    have hsecond := hindex 1 (by omega)
    have hwrapped := hindex (2 ^ 32) (by omega)
    have hle := List.pairwise_iff_getElem.1 hsorted 1 (2 ^ 32) (by omega) (by omega) (by omega)
    have hle := UInt32.le_iff_toNat_le.1 hle
    omega
  obtain ⟨hi, rfl⟩ := List.getElem?_eq_some_iff.1 ht
  rw [hindex i hi, Nat.mod_eq_of_lt (by omega), Nat.add_comm]

section Tokens

variable [CompilerService] [AssemblyBuilder] [UniLexer] [UniParser] {lastIndex : UInt32} {paths : List FilePath}
  {c : Compiler} {orders : Nat → EntryOrder} {a a' : Assembly}

/-- Each loaded type stands at its number. -/
theorem Compiler.buildImpl_position (hc : c = loadFiles paths (Compiler.new.setLastIndex lastIndex))
    (hlen : a.typeDefs.length = lastIndex.toNat) (h : c.buildImpl orders a = (.ok (), a')) {i : Nat} {t : TypeDef}
    (ht : c.file.types[i]? = some t) : t.index.toNat = lastIndex.toNat + i ∧ ∃ bt,
      a'.typeDefs[t.index.toNat]? = some bt ∧ YieldsBetween a a' (compileDefinition (orders i) t) bt := by
  obtain ⟨-, bts, -, -, hcompiled⟩ := Compiler.buildImpl_run h
  obtain ⟨bt, hbt, hyields⟩ := Compiler.buildImpl_get h ht
  rw [loadFiles_new] at hc
  have hlast : c.lastIndex.getD 0 = lastIndex := by rw [hc]; rfl
  have hsorted : c.file.types.Pairwise fun a b => a.index ≤ b.index := by
    rw [hc]
    exact (loaded_hasLoaded lastIndex _).sorted
  simp only [Nat.zero_add, hlast] at hcompiled
  have hindex := index_of_place hsorted (fun i t ht => (hcompiled i t ht).1) ht
  refine ⟨hindex, bt, ?_, hyields⟩
  rw [hindex, ← hlen, hbt]

omit [UniLexer] [UniParser] in
/-- The token of a reference to an own type without arguments holds the number that the answer reports. -/
theorem compileTypeReference_own {name : String} {index : Option UInt32} {info : TypeInformation}
    (hinfo : resolveTypeReference (.common CompilerService.assemblyName name index []) = some info)
    (hindex : ∀ i ∈ index, info.id = i) {s s' : Assembly} {token : TypeToken}
    (h : compileTypeReference (.common CompilerService.assemblyName name index []) s = (.ok token, s')) :
    token = ⟨.typeDef, info.id⟩ := by
  have hid : TypeReference.id? (.common CompilerService.assemblyName name index []) = some info.id := by
    cases index with
    | none => rw [TypeReference.id?, hinfo]; rfl
    | some i => rw [hindex i rfl]; rfl
  rw [compileTypeReference, hid, okOr_some, pure_bind, if_pos ⟨rfl, rfl⟩] at h
  cases h
  rfl

/-- A build leaves the definitions that are there, puts every loaded type at its number, and so every token of an
own type points to the definition compiled from the type that the compiler answers with. -/
theorem Compiler.buildImpl_typeDefs [GenericCounts]
    (hc : c = loadFiles paths (Compiler.new.setLastIndex lastIndex)) (hlen : a.typeDefs.length = lastIndex.toNat)
    (h : c.buildImpl orders a = (.ok (), a')) :
    a'.typeDefs.length = lastIndex.toNat + c.file.types.length ∧ a.typeDefs <+: a'.typeDefs ∧
      (∀ i t, c.file.types[i]? = some t → t.index.toNat = lastIndex.toNat + i ∧ ∃ bt,
        a'.typeDefs[t.index.toNat]? = some bt ∧ YieldsBetween a a' (compileDefinition (orders i) t) bt) ∧
      ∀ name index info s s' token,
        let r : TypeReference := .common CompilerService.assemblyName name index []
        c.queryReference r = some info → resolveTypeReference r = some info →
        compileTypeReference r s = (.ok token, s') →
        ∃ i t bt, c.file.types[i]? = some t ∧ t.toAbstract = info ∧ token.ty = .typeDef ∧
          a'.typeDefs[token.index.toNat]? = some bt ∧ YieldsBetween a a' (compileDefinition (orders i) t) bt := by
  obtain ⟨-, bts, hbts, hbtsLen, -⟩ := Compiler.buildImpl_run h
  refine ⟨by rw [hbts, List.length_append, hlen, hbtsLen], ⟨bts, hbts.symm⟩,
    fun i t ht => Compiler.buildImpl_position hc hlen h ht, ?_⟩
  intro name index info s s' token r hquery hresolve htoken
  obtain ⟨⟨t, ht, habstract⟩, hindex⟩ := Compiler.queryReference_eq_some hquery
  obtain ⟨i, hi⟩ := List.mem_iff_getElem?.1 ht
  obtain ⟨-, bt, hbt, hyields⟩ := Compiler.buildImpl_position hc hlen h hi
  have htoken := compileTypeReference_own hresolve hindex htoken
  have hid : info.id = t.index := by
    rw [← habstract]
    cases t <;> rfl
  refine ⟨i, t, bt, hi, habstract, by rw [htoken], ?_, hyields⟩
  rw [htoken, hid]
  exact hbt

end Tokens

/-! ### A reference to a later type -/

private def forwardA : TypeDef := .class (plainClass "A" 1 none [] [plainField "x" 0 (ownType "B")])

private def forwardB : TypeDef := .class (plainClass "B" 2 none [] [])

private abbrev forwardService : CompilerService :=
  ownService ["class[1]B\x7b\x7dclass[0]A\x7bfield[0]x:[A]B;\x7d"] [forwardA, forwardB]

private theorem forward_loaded :
    @loadFiles asciiLexer plainParser forwardService ([0] : List Nat) (Compiler.new.setLastIndex 1) =
      ⟨⟨[forwardA, forwardB]⟩, some 1⟩ :=
  @loadFiles_eq asciiLexer plainParser forwardService 1 _ _ (by decide +kernel)

/-- An assembly with one definition. -/
private def oneDefinition : Assembly :=
  ⟨["P"], [], [], [], [.struct ⟨⟨0⟩, ⟨.private, .struct false false⟩, .exact 0, [], []⟩]⟩

/-- `Compiler.buildImpl_typeDefs` for two classes behind a definition that is there, at the field of the first one.
-/
theorem Compiler.buildImpl_typeDefs_forward :
    let _ := forwardService
    let _ := internBuilder
    let c := @loadFiles asciiLexer plainParser _ ([0] : List Nat) (Compiler.new.setLastIndex 1)
    let a' := (c.buildImpl (fun _ => .same) oneDefinition).2
    a'.typeDefs.length = 3 ∧ ∃ (i : Nat) (t : TypeDef) (bt : Binary.TypeDef), c.file.types[i]? = some t ∧
      t.toAbstract = forwardB.toAbstract ∧ a'.typeDefs[2]? = some bt ∧
        YieldsBetween oneDefinition a' (compileDefinition .same t) bt := by
  intro _ _ c a'
  let _ := rangeCounts
  have hloaded : c = @loadFiles asciiLexer plainParser forwardService _ _ := rfl
  have hc : c = ⟨⟨[forwardA, forwardB]⟩, some 1⟩ := forward_loaded
  clear_value c
  have hok : (c.buildImpl (fun _ => .same) oneDefinition).1 = .ok () := by
    rw [hc]
    decide +kernel
  have hbuild : c.buildImpl (fun _ => .same) oneDefinition = (.ok (), a') := run_of_fst hok
  obtain ⟨hlen, -, -, htoken⟩ :=
    @Compiler.buildImpl_typeDefs _ _ asciiLexer plainParser 1 _ c _ oneDefinition a' _ hloaded rfl hbuild
  have hquery : c.queryReference (ownType "B") = some forwardB.toAbstract := by
    rw [hc]
    decide
  obtain ⟨i, t, bt, ht, habstract, -, hbt, hyields⟩ :=
    htoken "B" none forwardB.toAbstract oneDefinition oneDefinition ⟨.typeDef, 2⟩ hquery (by decide) (by decide)
  refine ⟨?_, i, t, bt, ht, habstract, hbt, hyields⟩
  rw [hlen, hc]
  rfl

end PuralinguaIR
