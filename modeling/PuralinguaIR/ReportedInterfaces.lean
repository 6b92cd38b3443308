import PuralinguaIR.BuildRuns

/-!
# Reported and compiled interfaces

A type reports each interface some method has an `impl` clause for once (`mem_collectImplementedInterfaces`). What
is compiled reflects the report (`ReflectsInterfaces`) when every reported interface has one table, which holds the
methods with a clause for it. A class does exactly when its methods for one interface have one number, for a table
that is written out has one entry, and a struct when no method has a clause at all (`Compiler.reflects_iff`).
-/

namespace PuralinguaIR

open Effect Effect.Prog

/-! ### The report -/

/-- The report after one more method. -/
private def collectStep (result : List TypeReference) (m : Method) : List TypeReference :=
  match m.impl with
  | some (ty, _) => if result.contains ty then result else result ++ [ty]
  | none => result

private theorem nodup_collectStep {result : List TypeReference} (h : result.Nodup) (m : Method) :
    (collectStep result m).Nodup := by
  unfold collectStep
  split
  · rename_i ty _ _
    split
    · exact h
    · rename_i hcontains
      have hty : ty ∉ result := by simpa using hcontains
      exact h.append (List.nodup_singleton ty) (by simpa using hty)
  · exact h

private theorem mem_collectStep {result : List TypeReference} {m : Method} {ty : TypeReference} :
    ty ∈ collectStep result m ↔ ty ∈ result ∨ ∃ r, m.impl = some (ty, r) := by
  unfold collectStep
  cases himpl : m.impl with
  | none => simp
  | some p =>
    obtain ⟨ty', r⟩ := p
    have hself : (∃ r', some (ty', r) = some (ty, r')) ↔ ty = ty' := by
      constructor
      · rintro ⟨r', h⟩
        cases h
        rfl
      · rintro rfl
        exact ⟨r, rfl⟩
    rw [hself]
    dsimp only
    split
    · rename_i hcontains
      have hty' : ty' ∈ result := by simpa using hcontains
      exact ⟨Or.inl, fun h => h.elim id fun heq => heq ▸ hty'⟩
    · rw [List.mem_append, List.mem_singleton]

private theorem mem_foldl_collectStep {methods : List Method} {result : List TypeReference} {ty : TypeReference} :
    ty ∈ methods.foldl collectStep result ↔ ty ∈ result ∨ ∃ m ∈ methods, ∃ r, m.impl = some (ty, r) := by
  induction methods generalizing result with
  | nil => simp
  | cons m methods ih =>
    simp only [List.foldl_cons, ih, mem_collectStep, List.mem_cons, exists_eq_or_imp, or_assoc]

theorem nodup_collectImplementedInterfaces (methods : List Method) :
    (collectImplementedInterfaces methods).Nodup :=
  List.foldlRecOn methods collectStep List.nodup_nil fun _ h m _ => nodup_collectStep h m

theorem mem_collectImplementedInterfaces {methods : List Method} {ty : TypeReference} :
    ty ∈ collectImplementedInterfaces methods ↔ ∃ m ∈ methods, ∃ r, m.impl = some (ty, r) :=
  (mem_foldl_collectStep.trans (by simp) : ty ∈ methods.foldl collectStep [] ↔ _)

/-! ### Tables -/

section Tables

variable [CompilerService] [AssemblyBuilder]

/-- Every reported interface has one table, compiled from it, with all methods that have a clause for it, and there
are no other tables. -/
def ReflectsInterfaces (a a' : Assembly) (reported : List TypeReference) (methods : List Method)
    (tables : List Binary.InterfaceImplementation) : Prop :=
  reported.Nodup ∧ ∃ tys, tys.Perm reported ∧
    List.Forall₂ (fun ty table => YieldsBetween a a' (compileTypeReference ty) table.target ∧
      ∀ m ∈ methods, ∀ r, m.impl = some (ty, r) → m.index ∈ table.map) tys tables

/-- The tables of a type reflect its report: the methods of a class that implement one interface have one number,
and no method of a struct implements any. -/
def TypeDef.ImplementsOnce : TypeDef → Prop
  | .class d => ∀ m ∈ d.methods, ∀ m' ∈ d.methods, ∀ ty r r',
      m.impl = some (ty, r) → m'.impl = some (ty, r') → m.index = m'.index
  | .struct d => ∀ m ∈ d.methods, m.impl = none
  | .interface _ => True

omit [AssemblyBuilder] in
/-- The interfaces of the tables are the reported ones, when every clause names a method of its interface. -/
theorem Implementations.Files.keys_perm {tables : Implementations} {methods : List Method}
    (h : tables.Files methods) (hlookup : ∀ m ∈ methods, ∀ ty r, m.impl = some (ty, r) →
      (r.index.lookup (resolveTypeReference ty) false).isSome) :
    (tables.map Prod.fst).Perm (collectImplementedInterfaces methods) := by
  refine (List.perm_ext_iff_of_nodup h.nodup (nodup_collectImplementedInterfaces methods)).2 fun ty => ?_
  rw [mem_collectImplementedInterfaces, List.mem_map]
  constructor
  · rintro ⟨⟨ty, map⟩, hmem, rfl⟩
    obtain ⟨⟨k, v⟩, he⟩ := List.exists_mem_of_ne_nil _ ((h.mem_iff _ _).1 hmem).1
    obtain ⟨m, hm, r, himpl, -⟩ := mem_implementing.1 he
    exact ⟨m, hm, r, himpl⟩
  · rintro ⟨m, hm, r, himpl⟩
    obtain ⟨k, hk⟩ := Option.isSome_iff_exists.1 (hlookup m hm ty r himpl)
    have he : (k, m.index) ∈ implementing ty methods := mem_implementing.2 ⟨m, hm, r, himpl, hk, rfl⟩
    exact ⟨_, (h.mem_iff ty _).2 ⟨List.ne_nil_of_mem he, rfl⟩, rfl⟩

/-- A table that is written out has one entry: the last method that was filed. -/
theorem table_eq_singleton {tables : Implementations} {methods : List Method} (hfiles : tables.Files methods)
    {ty : TypeReference} {map : SortedMap UInt32 UInt32} (hmem : (ty, map) ∈ tables) {a a' : Assembly}
    {table : Binary.InterfaceImplementation} (h : compileImplementation (ty, map) a = (.ok table, a')) :
    ∃ v, table.map = [v] ∧ ∃ m ∈ methods, ∃ r, m.impl = some (ty, r) ∧ m.index = v := by
  obtain ⟨hkeys, hmap, -⟩ := compileImplementation_eq_ok h
  obtain ⟨hne, rfl⟩ := (hfiles.mem_iff _ _).1 hmem
  dsimp only at hkeys hmap
  -- the entries have different keys, and all keys are `0`
  obtain ⟨e, he⟩ := List.exists_mem_of_ne_nil _ hne
  obtain ⟨e', he', -⟩ : ∃ e' ∈ (SortedMap.empty.insertAll (implementing ty methods)).entries, e'.1 = e.1 :=
    SortedMap.mem_keys_insertAll.2 (Or.inl ⟨e, he, rfl⟩)
  rcases SortedMap.entries_of_single_key hkeys with hnil | ⟨v, hsingle⟩
  · rw [hnil] at he'
    cases he'
  · refine ⟨v, by rw [hmap, hsingle]; rfl, ?_⟩
    have hv : ((0 : UInt32), v) ∈ (SortedMap.empty.insertAll (implementing ty methods)).entries := by
      rw [hsingle]
      exact List.mem_singleton.2 rfl
    rcases SortedMap.mem_of_mem_insertAll hv with hv | hv
    · obtain ⟨m, hm, r, himpl, -, hindex⟩ := mem_implementing.1 hv
      exact ⟨m, hm, r, himpl, hindex⟩
    · cases hv

/-- The tables of a compiled class reflect its report exactly when its methods for one interface have one
number. -/
theorem ClassDef.reflectsInterfaces_iff {order : EntryOrder} {d : ClassDef} {a₀ a a' a₁ : Assembly}
    {bd : Binary.ClassDef} (h : compileClass order d a = (.ok bd, a')) (h₀ : a₀.Extends a) (h₁ : a'.Extends a₁) :
    ReflectsInterfaces a₀ a₁ (collectImplementedInterfaces d.methods) d.methods bd.interfaces ↔
      (TypeDef.class d).ImplementsOnce := by
  obtain ⟨tables, hfiles, hlookup, htables⟩ := compileClass_tables h
  have hmapM := (htables.mono h₀ h₁).mapM fun entry _ => compileImplementation_keeps entry
  have hperm := order.entries_perm tables
  constructor
  · rintro ⟨-, tys, htys, hreflects⟩ m hm m' hm' ty r r' himpl himpl'
    have hty : ty ∈ tys := htys.mem_iff.2 (mem_collectImplementedInterfaces.2 ⟨m, hm, r, himpl⟩)
    obtain ⟨table, htable, -, hholds⟩ := exists_of_forall₂ hreflects hty
    -- the table has one entry, whatever interface it was made for
    obtain ⟨⟨ty₁, map⟩, -, hentry, s₁, s₂, -, hrun, -⟩ := exists_of_forall₂ hmapM.flip htable
    obtain ⟨v, hv, -⟩ := table_eq_singleton hfiles (hperm.mem_iff.1 hentry) hrun
    have hm := hholds m hm r himpl
    have hm' := hholds m' hm' r' himpl'
    rw [hv, List.mem_singleton] at hm hm'
    rw [hm, hm']
  · intro honce
    refine ⟨nodup_collectImplementedInterfaces _, (order.entries tables).map Prod.fst,
      (hperm.map Prod.fst).trans (hfiles.keys_perm hlookup), ?_⟩
    rw [List.forall₂_map_left_iff]
    refine hmapM.imp fun ⟨ty, map⟩ table ⟨hentry, s₁, s₂, hs₁, hrun, hs₂⟩ => ?_
    obtain ⟨v, hv, m, hm, r, himpl, hindex⟩ := table_eq_singleton hfiles (hperm.mem_iff.1 hentry) hrun
    obtain ⟨-, -, htarget⟩ := compileImplementation_eq_ok hrun
    refine ⟨⟨s₁, s₂, hs₁, htarget, hs₂⟩, fun m' hm' r' himpl' => ?_⟩
    rw [hv, List.mem_singleton, ← hindex]
    exact honce m' hm' m hm ty r' r himpl' himpl

/-- For every class and struct of a successful build: what is compiled reflects what the type reports exactly when
its methods for one interface have one number, and for a struct when no method implements any. -/
theorem Compiler.reflects_iff {c : Compiler} {orders : Nat → EntryOrder} {a a' : Assembly}
    (h : c.buildImpl orders a = (.ok (), a')) {i : Nat} {t : TypeDef} (ht : c.file.types[i]? = some t)
    (hkind : ∀ d, t ≠ .interface d) {bt : Binary.TypeDef} (hbt : a'.typeDefs[a.typeDefs.length + i]? = some bt) :
    ReflectsInterfaces a a' t.toAbstract.implementedInterfaces t.methods bt.interfaces ↔ t.ImplementsOnce := by
  obtain ⟨bt', hbt', s₁, s₂, hs₁, hrun, hs₂⟩ := Compiler.buildImpl_get h ht
  rw [hbt] at hbt'
  cases hbt'
  cases t with
  | «class» d =>
    obtain ⟨bd, hbd, rfl⟩ := map_eq_ok.1 hrun
    exact ClassDef.reflectsInterfaces_iff hbd hs₁ hs₂
  | struct d =>
    obtain ⟨bd, -, rfl⟩ := map_eq_ok.1 hrun
    constructor
    · rintro ⟨-, tys, htys, hreflects⟩ m hm
      obtain rfl : tys = [] := List.forall₂_nil_right_iff.1 hreflects
      cases himpl : m.impl with
      | none => rfl
      | some p => exact absurd (htys.mem_iff.2 (mem_collectImplementedInterfaces.2 ⟨m, hm, p.2, himpl⟩)) (by simp)
    · intro hnone
      refine ⟨nodup_collectImplementedInterfaces _, [], ?_, .nil⟩
      have hempty : collectImplementedInterfaces d.methods = [] := by
        refine List.eq_nil_iff_forall_not_mem.2 fun ty hty => ?_
        obtain ⟨m, hm, r, himpl⟩ := mem_collectImplementedInterfaces.1 hty
        exact absurd (himpl.symm.trans (hnone m hm)) (by simp)
      exact .of_eq hempty.symm
  | interface d => exact absurd rfl (hkind d)

end Tables

/-! ### Methods for one interface -/

private def interfaceI : TypeDef := .interface (plainInterface "I" 0)

private def filingOnce : TypeDef := .class (plainClass "A" 1 none [filedMethod "a" 0 "I"] [])

private def filingTwice : TypeDef := .class (plainClass "B" 2 none
    [filedMethod "a" 0 "I", filedMethod "b" 1 "I"] [])

private abbrev filingService : CompilerService :=
  ownService
    ["interface[0]I\x7bmethod[0]m()->[A]A\x7b\x7d\x7d",
      "class[1]A\x7bmethod[0]a()->[A]A impl m in[A]I\x7b\x7d\x7d",
      "class[2]B\x7bmethod[0]a()->[A]A impl m in[A]I\x7b\x7dmethod[1]b()->[A]A impl m in[A]I\x7b\x7d\x7d"]
    [interfaceI, filingOnce, filingTwice]

private theorem filing_loaded :
    @loadFiles asciiLexer plainParser filingService ([0, 1, 2] : List Nat) (Compiler.new.setLastIndex 0) =
      ⟨⟨[interfaceI, filingOnce, filingTwice]⟩, some 0⟩ :=
  @loadFiles_eq asciiLexer plainParser filingService 0 _ _ (by decide +kernel)

private theorem filing_builds :
    let _ := filingService
    let _ := internBuilder
    ((⟨⟨[interfaceI, filingOnce, filingTwice]⟩, some 0⟩ : Compiler).buildImpl (fun _ => .same)
      ⟨[], [], [], [], []⟩).1 = .ok () := by
  decide +kernel

/-- `Compiler.reflects_iff` for a class with one method that implements an interface. -/
theorem Compiler.reflects_iff_once :
    let _ := filingService
    let _ := internBuilder
    let c := @loadFiles asciiLexer plainParser _ ([0, 1, 2] : List Nat) (Compiler.new.setLastIndex 0)
    let a : Assembly := ⟨[], [], [], [], []⟩
    let a' := (c.buildImpl (fun _ => .same) a).2
    ∃ bt, a'.typeDefs[1]? = some bt ∧
      ReflectsInterfaces a a' filingOnce.toAbstract.implementedInterfaces filingOnce.methods bt.interfaces := by
  intro _ _ c a a'
  have hc : c = ⟨⟨[interfaceI, filingOnce, filingTwice]⟩, some 0⟩ := filing_loaded
  clear_value c
  have hbuild : c.buildImpl (fun _ => .same) a = (.ok (), a') := run_of_fst (by rw [hc]; exact filing_builds)
  have ht : c.file.types[1]? = some filingOnce := by rw [hc]; rfl
  obtain ⟨bt, hbt, -⟩ := Compiler.buildImpl_get hbuild ht
  refine ⟨bt, hbt, (Compiler.reflects_iff hbuild ht (by simp [filingOnce]) hbt).2 ?_⟩
  intro m hm m' hm' ty r r' himpl himpl'
  obtain rfl := List.mem_singleton.1 hm
  obtain rfl := List.mem_singleton.1 hm'
  rfl

/-- Two methods implement one method of an interface: the class is built, with a table that lacks the first one. -/
theorem Compiler.reflects_twice :
    let _ := filingService
    let _ := internBuilder
    let c := @loadFiles asciiLexer plainParser _ ([0, 1, 2] : List Nat) (Compiler.new.setLastIndex 0)
    let a : Assembly := ⟨[], [], [], [], []⟩
    let a' := (c.buildImpl (fun _ => .same) a).2
    c.file.types[2]? = some filingTwice ∧ (c.buildImpl (fun _ => .same) a).1 = .ok () ∧
      ∃ bt, a'.typeDefs[2]? = some bt ∧
        ¬ReflectsInterfaces a a' filingTwice.toAbstract.implementedInterfaces filingTwice.methods
            bt.interfaces := by
  intro _ _ c a a'
  have hc : c = ⟨⟨[interfaceI, filingOnce, filingTwice]⟩, some 0⟩ := filing_loaded
  clear_value c
  have hmaps : (a'.typeDefs[2]?).map (fun bt => bt.interfaces.map (·.map)) = some [[1]] := by
    show (((c.buildImpl (fun _ => .same) a).2.typeDefs[2]?).map fun bt => bt.interfaces.map (·.map)) = some [[1]]
    rw [hc]
    decide +kernel
  refine ⟨by rw [hc]; rfl, by rw [hc]; exact filing_builds, ?_⟩
  obtain ⟨bt, hbt, hmaps⟩ := Option.map_eq_some_iff.1 hmaps
  refine ⟨bt, hbt, fun ⟨_, tys, htys, hreflects⟩ => ?_⟩
  have hty : ownType "I" ∈ tys := htys.mem_iff.2 (by decide)
  obtain ⟨table, htable, -, hholds⟩ := exists_of_forall₂ hreflects hty
  have hfirst : 0 ∈ table.map := hholds (filedMethod "a" 0 "I") (by decide) _ rfl
  have hmap : table.map ∈ [[1]] := hmaps ▸ List.mem_map_of_mem htable
  rw [List.mem_singleton.1 hmap] at hfirst
  exact absurd hfirst (by decide)

end PuralinguaIR
