import PuralinguaIR.ReportedInterfaces

/-!
# Reproducible builds

The tables of the interfaces of a class come from a hash map, in any order. The order is that of the tables in the
class, and of the entries which compiling the interfaces makes in the tables of the assembly. A build gives one
assembly for all orders when the interfaces of each class mean one type and have one table; in an assembly whose
positions are all indices this is also necessary (`Compiler.reproducible_iff`).
-/

namespace PuralinguaIR

open Effect Effect.Prog

section Reproducible

variable [CompilerService] [AssemblyBuilder]

/-! ### References that mean one type -/

private theorem compileTypeReferences_alike {rs rs' : List TypeReference} {ts : List ResolvedType}
    (halike : ∀ r ∈ rs, ∀ {r' : TypeReference} {t : ResolvedType}, r.resolve = some t → r'.resolve = some t →
      compileTypeReference r = compileTypeReference r')
    (h : List.Forall₂ (fun r t => r.resolve = some t) rs ts)
    (h' : List.Forall₂ (fun r t => r.resolve = some t) rs' ts) :
    compileTypeReferences rs = compileTypeReferences rs' := by
  induction h generalizing rs' with
  | nil =>
    cases h'
    rfl
  | cons hr hrs ih =>
    cases h' with
    | cons hr' hrs' =>
      rw [compileTypeReferences, compileTypeReferences, halike _ (by simp) hr hr',
        ih (fun r hmem => halike r (by simp [hmem])) hrs']

/-- References that mean one type are compiled alike. -/
theorem compileTypeReference_eq {r r' : TypeReference} {t : ResolvedType} (h : r.resolve = some t)
    (h' : r'.resolve = some t) : compileTypeReference r = compileTypeReference r' := by
  induction r using TypeReference.nested_induction generalizing r' t with
  | common assemblyName name index generics ih =>
    obtain ⟨id, ts, hid, hts, rfl⟩ := TypeReference.resolve_common_eq_some.1 h
    cases r' with
    | common assemblyName' name' index' generics' =>
      obtain ⟨id', ts', hid', hts', heq⟩ := TypeReference.resolve_common_eq_some.1 h'
      obtain ⟨rfl, rfl, rfl⟩ := ResolvedType.common.inj heq
      rw [TypeReference.resolveAll_eq_some] at hts hts'
      have hgenerics := compileTypeReferences_alike ih hts hts'
      have hempty : generics.isEmpty = generics'.isEmpty := by
        rw [Bool.eq_iff_iff, List.isEmpty_iff_length_eq_zero, List.isEmpty_iff_length_eq_zero, hts.length_eq,
          hts'.length_eq]
      -- the error of a missing type is the only place where the name is used
      rw [compileTypeReference, compileTypeReference, hid, hid', hgenerics, hempty]
      rfl
    | methodGeneric name' index' => cases h'
    | typeGeneric name' index' => cases h'
  | methodGeneric name index =>
    cases h
    cases r' with
    | common assemblyName' name' index' generics' =>
      obtain ⟨id', ts', -, -, heq⟩ := TypeReference.resolve_common_eq_some.1 h'
      cases heq
    | methodGeneric name' index' =>
      cases h'
      rfl
    | typeGeneric name' index' => cases h'
  | typeGeneric name index =>
    cases h
    cases r' with
    | common assemblyName' name' index' generics' =>
      obtain ⟨id', ts', -, -, heq⟩ := TypeReference.resolve_common_eq_some.1 h'
      cases heq
    | methodGeneric name' index' => cases h'
    | typeGeneric name' index' =>
      cases h'
      rfl

/-! ### Classes that are compiled alike -/

/-- The table of an interface with the entries of all methods of the class. -/
def ClassDef.table (d : ClassDef) (interface : TypeReference) : SortedMap UInt32 UInt32 :=
  .insertAll (implementing interface d.methods) .empty

/-- The interfaces the methods of a class implement mean one type and have one table. -/
def ClassDef.UniformTables (d : ClassDef) : Prop :=
  ∀ I ∈ collectImplementedInterfaces d.methods, ∀ J ∈ collectImplementedInterfaces d.methods,
    I.resolve = J.resolve ∧ d.table I = d.table J

/-- A class with uniform tables is compiled alike in all orders. -/
theorem compileClass_of_uniform {d : ClassDef} (hd : d.UniformTables) {order : EntryOrder} {a a' : Assembly}
    {bd : Binary.ClassDef} (h : compileClass order d a = (.ok bd, a')) (order' : EntryOrder) :
    compileClass order' d a = (.ok bd, a') := by
  obtain ⟨mk, s, hhead, interfaces, hinterfaces, rfl⟩ := compileClass_eq_ok.1 h
  obtain ⟨-, hfiles, -, hlookup, -⟩ := compileClassHead_eq_ok hhead
  refine compileClass_eq_ok.2 ⟨mk, s, hhead, interfaces, ?_, rfl⟩
  have hperm := order.entries_perm s.implementations
  have hperm' := order'.entries_perm s.implementations
  have hreported : ∀ entry ∈ s.implementations, entry.1 ∈ collectImplementedInterfaces d.methods :=
    fun entry hentry => (hfiles.keys_perm hlookup).mem_iff.1 (List.mem_map_of_mem hentry)
  rw [← hinterfaces]
  refine congrFun (mapM_eq_of_alike (hperm'.length_eq.trans hperm.length_eq.symm) fun e' he' e he => ?_) _
  rw [hperm'.mem_iff] at he'
  obtain ⟨table, -, s₁, s₂, hrun⟩ := exists_of_forall₂ (forall₂_of_mapM hinterfaces) he
  rw [hperm.mem_iff] at he
  obtain ⟨-, -, htarget⟩ := compileImplementation_eq_ok hrun
  obtain ⟨t, ht⟩ := Option.isSome_iff_exists.1 (compileTypeReference_resolves htarget)
  obtain ⟨hresolve, htable⟩ := hd _ (hreported e' he') _ (hreported e he)
  have hmap : e'.2 = e.2 := by
    rw [((hfiles.mem_iff _ _).1 he').2, ((hfiles.mem_iff _ _).1 he).2]
    exact htable
  rw [compileImplementation, compileImplementation, compileTypeReference_eq (hresolve.trans ht) ht, hmap]

theorem compileDefinition_of_uniform {t : TypeDef} (ht : ∀ d, t = .class d → d.UniformTables) {order : EntryOrder}
    {a a' : Assembly} {bt : Binary.TypeDef} (h : compileDefinition order t a = (.ok bt, a'))
    (order' : EntryOrder) :
    compileDefinition order' t a = (.ok bt, a') := by
  cases t with
  | «class» d =>
    obtain ⟨bd, hbd, rfl⟩ := map_eq_ok.1 h
    exact map_eq_ok.2 ⟨bd, compileClass_of_uniform (ht d rfl) hbd order', rfl⟩
  | struct d => exact h
  | interface d => exact h

private theorem build_of_uniform {types : List TypeDef} (htypes : ∀ d, .class d ∈ types → d.UniformTables)
    {orders : Nat → EntryOrder} {lastIndex : UInt32} {start : Nat} {a a' : Assembly}
    (h : ((types.zipIdx start).forM fun (ty, ind) => do
      checkTypeIndex lastIndex ind ty
      compileType (orders ind) ty) a = (.ok (), a')) (orders' : Nat → EntryOrder) :
    ((types.zipIdx start).forM fun (ty, ind) => do
      checkTypeIndex lastIndex ind ty
      compileType (orders' ind) ty) a = (.ok (), a') := by
  induction types generalizing start a with
  | nil => exact h
  | cons t types ih =>
    rw [List.zipIdx_cons] at h ⊢
    obtain ⟨a₂, hfirst, hrest⟩ := forM_cons_eq_ok.1 h
    obtain ⟨_, a₁, hcheck, hcompile⟩ := bind_eq_ok.1 hfirst
    rw [compileType_eq] at hcompile
    obtain ⟨bt, a₃, hbt, hpush⟩ := bind_eq_ok.1 hcompile
    have hsame : compileType (orders' start) t a₁ = (.ok (), a₂) := by
      rw [compileType_eq]
      exact bind_step (compileDefinition_of_uniform (fun d hd => htypes d (by simp [hd])) hbt _) hpush
    exact forM_cons_eq_ok.2 ⟨a₂, bind_step hcheck hsame, ih (fun d hd => htypes d (by simp [hd])) hrest⟩

/-! ### Classes that are not -/

/-- An order in which an interface comes first. -/
def EntryOrder.front (interface : TypeReference) : EntryOrder :=
  ⟨fun m => m.filter (fun e => e.1 = interface) ++ m.filter fun e => !decide (e.1 = interface),
    fun m => List.filter_append_perm _ m⟩

/-- An interface that comes first has the first table. -/
theorem compileClass_front {d : ClassDef} {interface : TypeReference}
    (hreported : interface ∈ collectImplementedInterfaces d.methods) {a a' : Assembly} {bd : Binary.ClassDef}
    (h : compileClass (.front interface) d a = (.ok bd, a')) :
    ∃ table, bd.interfaces.head? = some table ∧
      YieldsBetween a a' (compileImplementation (interface, d.table interface)) table := by
  obtain ⟨tables, hfiles, hlookup, htables⟩ := compileClass_tables h
  obtain ⟨⟨ty, map⟩, hentry, rfl⟩ := List.mem_map.1 ((hfiles.keys_perm hlookup).mem_iff.2 hreported)
  -- whichever entry of the interface is the first one, it is this one
  obtain ⟨rest, hrest⟩ : ∃ rest, (EntryOrder.front ty).entries tables = (ty, d.table ty) :: rest := by
    have hmem : (ty, map) ∈ tables.filter fun e => e.1 = ty := List.mem_filter.2 ⟨hentry, decide_eq_true rfl⟩
    obtain ⟨⟨k, map'⟩, rest, hfilter⟩ := List.exists_cons_of_ne_nil (List.ne_nil_of_mem hmem)
    obtain ⟨he, hkey⟩ := List.mem_filter.1 (hfilter.symm ▸ List.mem_cons_self : (k, map') ∈ _)
    obtain rfl : k = ty := of_decide_eq_true hkey
    have hmap : map' = d.table k := ((hfiles.mem_iff _ _).1 he).2
    rw [hmap] at hfilter
    exact ⟨_, congrArg (· ++ tables.filter fun e => !decide (e.1 = k)) hfilter⟩
  rw [hrest] at htables
  have hall := htables.mapM fun entry _ => compileImplementation_keeps entry
  cases hinterfaces : bd.interfaces with
  | nil =>
    rw [hinterfaces] at hall
    cases hall
  | cons table tables' =>
    rw [hinterfaces] at hall
    cases hall with
    | cons hfirst _ => exact ⟨table, rfl, hfirst.2⟩

/-- One table is compiled from one type and one map. -/
theorem eq_of_compileImplementation {I J : TypeReference} {m m' : SortedMap UInt32 UInt32} {a a' : Assembly}
    {table : Binary.InterfaceImplementation} (ha : a'.Addressable)
    (h : YieldsBetween a a' (compileImplementation (I, m)) table)
    (h' : YieldsBetween a a' (compileImplementation (J, m')) table) : I.resolve = J.resolve ∧ m = m' := by
  obtain ⟨s₁, s₂, -, hrun, hs₂⟩ := h
  obtain ⟨s₁', s₂', -, hrun', hs₂'⟩ := h'
  obtain ⟨hkeys, hmap, htarget⟩ := compileImplementation_eq_ok hrun
  obtain ⟨hkeys', hmap', htarget'⟩ := compileImplementation_eq_ok hrun'
  constructor
  · obtain ⟨t, ht, hd⟩ := compileTypeReference_decodes htarget (ha.of_extends hs₂)
    obtain ⟨t', ht', hd'⟩ := compileTypeReference_decodes htarget' (ha.of_extends hs₂')
    have heq : t' = t := (hd.iff_of_extends hs₂ t').1 ((hd'.iff_of_extends hs₂' t').2 rfl)
    rw [ht, ht', heq]
  · have hentries {m : SortedMap UInt32 UInt32} (hkeys : ∀ e ∈ m.entries, e.1 = 0)
        (hmap : table.map = m.entries.map Prod.snd) : m.entries = table.map.map ((0, ·)) := by
      rw [hmap, List.map_map]
      refine (List.map_id _).symm.trans (List.map_congr_left fun e he => ?_)
      exact Prod.ext (hkeys e he) rfl
    cases m
    cases m'
    congr
    exact (hentries hkeys hmap).trans (hentries hkeys' hmap').symm

/-! ### Builds -/

/-- A successful build gives the same assembly for all orders of the tables when the interfaces of each class mean
one type and have one table; in an assembly whose positions are all indices it does so only then. -/
theorem Compiler.reproducible_iff {c : Compiler} {orders : Nat → EntryOrder} {a a' : Assembly}
    (h : c.buildImpl orders a = (.ok (), a')) :
    ((∀ d, .class d ∈ c.file.types → d.UniformTables) → ∀ orders', c.buildImpl orders' a = (.ok (), a')) ∧
      (a'.Addressable → (∀ orders', c.buildImpl orders' a = (.ok (), a')) →
        ∀ d, .class d ∈ c.file.types → d.UniformTables) := by
  refine ⟨fun htypes orders' => build_of_uniform htypes h orders', fun ha hall d hd I hI J hJ => ?_⟩
  obtain ⟨i, hi⟩ := List.mem_iff_getElem?.1 hd
  have hfront (interface : TypeReference) (hreported : interface ∈ collectImplementedInterfaces d.methods)
      (bt : Binary.TypeDef) (hbt : a'.typeDefs[a.typeDefs.length + i]? = some bt) : ∃ table,
        bt.interfaces.head? = some table ∧
          YieldsBetween a a' (compileImplementation (interface, d.table interface)) table := by
    obtain ⟨bt', hbt', s₁, s₂, hs₁, hrun, hs₂⟩ := Compiler.buildImpl_get (hall fun _ => .front interface) hi
    obtain rfl : bt = bt' := Option.some.inj (hbt.symm.trans hbt')
    obtain ⟨bd, hbd, rfl⟩ := map_eq_ok.1 hrun
    obtain ⟨table, htable, hyields⟩ := compileClass_front hreported hbd
    exact ⟨table, htable, hyields.mono hs₁ hs₂⟩
  obtain ⟨bt, hbt, -⟩ := Compiler.buildImpl_get h hi
  obtain ⟨table, htable, hyields⟩ := hfront I hI bt hbt
  obtain ⟨table', htable', hyields'⟩ := hfront J hJ bt hbt
  obtain rfl : table = table' := Option.some.inj (htable.symm.trans htable')
  exact eq_of_compileImplementation ha hyields hyields'

end Reproducible

/-! ### A class with one interface and a class with two -/

private def firstI : TypeDef := .interface (plainInterface "I" 0)

private def secondJ : TypeDef := .interface (plainInterface "J" 1)

private def implementsOne : TypeDef := .class (plainClass "A" 1 none [filedMethod "a" 0 "I"] [])

private def implementsTwo : TypeDef :=
  .class (plainClass "A" 2 none [filedMethod "a" 0 "I", filedMethod "b" 1 "J"] [])

private abbrev oneService : CompilerService :=
  ownService
    ["interface[0]I\x7bmethod[0]m()->[A]A\x7b\x7d\x7d",
      "class[1]A\x7bmethod[0]a()->[A]A impl m in[A]I\x7b\x7d\x7d"]
    [firstI, implementsOne]

private abbrev twoService : CompilerService :=
  ownService
    ["interface[0]I\x7bmethod[0]m()->[A]A\x7b\x7d\x7d", "interface[1]J\x7bmethod[0]m()->[A]A\x7b\x7d\x7d",
      "class[2]A\x7bmethod[0]a()->[A]A impl m in[A]I\x7b\x7dmethod[1]b()->[A]A impl m in[A]J\x7b\x7d\x7d"]
    [firstI, secondJ, implementsTwo]

private theorem one_loaded :
    @loadFiles asciiLexer plainParser oneService ([0, 1] : List Nat) (Compiler.new.setLastIndex 0) =
      ⟨⟨[firstI, implementsOne]⟩, some 0⟩ :=
  @loadFiles_eq asciiLexer plainParser oneService 0 _ _ (by decide +kernel)

private theorem two_loaded :
    @loadFiles asciiLexer plainParser twoService ([0, 1, 2] : List Nat) (Compiler.new.setLastIndex 0) =
      ⟨⟨[firstI, secondJ, implementsTwo]⟩, some 0⟩ :=
  @loadFiles_eq asciiLexer plainParser twoService 0 _ _ (by decide +kernel)

/-- `Compiler.reproducible_iff` for a class that implements one interface. -/
theorem Compiler.reproducible_iff_one :
    let _ := oneService
    let _ := internBuilder
    let c := @loadFiles asciiLexer plainParser _ ([0, 1] : List Nat) (Compiler.new.setLastIndex 0)
    let a : Assembly := ⟨[], [], [], [], []⟩
    let a' := (c.buildImpl (fun _ => .same) a).2
    c.buildImpl (fun _ => .same) a = (.ok (), a') ∧ ∀ orders, c.buildImpl orders a = (.ok (), a') := by
  intro _ _ c a a'
  have hc : c = ⟨⟨[firstI, implementsOne]⟩, some 0⟩ := one_loaded
  clear_value c
  have hbuild : c.buildImpl (fun _ => .same) a = (.ok (), a') := run_of_fst (by rw [hc]; decide +kernel)
  refine ⟨hbuild, (Compiler.reproducible_iff hbuild).1 fun d hd I hI J hJ => ?_⟩
  rw [hc] at hd
  obtain rfl : d = plainClass "A" 1 none [filedMethod "a" 0 "I"] [] := by simpa [firstI, implementsOne] using hd
  obtain rfl := List.mem_singleton.1 hI
  obtain rfl := List.mem_singleton.1 hJ
  exact ⟨rfl, rfl⟩

/-- The tables of a class that implements two interfaces come in the order of the hash map. -/
theorem Compiler.reproducible_two :
    let _ := twoService
    let _ := internBuilder
    let c := @loadFiles asciiLexer plainParser _ ([0, 1, 2] : List Nat) (Compiler.new.setLastIndex 0)
    let a : Assembly := ⟨[], [], [], [], []⟩
    (c.buildImpl (fun _ => .front (ownType "I")) a).1 = .ok () ∧
      (c.buildImpl (fun _ => .front (ownType "J")) a).1 = .ok () ∧
        (c.buildImpl (fun _ => .front (ownType "I")) a).2 ≠ (c.buildImpl (fun _ => .front (ownType "J")) a).2 := by
  intro _ _ c a
  have hc : c = ⟨⟨[firstI, secondJ, implementsTwo]⟩, some 0⟩ := two_loaded
  clear_value c
  subst hc
  refine ⟨by decide +kernel, by decide +kernel, fun heq => ?_⟩
  have hfirst : ((⟨⟨[firstI, secondJ, implementsTwo]⟩, some 0⟩ : Compiler).buildImpl
      (fun _ => .front (ownType "I")) a).2.typeDefs.map (fun bt => bt.interfaces.map (·.target.index)) =
        [[], [], [0, 1]] := by
    decide +kernel
  have hsecond : ((⟨⟨[firstI, secondJ, implementsTwo]⟩, some 0⟩ : Compiler).buildImpl
      (fun _ => .front (ownType "J")) a).2.typeDefs.map (fun bt => bt.interfaces.map (·.target.index)) =
        [[], [], [1, 0]] := by
    decide +kernel
  rw [heq, hsecond] at hfirst
  exact absurd hfirst (by decide)

end PuralinguaIR
