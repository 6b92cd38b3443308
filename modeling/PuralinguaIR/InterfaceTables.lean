import PuralinguaIR.Numbering
import PuralinguaIR.Resolving

/-!
# Tables of implemented interfaces

The methods of a class are filed in one table for each interface they implement methods of
(`Implementations.Files`). The tables are written out by `flattenTable`, which compares every key with the one
before it: it accepts a table exactly when all keys are `0` (`flattenTable_eq_some`). So the tables of a class are
written out exactly when every method that implements a method of an interface implements its method `0`
(`implements_first`, `tables_succeed`).
-/

namespace PuralinguaIR

open Effect Effect.Prog

/-! ### Writing a table out -/

theorem flattenTable_eq_some {k : UInt32} {entries : List (UInt32 × UInt32)} {vs : List UInt32} :
    flattenTable k entries = some vs ↔ (∀ e ∈ entries, e.1 = k) ∧ entries.map Prod.snd = vs := by
  induction entries generalizing vs with
  | nil => simp [flattenTable]
  | cons e entries ih =>
    obtain ⟨k', v⟩ := e
    rw [flattenTable]
    by_cases hk : k' = k
    · -- the key is the one before it, and the next ones are compared with it
      subst hk
      rw [if_pos rfl, Option.map_eq_map, Option.map_eq_some_iff]
      constructor
      · rintro ⟨ws, hws, rfl⟩
        obtain ⟨hrest, rfl⟩ := ih.1 hws
        exact ⟨by simpa using hrest, rfl⟩
      · rintro ⟨hall, rfl⟩
        exact ⟨_, ih.2 ⟨fun e he => hall e (by simp [he]), rfl⟩, rfl⟩
    · rw [if_neg hk]
      constructor
      · intro h
        cases h
      · rintro ⟨hall, -⟩
        exact absurd (hall (k', v) (by simp)) hk

/-! ### Collecting the tables -/

theorem Implementations.mem_update {tables : Implementations} (hnodup : (tables.map Prod.fst).Nodup)
    (ty : TypeReference) (f : SortedMap UInt32 UInt32 → SortedMap UInt32 UInt32) (ty' : TypeReference)
    (map' : SortedMap UInt32 UInt32) :
    (ty', map') ∈ tables.update ty f ↔
      ty' ≠ ty ∧ (ty', map') ∈ tables ∨
        ty' = ty ∧ ∃ map, map' = f map ∧ ((ty, map) ∈ tables ∨ ty ∉ tables.map Prod.fst ∧ map = .empty) := by
  induction tables with
  | nil =>
    simp [update]
  | cons entry rest ih =>
    obtain ⟨t, map⟩ := entry
    rw [List.map_cons, List.nodup_cons] at hnodup
    -- the entry of the interface is changed in its place, and its key occurs in no other
    by_cases ht : t = ty
    · subst ht
      have hrest : ∀ map', (t, map') ∉ rest := fun map' h => hnodup.1 (List.mem_map.2 ⟨_, h, rfl⟩)
      simp only [update, if_true, List.mem_cons, Prod.mk.injEq, true_and]
      constructor
      · rintro (⟨rfl, rfl⟩ | h)
        · exact Or.inr ⟨rfl, map, rfl, Or.inl (Or.inl rfl)⟩
        · refine Or.inl ⟨?_, Or.inr h⟩
          rintro rfl
          exact hrest _ h
      · rintro (⟨hne, ⟨rfl, -⟩ | h⟩ | ⟨rfl, map₁, rfl, (rfl | h) | ⟨h, -⟩⟩)
        · exact absurd rfl hne
        · exact Or.inr h
        · exact Or.inl ⟨rfl, rfl⟩
        · exact absurd h (hrest _)
        · exact absurd (by simp) h
    · simp only [update, if_neg ht, List.mem_cons, Prod.mk.injEq, ih hnodup.2, List.map_cons]
      constructor
      · rintro (⟨rfl, rfl⟩ | ⟨hne, h⟩ | ⟨rfl, map₁, rfl, h | ⟨h, rfl⟩⟩)
        · exact Or.inl ⟨ht, Or.inl ⟨rfl, rfl⟩⟩
        · exact Or.inl ⟨hne, Or.inr h⟩
        · exact Or.inr ⟨rfl, map₁, rfl, Or.inl (Or.inr h)⟩
        · exact Or.inr ⟨rfl, _, rfl, Or.inr ⟨by rintro (h' | h'); exacts [ht h'.symm, h h'], rfl⟩⟩
      · rintro (⟨hne, ⟨rfl, rfl⟩ | h⟩ | ⟨rfl, map₁, rfl, (⟨rfl, -⟩ | h) | ⟨h, rfl⟩⟩)
        · exact Or.inl ⟨rfl, rfl⟩
        · exact Or.inr (Or.inl ⟨hne, h⟩)
        · exact absurd rfl ht
        · exact Or.inr (Or.inr ⟨rfl, map₁, rfl, Or.inl h⟩)
        · exact Or.inr (Or.inr ⟨rfl, _, rfl, Or.inr ⟨fun h' => h (Or.inr h'), rfl⟩⟩)

private theorem keys_update (ty : TypeReference) (f : SortedMap UInt32 UInt32 → SortedMap UInt32 UInt32)
    (tables : Implementations) : (tables.update ty f).map Prod.fst =
      if ty ∈ tables.map Prod.fst then tables.map Prod.fst else tables.map Prod.fst ++ [ty] := by
  induction tables with
  | nil => simp [Implementations.update]
  | cons entry rest ih =>
    obtain ⟨t, map⟩ := entry
    by_cases ht : t = ty
    · simp [Implementations.update, ht]
    · rw [Implementations.update, if_neg ht, List.map_cons, ih, List.map_cons]
      by_cases hmem : ty ∈ rest.map Prod.fst
      · rw [if_pos hmem, if_pos (List.mem_cons_of_mem _ hmem)]
      · rw [if_neg hmem, if_neg (by rintro (_ | ⟨_, h⟩); exacts [ht rfl, hmem h])]
        rfl

theorem Implementations.nodup_update {tables : Implementations} (h : (tables.map Prod.fst).Nodup)
    (ty : TypeReference)
    (f : SortedMap UInt32 UInt32 → SortedMap UInt32 UInt32) : ((tables.update ty f).map Prod.fst).Nodup := by
  rw [keys_update]
  split
  · exact h
  · rename_i hmem
    exact h.append (List.nodup_singleton ty) (by simpa using hmem)

section Collecting

variable [CompilerService]

/-- The entries the methods make in the table of an interface: the slot in the interface, and that of the
method. -/
def implementing (interface : TypeReference) (methods : List Method) : List (UInt32 × UInt32) :=
  methods.filterMap fun m =>
    match m.impl with
    | some (ty, r) =>
      if ty = interface then (r.index.lookup (resolveTypeReference ty) false).map (·, m.index) else none
    | none => none

theorem mem_implementing {interface : TypeReference} {methods : List Method} {k v : UInt32} :
    (k, v) ∈ implementing interface methods ↔ ∃ m ∈ methods, ∃ r, m.impl = some (interface, r) ∧
      r.index.lookup (resolveTypeReference interface) false = some k ∧ m.index = v := by
  rw [implementing, List.mem_filterMap]
  refine exists_congr fun m => and_congr_right fun _ => ?_
  cases himpl : m.impl with
  | none => simp
  | some p =>
    obtain ⟨ty, r⟩ := p
    by_cases hty : ty = interface
    · subst hty
      simp
    · simp [hty]

/-- The tables are those of the interfaces some method implements a method of, with the entries of all methods. -/
structure Implementations.Files (tables : Implementations) (methods : List Method) : Prop where
  nodup : (tables.map Prod.fst).Nodup
  mem_iff : ∀ ty map, (ty, map) ∈ tables ↔
    implementing ty methods ≠ [] ∧ map = SortedMap.empty.insertAll (implementing ty methods)

namespace Implementations.Files

theorem nil : Implementations.Files [] [] := ⟨List.nodup_nil, fun ty map => by simp [implementing]⟩

variable {tables : Implementations} {methods : List Method} {m : Method}

theorem append_none (h : tables.Files methods) (hm : m.impl = none) : tables.Files (methods ++ [m]) := by
  have heq : ∀ ty, implementing ty (methods ++ [m]) = implementing ty methods := fun ty => by
    simp [implementing, List.filterMap_append, hm]
  refine ⟨h.nodup, fun ty map => ?_⟩
  rw [heq]
  exact h.mem_iff ty map

theorem append_some (h : tables.Files methods) {ty : TypeReference} {r : MethodReference} {k : UInt32}
    (hm : m.impl = some (ty, r)) (hk : r.index.lookup (resolveTypeReference ty) false = some k) :
    Implementations.Files (tables.update ty (·.insert k m.index)) (methods ++ [m]) := by
  have hsame : implementing ty (methods ++ [m]) = implementing ty methods ++ [(k, m.index)] := by
    simp [implementing, List.filterMap_append, hm, hk]
  have hother : ∀ ty', ty' ≠ ty → implementing ty' (methods ++ [m]) = implementing ty' methods := fun ty' hne => by
    simp [implementing, List.filterMap_append, hm, hne.symm]
  refine ⟨nodup_update h.nodup _ _, fun ty' map' => ?_⟩
  rw [mem_update h.nodup]
  by_cases hty : ty' = ty
  swap
  · rw [hother ty' hty]
    simp [hty, h.mem_iff]
  subst hty
  rw [hsame, SortedMap.insertAll, List.foldl_concat]
  -- the table of the interface exists if a method before implements one of its methods; else it is empty
  have hkey : ty' ∈ tables.map Prod.fst ↔ implementing ty' methods ≠ [] := by
    rw [List.mem_map]
    constructor
    · rintro ⟨⟨t, map⟩, hmem, rfl⟩
      exact ((h.mem_iff _ _).1 hmem).1
    · exact fun hne => ⟨(ty', _), (h.mem_iff _ _).2 ⟨hne, rfl⟩, rfl⟩
  constructor
  · rintro (⟨hne, -⟩ | ⟨-, map, rfl, hmem | ⟨hmem, rfl⟩⟩)
    · exact absurd rfl hne
    · rw [((h.mem_iff _ _).1 hmem).2]
      exact ⟨by simp, rfl⟩
    · rw [hkey, not_not] at hmem
      rw [hmem]
      exact ⟨by simp, rfl⟩
  · rintro ⟨-, rfl⟩
    refine Or.inr ⟨rfl, _, rfl, ?_⟩
    by_cases hempty : implementing ty' methods = []
    · rw [hempty]
      exact Or.inr ⟨fun hmem => hkey.1 hmem hempty, rfl⟩
    · exact Or.inl ((h.mem_iff _ _).2 ⟨hempty, rfl⟩)

end Implementations.Files

/-! ### Running through the methods -/

variable [AssemblyBuilder] {currentTy : TypeInformation}

/-- A method that resolves is filed. -/
theorem implement_files {m : Method} (hm : m.Resolves currentTy) {done : List Method} {s : TypeState}
    (hs : s.implementations.Files done) : ∃ s', implement m s = (.ok (), s') ∧ s'.overrideCount = s.overrideCount ∧
      s'.implementations.Files (done ++ [m]) := by
  cases himpl : m.impl with
  | none => exact ⟨s, by rw [implement, himpl]; rfl, rfl, hs.append_none himpl⟩
  | some p =>
    obtain ⟨ty, r⟩ := p
    obtain ⟨-, hgen, hlookup⟩ := hm.impl ty r himpl
    obtain ⟨k, hk⟩ := Option.isSome_iff_exists.1 hlookup
    have hcompile (a : Assembly) :
        compileMethodReference (resolveTypeReference ty) false r a = (.ok ⟨.method, k⟩, a) := by
      refine bind_step (okOr_eq_ok.2 ⟨hk, rfl⟩) ?_
      rw [hgen]
      rfl
    have hrun : ∃ s', implement m s = (.ok (), s') := by
      rw [implement, himpl]
      exact ⟨_, bind_step rfl (bind_step (onAssembly_ok (hcompile _)) rfl)⟩
    obtain ⟨s', hrun⟩ := hrun
    obtain ⟨k', hk', -, rfl⟩ := implement_run himpl hrun
    obtain rfl : k = k' := Option.some.inj (hk.symm.trans hk')
    exact ⟨_, hrun, rfl, hs.append_some himpl hk⟩

omit [CompilerService] [AssemblyBuilder] in
private theorem onAssembly_succeeds {α : Type} {p : Builder α} (hp : Succeeds p) (s : TypeState) :
    ∃ x a', onAssembly p s = (.ok x, { s with assembly := a' }) := by
  obtain ⟨x, a', h⟩ := hp s.assembly
  exact ⟨x, a', onAssembly_ok h⟩

/-- Methods that resolve and have the right numbers are compiled, and all of them are filed. -/
theorem compileMethods_files {methods : List Method} (hres : ∀ m ∈ methods, m.Resolves currentTy)
    {done : List Method} {s : TypeState} (hs : s.implementations.Files done)
    (hnum : Numbered currentTy done.length s.overrideCount methods) :
    ∃ ms s', ((methods.zipIdx done.length).mapM fun (m, ind) => compileMethod currentTy (UInt32.ofNat ind) m) s =
      (.ok ms, s') ∧ s'.implementations.Files (done ++ methods) := by
  induction methods generalizing done s with
  | nil => exact ⟨[], s, rfl, by rwa [List.append_nil]⟩
  | cons m methods ih =>
    have hm := hres m (by simp)
    -- checking the number changes the number of overriding methods only
    obtain ⟨s₁, hcheck, hrest⟩ := numbered_cons_iff.1 hnum
    obtain ⟨c, rfl⟩ : ∃ c, s₁ = { s with overrideCount := c } := by
      rcases checkIndex_eq_ok.1 hcheck with ⟨-, -, rfl⟩ | ⟨-, c, -, rfl⟩
      · exact ⟨_, rfl⟩
      · exact ⟨c, rfl⟩
    have hs₁ : ({ s with overrideCount := c } : TypeState).implementations.Files done := hs
    obtain ⟨s₂, himpl, hcount, hs₂⟩ := implement_files hm hs₁
    obtain ⟨bm, a', hbody⟩ := onAssembly_succeeds (compileMethodBody_succeeds hm) s₂
    have hfirst : compileMethod currentTy (UInt32.ofNat done.length) m s = (.ok bm, { s₂ with assembly := a' }) :=
      bind_step hcheck (bind_step himpl hbody)
    have hlen : (done ++ [m]).length = done.length + 1 := by simp
    have hs₃ : ({ s₂ with assembly := a' } : TypeState).implementations.Files (done ++ [m]) := hs₂
    rw [← hlen] at hrest
    have hnum' : Numbered currentTy (done ++ [m]).length ({ s₂ with assembly := a' } : TypeState).overrideCount
        methods := by
      rw [show ({ s₂ with assembly := a' } : TypeState).overrideCount = c from hcount]
      exact hrest
    obtain ⟨ms, s', hms, hfiles⟩ := ih (fun x hx => hres x (by simp [hx])) hs₃ hnum'
    rw [hlen] at hms
    refine ⟨bm :: ms, s', ?_, by simpa using hfiles⟩
    rw [List.zipIdx_cons]
    exact mapM_cons_eq_ok.2 ⟨bm, _, ms, hfirst, hms, rfl⟩

/-! ### Building a class -/

/-- Everything in a class but the tables of its interfaces can be compiled, and its methods have the right
numbers. -/
structure ClassDef.Resolves (d : ClassDef) : Prop where
  parent : ∀ r ∈ d.parent, r.Resolves
  numbered : Numbered d.toAbstract 0 0 d.methods
  methods : ∀ m ∈ d.methods, m.Resolves d.toAbstract
  fields : ∀ f ∈ d.fields, f.ty.Resolves

/-- A class up to the tables of its interfaces. -/
def compileClassHead (d : ClassDef) : TypeBuilder (List Binary.InterfaceImplementation → Binary.ClassDef) := do
  let name ← onAssembly (addString d.name.var)
  let parent ← onAssembly (d.parent.mapM compileTypeReference)
  let methodTable ← compileMethods d.toAbstract d.methods
  let fields ← onAssembly (d.fields.mapM compileField)
  pure fun interfaces =>
    { main := d.main, name, attr := d.attr,
      genericCountRequirement := genericCountRequirement d.generics d.isGenericInfinite,
      parent, methodTable, fields, interfaces }

omit [CompilerService] [AssemblyBuilder] in
theorem TypeBuilder.run_eq_ok {α : Type} {p : TypeBuilder α} {a a' : Assembly} {x : α} :
    p.run a = (.ok x, a') ↔ ∃ s, p ⟨a, [], 0⟩ = (.ok x, s) ∧ s.assembly = a' := by
  rw [TypeBuilder.run, Prod.mk.injEq]
  constructor
  · rintro ⟨hx, ha⟩
    exact ⟨_, Prod.ext hx rfl, ha⟩
  · rintro ⟨s, hp, rfl⟩
    rw [hp]
    exact ⟨rfl, rfl⟩

theorem compileClass_eq (order : EntryOrder) (d : ClassDef) :
    compileClass order d = TypeBuilder.run (compileClassHead d >>= fun mk => get >>= fun s =>
      onAssembly ((order.entries s.implementations).mapM compileImplementation) >>= fun interfaces =>
        pure (mk interfaces)) := by
  simp only [compileClass, compileClassHead, bind_assoc, pure_bind]

/-- A class is compiled when its head is and then its tables are. -/
theorem compileClass_eq_ok {order : EntryOrder} {d : ClassDef} {a a' : Assembly} {bd : Binary.ClassDef} :
    compileClass order d a = (.ok bd, a') ↔ ∃ mk s, compileClassHead d ⟨a, [], 0⟩ = (.ok mk, s) ∧
      ∃ interfaces, (order.entries s.implementations).mapM compileImplementation s.assembly =
        (.ok interfaces, a') ∧ mk interfaces = bd := by
  rw [compileClass_eq, TypeBuilder.run_eq_ok]
  constructor
  · rintro ⟨s', h, rfl⟩
    obtain ⟨mk, s, hhead, h⟩ := bind_eq_ok.1 h
    rw [bind_of_ok (get_run s)] at h
    obtain ⟨interfaces, s₁, hinterfaces, h⟩ := bind_eq_ok.1 h
    cases h
    exact ⟨mk, s, hhead, interfaces, (onAssembly_run hinterfaces).1, rfl⟩
  · rintro ⟨mk, s, hhead, interfaces, hinterfaces, rfl⟩
    exact ⟨_, bind_step hhead (bind_step (get_run s) (bind_step (onAssembly_ok hinterfaces) (pure_run _ _))), rfl⟩

/-- A class that resolves is compiled up to the tables of its interfaces, which hold all entries of its methods.
-/
theorem compileClassHead_succeeds {d : ClassDef} (hd : d.Resolves) (a : Assembly) :
    ∃ mk s, compileClassHead d ⟨a, [], 0⟩ = (.ok mk, s) ∧ (∀ interfaces, (mk interfaces).interfaces = interfaces) ∧
      s.implementations.Files d.methods := by
  have hparent : Succeeds (d.parent.mapM compileTypeReference) :=
    Succeeds.optionMapM fun r hr => compileTypeReference_succeeds (hd.parent r hr)
  have hfields : Succeeds (d.fields.mapM compileField) :=
    Succeeds.mapM fun f hf => compileField_succeeds (hd.fields f hf)
  obtain ⟨name, a₁, hname⟩ := onAssembly_succeeds (addString_succeeds d.name.var) ⟨a, [], 0⟩
  obtain ⟨parent, a₂, hparent⟩ := onAssembly_succeeds hparent ⟨a₁, [], 0⟩
  obtain ⟨methodTable, s, hmethods, hfiles⟩ :=
    compileMethods_files (s := ⟨a₂, [], 0⟩) hd.methods Implementations.Files.nil hd.numbered
  obtain ⟨fields, a₃, hfields⟩ := onAssembly_succeeds hfields s
  let mk (interfaces : List Binary.InterfaceImplementation) : Binary.ClassDef :=
    { main := d.main, name, attr := d.attr,
      genericCountRequirement := genericCountRequirement d.generics d.isGenericInfinite,
      parent, methodTable, fields, interfaces }
  refine ⟨mk, { s with assembly := a₃ }, ?_, fun interfaces => rfl, hfiles⟩
  exact bind_step hname (bind_step hparent (bind_step hmethods (bind_step hfields rfl)))

/-- A table is written out exactly when all its keys are `0`. -/
theorem compileImplementation_eq_ok {entry : TypeReference × SortedMap UInt32 UInt32} {a a' : Assembly}
    {table : Binary.InterfaceImplementation} (h : compileImplementation entry a = (.ok table, a')) :
    (∀ e ∈ entry.2.entries, e.1 = 0) ∧ table.map = entry.2.entries.map Prod.snd ∧
      compileTypeReference entry.1 a = (.ok table.target, a') := by
  obtain ⟨target, a₁, htarget, hrest⟩ := bind_eq_ok.1 h
  obtain ⟨map, a₂, hmap, hpure⟩ := bind_eq_ok.1 hrest
  obtain ⟨hflat, rfl⟩ := unwrap_eq_ok.1 hmap
  obtain ⟨hkeys, hvalues⟩ := flattenTable_eq_some.1 hflat
  cases hpure
  exact ⟨hkeys, hvalues.symm, htarget⟩

theorem compileImplementation_succeeds {entry : TypeReference × SortedMap UInt32 UInt32} (h : entry.1.Resolves)
    (hkeys : ∀ e ∈ entry.2.entries, e.1 = 0) : Succeeds (compileImplementation entry) := by
  have hflat : flattenTable 0 entry.2.entries = some (entry.2.entries.map Prod.snd) :=
    flattenTable_eq_some.2 ⟨hkeys, rfl⟩
  refine Succeeds.bind (compileTypeReference_succeeds h) fun target => ?_
  rw [hflat]
  exact Succeeds.bind (Succeeds.pure _) fun map => Succeeds.pure _

omit [AssemblyBuilder] in
/-- The keys of the tables are the slots of the methods that are implemented. -/
theorem Implementations.Files.keys {tables : Implementations} {methods : List Method} (h : tables.Files methods)
    {interface : TypeReference} {k : UInt32} :
    (∃ map, (interface, map) ∈ tables ∧ ∃ e ∈ map.entries, e.1 = k) ↔
      ∃ e ∈ implementing interface methods, e.1 = k := by
  constructor
  · rintro ⟨map, hmem, he⟩
    rw [((h.mem_iff _ _).1 hmem).2, SortedMap.mem_keys_insertAll] at he
    rcases he with he | ⟨e, he, -⟩
    · exact he
    · cases he
  · rintro ⟨e, he, rfl⟩
    refine ⟨_, (h.mem_iff _ _).2 ⟨List.ne_nil_of_mem he, rfl⟩, ?_⟩
    exact SortedMap.mem_keys_insertAll.2 (Or.inl ⟨e, he, rfl⟩)

/-- When the tables are written out, every method that implements one of an interface implements its method `0`.
-/
theorem implements_first {methods : List Method} {currentTy : TypeInformation}
    (hres : ∀ m ∈ methods, m.Resolves currentTy) {tables : Implementations} (hfiles : tables.Files methods)
    {order : EntryOrder} {interfaces : List Binary.InterfaceImplementation} {a a' : Assembly}
    (h : (order.entries tables).mapM compileImplementation a = (.ok interfaces, a')) :
    ∀ m ∈ methods, ∀ ty r, m.impl = some (ty, r) → r.index.lookup (resolveTypeReference ty) false = some 0 := by
  intro m hm ty r himpl
  obtain ⟨-, -, hlookup⟩ := (hres m hm).impl ty r himpl
  obtain ⟨k, hk⟩ := Option.isSome_iff_exists.1 hlookup
  have hentry : (k, m.index) ∈ implementing ty methods := mem_implementing.2 ⟨m, hm, r, himpl, hk, rfl⟩
  obtain ⟨map, hmem, e, he, rfl⟩ := hfiles.keys.2 ⟨_, hentry, rfl⟩
  obtain ⟨table, -, s₁, s₂, htable⟩ :=
    exists_of_forall₂ (forall₂_of_mapM h) ((order.entries_perm tables).mem_iff.2 hmem)
  rw [hk, (compileImplementation_eq_ok htable).1 e he]

/-- When every method that implements one of an interface implements its method `0`, the tables are written out.
-/
theorem tables_succeed {methods : List Method} {currentTy : TypeInformation}
    (hres : ∀ m ∈ methods, m.Resolves currentTy) {tables : Implementations} (hfiles : tables.Files methods)
    (hzero : ∀ m ∈ methods, ∀ ty r, m.impl = some (ty, r) →
      r.index.lookup (resolveTypeReference ty) false = some 0)
    (order : EntryOrder) : Succeeds ((order.entries tables).mapM compileImplementation) := by
  refine Succeeds.mapM fun entry hentry => ?_
  obtain ⟨ty, map⟩ := entry
  have hmem : (ty, map) ∈ tables := (order.entries_perm tables).mem_iff.1 hentry
  have hresolves : ty.Resolves := by
    obtain ⟨⟨k, v⟩, he⟩ := List.exists_mem_of_ne_nil _ ((hfiles.mem_iff _ _).1 hmem).1
    obtain ⟨m, hm, r, himpl, -⟩ := mem_implementing.1 he
    exact ((hres m hm).impl ty r himpl).1
  refine compileImplementation_succeeds hresolves fun e he => ?_
  obtain ⟨⟨k, v⟩, hkv, hk⟩ := hfiles.keys.1 ⟨map, hmem, e, he, rfl⟩
  obtain ⟨m, hm, r, himpl, hlookup, -⟩ := mem_implementing.1 hkv
  rw [← hk]
  exact Option.some.inj (hlookup.symm.trans (hzero m hm ty r himpl))

end Collecting

end PuralinguaIR
