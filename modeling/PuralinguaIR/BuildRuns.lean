import PuralinguaIR.InterfaceTables

/-!
# Runs of the build

A successful build puts one definition for each type behind those that are there (`Compiler.buildImpl_run`).
Each is compiled in a state between the first and the last (`YieldsBetween`), so what its parts are compiled
from is known: the fields in their order (`compileDefinition_fields`), and for a class the tables of the
interfaces that its methods implement (`compileClass_tables`).
-/

namespace PuralinguaIR

open Effect Effect.Prog

/-! ### Results on the way -/

/-- On the way from `a` to `a'`, the program `p` gives `x`. -/
def YieldsBetween {α : Type} (a a' : Assembly) (p : Builder α) (x : α) : Prop :=
  ∃ s₁ s₂, a.Extends s₁ ∧ p s₁ = (.ok x, s₂) ∧ s₂.Extends a'

namespace YieldsBetween

variable {α β : Type} {a a' b b' : Assembly}

theorem mono {p : Builder α} {x : α} (h : YieldsBetween b b' p x) (hab : a.Extends b) (hba : b'.Extends a') :
    YieldsBetween a a' p x := by
  obtain ⟨s₁, s₂, h₁, hp, h₂⟩ := h
  exact ⟨s₁, s₂, hab.trans h₁, hp, h₂.trans hba⟩

theorem mapM {f : α → Builder β} {xs : List α} {ys : List β} (h : YieldsBetween a a' (xs.mapM f) ys)
    (hf : ∀ x ∈ xs, Keeps Assembly.Extends (f x)) :
    List.Forall₂ (fun x y => x ∈ xs ∧ YieldsBetween a a' (f x) y) xs ys := by
  obtain ⟨s₁, s₂, h₁, hp, h₂⟩ := h
  refine (mapM_ok hf hp).imp fun x y ⟨hx, t₁, t₂, ht₁, hrun, ht₂⟩ => ?_
  exact ⟨hx, t₁, t₂, h₁.trans ht₁, hrun, ht₂.trans h₂⟩

end YieldsBetween

/-! ### The parts of a definition -/

namespace Binary.TypeDef

def fields : Binary.TypeDef → List Binary.Field
  | .class d => d.fields
  | struct d => d.fields
  | interface _ => []

/-- The tables of the implemented interfaces; only a class has any. -/
def interfaces : Binary.TypeDef → List Binary.InterfaceImplementation
  | .class d => d.interfaces
  | struct _ => []
  | interface _ => []

end Binary.TypeDef

/-! ### What compiling a type keeps -/

/-- The relation `R` between the assemblies of two states. -/
def onTables (R : Assembly → Assembly → Prop) (s t : TypeState) : Prop := R s.assembly t.assembly

section Keeps

variable {R : Assembly → Assembly → Prop}

instance [Std.Refl R] : Std.Refl (onTables R) := ⟨fun s => Std.Refl.refl s.assembly⟩

instance [IsTrans Assembly R] : IsTrans TypeState (onTables R) := ⟨fun _ _ _ => IsTrans.trans (r := R) _ _ _⟩

theorem onAssembly_keeps {α : Type} {p : Builder α} (hp : Keeps R p) : Keeps (onTables R) (onAssembly p) :=
  fun s => hp s.assembly

theorem TypeBuilder.run_keeps {α : Type} {p : TypeBuilder α} (hp : Keeps (onTables R) p) : Keeps R p.run :=
  fun a => hp ⟨a, [], 0⟩

variable [CompilerService] [AssemblyBuilder] [Growing R] {currentTy : TypeInformation} {m : Method}

omit [AssemblyBuilder] [Growing R] in
theorem checkIndex_keeps [Std.Refl R] [IsTrans Assembly R] (i : UInt32) :
    Keeps (onTables R) (checkIndex currentTy i m) := by
  refine Keeps.bind Keeps.get fun s => ?_
  split
  · refine Keeps.bind (Keeps.unwrap _) fun expected => ?_
    split
    · exact Keeps.pure ()
    · exact Keeps.panic
  · exact Keeps.bind (Keeps.unwrap _) fun c => Keeps.modify fun s => Std.Refl.refl s.assembly

theorem implement_keeps : Keeps (onTables R) (implement m) := by
  unfold implement
  split
  · exact Keeps.pure ()
  · refine Keeps.bind (Keeps.modify fun s => Std.Refl.refl s.assembly) fun _ => ?_
    refine Keeps.bind (onAssembly_keeps (compileMethodReference_keeps _ _ _)) fun r => ?_
    split
    · exact Keeps.modify fun s => Std.Refl.refl s.assembly
    · exact Keeps.panic

theorem compileMethod_keeps (i : UInt32) : Keeps (onTables R) (compileMethod currentTy i m) := by
  refine Keeps.bind (checkIndex_keeps i) fun _ => Keeps.bind implement_keeps fun _ => ?_
  exact onAssembly_keeps compileMethodBody_keeps

theorem compileMethodsAlone_keeps (methods : List Method) : Keeps R (compileMethodsAlone currentTy methods) :=
  Keeps.mapM fun _ _ => TypeBuilder.run_keeps (compileMethod_keeps _)

theorem compileImplementation_keeps (entry : TypeReference × SortedMap UInt32 UInt32) :
    Keeps R (compileImplementation entry) := by
  refine Keeps.bind (compileTypeReference_keeps _) fun target => ?_
  exact Keeps.bind (Keeps.unwrap _) fun map => Keeps.pure _

theorem compileClass_keeps (order : EntryOrder) (d : ClassDef) : Keeps R (compileClass order d) := by
  refine TypeBuilder.run_keeps ?_
  refine Keeps.bind (onAssembly_keeps (addString_keeps _)) fun name => ?_
  refine Keeps.bind (onAssembly_keeps (Keeps.optionMapM compileTypeReference_keeps)) fun parent => ?_
  refine Keeps.bind (Keeps.mapM fun _ _ => compileMethod_keeps _) fun methodTable => ?_
  refine Keeps.bind (onAssembly_keeps (Keeps.mapM fun f _ => compileField_keeps f)) fun fields => ?_
  refine Keeps.bind Keeps.get fun s => ?_
  refine Keeps.bind (onAssembly_keeps (Keeps.mapM fun e _ => compileImplementation_keeps e)) fun interfaces => ?_
  exact Keeps.pure _

theorem compileStruct_keeps (d : StructDef) : Keeps R (compileStruct d) := by
  refine Keeps.bind (addString_keeps _) fun name => Keeps.bind (compileMethodsAlone_keeps _) fun methodTable => ?_
  exact Keeps.bind (Keeps.mapM fun f _ => compileField_keeps f) fun fields => Keeps.pure _

theorem compileInterface_keeps (d : InterfaceDef) : Keeps R (compileInterface d) := by
  refine Keeps.bind (addString_keeps _) fun name => ?_
  refine Keeps.bind (Keeps.mapM fun r _ => compileTypeReference_keeps r) fun requiredInterfaces => ?_
  exact Keeps.bind (compileMethodsAlone_keeps _) fun methodTable => Keeps.pure _

end Keeps

/-! ### Parts -/

section Parts

variable [CompilerService] [AssemblyBuilder] {currentTy : TypeInformation}

/-- A compiled method is filed. -/
theorem compileMethod_files {m : Method} {i : UInt32} {done : List Method} {s s' : TypeState} {bm : Binary.Method}
    (hs : s.implementations.Files done) (h : compileMethod currentTy i m s = (.ok bm, s')) :
    s'.implementations.Files (done ++ [m]) := by
  obtain ⟨_, s₁, hcheck, h⟩ := bind_eq_ok.1 h
  obtain ⟨_, s₂, himplement, hbody⟩ := bind_eq_ok.1 h
  -- neither the check nor the body changes the tables
  have hs₁ : s₁.implementations = s.implementations := by
    rcases checkIndex_eq_ok.1 hcheck with ⟨-, -, rfl⟩ | ⟨-, c, -, rfl⟩ <;> rfl
  have hs' : s'.implementations = s₂.implementations := by
    rw [(onAssembly_run hbody).2]
  rw [hs']
  cases himpl : m.impl with
  | none =>
    rw [implement, himpl] at himplement
    cases himplement
    rw [hs₁]
    exact hs.append_none himpl
  | some p =>
    obtain ⟨ty, r⟩ := p
    obtain ⟨k, hk, -, rfl⟩ := implement_run himpl himplement
    have hfiles := hs.append_some himpl hk
    rwa [← hs₁] at hfiles

/-- All methods that are compiled are filed. -/
theorem mapM_compileMethod_files {methods done : List Method} {s s' : TypeState} {ms : List Binary.Method}
    (hs : s.implementations.Files done)
    (h : ((methods.zipIdx done.length).mapM fun (m, ind) => compileMethod currentTy (UInt32.ofNat ind) m) s =
      (.ok ms, s')) : s'.implementations.Files (done ++ methods) := by
  induction methods generalizing done s ms with
  | nil =>
    cases h
    rwa [List.append_nil]
  | cons m methods ih =>
    rw [List.zipIdx_cons] at h
    obtain ⟨bm, s₁, ms, hm, hrest, -⟩ := mapM_cons_eq_ok.1 h
    have hlen : (done ++ [m]).length = done.length + 1 := by simp
    rw [← hlen] at hrest
    have hfiles := ih (compileMethod_files hs hm) hrest
    rwa [List.append_assoc] at hfiles

/-- A compiled method has passed the check, and only the check counts it. -/
theorem compileMethod_checked {m : Method} {i : UInt32} {s s' : TypeState} {bm : Binary.Method}
    (h : compileMethod currentTy i m s = (.ok bm, s')) :
    ∃ s₁, checkIndex currentTy i m s = (.ok (), s₁) ∧ s'.overrideCount = s₁.overrideCount := by
  obtain ⟨_, s₁, hcheck, h⟩ := bind_eq_ok.1 h
  obtain ⟨_, s₂, himplement, hbody⟩ := bind_eq_ok.1 h
  refine ⟨s₁, hcheck, ?_⟩
  have hs₂ : s₂.overrideCount = s₁.overrideCount := by
    cases himpl : m.impl with
    | none =>
      rw [implement, himpl] at himplement
      cases himplement
      rfl
    | some p =>
      obtain ⟨k, -, -, rfl⟩ := implement_run himpl himplement
      rfl
  rw [(onAssembly_run hbody).2]
  exact hs₂

/-- Compiled methods have passed the check of their numbers. -/
theorem compileMethods_checked {methods : List Method} {a : Assembly} {s : TypeState} {ms : List Binary.Method}
    (h : compileMethods currentTy methods ⟨a, [], 0⟩ = (.ok ms, s)) :
    ((checkIndices currentTy methods).run a).1 = .ok () := by
  suffices hnum : ∀ (methods : List Method) (ind : Nat) (s s' : TypeState) (ms : List Binary.Method),
      ((methods.zipIdx ind).mapM fun (m, ind) => compileMethod currentTy (UInt32.ofNat ind) m) s = (.ok ms, s') →
        Numbered currentTy ind s.overrideCount methods from
    checkIndices_iff.2 (hnum methods 0 _ _ _ h)
  intro methods
  induction methods with
  | nil => exact fun _ _ _ _ _ => .nil
  | cons m methods ih =>
    intro ind s s' ms h
    rw [List.zipIdx_cons] at h
    obtain ⟨bm, s₂, ms, hm, hrest, -⟩ := mapM_cons_eq_ok.1 h
    obtain ⟨s₁, hcheck, hcount⟩ := compileMethod_checked hm
    refine numbered_cons_iff.2 ⟨s₁, hcheck, ?_⟩
    rw [← hcount]
    exact ih _ _ _ _ hrest

/-- The clauses of compiled methods name methods of their interfaces. -/
theorem compileMethods_lookup {methods : List Method} {s s' : TypeState} {ms : List Binary.Method}
    (h : compileMethods currentTy methods s = (.ok ms, s')) :
    ∀ m ∈ methods, ∀ ty r, m.impl = some (ty, r) → (r.index.lookup (resolveTypeReference ty) false).isSome := by
  intro m hm ty r himpl
  obtain ⟨i, hi⟩ := List.mem_iff_getElem?.1 hm
  obtain ⟨bm, -, s₁, s₂, hrun⟩ :=
    exists_of_forall₂ (forall₂_of_mapM h) (List.mk_mem_zipIdx_iff_getElem?.2 hi)
  obtain ⟨_, s₃, -, hrun⟩ := bind_eq_ok.1 hrun
  obtain ⟨_, s₄, himplement, -⟩ := bind_eq_ok.1 hrun
  obtain ⟨k, hk, -⟩ := implement_run himpl himplement
  exact hk ▸ rfl

/-- What the head of a class is compiled from. -/
theorem compileClassHead_eq_ok {d : ClassDef} {a : Assembly} {s : TypeState}
    {mk : List Binary.InterfaceImplementation → Binary.ClassDef}
    (h : compileClassHead d ⟨a, [], 0⟩ = (.ok mk, s)) :
    a.Extends s.assembly ∧ s.implementations.Files d.methods ∧
      ((checkIndices d.toAbstract d.methods).run a).1 = .ok () ∧
      (∀ m ∈ d.methods, ∀ ty r, m.impl = some (ty, r) →
        (r.index.lookup (resolveTypeReference ty) false).isSome) ∧
      ∃ fields, YieldsBetween a s.assembly (d.fields.mapM compileField) fields ∧
        ∀ interfaces, (mk interfaces).fields = fields ∧ (mk interfaces).interfaces = interfaces := by
  obtain ⟨name, s₁, hname, h⟩ := bind_eq_ok.1 h
  obtain ⟨parent, s₂, hparent, h⟩ := bind_eq_ok.1 h
  obtain ⟨methodTable, s₃, hmethods, h⟩ := bind_eq_ok.1 h
  obtain ⟨fields, s₄, hfields, h⟩ := bind_eq_ok.1 h
  cases h
  obtain ⟨hname, hs₁⟩ := onAssembly_run hname
  obtain ⟨hparent, hs₂⟩ := onAssembly_run hparent
  obtain ⟨hfields, hs₄⟩ := onAssembly_run hfields
  have hext₁ : a.Extends s₁.assembly := (addString_keeps _).of_run hname
  have hext₂ : s₁.assembly.Extends s₂.assembly := (Keeps.optionMapM compileTypeReference_keeps).of_run hparent
  have hext₃ : s₂.assembly.Extends s₃.assembly :=
    (Keeps.mapM (R := onTables Assembly.Extends) fun _ _ => compileMethod_keeps _).of_run hmethods
  have hext₄ : s₃.assembly.Extends s.assembly := (Keeps.mapM fun f _ => compileField_keeps f).of_run hfields
  -- the methods start with no tables and no overriding methods
  obtain ⟨a₂, rfl⟩ : ∃ a₂, s₂ = ⟨a₂, [], 0⟩ := ⟨s₂.assembly, by rw [hs₂, hs₁]⟩
  have hext := (hext₁.trans hext₂).trans hext₃
  refine ⟨hext.trans hext₄, ?_, ?_, compileMethods_lookup hmethods, fields, ⟨_, _, hext, hfields, .refl _⟩,
    fun interfaces => ⟨rfl, rfl⟩⟩
  · have hnil : (⟨a₂, [], 0⟩ : TypeState).implementations.Files [] := Implementations.Files.nil
    have hfiles := mapM_compileMethod_files hnil hmethods
    rw [hs₄]
    exact hfiles
  · rw [checkIndices_iff]
    exact checkIndices_iff.1 (compileMethods_checked hmethods)

/-! ### Definitions -/

/-- The definition a type is compiled to. -/
def compileDefinition (order : EntryOrder) : TypeDef → Builder Binary.TypeDef
  | .class d => .class <$> compileClass order d
  | .struct d => .struct <$> compileStruct d
  | .interface d => .interface <$> compileInterface d

theorem compileType_eq (order : EntryOrder) (t : TypeDef) :
    compileType order t = compileDefinition order t >>= pushTypeDef := by
  cases t <;> simp only [compileType, compileDefinition, map_eq_pure_bind, bind_assoc, pure_bind]

theorem compileDefinition_keeps {R : Assembly → Assembly → Prop} [Growing R] (order : EntryOrder) (t : TypeDef) :
    Keeps R (compileDefinition order t) := by
  cases t with
  | «class» d => exact (compileClass_keeps order d).map _
  | struct d => exact (compileStruct_keeps d).map _
  | interface d => exact (compileInterface_keeps d).map _

/-- The fields of a definition are those of the type, in their order. -/
theorem compileDefinition_fields {order : EntryOrder} {t : TypeDef} {a a' : Assembly} {bt : Binary.TypeDef}
    (h : compileDefinition order t a = (.ok bt, a')) :
    YieldsBetween a a' (t.fields.mapM compileField) bt.fields := by
  cases t with
  | «class» d =>
    obtain ⟨bd, hd, rfl⟩ := map_eq_ok.1 h
    obtain ⟨mk, s, hhead, interfaces, hinterfaces, rfl⟩ := compileClass_eq_ok.1 hd
    obtain ⟨-, -, -, -, fields, hfields, hmk⟩ := compileClassHead_eq_ok hhead
    have hext := (Keeps.mapM (R := Assembly.Extends) fun e _ => compileImplementation_keeps e).of_run hinterfaces
    have hyields := hfields.mono (.refl _) hext
    rwa [← (hmk interfaces).1] at hyields
  | struct d =>
    obtain ⟨bd, hd, rfl⟩ := map_eq_ok.1 h
    obtain ⟨name, a₁, hname, hd⟩ := bind_eq_ok.1 hd
    obtain ⟨methodTable, a₂, hmethods, hd⟩ := bind_eq_ok.1 hd
    obtain ⟨fields, a₃, hfields, hd⟩ := bind_eq_ok.1 hd
    cases hd
    have hext₁ := (addString_keeps (R := Assembly.Extends) _).of_run hname
    have hext₂ := (compileMethodsAlone_keeps (R := Assembly.Extends) _).of_run hmethods
    exact ⟨_, _, hext₁.trans hext₂, hfields, .refl _⟩
  | interface d =>
    obtain ⟨bd, hd, rfl⟩ := map_eq_ok.1 h
    exact ⟨a, a, .refl _, rfl, (compileInterface_keeps d).of_run hd⟩

/-- The tables of a class are those of the interfaces its methods implement. -/
theorem compileClass_tables {order : EntryOrder} {d : ClassDef} {a a' : Assembly} {bd : Binary.ClassDef}
    (h : compileClass order d a = (.ok bd, a')) : ∃ tables : Implementations, tables.Files d.methods ∧
      (∀ m ∈ d.methods, ∀ ty r, m.impl = some (ty, r) →
        (r.index.lookup (resolveTypeReference ty) false).isSome) ∧
      YieldsBetween a a' ((order.entries tables).mapM compileImplementation) bd.interfaces := by
  obtain ⟨mk, s, hhead, interfaces, hinterfaces, rfl⟩ := compileClass_eq_ok.1 h
  obtain ⟨hext, hfiles, -, hlookup, fields, -, hmk⟩ := compileClassHead_eq_ok hhead
  refine ⟨s.implementations, hfiles, hlookup, s.assembly, a', hext, ?_, .refl _⟩
  rw [(hmk interfaces).2]
  exact hinterfaces

/-! ### The build -/

/-- Two assemblies with the same definitions. -/
def SameDefinitions (a b : Assembly) : Prop := a.typeDefs = b.typeDefs

omit [CompilerService] in
instance : Growing SameDefinitions where
  refl _ := rfl
  trans _ _ _ := Eq.trans
  addString _ _ := rfl
  addTypeRef _ _ := rfl
  pushTypeSpec _ _ := rfl
  pushMethodSpec _ _ := rfl

/-- The definitions `bts` are compiled from `types`, which stand at the places from `start` on, on the way from `a`
to `a'`, and the types have the numbers of their places. -/
def CompiledFrom (orders : Nat → EntryOrder) (lastIndex : UInt32) (a a' : Assembly) (start : Nat)
    (types : List TypeDef) (bts : List Binary.TypeDef) : Prop :=
  bts.length = types.length ∧ ∀ i t, types[i]? = some t →
    checkedAdd (UInt32.ofNat (start + i)) lastIndex = some t.index ∧
      ∃ bt, bts[i]? = some bt ∧ YieldsBetween a a' (compileDefinition (orders (start + i)) t) bt

omit [CompilerService] [AssemblyBuilder] in
private theorem checkTypeIndex_eq_ok {lastIndex : UInt32} {ind : Nat} {t : TypeDef} {a a' : Assembly}
    (h : checkTypeIndex lastIndex ind t a = (.ok (), a')) :
    checkedAdd (UInt32.ofNat ind) lastIndex = some t.index ∧ a' = a := by
  obtain ⟨expected, a₁, hexpected, hcompare⟩ := bind_eq_ok.1 h
  obtain ⟨hsum, ha₁⟩ := unwrap_eq_ok.1 hexpected
  split at hcompare
  · rename_i heq
    cases hcompare
    exact ⟨heq ▸ hsum, ha₁⟩
  · cases hcompare

private theorem build_run {orders : Nat → EntryOrder} {lastIndex : UInt32} {types : List TypeDef} {start : Nat}
    {a a' : Assembly} (h : ((types.zipIdx start).forM fun (ty, ind) => do
      checkTypeIndex lastIndex ind ty
      compileType (orders ind) ty) a = (.ok (), a')) :
    a.Extends a' ∧ ∃ bts, a'.typeDefs = a.typeDefs ++ bts ∧
        CompiledFrom orders lastIndex a a' start types bts := by
  induction types generalizing start a with
  | nil =>
    cases h
    exact ⟨.refl _, [], by simp, rfl, by simp⟩
  | cons t types ih =>
    rw [List.zipIdx_cons] at h
    obtain ⟨a₂, hfirst, hrest⟩ := forM_cons_eq_ok.1 h
    obtain ⟨_, a₁, hcheck, hcompile⟩ := bind_eq_ok.1 hfirst
    obtain ⟨hindex, ha₁⟩ := checkTypeIndex_eq_ok hcheck
    rw [compileType_eq, ha₁] at hcompile
    obtain ⟨bt, a₁, hbt, hpush⟩ := bind_eq_ok.1 hcompile
    -- only the push changes the definitions, and it changes nothing else
    have hsame : a.typeDefs = a₁.typeDefs := (compileDefinition_keeps (R := SameDefinitions) _ t).of_run hbt
    have hext : a.Extends a₁ := (compileDefinition_keeps _ t).of_run hbt
    obtain rfl : a₂ = { a₁ with typeDefs := a₁.typeDefs ++ [bt] } := by
      cases hpush
      rfl
    have hpush : a₁.Extends { a₁ with typeDefs := a₁.typeDefs ++ [bt] } :=
      ⟨List.prefix_refl _, List.prefix_refl _, List.prefix_refl _, List.prefix_refl _⟩
    obtain ⟨hext', bts, hbts, hlen, hcompiled⟩ := ih hrest
    refine ⟨(hext.trans hpush).trans hext', bt :: bts, ?_, by simp [hlen], fun i t' ht' => ?_⟩
    · rw [hbts, hsame, List.append_assoc]
      rfl
    · cases i with
      | zero =>
        obtain rfl : t = t' := by simpa using ht'
        exact ⟨hindex, bt, rfl, a, a₁, .refl _, hbt, hpush.trans hext'⟩
      | succ i =>
        rw [List.getElem?_cons_succ] at ht'
        obtain ⟨hindex', bt', hbt', hyields⟩ := hcompiled i t' ht'
        rw [Nat.add_right_comm] at hindex' hyields
        exact ⟨hindex', bt', hbt', hyields.mono (hext.trans hpush) (.refl _)⟩

/-- A successful build puts the definitions compiled from the types behind those that are there. -/
theorem Compiler.buildImpl_run {orders : Nat → EntryOrder} {c : Compiler} {a a' : Assembly}
    (h : c.buildImpl orders a = (.ok (), a')) : a.Extends a' ∧ ∃ bts, a'.typeDefs = a.typeDefs ++ bts ∧
      CompiledFrom orders (c.lastIndex.getD 0) a a' 0 c.file.types bts :=
  build_run h

/-- The definition of a type stands at its place behind those that were there. -/
theorem Compiler.buildImpl_get {orders : Nat → EntryOrder} {c : Compiler} {a a' : Assembly}
    (h : c.buildImpl orders a = (.ok (), a')) {i : Nat} {t : TypeDef} (ht : c.file.types[i]? = some t) :
    ∃ bt, a'.typeDefs[a.typeDefs.length + i]? = some bt ∧
      YieldsBetween a a' (compileDefinition (orders i) t) bt := by
  obtain ⟨-, bts, hbts, -, hcompiled⟩ := Compiler.buildImpl_run h
  obtain ⟨-, bt, hbt, hyields⟩ := hcompiled i t ht
  rw [Nat.zero_add] at hyields
  refine ⟨bt, ?_, hyields⟩
  rw [hbts, List.getElem?_append_right (by omega), Nat.add_sub_cancel_left, hbt]

end Parts

end PuralinguaIR
