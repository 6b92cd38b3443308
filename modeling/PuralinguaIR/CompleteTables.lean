import PuralinguaIR.Buildable
import PuralinguaIR.ExceptionRanges

/-!
# Complete tables

A class has one table for each interface whose methods its methods implement. A class whose references resolve
and whose methods have the right numbers is built, with a complete table for an interface, exactly when every
method that implements a method of an interface implements its method `0`, no statement loads a character, a
byte or a byte string, and no relative location of an exception table leaves 64 bits
(`compileClass_tables_iff`).
-/

namespace PuralinguaIR

open Effect Effect.Prog

section Complete

variable [CompilerService]

/-! ### References of a class -/

/-- A statement that loads no character, byte or byte string. -/
def Statement.Loadable : Statement → Prop
  | load content _ => ¬content.Unloadable
  | _ => True

/-- All references of a method have a meaning, and it implements a method of an interface without type
arguments. -/
structure Method.ReferencesResolve (currentTy : TypeInformation) (m : Method) : Prop where
  header : m.HeaderResolves
  impl : ∀ ty r, m.impl = some (ty, r) →
    ty.Resolves ∧ r.generics = [] ∧ (r.index.lookup (resolveTypeReference ty) false).isSome
  locals : ∀ s ∈ m.statements, ∀ x ∈ s.operands, x ∈ m.locals
  -- a character, a byte or a byte string holds no reference
  statements : ∀ s ∈ m.statements, s.Loadable → s.ReferencesResolve currentTy m
  exceptionTable : ∀ e ∈ m.exceptionTable, e.ReferencesResolve

/-- All references of a class have a meaning, and its methods have the right numbers. -/
structure ClassDef.ReferencesResolve (d : ClassDef) : Prop where
  parent : ∀ r ∈ d.parent, r.Resolves
  numbered : Numbered d.toAbstract 0 0 d.methods
  methods : ∀ m ∈ d.methods, m.ReferencesResolve d.toAbstract
  fields : ∀ f ∈ d.fields, f.ty.Resolves

/-- All contents of a method can be loaded, and the sums of its exception table are machine words. -/
structure Method.Representable (m : Method) : Prop where
  statements : ∀ s ∈ m.statements, s.Loadable
  exceptionTable : ∀ e ∈ m.exceptionTable, e.Fits

theorem Statement.ReferencesResolve.loadable {currentTy : TypeInformation} {m : Method} {s : Statement}
    (h : s.ReferencesResolve currentTy m) : s.Loadable := by
  cases s with
  | load content var => cases content <;> first | exact id | exact absurd h id
  | _ => trivial

theorem ExceptionTableEntry.Resolves.fits {e : ExceptionTableEntry} (h : e.Resolves) : e.Fits :=
  ⟨h.tryEnd, h.catch, h.finally, h.fault⟩

theorem Method.ReferencesResolve.resolves_iff {currentTy : TypeInformation} {m : Method}
    (h : m.ReferencesResolve currentTy) : m.Resolves currentTy ↔ m.Representable := by
  constructor
  · intro hm
    exact ⟨fun s hs => (hm.statements s hs).2.loadable, fun e he => (hm.exceptionTable e he).fits⟩
  · rintro ⟨hstatements, hfits⟩
    refine ⟨h.header.localTypes, h.header.args, h.header.returnType, h.impl, fun s hs => ?_, fun e he => ?_⟩
    · exact ⟨h.locals s hs, h.statements s hs (hstatements s hs)⟩
    · exact (h.exceptionTable e he).resolves (hfits e he)

/-- A class whose references resolve can be built when its tables can be written out and its methods have
nothing that cannot be compiled. -/
theorem ClassDef.ReferencesResolve.buildable_iff {d : ClassDef} (hd : d.ReferencesResolve) :
    d.Buildable ↔ (∀ m ∈ d.methods, ∀ ty r, m.impl = some (ty, r) →
      r.index.lookup (resolveTypeReference ty) false = some 0) ∧ ∀ m ∈ d.methods, m.Representable := by
  constructor
  · intro h
    exact ⟨h.tables, fun m hm => (hd.methods m hm).resolves_iff.1 (h.methods m hm)⟩
  · rintro ⟨hfirst, hmethods⟩
    have hresolves : ∀ m ∈ d.methods, m.Resolves d.toAbstract := fun m hm =>
      (hd.methods m hm).resolves_iff.2 (hmethods m hm)
    exact ⟨⟨hd.parent, hd.numbered, hresolves, hd.fields⟩, hfirst⟩

/-! ### The table of an interface -/

/-- If the slots `0`, …, `n - 1` are implemented, each once, and no other than `0` is, there is one entry. -/
private theorem implementing_single {methods : List Method} {interface : TypeReference} {n : Nat} (hn : 0 < n)
    (hslots : ((implementing interface methods).map fun e => e.1.toNat).Perm (List.range n))
    (hzero : ∀ e ∈ implementing interface methods, e.1 = 0) :
    n = 1 ∧ ∃ e, implementing interface methods = [e] := by
  have hone : n = 1 := by
    by_contra hne
    have hmem : 1 ∈ (implementing interface methods).map fun e => e.1.toNat :=
      hslots.mem_iff.2 (List.mem_range.2 (by omega))
    obtain ⟨e, he, hone⟩ := List.mem_map.1 hmem
    rw [hzero e he] at hone
    cases hone
  refine ⟨hone, List.length_eq_one_iff.1 ?_⟩
  have hlen := hslots.length_eq
  rwa [List.length_map, List.length_range, hone] at hlen

variable [AssemblyBuilder]

/-- In the run of `compileClass` from `a` to `a'`, `table` is what the table of the interface is written out to: it
stands at the place of the interface among the tables that the methods have been filed in. -/
def ClassDef.EmitsTable (order : EntryOrder) (d : ClassDef) (a a' : Assembly) (bd : Binary.ClassDef)
    (interface : TypeReference) (table : Binary.InterfaceImplementation) : Prop :=
  ∃ mk s, compileClassHead d ⟨a, [], 0⟩ = (.ok mk, s) ∧ ∃ (i : Nat) (map : SortedMap UInt32 UInt32),
    (order.entries s.implementations)[i]? = some (interface, map) ∧ bd.interfaces[i]? = some table ∧
      YieldsBetween s.assembly a' (compileImplementation (interface, map)) table

/-- Every entry of a table that is filed is written out at its place. -/
theorem compileClass_emitsTable {order : EntryOrder} {d : ClassDef} {a a' : Assembly} {bd : Binary.ClassDef}
    (h : compileClass order d a = (.ok bd, a')) {interface : TypeReference}
    (himpl : implementing interface d.methods ≠ []) :
    ∃ table, d.EmitsTable order a a' bd interface table ∧
      table.map = (SortedMap.empty.insertAll (implementing interface d.methods)).entries.map Prod.snd := by
  obtain ⟨mk, s, hhead, interfaces, hinterfaces, rfl⟩ := compileClass_eq_ok.1 h
  obtain ⟨-, hfiles, -, -, fields, -, hmk⟩ := compileClassHead_eq_ok hhead
  have hmem : (interface, SortedMap.empty.insertAll (implementing interface d.methods)) ∈
      order.entries s.implementations :=
    (order.entries_perm _).mem_iff.2 ((hfiles.mem_iff _ _).2 ⟨himpl, rfl⟩)
  obtain ⟨i, hi⟩ := List.mem_iff_getElem?.1 hmem
  have hyields : YieldsBetween s.assembly a' ((order.entries s.implementations).mapM compileImplementation)
      interfaces := ⟨_, _, .refl _, hinterfaces, .refl _⟩
  have hall := hyields.mapM fun e _ => compileImplementation_keeps e
  obtain ⟨hlt, hget⟩ := List.getElem?_eq_some_iff.1 hi
  have hlt' : i < interfaces.length := hall.length_eq ▸ hlt
  have htable : YieldsBetween s.assembly a' (compileImplementation (order.entries s.implementations)[i])
      interfaces[i] := (hall.get hlt hlt').2
  rw [hget] at htable
  refine ⟨interfaces[i], ⟨mk, s, hhead, i, _, hi, ?_, htable⟩, ?_⟩
  · rw [(hmk interfaces).2]
    exact List.getElem?_eq_getElem hlt'
  · obtain ⟨s₁, s₂, -, hrun, -⟩ := htable
    exact (compileImplementation_eq_ok hrun).2.1

/-- For a class whose references resolve, whose methods have the right numbers, and which implements the methods
`0`, …, `n - 1` of an interface, each once: it is built and the table of the interface is complete exactly when
every method of the class that implements a method of any interface implements its method `0`, no method loads a
character, a byte or a byte string, and the sums of their exception tables are machine words. -/
theorem compileClass_tables_iff {d : ClassDef} (hd : d.ReferencesResolve) {interface : TypeReference} {n : Nat}
    (hn : 0 < n) (hslots : ((implementing interface d.methods).map fun e => e.1.toNat).Perm (List.range n))
    (order : EntryOrder) (a : Assembly) :
    (∃ bd a', compileClass order d a = (.ok bd, a') ∧ ∃ table, d.EmitsTable order a a' bd interface table ∧
      table.map.length = n ∧ ∀ i < n, ∃ m ∈ d.methods, ∃ r, m.impl = some (interface, r) ∧
        r.index.lookup (resolveTypeReference interface) false = some (UInt32.ofNat i) ∧
          table.map[i]? = some m.index) ↔
      (∀ m ∈ d.methods, ∀ ty r, m.impl = some (ty, r) → r.index.lookup (resolveTypeReference ty) false = some 0) ∧
        ∀ m ∈ d.methods, m.Representable := by
  rw [← hd.buildable_iff]
  constructor
  · rintro ⟨bd, a', hbd, -⟩
    exact (compileClass_ok order d).of_run hbd
  · intro hbuildable
    obtain ⟨bd, a', hbd⟩ := (compileClass_ok order d a).2 hbuildable
    have hkeys : ∀ e ∈ implementing interface d.methods, e.1 = 0 := by
      intro e he
      obtain ⟨m, hm, r, himpl, hk, -⟩ := mem_implementing.1 he
      exact Option.some.inj (hk.symm.trans (hbuildable.tables m hm interface r himpl))
    -- all slots are `0`, so there is one method and one entry in the table
    obtain ⟨rfl, ⟨k, v⟩, hsingle⟩ := implementing_single hn hslots hkeys
    have hne : implementing interface d.methods ≠ [] := by simp [hsingle]
    obtain ⟨table, hemits, hmap⟩ := compileClass_emitsTable hbd hne
    rw [hsingle] at hmap
    have hmap : table.map = [v] := hmap
    refine ⟨bd, a', hbd, table, hemits, by rw [hmap]; rfl, fun i hi => ?_⟩
    -- the only slot is that of the one method that implements the interface
    obtain rfl : i = 0 := by omega
    have hentry : (k, v) ∈ implementing interface d.methods := by simp [hsingle]
    obtain ⟨m, hm, r, himpl, -, hindex⟩ := mem_implementing.1 hentry
    exact ⟨m, hm, r, himpl, hbuildable.tables m hm interface r himpl, by rw [hmap, hindex]; rfl⟩

end Complete

/-! ### Classes that implement an interface of two methods -/

/-- The interface `I`. -/
private def twoSlots : TypeInformation := declaring "I" 0 .interface [("m", 0), ("n", 1)]

private def typeI : TypeReference := .common "A" "I" none []

/-- A method that implements the method of its name of the interface `I`. -/
private def slotMethod (name : String) (index : UInt32) : Method :=
  ⟨⟨.public, false, false, none, []⟩, .platformDefault, index, ⟨name⟩, [], false, [], typeI,
    some (typeI, ⟨.byName ⟨name⟩, []⟩), [], [], []⟩

/-- A method that implements nothing, with a statement and a handler. -/
private def loadMethod (index : UInt32) : Method :=
  ⟨⟨.public, false, false, none, [typeI]⟩, .platformDefault, index, ⟨"load"⟩, [], false, [], typeI, none, [⟨"x"⟩],
    [⟨1, ⟨true, 2⟩, typeI, none, (⟨false, 3⟩, ⟨false, 4⟩), none, none⟩], [.load (.u8 5) ⟨"x"⟩]⟩

private def classOf (methods : List Method) : ClassDef :=
  ⟨⟨.public, .class false false⟩, 1, none, ⟨"C"⟩, [], false, none, methods, []⟩

private theorem typeI_resolves : @TypeReference.Resolves (serviceOf [twoSlots]) typeI := by
  unfold TypeReference.Resolves
  decide

private theorem slotMethod_resolves {name : String} (h : name = "m" ∨ name = "n") (index : UInt32)
    (currentTy : TypeInformation) :
    @Method.ReferencesResolve (serviceOf [twoSlots]) currentTy (slotMethod name index) := by
  let _ := serviceOf [twoSlots]
  refine ⟨⟨by simp [slotMethod], by simp [slotMethod], typeI_resolves⟩,
    ?_, by simp [slotMethod], by simp [slotMethod], by simp [slotMethod]⟩
  intro ty r himpl
  cases himpl
  refine ⟨typeI_resolves, rfl, ?_⟩
  rcases h with rfl | rfl <;> decide

private theorem loadMethod_resolves (index : UInt32) (currentTy : TypeInformation) :
    @Method.ReferencesResolve (serviceOf [twoSlots]) currentTy (loadMethod index) := by
  let _ := serviceOf [twoSlots]
  refine ⟨⟨by simp [loadMethod, typeI_resolves], by simp [loadMethod], typeI_resolves⟩, by simp [loadMethod],
    ?_, ?_, ?_⟩
  · simp [loadMethod, Statement.operands, LoadableContent.operands]
  · simp [loadMethod, Statement.ReferencesResolve, LoadableContent.Resolves]
  · simp only [loadMethod, List.forall_mem_singleton]
    exact ⟨typeI_resolves, by simp⟩

/-- A class that implements only the first method of the interface, between two others, is built and its table is
complete. -/
theorem compileClass_tables_iff_first :
    let _ := serviceOf [twoSlots]
    let _ := internBuilder
    let d := classOf [loadMethod 0, slotMethod "m" 1, loadMethod 2]
    ∃ bd a', compileClass .same d ⟨[], [], [], [], []⟩ = (.ok bd, a') ∧
      ∃ table, d.EmitsTable .same ⟨[], [], [], [], []⟩ a' bd typeI table ∧ table.map.length = 1 ∧
        ∀ i < 1, ∃ m ∈ d.methods, ∃ r, m.impl = some (typeI, r) ∧
          r.index.lookup (resolveTypeReference typeI) false = some (UInt32.ofNat i) ∧
              table.map[i]? = some m.index := by
  intro _ _ d
  have hmem : ∀ m ∈ d.methods, m = loadMethod 0 ∨ m = slotMethod "m" 1 ∨ m = loadMethod 2 := by
    simp [d, classOf]
  have hd : d.ReferencesResolve := by
    refine ⟨by simp [d, classOf], .own rfl (by decide) (.own rfl (by decide) (.own rfl (by decide) .nil)), ?_,
      by simp [d, classOf]⟩
    intro m hm
    rcases hmem m hm with rfl | rfl | rfl
    · exact loadMethod_resolves _ _
    · exact slotMethod_resolves (Or.inl rfl) _ _
    · exact loadMethod_resolves _ _
  have hload (index : UInt32) : (loadMethod index).Representable := by
    constructor
    · simp [loadMethod, Statement.Loadable, LoadableContent.Unloadable]
    · simp only [loadMethod, List.forall_mem_singleton]
      constructor <;> simp [rangeResolves, ExceptionLoc.Resolves]
  refine (compileClass_tables_iff hd (by decide) (by decide) .same ⟨[], [], [], [], []⟩).2 ⟨?_, ?_⟩
  · intro m hm ty r himpl
    rcases hmem m hm with rfl | rfl | rfl
    · cases himpl
    · cases himpl
      decide
    · cases himpl
  · intro m hm
    rcases hmem m hm with rfl | rfl | rfl
    · exact hload 0
    · exact ⟨by simp [slotMethod], by simp [slotMethod]⟩
    · exact hload 2

/-- A class that implements both methods of the interface, in their order, is not built. -/
theorem compileClass_tables_both :
    let _ := serviceOf [twoSlots]
    let _ := internBuilder
    let d := classOf [slotMethod "m" 0, slotMethod "n" 1]
    d.ReferencesResolve ∧ ((implementing typeI d.methods).map fun e => e.1.toNat).Perm (List.range 2) ∧
      (∀ m ∈ d.methods, m.Representable) ∧ (compileClass .same d ⟨[], [], [], [], []⟩).1 = .panic := by
  intro _ _ d
  refine ⟨⟨by simp [d, classOf], .own rfl (by decide) (.own rfl (by decide) .nil), ?_, by simp [d, classOf]⟩,
    by decide, ?_, by decide +kernel⟩
  · intro m hm
    rcases List.mem_cons.1 hm with rfl | hm
    · exact slotMethod_resolves (Or.inl rfl) _ _
    · obtain rfl := List.mem_singleton.1 hm
      exact slotMethod_resolves (Or.inr rfl) _ _
  · intro m hm
    rcases List.mem_cons.1 hm with rfl | hm
    · exact ⟨by simp [slotMethod], by simp [slotMethod]⟩
    · obtain rfl := List.mem_singleton.1 hm
      exact ⟨by simp [slotMethod], by simp [slotMethod]⟩

end PuralinguaIR
