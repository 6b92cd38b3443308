import PuralinguaIR.Buildable

/-!
# The numbers of new methods

The methods of a class are checked with one count of overriding methods, those of a struct or an interface each
with a count of its own. With a shared count the new methods of a class, those that override nothing, have
passed the check exactly when they are numbered one after the other (`checkIndices_class`), and so a class is
compiled only with such methods (`compileClass_numbers_iff`). Without it a new method must have the number of
its place, so the arms of the build for structs and interfaces agree with that for classes only when no
overriding method stands before a new one, or when all of them refuse the methods
(`compileStruct_iff_compileClass`).
-/

namespace PuralinguaIR

open Effect Effect.Prog

/-- The methods that override nothing. -/
def newMethods (methods : List Method) : List Method := methods.filter (·.attr.overrides.isNone)

/-- The number of methods that override one. -/
def overridingCount (methods : List Method) : Nat := methods.countP (·.attr.overrides.isSome)

/-! ### New and overriding methods -/

theorem newMethods_cons_new {m : Method} (h : m.attr.overrides = none) (methods : List Method) :
    newMethods (m :: methods) = m :: newMethods methods := by
  simp [newMethods, h]

theorem newMethods_cons_overriding {m : Method} {slot : UInt32} (h : m.attr.overrides = some slot)
    (methods : List Method) : newMethods (m :: methods) = newMethods methods := by
  simp [newMethods, h]

theorem overridingCount_cons_new {m : Method} (h : m.attr.overrides = none) (methods : List Method) :
    overridingCount (m :: methods) = overridingCount methods := by
  simp [overridingCount, h]

theorem overridingCount_cons_overriding {m : Method} {slot : UInt32} (h : m.attr.overrides = some slot)
    (methods : List Method) : overridingCount (m :: methods) = overridingCount methods + 1 := by
  simp [overridingCount, h]

theorem overridingCount_cons (m : Method) (methods : List Method) :
    overridingCount (m :: methods) = overridingCount [m] + overridingCount methods := by
  simp [overridingCount, List.countP_cons, Nat.add_comm]

theorem length_newMethods_add (methods : List Method) :
    (newMethods methods).length + overridingCount methods = methods.length := by
  induction methods with
  | nil => rfl
  | cons m methods ih =>
    cases hover : m.attr.overrides with
    | none =>
      rw [newMethods_cons_new hover, overridingCount_cons_new hover, List.length_cons, List.length_cons]
      omega
    | some slot =>
      rw [newMethods_cons_overriding hover, overridingCount_cons_overriding hover, List.length_cons]
      omega

/-- `p` holds of every new method and the methods before it. -/
def AtNewMethods (p : List Method → Method → Prop) (methods : List Method) : Prop :=
  ∀ before m after, methods = before ++ m :: after → m.attr.overrides = none → p before m

theorem atNewMethods_nil (p : List Method → Method → Prop) : AtNewMethods p [] := by
  intro before m after h
  simp at h

/-- New methods of a list that begins with `x`. -/
theorem atNewMethods_cons_iff {p : List Method → Method → Prop} {x : Method} {methods : List Method} :
    AtNewMethods p (x :: methods) ↔
      (x.attr.overrides = none → p [] x) ∧ AtNewMethods (fun before m => p (x :: before) m) methods := by
  constructor
  · intro h
    exact ⟨h [] x methods rfl, fun before m after hsplit => h (x :: before) m after (by rw [hsplit]; rfl)⟩
  · rintro ⟨hx, hrest⟩ before m after hsplit hnew
    cases before with
    | nil =>
      obtain ⟨rfl, -⟩ := List.cons.inj hsplit
      exact hx hnew
    | cons y before =>
      obtain ⟨rfl, hsplit'⟩ := List.cons.inj hsplit
      exact hrest before m after hsplit' hnew

theorem atNewMethods_congr {p q : List Method → Method → Prop} (h : ∀ before m, p before m ↔ q before m)
    (methods : List Method) : AtNewMethods p methods ↔ AtNewMethods q methods := by
  rw [show p = q from funext fun before => funext fun m => propext (h before m)]

/-- The new methods are numbered from `base` on when each has `base` and the number of new methods before it. -/
theorem atNewMethods_consecutive_iff {methods : List Method} {base : Nat} :
    AtNewMethods (fun before m => m.index.toNat = base + (newMethods before).length) methods ↔
      (newMethods methods).map (·.index.toNat) = List.range' base (newMethods methods).length := by
  induction methods generalizing base with
  | nil => exact iff_of_true (atNewMethods_nil _) rfl
  | cons x methods ih =>
    rw [atNewMethods_cons_iff]
    cases hover : x.attr.overrides with
    | none =>
      simp only [newMethods_cons_new hover, List.map_cons, List.length_cons, List.range'_succ, List.cons.injEq]
      rw [← ih]
      refine and_congr (by simp [newMethods]) (atNewMethods_congr (fun before m => ?_) _)
      rw [Nat.add_right_comm, Nat.add_assoc]
    | some slot =>
      simp only [newMethods_cons_overriding hover, reduceCtorEq, false_implies, true_and]
      exact ih

section Checks

variable [CompilerService] {currentTy : TypeInformation}

/-! ### One count for all methods -/

/-- Methods are numbered when the expected numbers are known: `place i` is that of the place `i` before the
overriding methods are taken off. -/
theorem numbered_iff {place : Nat → Nat} {methods : List Method} {ind : Nat} {c : UInt32}
    (hplace : ∀ i, ind ≤ i → i < ind + methods.length → ∀ c k : UInt32,
      expectedIndex currentTy (UInt32.ofNat i) c = some k ↔ k.toNat + c.toNat = place i) :
    Numbered currentTy ind c methods ↔ c.toNat + overridingCount methods < 2 ^ 32 ∧
      AtNewMethods (fun before m => m.index.toNat + (c.toNat + overridingCount before) =
        place (ind + before.length)) methods := by
  induction methods generalizing ind c with
  | nil => exact iff_of_true .nil ⟨c.toNat_lt, atNewMethods_nil _⟩
  | cons m methods ih =>
    have hrest : ∀ i, ind + 1 ≤ i → i < ind + 1 + methods.length → ∀ c k : UInt32,
        expectedIndex currentTy (UInt32.ofNat i) c = some k ↔ k.toNat + c.toNat = place i :=
      fun i h₁ h₂ => hplace i (by omega) (by rw [List.length_cons]; omega)
    have hfirst := hplace ind (Nat.le_refl _) (by simp)
    rw [atNewMethods_cons_iff]
    cases hover : m.attr.overrides with
    | none =>
      have hiff : Numbered currentTy ind c (m :: methods) ↔
          expectedIndex currentTy (UInt32.ofNat ind) c = some m.index ∧
              Numbered currentTy (ind + 1) c methods := by
        constructor
        · intro h
          cases h with
          | own _ hindex hnum => exact ⟨hindex, hnum⟩
          | override hslot => exact absurd (hslot.symm.trans hover) (by simp)
        · exact fun h => .own hover h.1 h.2
      rw [hiff, ih hrest, hfirst, overridingCount_cons_new hover, and_left_comm]
      refine and_congr_right fun _ => and_congr (by simp [overridingCount]) (atNewMethods_congr ?_ _)
      intro before x
      rw [overridingCount_cons_new hover, List.length_cons, Nat.add_assoc, Nat.add_comm 1]
    | some slot =>
      have hiff : Numbered currentTy ind c (m :: methods) ↔
          ∃ c', checkedAdd c 1 = some c' ∧ Numbered currentTy (ind + 1) c' methods := by
        constructor
        · intro h
          cases h with
          | own hnone => exact absurd (hnone.symm.trans hover) (by simp)
          | override _ hcount hnum => exact ⟨_, hcount, hnum⟩
        · exact fun ⟨c', hcount, hnum⟩ => .override hover hcount hnum
      -- the count goes up by one, and so does the number of overriding methods before each of the others
      have hcongr (c' : UInt32) (hc' : c'.toNat = c.toNat + 1) :
          AtNewMethods (fun before x => x.index.toNat + (c'.toNat + overridingCount before) =
              place (ind + 1 + before.length)) methods ↔
            AtNewMethods (fun before x => x.index.toNat + (c.toNat + overridingCount (m :: before)) =
              place (ind + (m :: before).length)) methods := by
        refine atNewMethods_congr (fun before x => ?_) _
        rw [overridingCount_cons_overriding hover, List.length_cons, hc', Nat.add_right_comm c.toNat,
          Nat.add_assoc c.toNat, Nat.add_assoc ind, Nat.add_comm 1]
      simp only [hiff, ih hrest, overridingCount_cons_overriding hover, reduceCtorEq, false_implies, true_and]
      simp only [← overridingCount_cons_overriding hover]
      constructor
      · rintro ⟨c', hcount, hlt, hall⟩
        have hc' : c'.toNat = c.toNat + 1 := checkedAdd_eq_some hcount
        exact ⟨by rw [overridingCount_cons_overriding hover]; omega, (hcongr c' hc').1 hall⟩
      · rintro ⟨hlt, hall⟩
        rw [overridingCount_cons_overriding hover] at hlt
        have hsum : c.toNat + (1 : UInt32).toNat < 2 ^ 32 := by
          rw [show (1 : UInt32).toNat = 1 from rfl]
          omega
        have hcount : checkedAdd c 1 = some (c + 1) := if_pos hsum
        have hc' : (c + 1).toNat = c.toNat + 1 := checkedAdd_eq_some hcount
        exact ⟨c + 1, hcount, by omega, (hcongr _ hc').2 hall⟩

/-- The number of the first new method: 0 without a parent, and otherwise one less than the number of methods the
parent is known to have. -/
inductive NumbersFrom (currentTy : TypeInformation) : Nat → Prop where
  | root : currentTy.parent = none → NumbersFrom currentTy 0
  | parent {r p base} : currentTy.parent = some r → resolveTypeReference r = some p → p.methods.length = base + 1 →
      p.methods.length < 2 ^ 31 → NumbersFrom currentTy base

omit [CompilerService] in
theorem checkedAdd_eq_some_iff {a b c : UInt32} : checkedAdd a b = some c ↔ c.toNat = a.toNat + b.toNat := by
  refine ⟨checkedAdd_eq_some, fun h => ?_⟩
  have hlt : a.toNat + b.toNat < 2 ^ 32 := h ▸ c.toNat_lt
  rw [checkedAdd, if_pos hlt, Option.some.injEq]
  apply UInt32.toNat_inj.1
  rw [UInt32.toNat_add, Nat.mod_eq_of_lt hlt, h]

omit [CompilerService] in
theorem checkedSub_eq_some_iff {a b c : UInt32} : checkedSub a b = some c ↔ c.toNat + b.toNat = a.toNat := by
  refine ⟨checkedSub_eq_some, fun h => ?_⟩
  have hle : b ≤ a := UInt32.le_iff_toNat_le.2 (by omega)
  rw [checkedSub, if_pos hle, Option.some.injEq]
  apply UInt32.toNat_inj.1
  rw [UInt32.toNat_sub_of_le _ _ hle]
  omega

/-- What is expected at a place of a type without parent. -/
theorem expectedIndex_root (hparent : currentTy.parent = none) {i c k : UInt32} :
    expectedIndex currentTy i c = some k ↔ k.toNat + c.toNat = i.toNat := by
  have hsum : checkedAdd i 0 = some i := by
    rw [checkedAdd, if_pos (by simpa using i.toNat_lt)]
    exact congrArg some (UInt32.add_zero i)
  rw [expectedIndex, hparent, ← checkedSub_eq_some_iff]
  simp only [Option.bind_eq_bind, Option.bind_some, hsum]

/-- What is expected at a place, when the places and the methods of the parent are few enough. -/
theorem NumbersFrom.expectedIndex_iff {base : Nat} (h : NumbersFrom currentTy base) {i : Nat} (hi : i < 2 ^ 31)
    {c k : UInt32} : expectedIndex currentTy (UInt32.ofNat i) c = some k ↔ k.toNat + c.toNat = base + i := by
  have hi' : (UInt32.ofNat i).toNat = i := by
    rw [UInt32.toNat_ofNat', Nat.mod_eq_of_lt (by omega)]
  cases h with
  | root hparent => rw [expectedIndex_root hparent, hi', Nat.zero_add]
  | @parent r p _ hparent hp hlen hlt =>
    have hlen' : (UInt32.ofNat p.methods.length).toNat = base + 1 := by
      rw [UInt32.toNat_ofNat', Nat.mod_eq_of_lt (by omega), hlen]
    have hbase : (UInt32.ofNat base).toNat = base := by
      rw [UInt32.toNat_ofNat', Nat.mod_eq_of_lt (by omega)]
    have hsub : checkedSub (UInt32.ofNat p.methods.length) 1 = some (UInt32.ofNat base) :=
      checkedSub_eq_some_iff.2 (by rw [hlen', hbase]; rfl)
    have hadd : checkedAdd (UInt32.ofNat i) (UInt32.ofNat base) = some (UInt32.ofNat i + UInt32.ofNat base) :=
      if_pos (by rw [hi', hbase]; omega)
    have hsum : (UInt32.ofNat i + UInt32.ofNat base).toNat = base + i := by
      rw [checkedAdd_eq_some hadd, hi', hbase, Nat.add_comm]
    rw [expectedIndex, hparent, ← hsum, ← checkedSub_eq_some_iff]
    simp only [Option.bind_eq_bind, Option.bind_some, hp, hsub, hadd]

/-- The check of one method counts it when it is an overriding one. -/
theorem checkIndex_count {i : UInt32} {m : Method} {s s' : TypeState}
    (h : checkIndex currentTy i m s = (.ok (), s')) :
    s'.overrideCount.toNat = s.overrideCount.toNat + overridingCount [m] := by
  rcases checkIndex_eq_ok.1 h with ⟨hover, -, rfl⟩ | ⟨⟨slot, hover⟩, c, hcount, rfl⟩
  · rw [overridingCount_cons_new hover]
    rfl
  · rw [overridingCount_cons_overriding hover]
    exact checkedAdd_eq_some hcount

/-- The count of the overriding methods after the check of some methods. -/
theorem forM_checkIndex_count {methods : List Method} {ind : Nat} {s s' : TypeState}
    (h : ((methods.zipIdx ind).forM fun (m, ind) => checkIndex currentTy (UInt32.ofNat ind) m) s = (.ok (), s')) :
    s'.overrideCount.toNat = s.overrideCount.toNat + overridingCount methods := by
  induction methods generalizing ind s with
  | nil =>
    cases h
    rfl
  | cons m methods ih =>
    rw [List.zipIdx_cons] at h
    obtain ⟨s₁, hcheck, hrest⟩ := forM_cons_eq_ok.1 h
    rw [ih hrest, checkIndex_count hcheck, Nat.add_assoc, ← overridingCount_cons]

/-- The count of the overriding methods after some methods have been compiled. -/
theorem mapM_compileMethod_count [AssemblyBuilder] {methods : List Method} {ind : Nat} {s s' : TypeState}
    {ms : List Binary.Method}
    (h : ((methods.zipIdx ind).mapM fun (m, ind) => compileMethod currentTy (UInt32.ofNat ind) m) s =
      (.ok ms, s')) :
    s'.overrideCount.toNat = s.overrideCount.toNat + overridingCount methods := by
  induction methods generalizing ind s ms with
  | nil =>
    cases h
    rfl
  | cons m methods ih =>
    rw [List.zipIdx_cons] at h
    obtain ⟨bm, s₂, ms, hm, hrest, -⟩ := mapM_cons_eq_ok.1 h
    obtain ⟨s₁, hcheck, hcount⟩ := compileMethod_checked hm
    rw [ih hrest, hcount, checkIndex_count hcheck, Nat.add_assoc, ← overridingCount_cons]

/-- The methods of a class pass exactly when the new ones are numbered from `base` on. -/
theorem checkIndices_base_iff {d : ClassDef} {base : Nat} (hbase : NumbersFrom d.toAbstract base)
    (hlen : d.methods.length < 2 ^ 31) (a : Assembly) : ((checkIndices d.toAbstract d.methods).run a).1 = .ok () ↔
      (newMethods d.methods).map (·.index.toNat) = List.range' base (newMethods d.methods).length := by
  have hcount := length_newMethods_add d.methods
  have hplace (i : Nat) (hi : i < 0 + d.methods.length) (c k : UInt32) :
      expectedIndex d.toAbstract (UInt32.ofNat i) c = some k ↔ k.toNat + c.toNat = base + i :=
    hbase.expectedIndex_iff (by omega)
  rw [checkIndices_iff, numbered_iff fun i _ => hplace i, ← atNewMethods_consecutive_iff, UInt32.toNat_zero]
  rw [and_iff_right (by omega : 0 + overridingCount d.methods < 2 ^ 32)]
  refine atNewMethods_congr (fun before m => ?_) _
  have hbefore := length_newMethods_add before
  omega

omit [CompilerService] in
/-- Methods that are numbered one after the other, each told by its place. -/
theorem map_index_eq_range_iff {methods : List Method} {base : Nat} :
    methods.map (·.index.toNat) = List.range' base methods.length ↔
      ∀ k m, methods[k]? = some m → m.index.toNat = base + k := by
  constructor
  · intro h k m hm
    have hk := congrArg (·[k]?) h
    simp only [List.getElem?_map, hm, Option.map_some] at hk
    obtain ⟨hlt, hk⟩ := List.getElem?_eq_some_iff.1 hk.symm
    rw [List.getElem_range', Nat.one_mul] at hk
    exact hk.symm
  · intro h
    refine List.ext_getElem (by simp) fun k h₁ h₂ => ?_
    rw [List.length_map] at h₁
    rw [List.getElem_map, List.getElem_range', Nat.one_mul]
    exact h k _ (List.getElem?_eq_getElem h₁)

omit [CompilerService] in
theorem pairwise_index_ne {methods : List Method} {base : Nat}
    (h : methods.map (·.index.toNat) = List.range' base methods.length) :
    methods.Pairwise fun m m' => m.index ≠ m'.index := by
  have hnodup : (methods.map (·.index.toNat)).Nodup := h ▸ List.nodup_range' 1
  exact (List.pairwise_map.1 hnodup).imp fun hne heq => hne (congrArg UInt32.toNat heq)

/-- The check of the methods of a class: the expected number is known at every place that is reached, and the
methods pass exactly when the new ones are numbered one after the other; then no two of them have one number. -/
theorem checkIndices_class {d : ClassDef} {base : Nat} (hbase : NumbersFrom d.toAbstract base)
    (hlen : d.methods.length < 2 ^ 31) (a : Assembly) :
    (∀ before m after s, d.methods = before ++ m :: after →
        checkIndices d.toAbstract before ⟨a, [], 0⟩ = (.ok (), s) →
        s.overrideCount.toNat = overridingCount before ∧
          ∃ k, expectedIndex d.toAbstract (UInt32.ofNat before.length) s.overrideCount = some k ∧
            k.toNat = base + (newMethods before).length) ∧
      (((checkIndices d.toAbstract d.methods).run a).1 = .ok () ↔
        ∀ k m, (newMethods d.methods)[k]? = some m → m.index.toNat = base + k) ∧
      (((checkIndices d.toAbstract d.methods).run a).1 = .ok () →
        (newMethods d.methods).map (·.index.toNat) = List.range' base (newMethods d.methods).length ∧
          (newMethods d.methods).Pairwise fun m m' => m.index ≠ m'.index) := by
  have hpass := checkIndices_base_iff hbase hlen a
  refine ⟨fun before m after s hsplit hrun => ?_, ?_, fun h => ?_⟩
  · have hcount : s.overrideCount.toNat = 0 + overridingCount before := forM_checkIndex_count hrun
    have hbefore := length_newMethods_add before
    have hlen' : before.length < 2 ^ 31 := by
      rw [hsplit, List.length_append] at hlen
      omega
    have hbound : base + (newMethods before).length < 2 ^ 32 := by
      cases hbase <;> omega
    have hk : (UInt32.ofNat (base + (newMethods before).length)).toNat = base + (newMethods before).length := by
      rw [UInt32.toNat_ofNat', Nat.mod_eq_of_lt hbound]
    exact ⟨by omega, _, (hbase.expectedIndex_iff hlen').2 (by omega), hk⟩
  · rw [hpass, map_index_eq_range_iff]
  · have hnum := hpass.1 h
    exact ⟨hnum, pairwise_index_ne hnum⟩

/-- The methods of a class that have been compiled are numbered one after the other, overriding ones left out. -/
theorem compileMethods_numbers [AssemblyBuilder] {d : ClassDef} {base : Nat}
    (hbase : NumbersFrom d.toAbstract base)
    (hlen : d.methods.length < 2 ^ 31) {a : Assembly} {ms : List Binary.Method} {s : TypeState}
    (h : compileMethods d.toAbstract d.methods ⟨a, [], 0⟩ = (.ok ms, s)) :
    (newMethods d.methods).map (·.index.toNat) = List.range' base (newMethods d.methods).length ∧
      (newMethods d.methods).Pairwise fun m m' => m.index ≠ m'.index := by
  have hnum := (checkIndices_base_iff hbase hlen a).1 (compileMethods_checked h)
  exact ⟨hnum, pairwise_index_ne hnum⟩

/-! ### Types up to the numbers of their methods -/

/-- The class can be built but for the numbers of its methods. -/
structure ClassDef.UpToNumbers (d : ClassDef) : Prop where
  parent : ∀ r ∈ d.parent, r.Resolves
  methods : ∀ m ∈ d.methods, m.Resolves d.toAbstract
  fields : ∀ f ∈ d.fields, f.ty.Resolves
  tables : ∀ m ∈ d.methods, ∀ ty r, m.impl = some (ty, r) → r.index.lookup (resolveTypeReference ty) false = some 0

/-- The struct can be built but for the numbers of its methods. -/
structure StructDef.UpToNumbers (d : StructDef) : Prop where
  methods : ∀ m ∈ d.methods, m.Buildable d.toAbstract
  fields : ∀ f ∈ d.fields, f.ty.Resolves

/-- The interface can be built but for the numbers of its methods. -/
structure InterfaceDef.UpToNumbers (d : InterfaceDef) : Prop where
  requiredInterfaces : ∀ r ∈ d.requiredInterfaces, r.Resolves
  methods : ∀ m ∈ d.methods, m.Buildable d.toAbstract

theorem ClassDef.UpToNumbers.buildable_iff {d : ClassDef} (hd : d.UpToNumbers) :
    d.Buildable ↔ Numbered d.toAbstract 0 0 d.methods :=
  ⟨fun h => h.numbered, fun h => ⟨⟨hd.parent, h, hd.methods, hd.fields⟩, hd.tables⟩⟩

/-- A class that can be built but for its numbers is compiled exactly when its new methods are numbered one
after the other, from the number of the parent's methods on. -/
theorem compileClass_numbers_iff [AssemblyBuilder] {d : ClassDef} {base : Nat}
    (hbase : NumbersFrom d.toAbstract base)
    (hlen : d.methods.length < 2 ^ 31) (hd : d.UpToNumbers) (order : EntryOrder) (a : Assembly) :
    (∃ bd a', compileClass order d a = (.ok bd, a')) ↔
      ∀ k m, (newMethods d.methods)[k]? = some m → m.index.toNat = base + k := by
  rw [compileClass_ok order d a, hd.buildable_iff, ← checkIndices_iff (a := a), checkIndices_base_iff hbase hlen a,
    map_index_eq_range_iff]

/-! ### A count for each method -/

/-- New methods that have the number of their place. -/
def NumberedByPlace : List Method → Prop :=
  AtNewMethods fun before m => m.index.toNat = before.length % 2 ^ 32

/-- New methods that have the number of their place when the overriding methods before them are left out. -/
def NumberedByRank : List Method → Prop :=
  AtNewMethods fun before m => m.index.toNat + overridingCount before = before.length % 2 ^ 32

/-- No overriding method stands before a new one. -/
def NewMethodsFirst : List Method → Prop :=
  AtNewMethods fun before _ => overridingCount before = 0

omit [CompilerService] in
theorem atNewMethods_place_iff {p : Nat → Method → Prop} {methods : List Method} :
    AtNewMethods (fun before m => p before.length m) methods ↔
      ∀ (ind : Nat) (m : Method), methods[ind]? = some m → m.attr.overrides = none → p ind m := by
  constructor
  · intro h ind m hm hnew
    obtain ⟨hlt, rfl⟩ := List.getElem?_eq_some_iff.1 hm
    have hsplit : methods = methods.take ind ++ methods[ind] :: methods.drop (ind + 1) := by
      rw [← List.drop_eq_getElem_cons hlt, List.take_append_drop]
    have hlen : (methods.take ind).length = ind := by
      rw [List.length_take]
      omega
    have hp : p (methods.take ind).length methods[ind] := h _ _ _ hsplit hnew
    rwa [hlen] at hp
  · intro h before m after hsplit hnew
    exact h before.length m (by simp [hsplit]) hnew

/-- Methods that are compiled each on its own must have the numbers of their places. -/
theorem buildableAt_iff_numberedByPlace (hparent : currentTy.parent = none) {methods : List Method} :
    (∀ (ind : Nat) (m : Method), methods[ind]? = some m → m.BuildableAt currentTy ind) ↔
      NumberedByPlace methods ∧ ∀ m ∈ methods, m.Buildable currentTy := by
  have hexpected (ind : Nat) (k : UInt32) :
      expectedIndex currentTy (UInt32.ofNat ind) 0 = some k ↔ k.toNat = ind % 2 ^ 32 := by
    rw [expectedIndex_root hparent, UInt32.toNat_ofNat', UInt32.toNat_zero, Nat.add_zero]
  rw [NumberedByPlace, atNewMethods_place_iff (p := fun ind m => m.index.toNat = ind % 2 ^ 32)]
  constructor
  · intro h
    refine ⟨fun ind m hm hnew => (hexpected ind m.index).1 ((h ind m hm).index hnew), fun m hm => ?_⟩
    obtain ⟨ind, hind⟩ := List.mem_iff_getElem?.1 hm
    exact (h ind m hind).toBuildable
  · rintro ⟨hplace, hbuildable⟩ ind m hm
    exact ⟨hbuildable m (List.mem_of_getElem? hm), fun hnew => (hexpected ind m.index).2 (hplace ind m hm hnew)⟩

theorem StructDef.UpToNumbers.buildable_iff {d : StructDef} (hd : d.UpToNumbers) :
    d.Buildable ↔ NumberedByPlace d.methods := by
  have hmethods := @buildableAt_iff_numberedByPlace _ d.toAbstract rfl d.methods
  exact ⟨fun h => (hmethods.1 h.methods).1, fun h => ⟨hmethods.2 ⟨h, hd.methods⟩, hd.fields⟩⟩

theorem InterfaceDef.UpToNumbers.buildable_iff {d : InterfaceDef} (hd : d.UpToNumbers) :
    d.Buildable ↔ NumberedByPlace d.methods := by
  have hmethods := @buildableAt_iff_numberedByPlace _ d.toAbstract rfl d.methods
  exact ⟨fun h => (hmethods.1 h.methods).1, fun h => ⟨hd.requiredInterfaces, hmethods.2 ⟨h, hd.methods⟩⟩⟩

theorem numbered_root_iff (hparent : currentTy.parent = none) {methods : List Method} :
    Numbered currentTy 0 0 methods ↔ overridingCount methods < 2 ^ 32 ∧ NumberedByRank methods := by
  have hplace (i : Nat) (c k : UInt32) :
      expectedIndex currentTy (UInt32.ofNat i) c = some k ↔ k.toNat + c.toNat = i % 2 ^ 32 := by
    rw [expectedIndex_root hparent, UInt32.toNat_ofNat']
  rw [numbered_iff fun i _ _ c k => hplace i c k]
  simp only [UInt32.toNat_zero, Nat.zero_add]
  rfl

omit [CompilerService] in
/-- The two rules agree exactly when no overriding method stands before a new one and the overriding methods can be
counted, or when both refuse the methods. -/
theorem numberedByPlace_iff_rank {methods : List Method} :
    (NumberedByPlace methods ↔ overridingCount methods < 2 ^ 32 ∧ NumberedByRank methods) ↔
      NewMethodsFirst methods ∧ overridingCount methods < 2 ^ 32 ∨
        ¬NumberedByPlace methods ∧ ¬(overridingCount methods < 2 ^ 32 ∧ NumberedByRank methods) := by
  constructor
  · intro h
    by_cases hplace : NumberedByPlace methods
    · obtain ⟨hcount, hrank⟩ := h.1 hplace
      refine .inl ⟨fun before m after hsplit hnew => ?_, hcount⟩
      have h₁ : m.index.toNat = _ := hplace before m after hsplit hnew
      have h₂ : m.index.toNat + _ = _ := hrank before m after hsplit hnew
      omega
    · exact .inr ⟨hplace, fun hrank => hplace (h.2 hrank)⟩
  · rintro (⟨hfirst, hcount⟩ | ⟨hplace, hrank⟩)
    · rw [and_iff_right hcount]
      constructor
      · intro h before m after hsplit hnew
        show m.index.toNat + overridingCount before = _
        rw [hfirst before m after hsplit hnew]
        exact h before m after hsplit hnew
      · intro h before m after hsplit hnew
        have h₁ : m.index.toNat + overridingCount before = _ := h before m after hsplit hnew
        rwa [hfirst before m after hsplit hnew] at h₁
    · exact iff_of_false hplace hrank

/-! ### Methods with the same numbers -/

/-- The methods have the same numbers and override in the same places; nothing else of a method is checked. -/
def SameNumbers : List Method → List Method → Prop :=
  List.Forall₂ fun m m' => m.index = m'.index ∧ m.attr.overrides = m'.attr.overrides

omit [CompilerService] in
theorem SameNumbers.overridingCount_eq {ms ms' : List Method} (h : SameNumbers ms ms') :
    overridingCount ms = overridingCount ms' := by
  induction h with
  | nil => rfl
  | cons hm _ ih =>
    unfold overridingCount at ih ⊢
    rw [List.countP_cons, List.countP_cons, ih, hm.2]

omit [CompilerService] in
theorem SameNumbers.atNewMethods_iff {ms ms' : List Method} (h : SameNumbers ms ms')
    {p : Nat → Nat → UInt32 → Prop} :
    AtNewMethods (fun before m => p before.length (overridingCount before) m.index) ms ↔
      AtNewMethods (fun before m => p before.length (overridingCount before) m.index) ms' := by
  induction h generalizing p with
  | nil => exact iff_of_true (atNewMethods_nil _) (atNewMethods_nil _)
  | @cons m m' ms ms' hm _ ih =>
    have hcount : overridingCount [m] = overridingCount [m'] := overridingCount_eq (.cons hm .nil)
    rw [atNewMethods_cons_iff, atNewMethods_cons_iff, hm.1, hm.2]
    refine and_congr_right fun _ => ?_
    -- the methods before are one more on both sides, and on both sides the first of them counts the same
    have htail := ih (p := fun len count => p (len + 1) (overridingCount [m'] + count))
    refine (atNewMethods_congr (fun before x => ?_) ms).trans
      (htail.trans (atNewMethods_congr (fun before x => ?_) ms'))
    · rw [List.length_cons, overridingCount_cons m before, hcount]
    · rw [List.length_cons, overridingCount_cons m' before]

omit [CompilerService] in
theorem SameNumbers.numberedByPlace_iff {ms ms' : List Method} (h : SameNumbers ms ms') :
    NumberedByPlace ms ↔ NumberedByPlace ms' :=
  h.atNewMethods_iff (p := fun len _ index => index.toNat = len % 2 ^ 32)

omit [CompilerService] in
theorem SameNumbers.numberedByRank_iff {ms ms' : List Method} (h : SameNumbers ms ms') :
    NumberedByRank ms ↔ NumberedByRank ms' :=
  h.atNewMethods_iff (p := fun len count index => index.toNat + count = len % 2 ^ 32)

/-- A method with the number of another and nothing that could not be compiled. -/
private def bareMethod (m : Method) : Method :=
  ⟨⟨.private, false, false, m.attr.overrides, []⟩, .platformDefault, m.index, ⟨"m"⟩, [], false, [],
    .typeGeneric none 0, none, [], [], []⟩

omit [CompilerService] in
private theorem bareMethods_same (methods : List Method) : SameNumbers methods (methods.map bareMethod) :=
  List.forall₂_map_right_iff.2 (List.forall₂_same.2 fun _ _ => ⟨rfl, rfl⟩)

private theorem bareMethod_resolves (m : Method) : (bareMethod m).Resolves currentTy := by
  constructor <;> simp [bareMethod, TypeReference.Resolves, TypeReference.resolve]

private theorem bareMethod_buildable (m : Method) : (bareMethod m).Buildable currentTy := by
  have h : (bareMethod m).Resolves currentTy := bareMethod_resolves m
  exact ⟨by simp [Method.ImplResolves, bareMethod], ⟨h.localTypes, h.args, h.returnType⟩,
    ⟨h.statements, h.exceptionTable⟩⟩

/-- Whatever methods they have with given numbers, a struct, an interface and a class without parent that can be
built but for these numbers are compiled or refused alike, exactly when no overriding method stands before a new
one and the overriding methods can be counted, or when both rules refuse the numbers. -/
theorem compileStruct_iff_compileClass [AssemblyBuilder] (methods : List Method) :
    (∀ (c : ClassDef) (s : StructDef) (i : InterfaceDef), c.parent = none → SameNumbers methods c.methods →
        SameNumbers methods s.methods → SameNumbers methods i.methods → c.UpToNumbers → s.UpToNumbers →
          i.UpToNumbers →
        ∀ order a,
          ((∃ bs a', compileStruct s a = (.ok bs, a')) ↔ ∃ bc a', compileClass order c a = (.ok bc, a')) ∧
            ((∃ bi a', compileInterface i a = (.ok bi, a')) ↔ ∃ bc a', compileClass order c a = (.ok bc, a'))) ↔
      NewMethodsFirst methods ∧ overridingCount methods < 2 ^ 32 ∨
        ¬NumberedByPlace methods ∧ ¬(overridingCount methods < 2 ^ 32 ∧ NumberedByRank methods) := by
  rw [← numberedByPlace_iff_rank]
  constructor
  · intro h
    let c : ClassDef := ⟨⟨.private, .class false false⟩, 0, none, ⟨"C"⟩, [], false, none,
      methods.map bareMethod, []⟩
    let s : StructDef := ⟨⟨.private, .struct false false⟩, 0, ⟨"S"⟩, [], false, methods.map bareMethod, []⟩
    let i : InterfaceDef := ⟨⟨.private, .interface⟩, 0, ⟨"I"⟩, [], false, [], methods.map bareMethod⟩
    have hc : c.UpToNumbers :=
      ⟨by simp [c], List.forall_mem_map.2 fun m _ => bareMethod_resolves m, by simp [c], by simp [c, bareMethod]⟩
    have hs : s.UpToNumbers := ⟨List.forall_mem_map.2 fun m _ => bareMethod_buildable m, by simp [s]⟩
    have hi : i.UpToNumbers := ⟨by simp [i], List.forall_mem_map.2 fun m _ => bareMethod_buildable m⟩
    have hsame := bareMethods_same methods
    have hiff := (h c s i rfl hsame hsame hsame hc hs hi .same ⟨[], [], [], [], []⟩).1
    rw [compileStruct_ok s, compileClass_ok .same c, hs.buildable_iff, hc.buildable_iff,
      numbered_root_iff (show c.toAbstract.parent = none from rfl)] at hiff
    rwa [hsame.numberedByPlace_iff, hsame.numberedByRank_iff, hsame.overridingCount_eq]
  · intro h c s i hparent hc hs hi hclass hstruct hinterface order a
    rw [compileStruct_ok s a, compileInterface_ok i a, compileClass_ok order c a, hstruct.buildable_iff,
      hinterface.buildable_iff, hclass.buildable_iff,
        numbered_root_iff (show c.toAbstract.parent = none from hparent),
      ← hs.numberedByPlace_iff, ← hi.numberedByPlace_iff, ← hc.numberedByRank_iff, ← hc.overridingCount_eq]
    exact ⟨h, h⟩

end Checks

/-! ### An overriding method before new ones -/

private def twoMethods : TypeDef := .class (plainClass "A" 0 none [plainMethod "a" 0, plainMethod "b" 1] [])

private abbrev twoMethodsService : CompilerService := ownService [] [twoMethods]

private def overriding : Method := { plainMethod "a" 0 with attr.overrides := some 0 }

private def overridingFirst : ClassDef :=
  plainClass "B" 1 (some (ownType "A")) [overriding, plainMethod "c" 1, plainMethod "d" 2] []

/-- After the overriding method, the new methods of a class whose parent has two are numbered from 1 on. -/
theorem checkIndices_class_overridingFirst :
    let _ := twoMethodsService
    ((checkIndices overridingFirst.toAbstract overridingFirst.methods).run ⟨[], [], [], [], []⟩).1 = .ok () := by
  intro _
  have hparent : resolveTypeReference (ownType "A") = some twoMethods.toAbstract := by decide
  have hbase : NumbersFrom overridingFirst.toAbstract 1 := .parent rfl hparent rfl (by decide)
  have hnew : newMethods overridingFirst.methods = [plainMethod "c" 1, plainMethod "d" 2] := by decide
  refine (checkIndices_class hbase (by decide) _).2.1.2 fun k m hm => ?_
  rw [hnew] at hm
  match k with
  | 0 => exact Option.some.inj hm ▸ rfl
  | 1 => exact Option.some.inj hm ▸ rfl

/-- With an overriding method before a new one, a class without parent is compiled, while a struct and an interface
with the same methods, which could be built but for the numbers, are refused. -/
theorem compileStruct_ne_compileClass :
    let _ := twoMethodsService
    let _ := internBuilder
    let methods := [overriding, plainMethod "b" 0]
    let c : ClassDef := plainClass "B" 0 none methods []
    let s : StructDef := ⟨⟨.private, .struct false false⟩, 0, ⟨"B"⟩, [], false, methods, []⟩
    let i : InterfaceDef := ⟨⟨.private, .interface⟩, 0, ⟨"B"⟩, [], false, [], methods⟩
    s.UpToNumbers ∧ i.UpToNumbers ∧ (∃ bc a', compileClass .same c ⟨[], [], [], [], []⟩ = (.ok bc, a')) ∧
      (compileStruct s ⟨[], [], [], [], []⟩).1 = .panic ∧
      (compileInterface i ⟨[], [], [], [], []⟩).1 = .panic := by
  intro _ _ methods c s i
  have htype : (ownType "A").Resolves := by
    unfold TypeReference.Resolves
    decide
  have hmethods : ∀ m ∈ methods, ∀ currentTy, m.Resolves currentTy := by
    intro m hm currentTy
    rcases List.mem_cons.1 hm with rfl | hm
    · constructor <;> simp [overriding, plainMethod, Method.defaultAttr, htype]
    · obtain rfl := List.mem_singleton.1 hm
      constructor <;> simp [plainMethod, Method.defaultAttr, htype]
  have hbuildable : ∀ m ∈ methods, ∀ currentTy, m.Buildable currentTy := by
    intro m hm currentTy
    have h := hmethods m hm currentTy
    have himpl : m.impl = none := by
      rcases List.mem_cons.1 hm with rfl | hm
      · rfl
      · obtain rfl := List.mem_singleton.1 hm
        rfl
    exact ⟨by simp [Method.ImplResolves, himpl], ⟨h.localTypes, h.args, h.returnType⟩,
      ⟨h.statements, h.exceptionTable⟩⟩
  refine ⟨⟨fun m hm => hbuildable m hm _, by simp [s]⟩, ⟨by simp [i], fun m hm => hbuildable m hm _⟩, ?_, ?_, ?_⟩
  · have hnumbered : Numbered c.toAbstract 0 0 methods := .override rfl rfl (.own rfl (by decide) .nil)
    refine (compileClass_ok .same c _).2 ⟨⟨by simp [c, plainClass], hnumbered, fun m hm => hmethods m hm _,
      by simp [c, plainClass]⟩, ?_⟩
    simp [c, plainClass, methods, overriding, plainMethod]
  · decide +kernel
  · decide +kernel

end PuralinguaIR
