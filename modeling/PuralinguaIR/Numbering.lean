import Mathlib.Data.List.Chain
import PuralinguaIR.Build
import PuralinguaIR.Query

/-!
# Numbers of methods

A method that overrides nothing must have the number of its place, counted from the methods the parent itself
declares (`checkIndex`). The methods of a type pass this check exactly when they are `Numbered`. Along a chain of
classes the numbers of new methods stay above those of the parent exactly when the numbers of the parent are below
the count of the methods it declares (`methods_follow_parent_iff`): what the parent inherits is not counted.
-/

namespace PuralinguaIR

open Effect Effect.Prog Sorting

section Numbers

variable [CompilerService]

/-- The methods from place `ind` on have the numbers they must have, after `overrideCount` overriding methods. -/
inductive Numbered (currentTy : TypeInformation) :
    (ind : Nat) → (overrideCount : UInt32) → List Method → Prop where
  | nil {ind overrideCount} : Numbered currentTy ind overrideCount []
  | own {ind overrideCount m methods} : m.attr.overrides = none →
      expectedIndex currentTy (UInt32.ofNat ind) overrideCount = some m.index →
      Numbered currentTy (ind + 1) overrideCount methods → Numbered currentTy ind overrideCount (m :: methods)
  | override {ind overrideCount overrideCount' m methods slot} : m.attr.overrides = some slot →
      checkedAdd overrideCount 1 = some overrideCount' → Numbered currentTy (ind + 1) overrideCount' methods →
      Numbered currentTy ind overrideCount (m :: methods)

variable {currentTy : TypeInformation}

/-! ### The check -/

/-- The check of the numbers of the methods of a type, one after the other. -/
def checkIndices (currentTy : TypeInformation) (methods : List Method) : TypeBuilder Unit :=
  methods.zipIdx.forM fun (m, ind) => checkIndex currentTy (UInt32.ofNat ind) m

/-- What a successful check says and does. -/
theorem checkIndex_eq_ok {i : UInt32} {m : Method} {s s' : TypeState} :
    checkIndex currentTy i m s = (.ok (), s') ↔
      m.attr.overrides = none ∧ expectedIndex currentTy i s.overrideCount = some m.index ∧ s' = s ∨
        (∃ slot, m.attr.overrides = some slot) ∧ ∃ c, checkedAdd s.overrideCount 1 = some c ∧
          s' = { s with overrideCount := c } := by
  unfold checkIndex
  rw [bind_of_ok (get_run s)]
  cases hover : m.attr.overrides with
  | none =>
    simp only [true_and, reduceCtorEq, exists_false, false_and, or_false, bind_eq_ok, unwrap_eq_ok]
    constructor
    · rintro ⟨k, s₁, ⟨hk, rfl⟩, h⟩
      split at h
      · rename_i heq
        cases h
        exact ⟨heq ▸ hk, rfl⟩
      · cases h
    · rintro ⟨hk, rfl⟩
      exact ⟨_, _, ⟨hk, rfl⟩, by rw [if_pos rfl]; rfl⟩
  | some slot =>
    simp only [reduceCtorEq, false_and, false_or, Option.some.injEq, exists_eq', true_and, bind_eq_ok,
      unwrap_eq_ok]
    constructor
    · rintro ⟨c, s₁, ⟨hc, rfl⟩, h⟩
      cases h
      exact ⟨c, hc, rfl⟩
    · rintro ⟨c, hc, rfl⟩
      exact ⟨c, _, ⟨hc, rfl⟩, rfl⟩

/-- Numbered methods, one check further. -/
theorem numbered_cons_iff {ind : Nat} {m : Method} {methods : List Method} {s : TypeState} :
    Numbered currentTy ind s.overrideCount (m :: methods) ↔
      ∃ s', checkIndex currentTy (UInt32.ofNat ind) m s = (.ok (), s') ∧
        Numbered currentTy (ind + 1) s'.overrideCount methods := by
  constructor
  · intro h
    cases h with
    | own hover hindex hrest => exact ⟨s, checkIndex_eq_ok.2 (Or.inl ⟨hover, hindex, rfl⟩), hrest⟩
    | override hover hcount hrest =>
      exact ⟨_, checkIndex_eq_ok.2 (Or.inr ⟨⟨_, hover⟩, _, hcount, rfl⟩), hrest⟩
  · rintro ⟨s', hcheck, hrest⟩
    rcases checkIndex_eq_ok.1 hcheck with ⟨hover, hindex, rfl⟩ | ⟨⟨slot, hover⟩, c, hcount, rfl⟩
    · exact .own hover hindex hrest
    · exact .override hover hcount hrest

/-- The methods pass the check exactly when they are numbered. -/
theorem forM_checkIndex_iff {methods : List Method} {ind : Nat} {s : TypeState} :
    (∃ s', ((methods.zipIdx ind).forM fun (m, ind) => checkIndex currentTy (UInt32.ofNat ind) m) s =
      (.ok (), s')) ↔ Numbered currentTy ind s.overrideCount methods := by
  induction methods generalizing ind s with
  | nil => exact ⟨fun _ => .nil, fun _ => ⟨s, rfl⟩⟩
  | cons m methods ih =>
    rw [List.zipIdx_cons, numbered_cons_iff]
    simp only [forM_cons_eq_ok]
    constructor
    · rintro ⟨s', s₁, hcheck, hrest⟩
      exact ⟨s₁, hcheck, ih.1 ⟨s', hrest⟩⟩
    · rintro ⟨s₁, hcheck, hrest⟩
      obtain ⟨s', hrest⟩ := ih.2 hrest
      exact ⟨s', s₁, hcheck, hrest⟩

theorem checkIndices_iff {methods : List Method} {a : Assembly} :
    ((checkIndices currentTy methods).run a).1 = .ok () ↔ Numbered currentTy 0 0 methods := by
  rw [← forM_checkIndex_iff (s := ⟨a, [], 0⟩)]
  constructor
  · intro h
    exact ⟨_, Prod.ext h rfl⟩
  · rintro ⟨s', h⟩
    exact congrArg Prod.fst h

/-! ### Expected numbers -/

omit [CompilerService] in
theorem checkedAdd_eq_some {a b c : UInt32} (h : checkedAdd a b = some c) : c.toNat = a.toNat + b.toNat := by
  unfold checkedAdd at h
  split at h
  · rename_i hlt
    cases h
    rw [UInt32.toNat_add, Nat.mod_eq_of_lt hlt]
  · cases h

omit [CompilerService] in
theorem checkedSub_eq_some {a b c : UInt32} (h : checkedSub a b = some c) : c.toNat + b.toNat = a.toNat := by
  unfold checkedSub at h
  split at h
  · rename_i hle
    cases h
    have hle' := UInt32.le_iff_toNat_le.1 hle
    rw [UInt32.toNat_sub_of_le _ _ hle]
    omega
  · cases h

/-- The number that is expected of a method of a type with a parent. -/
theorem expectedIndex_parent {r : TypeReference} {p : TypeInformation} (hparent : currentTy.parent = some r)
    (hp : resolveTypeReference r = some p) {i c k : UInt32} (h : expectedIndex currentTy i c = some k) :
    k.toNat + c.toNat + 1 = i.toNat + (UInt32.ofNat p.methods.length).toNat := by
  rw [expectedIndex, hparent] at h
  obtain ⟨p', hp', h⟩ := Option.bind_eq_some_iff.1 h
  obtain rfl : p = p' := Option.some.inj (hp.symm.trans hp')
  obtain ⟨len, hlen, h⟩ := Option.bind_eq_some_iff.1 h
  dsimp only at h
  obtain ⟨sum, hsum, hk⟩ := Option.bind_eq_some_iff.1 h
  have h₁ : len.toNat + 1 = _ := checkedSub_eq_some hlen
  have h₂ := checkedAdd_eq_some hsum
  have h₃ := checkedSub_eq_some hk
  omega

/-- Overriding methods are only counted. -/
private theorem Numbered.skip {before after : List Method} {ind : Nat} {c : UInt32}
    (h : Numbered currentTy ind c (before ++ after)) (hbefore : ∀ m ∈ before, m.attr.overrides ≠ none) :
    ∃ c', c'.toNat = c.toNat + before.length ∧ Numbered currentTy (ind + before.length) c' after := by
  induction before generalizing ind c with
  | nil => exact ⟨c, rfl, h⟩
  | cons m before ih =>
    cases h with
    | own hover => exact absurd hover (hbefore m (by simp))
    | override hover hcount hrest =>
      obtain ⟨c', hc', h'⟩ := ih hrest fun x hx => hbefore x (by simp [hx])
      have hc : _ = c.toNat + 1 := checkedAdd_eq_some hcount
      refine ⟨c', by rw [hc', hc, List.length_cons]; omega, ?_⟩
      rwa [List.length_cons, Nat.add_comm before.length 1, ← Nat.add_assoc]

/-- The first method that overrides nothing stands at the last of as many slots as the parent declares methods. -/
theorem Numbered.first_own {before after : List Method} {m : Method}
    (h : Numbered currentTy 0 0 (before ++ m :: after)) (hbefore : ∀ x ∈ before, x.attr.overrides ≠ none)
    (hm : m.attr.overrides = none) {r : TypeReference} {p : TypeInformation} (hparent : currentTy.parent = some r)
    (hp : resolveTypeReference r = some p) : m.index.toNat + 1 = (UInt32.ofNat p.methods.length).toNat := by
  obtain ⟨c, hc, h⟩ := h.skip hbefore
  cases h with
  | override hover => exact absurd (hover.symm.trans hm) (by simp)
  | own _ hindex _ =>
    have hnum := expectedIndex_parent hparent hp hindex
    -- the methods before it are as many as are counted, so their number is one of 32 bits
    have hlt := c.toNat_lt
    rw [UInt32.toNat_ofNat', Nat.zero_add] at hnum
    rw [UInt32.toNat_zero, Nat.zero_add] at hc
    rw [Nat.mod_eq_of_lt (by omega)] at hnum
    omega

/-! ### Chains of classes -/

/-- The service reports `p` as the parent of `d`. -/
def ClassDef.IsParentOf (p d : ClassDef) : Prop :=
  ∃ r, d.parent = some r ∧ resolveTypeReference r = some p.toAbstract

omit [CompilerService] in
/-- Every method of `d` that overrides nothing has a number not below those of the methods of `p`. -/
def ClassDef.Continues (d p : ClassDef) : Prop :=
  ∀ m ∈ d.methods, m.attr.overrides = none → ∀ q ∈ p.methods, q.index ≤ m.index

theorem ClassDef.continues_iff {p d : ClassDef} (hparent : p.IsParentOf d)
    (hnum : Numbered d.toAbstract 0 0 d.methods) (hsorted : d.methods.Pairwise fun a b => a.index ≤ b.index) :
    d.Continues p ↔ (∀ m ∈ d.methods, m.attr.overrides ≠ none) ∨
      ∀ q ∈ p.methods, q.index < UInt32.ofNat p.methods.length := by
  obtain ⟨r, hr, hp⟩ := hparent
  have hlen : p.toAbstract.methods.length = p.methods.length := List.length_map _
  -- the least number of a new method is that of the first one
  cases hfirst : d.methods.find? fun m => m.attr.overrides = none with
  | none =>
    have hall : ∀ m ∈ d.methods, m.attr.overrides ≠ none := by simpa using hfirst
    exact iff_of_true (fun m hm hover => absurd hover (hall m hm)) (Or.inl hall)
  | some m =>
    obtain ⟨hm, before, after, hsplit, hbefore⟩ := List.find?_eq_some_iff_append.1 hfirst
    have hm : m.attr.overrides = none := by simpa using hm
    have hbefore : ∀ x ∈ before, x.attr.overrides ≠ none := by simpa using hbefore
    have hmem : m ∈ d.methods := by simp [hsplit]
    have hindex : m.index.toNat + 1 = (UInt32.ofNat p.methods.length).toNat := by
      rw [hsplit] at hnum
      rw [← hlen]
      exact hnum.first_own hbefore hm hr hp
    have hle : ∀ x ∈ d.methods, x.attr.overrides = none → m.index ≤ x.index := by
      rw [hsplit] at hsorted ⊢
      obtain ⟨-, htail, -⟩ := List.pairwise_append.1 hsorted
      intro x hx hover
      rcases List.mem_append.1 hx with hx | hx
      · exact absurd hover (hbefore x hx)
      · rcases List.mem_cons.1 hx with rfl | hx
        · exact UInt32.le_refl _
        · exact (List.pairwise_cons.1 htail).1 x hx
    constructor
    · intro h
      refine Or.inr fun q hq => UInt32.lt_iff_toNat_lt.2 ?_
      have hq := UInt32.le_iff_toNat_le.1 (h m hmem hm q hq)
      omega
    · rintro (hall | hbelow) x hx hover q hq
      · exact absurd hm (hall m hmem)
      · have hq := UInt32.lt_iff_toNat_lt.1 (hbelow q hq)
        have hx := UInt32.le_iff_toNat_le.1 (hle x hx hover)
        exact UInt32.le_iff_toNat_le.2 (by omega)

/-- In a chain of loaded classes that pass the check, new methods have numbers not below those of the parent
exactly when each class has no new method or its parent only numbers below the count of the methods it declares. -/
theorem methods_follow_parent_iff [UniLexer] [UniParser] {lastIndex : UInt32} {paths : List FilePath}
    {chain : List ClassDef}
    (hloaded : ∀ d ∈ chain, TypeDef.class d ∈ (loadFiles paths (Compiler.new.setLastIndex lastIndex)).file.types)
    (hparents : chain.IsChain ClassDef.IsParentOf) {a : Assembly}
    (hcheck : ∀ d ∈ chain, ((checkIndices d.toAbstract d.methods).run a).1 = .ok ()) :
    (chain.IsChain fun p d => d.Continues p) ↔ chain.IsChain fun p d =>
      (∀ m ∈ d.methods, m.attr.overrides ≠ none) ∨
        ∀ q ∈ p.methods, q.index < UInt32.ofNat p.methods.length := by
  have hpair : ∀ p d l₁ l₂, chain = l₁ ++ p :: d :: l₂ → (d.Continues p ↔
      (∀ m ∈ d.methods, m.attr.overrides ≠ none) ∨
        ∀ q ∈ p.methods, q.index < UInt32.ofNat p.methods.length) := by
    intro p d l₁ l₂ hsplit
    have hd : d ∈ chain := by simp [hsplit]
    refine ClassDef.continues_iff (List.isChain_iff_forall_rel_of_append_cons_cons.1 hparents hsplit)
      (checkIndices_iff.1 (hcheck d hd)) ?_
    have hmem := hloaded d hd
    rw [loadFiles_new] at hmem
    exact (loaded_hasLoaded lastIndex _).methods_sorted _ hmem
  rw [List.isChain_iff_forall_rel_of_append_cons_cons, List.isChain_iff_forall_rel_of_append_cons_cons]
  constructor
  · intro h p d l₁ l₂ hsplit
    exact (hpair p d l₁ l₂ hsplit).1 (h hsplit)
  · intro h p d l₁ l₂ hsplit
    exact (hpair p d l₁ l₂ hsplit).2 (h hsplit)

end Numbers

/-! ### Three classes -/

private def classA : ClassDef := plainClass "A" 0 none [plainMethod "a" 0, plainMethod "b" 1] []

/-- The first method stands at the last slot of the parent `A`. -/
private def classB : ClassDef := plainClass "B" 1 (some (ownType "A")) [plainMethod "a" 1, plainMethod "b" 2] []

/-- The number of the method is counted from the two methods that the parent `B` declares. -/
private def classD : ClassDef := plainClass "D" 2 (some (ownType "B")) [plainMethod "a" 1] []

private abbrev chainService : CompilerService :=
  ownService ["class[0]A\x7bmethod[0]a()->[A]A\x7b\x7dmethod[1]b()->[A]A\x7b\x7d\x7d",
      "class[1]B:[A]A\x7bmethod[1]a()->[A]A\x7b\x7dmethod[2]b()->[A]A\x7b\x7d\x7d",
      "class[2]D:[A]B\x7bmethod[1]a()->[A]A\x7b\x7d\x7d"]
    [.class classA, .class classB, .class classD]

private def chainPaths : List (@FilePath chainService) := ([0, 1, 2] : List Nat)

private theorem chain_loaded :
    (@loadFiles asciiLexer plainParser chainService chainPaths (Compiler.new.setLastIndex 0)).file.types =
      [.class classA, .class classB, .class classD] := by
  decide +kernel

private theorem classA_isParentOf : @ClassDef.IsParentOf chainService classA classB := ⟨_, rfl, by decide⟩

private theorem classB_isParentOf : @ClassDef.IsParentOf chainService classB classD := ⟨_, rfl, by decide⟩

/-- `methods_follow_parent_iff` for the first two classes. -/
theorem methods_follow_parent_iff_two : [classA, classB].IsChain fun p d => d.Continues p := by
  let _ := chainService
  refine (@methods_follow_parent_iff _ asciiLexer plainParser 0 chainPaths [classA, classB] ?_
    (.cons_cons classA_isParentOf (.singleton _)) ⟨[], [], [], [], []⟩ ?_).2 ?_
  · rw [chain_loaded]
    simp
  · rw [List.forall_mem_cons, List.forall_mem_cons]
    exact ⟨by decide, by decide, by simp⟩
  · exact .cons_cons (Or.inr (by decide)) (.singleton _)

/-- All three classes pass the check, but the number of the method of the last one is below that of a method of
its parent. -/
theorem methods_follow_parent_three :
    let _ := chainService
    let chain := [classA, classB, classD]
    (∀ d ∈ chain, TypeDef.class d ∈
        (@loadFiles asciiLexer plainParser _ chainPaths (Compiler.new.setLastIndex 0)).file.types) ∧
      chain.IsChain ClassDef.IsParentOf ∧
      (∀ d ∈ chain,
        ((checkIndices d.toAbstract d.methods).run ⟨[], [], [], [], []⟩).1 = .ok () ∧ d.methods ≠ []) ∧
      ¬chain.IsChain fun p d => d.Continues p := by
  intro _ chain
  refine ⟨?_, .cons_cons classA_isParentOf (.cons_cons classB_isParentOf (.singleton _)), ?_, fun h => ?_⟩
  · rw [chain_loaded]
    simp [chain]
  · simp only [chain, List.forall_mem_cons]
    exact ⟨by decide, by decide, by decide, by simp⟩
  · have hlast : classD.Continues classB := (List.isChain_cons_cons.1 (List.isChain_cons_cons.1 h).2).1
    exact absurd (hlast (plainMethod "a" 1) (by decide) rfl (plainMethod "b" 2) (by decide)) (by decide)

end PuralinguaIR
