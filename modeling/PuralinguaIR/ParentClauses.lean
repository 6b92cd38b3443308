import PuralinguaIR.MethodNumbers
import PuralinguaIR.MethodPanics
import PuralinguaIR.Query

/-!
# Parent clauses

The number of a new method of a class is counted from the number of methods of the parent. The parent is looked up
for this a second time, and its answer is taken for granted: without one, or without a method in it, the compiler
panics (`compileMethod_handles_iff`).
-/

namespace PuralinguaIR

open Effect Effect.Prog

section Parents

variable [CompilerService] [AssemblyBuilder]

/-! ### Runs over a class -/

/-- The methods `before` of a class have been compiled into the state `s`, and `m` is the next one. -/
structure ClassDef.Reaches (d : ClassDef) (a : Assembly) (before : List Method) (m : Method) (s : TypeState) :
    Prop where
  methods : ∃ after, d.methods = before ++ m :: after
  run : ∃ name s₁ parent s₂ ms, onAssembly (addString d.name.var) ⟨a, [], 0⟩ = (.ok name, s₁) ∧
    onAssembly (d.parent.mapM compileTypeReference) s₁ = (.ok parent, s₂) ∧
      compileMethods d.toAbstract before s₂ = (.ok ms, s)

theorem ClassDef.Reaches.overrideCount {d : ClassDef} {a : Assembly} {before : List Method} {m : Method}
    {s : TypeState} (h : d.Reaches a before m s) : s.overrideCount.toNat = overridingCount before := by
  obtain ⟨name, s₁, parent, s₂, ms, hname, hparent, hmethods⟩ := h.run
  have hzero : s₂.overrideCount = 0 := by
    rw [(onAssembly_run hparent).2, (onAssembly_run hname).2]
  rw [mapM_compileMethod_count hmethods, hzero]
  exact Nat.zero_add _

/-! ### What is expected -/

/-- The number `k` is known and expected of a new method behind `before`, in a class with the parent `r`. -/
def CountsTo (r : TypeReference) (before : List Method) (k : Nat) : Prop :=
  ∃ p, resolveTypeReference r = some p ∧ 0 < p.methods.length % 2 ^ 32 ∧
    before.length % 2 ^ 32 + (p.methods.length % 2 ^ 32 - 1) < 2 ^ 32 ∧
      k + overridingCount before = before.length % 2 ^ 32 + (p.methods.length % 2 ^ 32 - 1)

omit [AssemblyBuilder] in
theorem expectedIndex_countsTo {currentTy : TypeInformation} {r : TypeReference}
    (hparent : currentTy.parent = some r)
    {before : List Method} {c k : UInt32} (hc : c.toNat = overridingCount before) :
    expectedIndex currentTy (UInt32.ofNat before.length) c = some k ↔ CountsTo r before k.toNat := by
  have hunfold (i : UInt32) : expectedIndex currentTy i c =
      (resolveTypeReference r).bind fun p => (checkedSub (UInt32.ofNat p.methods.length) 1).bind fun len =>
        (checkedAdd i len).bind (checkedSub · c) := by
    rw [expectedIndex, hparent]
    rfl
  simp only [hunfold, Option.bind_eq_some_iff, checkedAdd_eq_some_iff, checkedSub_eq_some_iff, UInt32.toNat_ofNat',
    UInt32.toNat_one, hc]
  constructor
  · rintro ⟨p, hp, len, hlen, sum, hsum, hk⟩
    have hlt := sum.toNat_lt
    exact ⟨p, hp, by omega, by omega, by omega⟩
  · rintro ⟨p, hp, hpos, hlt, hk⟩
    have hword (n : Nat) (hn : n < 2 ^ 32) : ∃ w : UInt32, w.toNat = n :=
      ⟨UInt32.ofNat n, by rw [UInt32.toNat_ofNat', Nat.mod_eq_of_lt hn]⟩
    obtain ⟨len, hlen⟩ := hword (p.methods.length % 2 ^ 32 - 1) (by omega)
    obtain ⟨sum, hsum⟩ := hword _ hlt
    exact ⟨p, hp, len, by omega, sum, by omega, by omega⟩

/-! ### Handling a method -/

/-- The check of a method finds another number than the expected one. -/
def WrongIndex (currentTy : TypeInformation) (i : UInt32) (m : Method) (s : TypeState) : Prop :=
  m.attr.overrides = none ∧ ∃ k ∈ expectedIndex currentTy i s.overrideCount, m.index ≠ k

/-- A method is compiled, reported as an error or has a wrong number; the slots of the parent are known when
they are counted. -/
structure Handles (currentTy : TypeInformation) (i : UInt32) (m : Method) (s : TypeState) : Prop where
  ends : (∃ bm s', compileMethod currentTy i m s = (.ok bm, s')) ∨
    (∃ e s', compileMethod currentTy i m s = (.err e, s')) ∨
      (compileMethod currentTy i m s).1 = .panic ∧ WrongIndex currentTy i m s
  counts : m.attr.overrides = none → (expectedIndex currentTy i s.overrideCount).isSome

/-- The slots of the parent can be counted for a method behind `before`, and behind the check nothing else
panics. -/
structure Countable (currentTy : TypeInformation) (r : TypeReference) (before : List Method) (m : Method) :
    Prop where
  own : m.attr.overrides = none → ∃ k, CountsTo r before k
  overriding : m.attr.overrides ≠ none → overridingCount before + 1 < 2 ^ 32
  rest : (m.attr.overrides = none → CountsTo r before m.index.toNat) → ¬m.Panics currentTy

variable {currentTy : TypeInformation} {i : UInt32} {m : Method} {s : TypeState}

theorem compileMethod_of_check {s₁ : TypeState} (h : checkIndex currentTy i m s = (.ok (), s₁)) :
    compileMethod currentTy i m s = (implement m >>= fun _ => onAssembly (compileMethodBody currentTy m)) s₁ :=
  bind_of_ok h

omit [AssemblyBuilder] in
/-- A new method that has passed the check has the expected number. -/
private theorem expected_of_check {s₁ : TypeState} (h : checkIndex currentTy i m s = (.ok (), s₁))
    (hnew : m.attr.overrides = none) : expectedIndex currentTy i s.overrideCount = some m.index := by
  rcases checkIndex_eq_ok.1 h with ⟨-, hindex, -⟩ | ⟨⟨slot, hslot⟩, -⟩
  · exact hindex
  · cases hnew.symm.trans hslot

/-- A method that has passed the check is handled unless the rest of it panics. -/
theorem handles_of_check {s₁ : TypeState} (h : checkIndex currentTy i m s = (.ok (), s₁)) :
    Handles currentTy i m s ↔ ¬m.Panics currentTy := by
  rw [← (rest_ends currentTy m).panic_iff s₁, ← compileMethod_of_check h]
  constructor
  · rintro ⟨⟨bm, s', hok⟩ | ⟨e, s', herr⟩ | ⟨-, hnew, k, hk, hne⟩, -⟩ hpanic
    · rw [hok] at hpanic
      cases hpanic
    · rw [herr] at hpanic
      cases hpanic
    · exact hne (Option.some.inj ((expected_of_check h hnew).symm.trans hk))
  · intro hpanic
    refine ⟨?_, fun hnew => Option.isSome_iff_exists.2 ⟨_, expected_of_check h hnew⟩⟩
    rw [compileMethod_of_check h] at hpanic ⊢
    have hends := rest_ends currentTy m
    obtain hok | herr := hends.returns (fun hb => hpanic ((hends.panic_iff s₁).2 hb)) s₁
    · exact .inl hok
    · exact .inr (.inl herr)

omit [AssemblyBuilder] in
theorem checkIndex_okOrPanics : OkOrPanics (checkIndex currentTy i m) := by
  unfold checkIndex
  refine OkOrPanics.bind (fun s => .inl ⟨s, s, rfl⟩) fun s => ?_
  cases m.attr.overrides with
  | none =>
    refine OkOrPanics.bind (.unwrap _) fun expected => ?_
    split
    · exact .pure ()
    · exact .panic
  | some slot => exact OkOrPanics.bind (.unwrap _) fun count => fun s => .inl ⟨(), _, rfl⟩

/-- A check that fails panics. -/
theorem compileMethod_panic (h : ∀ s₁, checkIndex currentTy i m s ≠ (.ok (), s₁)) :
    compileMethod currentTy i m s = (.panic, (checkIndex currentTy i m s).2) := by
  rcases checkIndex_okOrPanics s with ⟨_, s₁, hok⟩ | hpanic
  · exact absurd hok (h s₁)
  · exact bind_of_panic (run_of_fst hpanic)

/-- A method whose check fails is handled only if the check finds a wrong number. -/
theorem handles_of_failed_check (h : ∀ s₁, checkIndex currentTy i m s ≠ (.ok (), s₁)) :
    Handles currentTy i m s ↔ WrongIndex currentTy i m s := by
  have hpanic := compileMethod_panic h
  constructor
  · rintro ⟨⟨bm, s', hok⟩ | ⟨e, s', herr⟩ | ⟨-, hwrong⟩, -⟩
    · cases hpanic.symm.trans hok
    · cases hpanic.symm.trans herr
    · exact hwrong
  · intro hwrong
    refine ⟨.inr (.inr ⟨by rw [hpanic], hwrong⟩), fun _ => ?_⟩
    obtain ⟨-, k, hk, -⟩ := hwrong
    exact Option.isSome_iff_exists.2 ⟨k, hk⟩

/-- A method that is reached in a class with a parent is handled exactly if the slots of the parent can be
counted and nothing else in the method panics. -/
theorem compileMethod_handles_iff {d : ClassDef} {r : TypeReference} (hparent : d.parent = some r) {a : Assembly}
    {before : List Method} (h : d.Reaches a before m s) :
    Handles d.toAbstract (UInt32.ofNat before.length) m s ↔ Countable d.toAbstract r before m := by
  have hexpected (k : UInt32) :
      expectedIndex d.toAbstract (UInt32.ofNat before.length) s.overrideCount = some k ↔
          CountsTo r before k.toNat :=
    expectedIndex_countsTo hparent h.overrideCount
  cases hover : m.attr.overrides with
  | none =>
    by_cases hcheck : CountsTo r before m.index.toNat
    · rw [handles_of_check (checkIndex_eq_ok.2 (.inl ⟨hover, (hexpected _).2 hcheck, rfl⟩))]
      exact ⟨fun hrest => ⟨fun _ => ⟨_, hcheck⟩, fun h => absurd hover h, fun _ => hrest⟩, fun hm =>
        hm.rest fun _ => hcheck⟩
    · rw [handles_of_failed_check fun s₁ hok => hcheck ((hexpected _).1 (expected_of_check hok hover))]
      constructor
      · rintro ⟨-, k, hk, -⟩
        exact ⟨fun _ => ⟨_, (hexpected k).1 hk⟩, fun h => absurd hover h, fun h => absurd (h hover) hcheck⟩
      · intro hm
        obtain ⟨k, hk⟩ := hm.own hover
        have hlt : k < 2 ^ 32 := by
          obtain ⟨p, -, -, hlt, hk⟩ := hk
          omega
        have hk' : (UInt32.ofNat k).toNat = k := by
          rw [UInt32.toNat_ofNat', Nat.mod_eq_of_lt hlt]
        refine ⟨hover, UInt32.ofNat k, (hexpected _).2 (by rwa [hk']), fun heq => hcheck ?_⟩
        rwa [heq, hk']
  | some slot =>
    have hnew : m.attr.overrides ≠ none := by simp [hover]
    by_cases hcount : overridingCount before + 1 < 2 ^ 32
    · have hadd : checkedAdd s.overrideCount 1 = some (s.overrideCount + 1) :=
        if_pos (by rwa [h.overrideCount])
      rw [handles_of_check (checkIndex_eq_ok.2 (.inr ⟨⟨slot, hover⟩, _, hadd, rfl⟩))]
      exact ⟨fun hrest => ⟨fun h => absurd h hnew, fun _ => hcount, fun _ => hrest⟩, fun hm =>
        hm.rest fun h => absurd h hnew⟩
    · rw [handles_of_failed_check]
      · exact iff_of_false (fun hwrong => hnew hwrong.1) fun hm => hcount (hm.overriding hnew)
      · intro s₁ hok
        rcases checkIndex_eq_ok.1 hok with ⟨h, -⟩ | ⟨-, c, hadd, -⟩
        · exact hnew h
        · have hc := checkedAdd_eq_some hadd
          rw [h.overrideCount] at hc
          exact hcount (hc ▸ c.toNat_lt)

end Parents

/-! ### Small parents -/

private def oneMethod : ClassDef := plainClass "A" 0 none [plainMethod "a" 0] []

private def childOfOne : ClassDef := plainClass "C" 1 (some (ownType "A")) [plainMethod "m" 0] []

private abbrev oneMethodService : CompilerService := ownService [] [.class oneMethod, .class childOfOne]

/-- The method of a class whose parent has one method is counted from the slot of that method. -/
theorem compileMethod_handles_iff_one :
    let _ := oneMethodService
    let _ := internBuilder
    ∃ s, Handles childOfOne.toAbstract 0 (plainMethod "m" 0) s := by
  intro _ _
  have hreaches : ∃ s, childOfOne.Reaches ⟨[], [], [], [], []⟩ [] (plainMethod "m" 0) s :=
    ⟨_, ⟨[], rfl⟩, _, _, _, _, _, rfl, rfl, rfl⟩
  obtain ⟨s, hreaches⟩ := hreaches
  refine ⟨s, (compileMethod_handles_iff rfl hreaches).2
    ⟨fun _ => ⟨0, ?_⟩, fun h => absurd rfl h, fun _ hpanics => ?_⟩⟩
  · exact ⟨oneMethod.toAbstract, by decide +kernel, by decide, by decide, by decide⟩
  · obtain ⟨c, hc, -⟩ | ⟨-, -, hstatements | ⟨-, htable⟩⟩ := hpanics
    · cases hc
    · cases hstatements
    · cases htable

private def noMethods : ClassDef := plainClass "A" 0 none [] []

/-- A class whose parent has no methods. -/
private def childOfNone : ClassDef := plainClass "B" 1 (some (ownType "A")) [plainMethod "m" 0] []

/-- A class whose parent is one of its type arguments. -/
private def childOfGeneric : ClassDef :=
  { plainClass "D" 2 (some (.typeGeneric (some "T") 0)) [plainMethod "m" 0] [] with generics := [⟨"T"⟩] }

private abbrev noMethodService : CompilerService :=
  ownService ["class[0]A\x7b\x7d", "class[1]B:[A]A\x7bmethod[0]m()->[A]A\x7b\x7d\x7d",
      "class[2]D[T]:T\x7bmethod[0]m()->[A]A\x7b\x7d\x7d"]
    [.class noMethods, .class childOfNone, .class childOfGeneric]

private theorem noMethods_loaded :
    (@loadFiles asciiLexer plainParser noMethodService ([0, 1, 2] : List Nat)
      (Compiler.new.setLastIndex 0)).file.types =
          [.class noMethods, .class childOfNone, .class childOfGeneric] := by
  decide +kernel

/-- A parent without methods and a parent that is a type argument are compiled, and their methods cannot be
counted. -/
theorem compileMethod_panics_noMethods :
    let _ := noMethodService
    let _ := internBuilder
    ∀ d ∈ [childOfNone, childOfGeneric],
      TypeDef.class d ∈ (@loadFiles asciiLexer plainParser _ ([0, 1, 2] : List Nat)
        (Compiler.new.setLastIndex 0)).file.types ∧
      ∃ s, d.Reaches ⟨[], [], [], [], []⟩ [] (plainMethod "m" 0) s ∧
        (compileMethod d.toAbstract 0 (plainMethod "m" 0) s).1 = .panic ∧
          ¬Handles d.toAbstract 0 (plainMethod "m" 0) s := by
  intro _ _ d hd
  rw [noMethods_loaded]
  rw [List.mem_pair] at hd
  rcases hd with rfl | rfl
  · refine ⟨by simp, _, ⟨⟨[], rfl⟩, _, _, _, _, _, rfl, rfl, rfl⟩, by decide +kernel, fun h => ?_⟩
    exact absurd (h.counts rfl) (by decide +kernel)
  · refine ⟨by simp, _, ⟨⟨[], rfl⟩, _, _, _, _, _, rfl, rfl, rfl⟩, by decide +kernel, fun h => ?_⟩
    exact absurd (h.counts rfl) (by decide +kernel)

end PuralinguaIR
