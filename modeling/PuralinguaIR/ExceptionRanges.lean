import PuralinguaIR.Resolving
import PuralinguaIR.Query

/-!
# Compiled exception ranges

A relative location is added to the beginning of its entry in machine arithmetic. The ranges that are compiled are
exactly the written ones, and compiling the table of a method brings no panic of its own, for every method with the
table exactly when no such sum leaves 64 bits (`compileMethod_exceptionTable_iff`).
-/

namespace PuralinguaIR

open Effect Effect.Prog

/-! ### Written and compiled ranges -/

/-- The place in the method that a location means. -/
def ExceptionLoc.written (begin : UInt64) (loc : ExceptionLoc) : Nat :=
  if loc.isRel then begin.toNat + loc.loc.toNat else loc.loc.toNat

/-- A compiled range is the written one. -/
structure rangeExact (begin : UInt64) (range : ExceptionLoc × ExceptionLoc) (r : Binary.Range) : Prop where
  start : r.start.toNat = range.1.written begin
  stop : r.stop.toNat = range.2.written begin

/-- All ranges of a compiled entry are the written ones. -/
structure ExceptionTableEntry.Exact (e : ExceptionTableEntry) (be : Binary.ExceptionTableEntry) : Prop where
  tryBegin : be.range.start = e.tryBegin
  tryEnd : be.range.stop.toNat = e.tryEnd.written e.tryBegin
  «catch» : rangeExact e.tryBegin e.catch be.catch
  «finally» : Option.Rel (rangeExact e.tryBegin) e.finally be.finally
  fault : Option.Rel (rangeExact e.tryBegin) e.fault be.fault

/-- The sums of an entry are machine words. -/
structure ExceptionTableEntry.Fits (e : ExceptionTableEntry) : Prop where
  tryEnd : e.tryEnd.Resolves e.tryBegin
  «catch» : rangeResolves e.tryBegin e.catch
  «finally» : ∀ r ∈ e.finally, rangeResolves e.tryBegin r
  fault : ∀ r ∈ e.fault, rangeResolves e.tryBegin r

theorem ExceptionLoc.resolve_eq_ok {loc : ExceptionLoc} {begin : UInt64} {a a' : Assembly} {n : UInt64}
    (h : loc.resolve begin a = (.ok n, a')) : loc.Resolves begin ∧ n.toNat = loc.written begin := by
  unfold resolve at h
  split at h
  · rename_i hrel
    split at h
    · rename_i hlt
      cases h
      refine ⟨fun _ => hlt, ?_⟩
      rw [written, if_pos hrel, UInt64.toNat_add, Nat.mod_eq_of_lt hlt, Nat.add_comm]
    · cases h
  · rename_i hrel
    cases h
    exact ⟨fun h => absurd h hrel, (if_neg hrel).symm⟩

theorem resolveRange_eq_ok {begin : UInt64} {range : ExceptionLoc × ExceptionLoc} {a a' : Assembly}
    {r : Binary.Range} (h : resolveRange begin range a = (.ok r, a')) :
    rangeResolves begin range ∧ rangeExact begin range r := by
  obtain ⟨start, a₁, hstart, h⟩ := bind_eq_ok.1 h
  obtain ⟨stop, a₂, hstop, h⟩ := bind_eq_ok.1 h
  cases h
  have hstart := ExceptionLoc.resolve_eq_ok hstart
  have hstop := ExceptionLoc.resolve_eq_ok hstop
  exact ⟨⟨hstart.1, hstop.1⟩, hstart.2, hstop.2⟩

private theorem optionRange_eq_ok {begin : UInt64} {o : Option (ExceptionLoc × ExceptionLoc)} {a a' : Assembly}
    {r : Option Binary.Range} (h : o.mapM (resolveRange begin) a = (.ok r, a')) :
    (∀ range ∈ o, rangeResolves begin range) ∧ Option.Rel (rangeExact begin) o r := by
  cases o with
  | none =>
    cases h
    exact ⟨by simp, .none⟩
  | some range =>
    obtain ⟨r, hr, rfl⟩ := map_eq_ok.1 h
    have hrange := resolveRange_eq_ok hr
    exact ⟨by simpa using hrange.1, .some hrange.2⟩

theorem ExceptionLoc.resolve_okOrPanics (loc : ExceptionLoc) (begin : UInt64) :
    OkOrPanics (loc.resolve begin) := by
  unfold resolve
  split
  · split
    · exact .pure _
    · exact .panic
  · exact .pure _

theorem resolveRange_okOrPanics (begin : UInt64) (range : ExceptionLoc × ExceptionLoc) :
    OkOrPanics (resolveRange begin range) :=
  (range.1.resolve_okOrPanics begin).bind fun _ => (range.2.resolve_okOrPanics begin).bind fun _ => .pure _

/-! ### Entries -/

section Entries

variable [CompilerService]

/-- The references of an entry have a meaning. -/
structure ExceptionTableEntry.ReferencesResolve (e : ExceptionTableEntry) : Prop where
  exceptionType : e.exceptionType.Resolves
  filter : ∀ f ∈ e.filter, f.1.Resolves ∧ f.2.Resolves (resolveTypeReference f.1) true

theorem ExceptionTableEntry.ReferencesResolve.resolves {e : ExceptionTableEntry} (h : e.ReferencesResolve)
    (hfits : e.Fits) : e.Resolves :=
  ⟨hfits.tryEnd, h.exceptionType, h.filter, hfits.catch, hfits.finally, hfits.fault⟩

variable [AssemblyBuilder]

/-- What is known of an entry that has been compiled. -/
theorem compileExceptionTableEntry_eq_ok {e : ExceptionTableEntry} {a a' : Assembly}
    {be : Binary.ExceptionTableEntry} (h : compileExceptionTableEntry e a = (.ok be, a')) :
    e.Fits ∧ e.Exact be := by
  obtain ⟨stop, a₁, hstop, h⟩ := bind_eq_ok.1 h
  obtain ⟨exceptionType, a₂, -, h⟩ := bind_eq_ok.1 h
  obtain ⟨filter, a₃, -, h⟩ := bind_eq_ok.1 h
  obtain ⟨«catch», a₄, hcatch, h⟩ := bind_eq_ok.1 h
  obtain ⟨«finally», a₅, hfinally, h⟩ := bind_eq_ok.1 h
  obtain ⟨fault, a₆, hfault, h⟩ := bind_eq_ok.1 h
  cases h
  have hstop := ExceptionLoc.resolve_eq_ok hstop
  have hcatch := resolveRange_eq_ok hcatch
  have hfinally := optionRange_eq_ok hfinally
  have hfault := optionRange_eq_ok hfault
  exact ⟨⟨hstop.1, hcatch.1, hfinally.1, hfault.1⟩, rfl, hstop.2, hcatch.2, hfinally.2, hfault.2⟩

theorem compileExceptionTableEntry_okOrPanics {e : ExceptionTableEntry} (h : e.ReferencesResolve) :
    OkOrPanics (compileExceptionTableEntry e) := by
  have hfilter : ∀ f ∈ e.filter, Succeeds (compileFilter f) := fun f hf =>
    Succeeds.bind (compileTypeReference_succeeds (h.filter f hf).1) fun _ =>
      Succeeds.bind (compileMethodReference_succeeds (h.filter f hf).2) fun _ => Succeeds.pure _
  refine (e.tryEnd.resolve_okOrPanics _).bind fun stop => ?_
  refine (compileTypeReference_succeeds h.exceptionType).okOrPanics.bind fun exceptionType => ?_
  refine (Succeeds.optionMapM hfilter).okOrPanics.bind fun filter => ?_
  refine (resolveRange_okOrPanics _ _).bind fun «catch» => ?_
  refine (OkOrPanics.optionMapM (resolveRange_okOrPanics _)).bind fun «finally» => ?_
  exact (OkOrPanics.optionMapM (resolveRange_okOrPanics _)).bind fun fault => .pure _

/-- A table whose references have a meaning is compiled exactly when all its sums are machine words; otherwise
compiling it is a panic. -/
theorem compileExceptionTable_run {entries : List ExceptionTableEntry} (h : ∀ e ∈ entries, e.ReferencesResolve)
    (a : Assembly) :
    (∀ e ∈ entries, e.Fits) ∧ (∃ table a', entries.mapM compileExceptionTableEntry a = (.ok table, a') ∧
        List.Forall₂ ExceptionTableEntry.Exact entries table) ∨
      ¬(∀ e ∈ entries, e.Fits) ∧ (entries.mapM compileExceptionTableEntry a).1 = .panic := by
  have hok {table : List Binary.ExceptionTableEntry} {a' : Assembly}
      (hrun : entries.mapM compileExceptionTableEntry a = (.ok table, a')) :
      List.Forall₂ (fun e be => e.Fits ∧ e.Exact be) entries table :=
    (forall₂_of_mapM hrun).imp fun e be ⟨_, _, he⟩ => compileExceptionTableEntry_eq_ok he
  by_cases hfits : ∀ e ∈ entries, e.Fits
  · have hsucceeds : Succeeds (entries.mapM compileExceptionTableEntry) :=
      Succeeds.mapM fun e he => compileExceptionTableEntry_succeeds ((h e he).resolves (hfits e he))
    obtain ⟨table, a', hrun⟩ := hsucceeds a
    exact .inl ⟨hfits, table, a', hrun, (hok hrun).imp fun _ _ h => h.2⟩
  · refine .inr ⟨hfits, ?_⟩
    rcases OkOrPanics.mapM (fun e he => compileExceptionTableEntry_okOrPanics (h e he)) a with
      ⟨table, a', hrun⟩ | hrun
    · refine absurd (fun e he => ?_) hfits
      obtain ⟨be, -, he, -⟩ := exists_of_forall₂ (hok hrun) he
      exact he
    · exact hrun

/-! ### Methods with a table -/

variable {currentTy : TypeInformation} {m : Method}

omit [CompilerService] [AssemblyBuilder] in
private theorem onAssembly_bind {α β : Type} (p : Builder α) (f : α → Builder β) :
    onAssembly (p >>= f) = onAssembly p >>= fun x => onAssembly (f x) := by
  funext s
  show _ = Prog.bind _ _ s
  simp only [onAssembly, zoom, bind_run, Prog.bind]
  rcases p s.assembly with ⟨_ | _ | _ | _, a⟩ <;> rfl

/-- Compile a table into a method without one. -/
def compileTable (entries : List ExceptionTableEntry) (bm : Binary.Method) : Builder Binary.Method := do
  let exceptionTable ← entries.mapM compileExceptionTableEntry
  pure { bm with exceptionTable }

/-- The table of a method is compiled last. -/
theorem compileMethod_eq_table (currentTy : TypeInformation) (i : UInt32) (m : Method) :
    compileMethod currentTy i m =
      compileMethod currentTy i { m with exceptionTable := [] } >>= fun bm =>
        onAssembly (compileTable m.exceptionTable bm) := by
  have hbody : compileMethodBody currentTy m =
      compileMethodBody currentTy { m with exceptionTable := [] } >>= fun bm =>
          compileTable m.exceptionTable bm := by
    simp only [compileMethodBody, compileTable, bind_assoc, pure_bind, List.mapM_nil]
    rfl
  have hcheck : checkIndex currentTy i m = checkIndex currentTy i { m with exceptionTable := [] } := rfl
  have himplement : implement m = implement { m with exceptionTable := [] } := rfl
  simp only [compileMethod, hbody, hcheck, himplement, bind_assoc, onAssembly_bind]

/-- What compiling a method does when it compiles without its table. -/
theorem compileMethod_table {i : UInt32} {s s₁ : TypeState} {bm : Binary.Method}
    (h : ∀ e ∈ m.exceptionTable, e.ReferencesResolve)
    (hrest : compileMethod currentTy i { m with exceptionTable := [] } s = (.ok bm, s₁)) :
    (∀ e ∈ m.exceptionTable, e.Fits) ∧
        (∃ table s', compileMethod currentTy i m s = (.ok { bm with exceptionTable := table }, s') ∧
          List.Forall₂ ExceptionTableEntry.Exact m.exceptionTable table) ∨
      ¬(∀ e ∈ m.exceptionTable, e.Fits) ∧ (compileMethod currentTy i m s).1 = .panic := by
  rw [compileMethod_eq_table, bind_of_ok hrest]
  rcases compileExceptionTable_run h s₁.assembly with ⟨hfits, table, a', hrun, hexact⟩ | ⟨hfits, hrun⟩
  · have htable : compileTable m.exceptionTable bm s₁.assembly = (.ok { bm with exceptionTable := table }, a') :=
      bind_step hrun rfl
    exact .inl ⟨hfits, table, _, onAssembly_ok htable, hexact⟩
  · refine .inr ⟨hfits, ?_⟩
    show (compileTable m.exceptionTable bm s₁.assembly).1 = .panic
    rw [compileTable, bind_run, run_of_fst hrun]

/-- When a method does not compile without its table, the table is not reached. -/
theorem compileMethod_rest {i : UInt32} {s : TypeState}
    (hrest : ¬∃ bm s₁, compileMethod currentTy i { m with exceptionTable := [] } s = (.ok bm, s₁)) :
    (compileMethod currentTy i m s).1 = (compileMethod currentTy i { m with exceptionTable := [] } s).1 := by
  rw [compileMethod_eq_table, bind_run]
  rcases hrun : compileMethod currentTy i { m with exceptionTable := [] } s with ⟨bm | _ | _ | _, s₁⟩
  · exact absurd ⟨bm, s₁, hrun⟩ hrest
  all_goals rfl

/-- What compiling a method with a table should do: when it succeeds, there is one compiled entry for each entry,
with the written ranges, and it panics only where the method without the table does. -/
structure CompilesExactly (currentTy : TypeInformation) (i : UInt32) (m : Method) (s : TypeState) : Prop where
  exact : ∀ bm s', compileMethod currentTy i m s = (.ok bm, s') →
    List.Forall₂ ExceptionTableEntry.Exact m.exceptionTable bm.exceptionTable
  panics : (compileMethod currentTy i m s).1 = .panic →
    (compileMethod currentTy i { m with exceptionTable := [] } s).1 = .panic

omit [CompilerService] [AssemblyBuilder] in
/-- A method that overrides one and has nothing else to compile than its table. -/
private def onlyTable (entries : List ExceptionTableEntry) : Method :=
  ⟨⟨.private, false, false, some 0, []⟩, .platformDefault, 0, ⟨"m"⟩, [], false, [], .typeGeneric none 0, none, [],
    entries, []⟩

private theorem onlyTable_compiles (currentTy : TypeInformation) (entries : List ExceptionTableEntry)
    (a : Assembly) :
    ∃ bm s', compileMethod currentTy 0 { onlyTable entries with exceptionTable := [] } ⟨a, [], 0⟩ =
    (.ok bm, s') := by
  have hresolves : Method.Resolves currentTy { onlyTable entries with exceptionTable := [] } := by
    constructor <;> simp [onlyTable, TypeReference.Resolves, TypeReference.resolve]
  obtain ⟨bm, a', hbody⟩ := compileMethodBody_succeeds hresolves a
  exact ⟨bm, _, bind_step rfl (bind_step rfl (onAssembly_ok hbody))⟩

/-- Every method with a table whose references have a meaning is compiled exactly if and only if no relative
location leaves 64 bits when it is added to the beginning of its entry. -/
theorem compileMethod_exceptionTable_iff {entries : List ExceptionTableEntry}
    (h : ∀ e ∈ entries, e.ReferencesResolve) :
    (∀ currentTy i m s, m.exceptionTable = entries → CompilesExactly currentTy i m s) ↔ ∀ e ∈ entries, e.Fits := by
  constructor
  · intro hexact
    let currentTy : TypeInformation := ⟨"A", "T", 0, ⟨.private, .class false false⟩, .exact 0, none, [], [], [],
      ""⟩
    let a : Assembly := ⟨[], [], [], [], []⟩
    obtain ⟨bm, s₁, hrest⟩ := onlyTable_compiles currentTy entries a
    rcases compileMethod_table (m := onlyTable entries) h hrest with ⟨hfits, -⟩ | ⟨-, hpanic⟩
    · exact hfits
    · have hpanic' := (hexact currentTy 0 (onlyTable entries) ⟨a, [], 0⟩ rfl).panics hpanic
      rw [hrest] at hpanic'
      cases hpanic'
  · rintro hfits currentTy i m s rfl
    by_cases hrest : ∃ bm s₁, compileMethod currentTy i { m with exceptionTable := [] } s = (.ok bm, s₁)
    · obtain ⟨bm, s₁, hrest⟩ := hrest
      rcases compileMethod_table h hrest with ⟨-, table, s', hrun, hexact⟩ | ⟨hnot, -⟩
      · refine ⟨fun bm' s'' hbm => ?_, fun hpanic => ?_⟩
        · cases hrun.symm.trans hbm
          exact hexact
        · rw [hrun] at hpanic
          cases hpanic
      · exact absurd hfits hnot
    · have hend := compileMethod_rest hrest
      refine ⟨fun bm s' hbm => absurd ⟨bm, _, run_of_fst (hend.symm.trans (congrArg Prod.fst hbm))⟩ hrest, ?_⟩
      exact fun hpanic => hend ▸ hpanic

end Entries

/-! ### Two tables -/

private abbrev ownClassService : CompilerService := ownService [] [.class (plainClass "A" 0 none [] [])]

/-- An entry with a range that ends `loc` after its beginning. -/
private def entryFrom (tryBegin loc : UInt64) : ExceptionTableEntry :=
  ⟨tryBegin, ⟨true, loc⟩, ownType "A", none, (⟨false, 1⟩, ⟨false, 2⟩), none, some (⟨true, 3⟩, ⟨false, 4⟩)⟩

private theorem entryFrom_referencesResolve (tryBegin loc : UInt64) :
    let _ := ownClassService
    (entryFrom tryBegin loc).ReferencesResolve := by
  intro _
  exact ⟨by show (ownType "A").Resolves; unfold TypeReference.Resolves; decide, by simp [entryFrom]⟩

/-- A table whose sums are machine words. -/
theorem compileMethod_exceptionTable_iff_fits :
    let _ := ownClassService
    let _ := internBuilder
    ∀ currentTy i m s, m.exceptionTable = [entryFrom 5 9] → CompilesExactly currentTy i m s := by
  intro _ _
  refine (compileMethod_exceptionTable_iff ?_).2 ?_
  · rw [List.forall_mem_singleton]
    exact entryFrom_referencesResolve 5 9
  · rw [List.forall_mem_singleton]
    constructor <;> simp [entryFrom, rangeResolves, ExceptionLoc.Resolves]

/-- A parsed method whose table makes its compilation panic, which succeeds without the table. -/
theorem compileMethod_exceptionTable_overflow :
    let _ := ownClassService
    let _ := internBuilder
    let source :=
      "method[0]m()->[A]A\x7bexception_table\x7b18446744073709551615..try_rel 1[A]A=>\x7b" ++
        "ExceptionCatch 1..2 ExceptionFault try_rel 3..4\x7d\x7d\x7d"
    let m := { plainMethod "m" 0 with exceptionTable := [entryFrom 18446744073709551615 1] }
    let currentTy := (plainClass "A" 0 none [] []).toAbstract
    (@Method.parse plainParser [] (@ParseStream.new asciiLexer source.toList)).1 = .ok m ∧
      (∀ e ∈ m.exceptionTable, e.ReferencesResolve) ∧
          ¬CompilesExactly currentTy 0 m ⟨⟨[], [], [], [], []⟩, [], 0⟩ := by
  intro _ _ source m currentTy
  refine ⟨by decide +kernel, ?_, fun h => ?_⟩
  · rw [List.forall_mem_singleton]
    exact entryFrom_referencesResolve _ _
  · have hpanic := h.panics (by decide)
    revert hpanic
    decide

end PuralinguaIR
