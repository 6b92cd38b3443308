import PuralinguaIR.Buildable
import PuralinguaIR.Represents

/-!
# Builds that fail

However a build ends, it has built the types before the first that cannot be built: their definitions stay behind
those that were there and represent the types, nothing that was there is moved, and nothing of the type that could
not be built is put among the definitions (`Compiler.buildImpl_stops`).
-/

namespace PuralinguaIR

open Effect Effect.Prog

section Failing

variable [CompilerService] [AssemblyBuilder]

omit [CompilerService] [AssemblyBuilder] in
private theorem zipIdx_take {α : Type} (xs : List α) (k n : Nat) :
    (xs.take k).zipIdx n = (xs.zipIdx n).take k := by
  induction xs generalizing k n with
  | nil => simp
  | cons x xs ih =>
    cases k with
    | zero => rfl
    | succ k => simp [List.zipIdx_cons, ih]

/-- A type that is not compiled is not put among the definitions. -/
private theorem compileType_stops {order : EntryOrder} {t : TypeDef} {a a' : Assembly}
    (hfails : ¬∃ a', compileType order t a = (.ok (), a')) (h : (compileType order t a).2 = a') :
    a.Extends a' ∧ a'.typeDefs = a.typeDefs := by
  rw [compileType_eq] at hfails h
  have hext := compileDefinition_keeps (R := Assembly.Extends) order t a
  have hsame := compileDefinition_keeps (R := SameDefinitions) order t a
  rcases hrun : compileDefinition order t a with ⟨bt | _ | _ | _, a₁⟩
  · exact absurd ⟨_, bind_step hrun rfl⟩ hfails
  all_goals
    rw [bind_run, hrun] at h
    rw [hrun] at hext hsame
    obtain rfl : a₁ = a' := h
    exact ⟨hext, hsame.symm⟩

/-- The same behind the check of its number. -/
private theorem buildType_stops {order : EntryOrder} {lastIndex : UInt32} {i : Nat} {t : TypeDef} {a a' : Assembly}
    (hfails : ¬∃ a', (checkTypeIndex lastIndex i t >>= fun _ => compileType order t) a = (.ok (), a'))
    (h : ((checkTypeIndex lastIndex i t >>= fun _ => compileType order t) a).2 = a') :
    a.Extends a' ∧ a'.typeDefs = a.typeDefs := by
  have hkeeps : Keeps Eq (checkTypeIndex lastIndex i t) := by
    refine Keeps.bind (Keeps.unwrap _) fun expected => ?_
    split
    · exact Keeps.pure ()
    · exact Keeps.panic
  have hstate := hkeeps a
  rcases hrun : checkTypeIndex lastIndex i t a with ⟨_ | _ | _ | _, a₁⟩
  · rw [hrun] at hstate
    obtain rfl : a = a₁ := hstate
    rw [bind_of_ok hrun] at hfails h
    exact compileType_stops hfails h
  all_goals
    rw [bind_run, hrun] at h
    rw [hrun] at hstate
    obtain rfl : a₁ = a' := h
    obtain rfl : a = a₁ := hstate
    exact ⟨.refl _, rfl⟩

/-- A build goes through the types up to some place: that behind all types, or that of the first that it cannot
build, which decides how the build ends. -/
theorem Compiler.buildImpl_taken (c : Compiler) (orders : Nat → EntryOrder) (a : Assembly) :
    ∃ k a₁, ({ c with file.types := c.file.types.take k } : Compiler).buildImpl orders a = (.ok (), a₁) ∧
      (k = c.file.types.length ∧ c.buildImpl orders a = (.ok (), a₁) ∨ ∃ t, c.file.types[k]? = some t ∧
        (¬∃ a', (checkTypeIndex (c.lastIndex.getD 0) k t >>= fun _ => compileType (orders k) t) a₁ =
          (.ok (), a')) ∧ c.buildImpl orders a =
            (checkTypeIndex (c.lastIndex.getD 0) k t >>= fun _ => compileType (orders k) t) a₁) := by
  obtain ⟨k, a₁, htaken, hend⟩ := forM_stops (fun x => do
    checkTypeIndex (c.lastIndex.getD 0) x.2 x.1
    compileType (orders x.2) x.1) c.file.types.zipIdx a
  refine ⟨k, a₁, ?_, ?_⟩
  · rw [← htaken, ← zipIdx_take]
    rfl
  rcases hend with ⟨hk, hrun⟩ | ⟨⟨t, i⟩, hget, hfails, hrun⟩
  · exact .inl ⟨hk.trans List.length_zipIdx, hrun⟩
  · rw [List.getElem?_zipIdx, Option.map_eq_some_iff] at hget
    obtain ⟨t', ht', heq⟩ := hget
    obtain ⟨rfl, rfl⟩ : t' = t ∧ 0 + k = i := by simpa using heq
    rw [Nat.zero_add] at hfails hrun
    exact .inr ⟨t', ht', hfails, hrun⟩

/-- A build ends behind all types, or at the first that cannot be built; the definitions it has added are those of
the types before. -/
theorem Compiler.buildImpl_stops {c : Compiler} {orders : Nat → EntryOrder} {a a' : Assembly}
    (hlocals : ∀ t ∈ c.file.types, ∀ m ∈ t.methods, m.locals.length = m.attr.localVariableTypes.length)
    (h : (c.buildImpl orders a).2 = a') (ha : a'.Addressable) :
    a.Extends a' ∧ ∃ bts, a'.typeDefs = a.typeDefs ++ bts ∧ bts.length ≤ c.file.types.length ∧
      (∀ i t bt, c.file.types[i]? = some t → bts[i]? = some bt →
        c.BuildableAt i t ∧ t.RepresentedBy a' .compiled bt) ∧
      ∀ t, c.file.types[bts.length]? = some t → ¬c.BuildableAt bts.length t := by
  obtain ⟨k, a₁, hbefore, hend⟩ := c.buildImpl_taken orders a
  obtain ⟨hext, bts, hbts, hlen, hcompiled⟩ := Compiler.buildImpl_run hbefore
  have hbuildable := (Compiler.buildImpl_ok orders _).of_run hbefore
  have hlast : a₁.Extends a' ∧ a'.typeDefs = a₁.typeDefs ∧ k ≤ c.file.types.length ∧
      ∀ t, c.file.types[k]? = some t → ¬c.BuildableAt k t := by
    rcases hend with ⟨hk, hrun⟩ | ⟨t', ht', hfails, hrun⟩
    · obtain rfl : a₁ = a' := by rw [← h, hrun]
      refine ⟨.refl _, rfl, hk.le, fun t ht => ?_⟩
      rw [hk, List.getElem?_eq_none (Nat.le_refl _)] at ht
      cases ht
    · rw [hrun] at h
      obtain ⟨hext', hsame⟩ := buildType_stops hfails h
      refine ⟨hext', hsame, (List.getElem?_eq_some_iff.1 ht').1.le, fun t ht hbuildable => ?_⟩
      obtain rfl : t' = t := Option.some.inj (ht'.symm.trans ht)
      obtain ⟨_, s', hok⟩ := (buildType_ok (orders k) c k t' a₁).2 hbuildable
      exact hfails ⟨s', hok⟩
  obtain ⟨hext', hsame, hk, hnext⟩ := hlast
  have hlen' : bts.length = k := by
    rw [hlen]
    exact (List.length_take ..).trans (Nat.min_eq_left hk)
  refine ⟨hext.trans hext', bts, hsame.trans hbts, hlen'.trans_le hk, fun i t bt ht hbt => ?_, hlen' ▸ hnext⟩
  have hi : i < k := hlen' ▸ (List.getElem?_eq_some_iff.1 hbt).1
  have ht' : (c.file.types.take k)[i]? = some t := (List.getElem?_take_of_lt hi).trans ht
  obtain ⟨-, bt', hbt', hyields⟩ := hcompiled i t ht'
  obtain rfl : bt = bt' := Option.some.inj (hbt.symm.trans hbt')
  refine ⟨hbuildable i t ht', (hyields.mono (.refl _) hext').of_compiles ?_ (TypeDef.RepresentedBy.lasts t) ha⟩
  exact compileDefinition_compiles _ (hlocals t (List.mem_of_getElem? ht))

end Failing

/-- `Compiler.buildImpl_stops` for two classes, the second of which has not the number of its place. -/
theorem Compiler.buildImpl_stops_second :
    let types := [TypeDef.class (plainClass "A" 0 none [] []), .class (plainClass "B" 5 none [] [])]
    let _ := ownService [] types
    let _ := internBuilder
    let c : Compiler := ⟨⟨types⟩, some 0⟩
    let a' := (c.buildImpl (fun _ => .same) ⟨[], [], [], [], []⟩).2
    ∃ bt, a'.typeDefs = [bt] ∧ (TypeDef.class (plainClass "A" 0 none [] [])).RepresentedBy a' .compiled bt := by
  intro types _ _ c a'
  have ha : a'.Addressable := ⟨by decide +kernel, by decide +kernel, by decide +kernel⟩
  have hlocals : ∀ t ∈ c.file.types, ∀ m ∈ t.methods, m.locals.length = m.attr.localVariableTypes.length :=
    List.forall_mem_cons.2 ⟨fun _ h => absurd h List.not_mem_nil,
      List.forall_mem_singleton.2 fun _ h => absurd h List.not_mem_nil⟩
  have hlen : a'.typeDefs.length = 1 := by decide +kernel
  obtain ⟨-, bts, hbts, -, hbuilt, -⟩ := Compiler.buildImpl_stops hlocals rfl ha
  obtain ⟨bt, rfl⟩ := List.length_eq_one_iff.1 (hbts ▸ hlen)
  exact ⟨bt, hbts, (hbuilt 0 _ bt rfl rfl).2⟩

end PuralinguaIR
