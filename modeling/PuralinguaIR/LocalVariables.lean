import PuralinguaIR.Method
import PuralinguaIR.Progress

/-!
# Declarations of local variables

A method declares its local variables one after the other, each with a name and a type. The parser keeps the names
and the types in two lists, in the order of the declarations (`Method.parse_declarations`).
-/

namespace PuralinguaIR

open Effect Effect.Prog Reading

theorem Method.setAttr_locals {kw : Keyword} {s s' : MethodAttrState} (h : setAttr kw s = some s') :
    s'.attr.localVariableTypes = s.attr.localVariableTypes := by
  unfold setAttr at h
  repeat' split at h
  all_goals cases h <;> rfl

theorem Method.parseAttr_locals {st st' : ParseStream} {attr : MethodAttr TypeReference} {cc : CallConvention}
    {index : UInt32} (h : parseAttr st = (.ok (attr, cc, index), st')) : attr.localVariableTypes = [] := by
  obtain ⟨⟨s, tk⟩, st₁, hloop, h⟩ := bind_eq_ok.1 h
  have hs : s.attr.localVariableTypes = [] := by
    refine foldWhileOk_invariant (I := fun b : MethodAttrState × Option TokenInfo =>
      b.1.attr.localVariableTypes = []) ?_ rfl hloop
    rintro ⟨b, tk₀⟩ tk st ⟨c, tk₁⟩ st' hb hstep
    -- neither an index nor a modifier adds a local variable
    by_cases hint : tk.kind.isInt
    · simp only [hint, if_true] at hstep
      cases hstep
      exact hb
    · obtain ⟨kind, span⟩ := tk
      simp only [hint] at hstep
      cases kind with
      | keyword kw =>
        obtain ⟨c', st₂, hset, hc⟩ := bind_eq_ok.1 hstep
        cases hc
        rw [setAttr_locals (unwrap_eq_ok.1 hset).1]
        exact hb
      | _ => cases hstep
  obtain ⟨i, st₂, -, h⟩ := bind_eq_ok.1 h
  dsimp only at h
  cases i with
  | none => cases h
  | some i =>
    cases h
    split
    · exact hs
    · exact hs

section Parsing

variable [UniParser]

/-- The declarations between two positions of a method. -/
inductive Declarations (tyGenerics methodGenerics : List Identifier) :
    ParseStream → List (Identifier × TypeReference) → ParseStream → Prop where
  | nil {st} : Declarations tyGenerics methodGenerics st [] st
  | cons {st name st₁ tk st₂ ty st₃ ds st'} : call Identifier.parse st = (.ok name, st₁) →
      expect SpecialChar.colon st₁ = (.ok tk, st₂) → typeReference tyGenerics methodGenerics st₂ = (.ok ty, st₃) →
      Declarations tyGenerics methodGenerics st₃ ds st' →
      Declarations tyGenerics methodGenerics st ((name, ty) :: ds) st'

/-- Every turn of the loop reads one declaration. -/
private theorem WhileTurn.declarations (tyGenerics methodGenerics : List Identifier)
    {step : MethodAttr TypeReference × List Identifier → Identifier →
      Parser (MethodAttr TypeReference × List Identifier)}
    (hstep : ∀ b name st c st', step b name st = (.ok c, st') → ∃ tk st₁ ty,
      expect SpecialChar.colon st = (.ok tk, st₁) ∧ typeReference tyGenerics methodGenerics st₁ = (.ok ty, st') ∧
        c.1.localVariableTypes = b.1.localVariableTypes ++ [ty] ∧ c.2 = b.2 ++ [name])
    {b c : MethodAttr TypeReference × List Identifier} {st st' : ParseStream}
    (h : WhileTurn (call Identifier.parse) step b st c st') :
    ∃ ds, Declarations tyGenerics methodGenerics st ds st' ∧ c.2 = b.2 ++ ds.map Prod.fst ∧
      c.1.localVariableTypes = b.1.localVariableTypes ++ ds.map Prod.snd := by
  induction h with
  | here => exact ⟨[], .nil, by simp, by simp⟩
  | next hname hturn _ ih =>
    obtain ⟨tk, st₁, ty, hcolon, hty, htypes, hlocals⟩ := hstep _ _ _ _ _ hturn
    obtain ⟨ds, hds, hlocals', htypes'⟩ := ih
    refine ⟨_ :: ds, .cons hname hcolon hty hds, ?_, ?_⟩
    · rw [hlocals', hlocals]
      simp
    · rw [htypes', htypes]
      simp

theorem parseLocals_declarations {tyGenerics methodGenerics : List Identifier}
    {attr attr' : MethodAttr TypeReference}
    {locals : List Identifier} {st st' : ParseStream} (hattr : attr.localVariableTypes = [])
    (h : parseLocals attr tyGenerics methodGenerics st = (.ok (attr', locals), st')) :
    ∃ ds st₀ st₁, Declarations tyGenerics methodGenerics st₀ ds st₁ ∧ locals = ds.map Prod.fst ∧
      attr'.localVariableTypes = ds.map Prod.snd := by
  obtain ⟨o, st₁, -, h⟩ := bind_eq_ok.1 h
  cases o with
  | none =>
    cases h
    exact ⟨[], st, st, .nil, rfl, hattr⟩
  | some tk =>
    obtain ⟨tk', st₂, -, h⟩ := bind_eq_ok.1 h
    obtain ⟨⟨attr₁, locals₁⟩, st₃, hloop, h⟩ := bind_eq_ok.1 h
    obtain ⟨tk'', st₄, -, h⟩ := bind_eq_ok.1 h
    cases h
    obtain ⟨st₅, -, hturns, -⟩ := foldWhileOk_stops hloop
    have hdeclared := WhileTurn.declarations tyGenerics methodGenerics ?_ hturns
    · obtain ⟨ds, hds, hlocals, htypes⟩ := hdeclared
      exact ⟨ds, st₂, st₅, hds, hlocals, by simpa [hattr] using htypes⟩
    · rintro ⟨attr, locals⟩ name st ⟨attr', locals'⟩ st' hturn
      obtain ⟨tk, st₁, hcolon, hturn⟩ := bind_eq_ok.1 hturn
      obtain ⟨ty, st₂, hty, hturn⟩ := bind_eq_ok.1 hturn
      cases hturn
      exact ⟨tk, st₁, ty, hcolon, hty, rfl, rfl⟩

omit [UniParser] in
private theorem optional_eq_ok {α β : Type} {k : TokenKind} {p : Parser (Option β)} {f : Option β → Parser α}
    {st st' : ParseStream} {a : α}
    (h : (do
      let x ← do
        match ← Prog.attempt (expect k) with
        | some _ => p
        | none => pure none
      f x : Parser α) st = (.ok a, st')) : ∃ x st₁, f x st₁ = (.ok a, st') := by
  obtain ⟨o, st₁, -, h⟩ := bind_eq_ok.1 h
  cases o with
  | none => exact ⟨none, st₁, h⟩
  | some tk =>
    obtain ⟨x, st₂, -, h⟩ := bind_eq_ok.1 h
    exact ⟨x, st₂, h⟩

/-- The local variables of a method are its declarations. -/
theorem Method.parse_declarations {tyGenerics : List Identifier} {st st' : ParseStream} {m : Method}
    (h : parse tyGenerics st = (.ok m, st')) : ∃ ds st₀ st₁, Declarations tyGenerics m.generics st₀ ds st₁ ∧
      m.locals = ds.map Prod.fst ∧ m.attr.localVariableTypes = ds.map Prod.snd := by
  obtain ⟨tk, st₁, -, h⟩ := bind_eq_ok.1 h
  obtain ⟨_, st₂, -, h⟩ := bind_eq_ok.1 h
  obtain ⟨tk₃, st₃, -, h⟩ := bind_eq_ok.1 h
  obtain ⟨⟨attr, callConv, index⟩, st₄, hattr, h⟩ := bind_eq_ok.1 h
  obtain ⟨tk₅, st₅, -, h⟩ := bind_eq_ok.1 h
  obtain ⟨name, st₆, -, h⟩ := bind_eq_ok.1 h
  obtain ⟨⟨generics, isGenericInfinite⟩, st₇, -, h⟩ := bind_eq_ok.1 h
  obtain ⟨tk₈, st₈, -, h⟩ := bind_eq_ok.1 h
  obtain ⟨args, st₉, -, h⟩ := bind_eq_ok.1 h
  obtain ⟨tk₁₀, st₁₀, -, h⟩ := bind_eq_ok.1 h
  obtain ⟨tk₁₁, st₁₁, -, h⟩ := bind_eq_ok.1 h
  obtain ⟨returnType, st₁₂, -, h⟩ := bind_eq_ok.1 h
  obtain ⟨impl, st₁₃, h⟩ := optional_eq_ok h
  obtain ⟨bounds, st₁₄, -, h⟩ := bind_eq_ok.1 h
  cases bounds with
  | some tk => cases h
  | none =>
    obtain ⟨tk₁₅, st₁₅, -, h⟩ := bind_eq_ok.1 h
    obtain ⟨⟨attr', locals⟩, st₁₆, hlocals, h⟩ := bind_eq_ok.1 h
    obtain ⟨table, st₁₇, -, h⟩ := bind_eq_ok.1 h
    obtain ⟨statements, st₁₈, -, h⟩ := bind_eq_ok.1 h
    cases h
    exact parseLocals_declarations (parseAttr_locals (call_eq_ok.1 hattr)) (call_eq_ok.1 hlocals)

/-- The names and the types of the local variables are collected in step. -/
theorem Method.parse_locals {tyGenerics : List Identifier} {st st' : ParseStream} {m : Method}
    (h : parse tyGenerics st = (.ok m, st')) : m.locals.length = m.attr.localVariableTypes.length := by
  obtain ⟨ds, st₀, st₁, -, hlocals, htypes⟩ := parse_declarations h
  rw [hlocals, htypes, List.length_map, List.length_map]

end Parsing

end PuralinguaIR
