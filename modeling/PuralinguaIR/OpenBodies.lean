import PuralinguaIR.Moves
import PuralinguaIR.Query

/-!
# Bodies without an end

The body of a definition ends at its closing brace or at the end of the input, whichever comes first. A definition
whose header and members are read is therefore accepted also when the source ends after them
(`open_body_accepted`).
-/

namespace PuralinguaIR

open Text Effect Effect.Prog Reading

section Headers

variable [UniParser]

/-! ### Headers -/

/-- The part of a class before its body. -/
def ClassDef.parseHeader : Parser ClassDef := do
  let _ ← call (require Keyword.class)
  let _ ← call (require SpecialChar.bracketOpen)
  let (attr, index) ← attrAndIndex .class
  let _ ← call (require SpecialChar.bracketClose)
  let main ← do
    match ← attempt (expect Keyword.main) with
    | some _ => do
      let _ ← expect SpecialChar.parenthesisOpen
      let id ← integerIndex
      let _ ← expect SpecialChar.parenthesisClose
      pure (some id)
    | none => pure none
  let name ← call Identifier.parse
  let ⟨generics, isGenericInfinite⟩ ← call ParseGenericResult.parse
  let parent ← do
    match ← attempt (expect SpecialChar.colon) with
    | some _ => some <$> call (typeReference generics [])
    | none => pure none
  parseBounds
  pure { attr, index, main, name, generics, isGenericInfinite, parent, methods := [], fields := [] }

theorem ClassDef.parse_eq : ClassDef.parse = (do
    let d ← ClassDef.parseHeader
    let (methods, fields) ← parseMembers d.generics true
    pure { d with methods, fields }) := by
  simp only [ClassDef.parse, ClassDef.parseHeader, bind_assoc, pure_bind]
  refine bind_congr fun _ => bind_congr fun _ => bind_congr fun s => bind_congr fun _ => bind_congr fun o => ?_
  cases o with
  | none =>
    simp only [bind_assoc]
    refine bind_congr fun name => bind_congr fun g => bind_congr fun o => ?_
    cases o <;> simp only [bind_assoc, pure_bind]
  | some tk =>
    simp only [bind_assoc]
    refine bind_congr fun _ => bind_congr fun id => bind_congr fun _ => ?_
    refine bind_congr fun name => bind_congr fun g => bind_congr fun o => ?_
    cases o <;> simp only [bind_assoc, pure_bind]

/-- The part of a struct before its body. -/
def StructDef.parseHeader : Parser StructDef := do
  let _ ← call (require Keyword.struct)
  let _ ← call (require SpecialChar.bracketOpen)
  let (attr, index) ← attrAndIndex .struct
  let _ ← call (require SpecialChar.braceClose)
  let name ← call Identifier.parse
  let ⟨generics, isGenericInfinite⟩ ← call ParseGenericResult.parse
  parseBounds
  pure { attr, index, name, generics, isGenericInfinite, methods := [], fields := [] }

theorem StructDef.parse_eq : StructDef.parse = (do
    let d ← StructDef.parseHeader
    let (methods, fields) ← parseMembers d.generics true
    pure { d with methods, fields }) := by
  simp only [StructDef.parse, StructDef.parseHeader, bind_assoc, pure_bind]

/-- The part of an interface before its body. -/
def InterfaceDef.parseHeader : Parser InterfaceDef := do
  let _ ← call (require Keyword.interface)
  let _ ← call (require SpecialChar.bracketOpen)
  let (attr, index) ← attrAndIndex .interface
  let _ ← call (require SpecialChar.bracketClose)
  let name ← call Identifier.parse
  let ⟨generics, isGenericInfinite⟩ ← call ParseGenericResult.parse
  let requiredInterfaces ← do
    match ← attempt (expect SpecialChar.colon) with
    | some _ => call (punctuated true (call (typeReference generics [])) (require SpecialChar.comma))
    | none => pure []
  parseBounds
  pure { attr, index, name, generics, isGenericInfinite, requiredInterfaces, methods := [] }

theorem InterfaceDef.parse_eq : InterfaceDef.parse = (do
    let d ← InterfaceDef.parseHeader
    let (methods, _) ← parseMembers d.generics false
    pure { d with methods }) := by
  simp only [InterfaceDef.parse, InterfaceDef.parseHeader, bind_assoc, pure_bind]
  refine bind_congr fun _ => bind_congr fun _ => bind_congr fun s => bind_congr fun _ => ?_
  refine bind_congr fun name => bind_congr fun g => bind_congr fun o => ?_
  cases o <;> simp only [bind_assoc, pure_bind]

/-! ### Members -/

/-- Members are read one after the other, from `members` on. -/
inductive MembersRun (tyGenerics : List Identifier) (withFields : Bool) :
    List Method × List Field → ParseStream → List Method × List Field → ParseStream → Prop where
  | nil {members st} : MembersRun tyGenerics withFields members st members st
  | cons {members st members' st' members'' st''} :
      parseMember tyGenerics withFields members st = (.ok members', st') →
      MembersRun tyGenerics withFields members' st' members'' st'' →
      MembersRun tyGenerics withFields members st members'' st''

/-- An opening brace and complete members, after which the input ends. -/
def OpenBody (tyGenerics : List Identifier) (withFields : Bool) (st : ParseStream)
    (members : List Method × List Field) (st' : ParseStream) : Prop :=
  ∃ tk st₁, expect SpecialChar.braceOpen st = (.ok tk, st₁) ∧
    MembersRun tyGenerics withFields ([], []) st₁ members st' ∧ st'.current = none

omit [UniParser] in
theorem bodyEnd_eof {st : ParseStream} (h : st.current = none) : bodyEnd st = (.ok (), st) := by
  have hbrace : Declines (require SpecialChar.braceClose) st :=
    require_declines fun tk htk => by rw [← TokenStream.current_eq, h] at htk; cases htk
  refine bind_step hbrace.attempt ?_
  have hcurrent : current st = (.ok none, st) := by rw [current, h]
  exact bind_step hcurrent rfl

/-- Where a member begins, a body does not end. -/
theorem bodyEnd_declines_of_member {tyGenerics : List Identifier} {withFields : Bool}
    {members members' : List Method × List Field} {st st' : ParseStream}
    (h : parseMember tyGenerics withFields members st = (.ok members', st')) : Declines bodyEnd st := by
  obtain ⟨o, st₁, hcurrent, hmember⟩ := bind_eq_ok.1 h
  cases hcurrent
  cases hc : st.current with
  | none =>
    rw [hc] at hmember
    cases hmember
  | some tk =>
    rw [hc] at hmember
    have hkind : tk.kind ≠ SpecialChar.braceClose := by
      intro hkind
      simp only [hkind] at hmember
      cases hmember
    have hbrace : Declines (require SpecialChar.braceClose) st :=
      require_declines fun tk' htk' => by
        rw [← TokenStream.current_eq, hc, Option.some.injEq] at htk'
        exact htk' ▸ hkind
    refine ⟨.unexpect tk, bind_step hbrace.attempt ?_⟩
    have hcurrent : current st = (.ok (some tk), st) := by rw [current, hc]
    exact bind_step hcurrent rfl

variable [LawfulUniParser]

theorem MembersRun.fold {tyGenerics : List Identifier} {withFields : Bool}
    {members members' : List Method × List Field}
    {st st' : ParseStream} (h : MembersRun tyGenerics withFields members st members' st')
    (hend : st'.current = none) {n : Nat} (hn : st.rest.length < n) :
    foldUntilOk bodyEnd (parseMember tyGenerics withFields) n members st = (.ok members', st') := by
  induction h generalizing n with
  | nil =>
    obtain ⟨n, rfl⟩ : ∃ m, n = m + 1 := ⟨n - 1, by omega⟩
    exact foldUntilOk_end (bodyEnd_eof hend)
  | cons hmember _ ih =>
    obtain ⟨n, rfl⟩ : ∃ m, n = m + 1 := ⟨n - 1, by omega⟩
    have hlt := parseMember_consumes _ _ _ _ _ _ hmember
    rw [foldUntilOk_turn (bodyEnd_declines_of_member hmember) hmember]
    exact ih hend (by omega)

theorem OpenBody.parseMembers {tyGenerics : List Identifier} {withFields : Bool}
    {members : List Method × List Field}
    {st st' : ParseStream} (h : OpenBody tyGenerics withFields st members st') :
    parseMembers tyGenerics withFields st = (.ok members, st') := by
  obtain ⟨tk, st₁, hbrace, hrun, hend⟩ := h
  exact bind_step hbrace (hrun.fold hend (Nat.lt_succ_self _))

/-- A definition of any kind whose source ends after its members, before the closing brace of the body, is
accepted. -/
theorem open_body_accepted {st st₁ st₂ : ParseStream} {members : List Method × List Field} :
    (∀ d, ClassDef.parseHeader st = (.ok d, st₁) → OpenBody d.generics true st₁ members st₂ →
        ClassDef.parse st = (.ok { d with methods := members.1, fields := members.2 }, st₂)) ∧
      (∀ d, StructDef.parseHeader st = (.ok d, st₁) → OpenBody d.generics true st₁ members st₂ →
        StructDef.parse st = (.ok { d with methods := members.1, fields := members.2 }, st₂)) ∧
      (∀ d, InterfaceDef.parseHeader st = (.ok d, st₁) → OpenBody d.generics false st₁ members st₂ →
        InterfaceDef.parse st = (.ok { d with methods := members.1 }, st₂)) := by
  refine ⟨fun d hheader hbody => ?_, fun d hheader hbody => ?_, fun d hheader hbody => ?_⟩
  · rw [ClassDef.parse_eq]
    exact bind_step hheader (bind_step hbody.parseMembers rfl)
  · rw [StructDef.parse_eq]
    exact bind_step hheader (bind_step hbody.parseMembers rfl)
  · rw [InterfaceDef.parse_eq]
    exact bind_step hheader (bind_step hbody.parseMembers rfl)

end Headers

/-! ### Sources without an end -/

private def openClass : List Char := "class[0]A\x7bmethod[0]m()->[A]A\x7b\x7d".toList

/-- A class whose source ends after its only method. -/
theorem open_body_accepted_class :
    (@ClassDef.parse plainParser (@ParseStream.new asciiLexer openClass)).1 =
      .ok (plainClass "A" 0 none [plainMethod "m" 0] []) := by
  let _ := plainParser
  have _ := plainParser_lawful
  let st := @ParseStream.new asciiLexer openClass
  let d := plainClass "A" 0 none [] []
  let st₁ := (ClassDef.parseHeader st).2
  have hheader : ClassDef.parseHeader st = (.ok d, st₁) := run_of_fst (by decide +kernel)
  let st₂ := (expect SpecialChar.braceOpen st₁).2
  have hbrace : expect SpecialChar.braceOpen st₁ = (.ok ⟨SpecialChar.braceOpen, ⟨9, 10⟩⟩, st₂) :=
    run_of_fst (by decide +kernel)
  let members : List Method × List Field := ([plainMethod "m" 0], [])
  let st₃ := (parseMember d.generics true ([], []) st₂).2
  have hmember : parseMember d.generics true ([], []) st₂ = (.ok members, st₃) := run_of_fst (by decide +kernel)
  have hend : st₃.current = none := by decide +kernel
  have hbody : OpenBody d.generics true st₁ members st₃ := ⟨_, st₂, hbrace, .cons hmember .nil, hend⟩
  exact congrArg Prod.fst (open_body_accepted.1 d hheader hbody)

/-- The source has two opening braces and one closing brace, and is accepted. -/
theorem File.parse_openClass :
    @File.parse plainParser asciiLexer openClass 0 =
        .ok ⟨[.class (plainClass "A" 0 none [plainMethod "m" 0] [])]⟩ ∧
      (@lex asciiLexer openClass).countP (·.kind == .specialChar .braceOpen) = 2 ∧
      (@lex asciiLexer openClass).countP (·.kind == .specialChar .braceClose) = 1 := by
  decide +kernel

end PuralinguaIR
