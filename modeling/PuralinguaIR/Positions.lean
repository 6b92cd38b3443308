import PuralinguaIR.Moves

/-!
# Where failed parsers leave the position

A name that cannot be unescaped and a content that goes wrong after its first token leave the position behind the
token, all other failures leave it where it was (`parse_err_index_iff`). A field takes its keyword only when debug
assertions are on, so without them it fails at the keyword (`Field.parseIn_ne`).
-/

namespace PuralinguaIR

open Text Effect Effect.Prog Reading

section Positions

variable [UniParser]

/-! ### Names and contents -/

/-- A token that is a string with an end. -/
def TokenKind.isStr : TokenKind → Bool
  | literal (.str terminated) _ => terminated
  | _ => false

omit [UniParser] in
private theorem subOrPanic_okOrPanics (stop n : Nat) : OkOrPanics (subOrPanic stop n) := by
  unfold subOrPanic
  split
  · exact .pure _
  · exact .panic

omit [UniParser] in
private theorem tokenText_okOrPanics (tk : TokenInfo) : OkOrPanics (tokenText tk) := by
  intro st
  exact OkOrPanics.unwrap (ε := ParseError) (textOf st.source tk.span) st

omit [UniParser] in
private theorem sliceOrPanic_okOrPanics (cs : List Char) (start stop : Nat) :
    OkOrPanics (sliceOrPanic cs start stop) :=
  .unwrap _

omit [UniParser] in
private theorem advance_okOrPanics : OkOrPanics advance := fun st => .inl ⟨(), st.skip 1, rfl⟩

/-- Only a name that cannot be unescaped is taken by the parser that refuses it. -/
theorem Identifier.parse_err {st st' : ParseStream} {e : ParseError} (h : Identifier.parse st = (.err e, st')) :
    (∃ tk, st.current = some tk ∧ tk.kind.isStr ∧ st' = st.skip 1) ∨
      (∀ tk, st.current = some tk → tk.kind.isStr = false) ∧ st' = st := by
  have hrun : current st = (.ok st.current, st) := rfl
  rw [Identifier.parse, bind_of_ok hrun] at h
  cases hc : st.current with
  | none =>
    rw [hc] at h
    exact .inr ⟨by simp, (congrArg Prod.snd h).symm⟩
  | some tk =>
    rw [hc] at h
    have hother (hkind : tk.kind.isStr = false) (hst : st = st') :
        (∃ tk', some tk = some tk' ∧ tk'.kind.isStr ∧ st' = st.skip 1) ∨
          (∀ tk', some tk = some tk' → tk'.kind.isStr = false) ∧ st' = st := by
      refine .inr ⟨fun tk' htk' => ?_, hst.symm⟩
      obtain rfl : tk = tk' := Option.some.inj htk'
      exact hkind
    obtain ⟨kind, span⟩ := tk
    cases kind with
    | literal kind suffixStart =>
      cases kind with
      | str terminated =>
        cases terminated with
        | false => exact hother rfl (congrArg Prod.snd h)
        | true =>
          refine .inl ⟨_, rfl, rfl, ?_⟩
          -- the token is taken before its text is unescaped
          rcases bind_eq_err.1 h with herr | ⟨text, s₁, htext, h₁⟩
          · exact absurd herr (tokenText_okOrPanics _).ne_err
          rcases bind_eq_err.1 h₁ with herr | ⟨stop, s₂, hstop, h₂⟩
          · exact absurd herr (subOrPanic_okOrPanics _ _).ne_err
          rcases bind_eq_err.1 h₂ with herr | ⟨cs, s₃, hcs, h₃⟩
          · exact absurd herr (sliceOrPanic_okOrPanics _ _ _).ne_err
          obtain ⟨rfl, rfl, rfl⟩ : s₁ = st ∧ s₂ = s₁ ∧ s₃ = s₂ :=
            ⟨tokenText_state htext, subOrPanic_state hstop, (unwrap_eq_ok.1 hcs).2⟩
          have hadvance : advance s₃ = (.ok (), s₃.skip 1) := rfl
          rw [bind_of_ok hadvance] at h₃
          rcases bind_eq_err.1 h₃ with herr | ⟨name, s₅, -, h₅⟩
          · exact okOr_eq_err herr
          · cases h₅
      | rawStr nHashes =>
        refine absurd h (OkOrPanics.ne_err ?_)
        exact (subOrPanic_okOrPanics _ _).bind fun _ => advance_okOrPanics.bind fun _ =>
          (tokenText_okOrPanics _).bind fun _ => (sliceOrPanic_okOrPanics _ _ _).bind fun _ => .pure _
      | _ => exact hother rfl (congrArg Prod.snd h)
    | identifier =>
      refine absurd h (OkOrPanics.ne_err ?_)
      exact advance_okOrPanics.bind fun _ => (tokenText_okOrPanics _).bind fun _ => .pure _
    | rawIdentifier =>
      refine absurd h (OkOrPanics.ne_err ?_)
      exact advance_okOrPanics.bind fun _ => (tokenText_okOrPanics _).bind fun _ =>
        (sliceOrPanic_okOrPanics _ _ _).bind fun _ => .pure _
    | _ => exact hother rfl (congrArg Prod.snd h)

variable [LawfulUniParser]

/-- A content that goes wrong is given back only when its first token begins none. -/
theorem LoadableContent.parse_err {isNegative : Option Bool} {tyGenerics methodGenerics : List Identifier}
    {st st' : ParseStream} {e : ParseError} (h : parse isNegative tyGenerics methodGenerics st = (.err e, st')) :
    (∃ tk, st.current = some tk ∧ tk.kind.beginsContent ∧ st.index < st'.index) ∨
      (∀ tk, st.current = some tk → tk.kind.beginsContent = Bool.false) ∧ st' = st := by
  cases hc : st.current with
  | none =>
    refine .inr ⟨by simp, ?_⟩
    exact (congrArg Prod.snd ((parseDepth_eof hc).symm.trans h)).symm
  | some tk =>
    cases hkind : tk.kind.beginsContent with
    | false =>
      refine .inr ⟨fun tk' htk' => ?_, ?_⟩
      · obtain rfl : tk = tk' := Option.some.inj htk'
        exact hkind
      · exact (congrArg Prod.snd ((parseDepth_unexpected hc hkind).symm.trans h)).symm
    | true =>
      refine .inl ⟨tk, rfl, hkind, ?_⟩
      have hforward : Forward (st.skip 1)
          (parseDepth tyGenerics methodGenerics (st.rest.length + 1) isNegative st).2 :=
        parseDepth_content (parseDepth_forward tyGenerics methodGenerics st.rest.length) hc hkind
      rw [show parseDepth tyGenerics methodGenerics (st.rest.length + 1) isNegative st = (.err e, st') from h]
        at hforward
      exact hforward.index_le

/-- A parser of a name that fails leaves the position exactly when the next token is no string with an end, and a
parser of a content that fails exactly when the next token begins no content. -/
theorem parse_err_index_iff {st : ParseStream} :
    (∀ e st', Identifier.parse st = (.err e, st') →
        (st'.index = st.index ↔ ∀ tk, st.current = some tk → tk.kind.isStr = false)) ∧
      ∀ isNegative tyGenerics methodGenerics e st',
        LoadableContent.parse isNegative tyGenerics methodGenerics st = (.err e, st') →
          (st'.index = st.index ↔ ∀ tk, st.current = some tk → tk.kind.beginsContent = false) := by
  constructor
  · intro e st' h
    rcases Identifier.parse_err h with ⟨tk, hc, hkind, rfl⟩ | ⟨hkind, rfl⟩
    · exact iff_of_false (Nat.succ_ne_self _) fun hall => by simp [hall tk hc] at hkind
    · exact iff_of_true rfl hkind
  · intro isNegative tyGenerics methodGenerics e st' h
    rcases LoadableContent.parse_err h with ⟨tk, hc, hkind, hlt⟩ | ⟨hkind, rfl⟩
    · exact iff_of_false (Nat.ne_of_gt hlt) fun hall => by simp [hall tk hc] at hkind
    · exact iff_of_true rfl hkind

/-! ### Fields in the two profiles -/

/-- At the keyword of a field, the two profiles never agree: without debug assertions the field is refused where it
stands, with them the keyword is taken. -/
theorem Field.parseIn_ne {st : ParseStream} {tk : TokenInfo} (hc : st.current = some tk)
    (hkind : tk.kind = Keyword.field) (tyGenerics : List Identifier) :
    Field.parseIn false tyGenerics st = (.err .noMatch, st) ∧
      st.index < (Field.parseIn true tyGenerics st).2.index ∧
      Field.parseIn true tyGenerics st ≠ Field.parseIn false tyGenerics st := by
  have hbracket : expect SpecialChar.bracketOpen st = (.err .noMatch, st) := by
    have hne : (tk.kind == .specialChar .bracketOpen) = false := by rw [hkind]; rfl
    simp [expect, require, takeIf, hc, hne]
  have hrelease : Field.parseIn false tyGenerics st = (.err .noMatch, st) := bind_of_err hbracket
  have hconsume : consume st = (.ok (some tk), st.skip 1) := by rw [consume, hc]
  have hassert : assert ((some tk).any (·.kind == .keyword .field)) (st.skip 1) = (.ok (), st.skip 1) := by
    simp [assert, hkind]
  have hdebug : Field.parseIn true tyGenerics st = Field.parseIn false tyGenerics (st.skip 1) := by
    rw [Field.parseIn_true, bind_of_ok hconsume]
    exact bind_of_ok hassert
  have hlt : st.index < (Field.parseIn true tyGenerics st).2.index := by
    rw [hdebug]
    exact (field_parseIn_forward false tyGenerics (st.skip 1)).index_le
  refine ⟨hrelease, hlt, fun heq => ?_⟩
  rw [heq, hrelease] at hlt
  exact absurd hlt (Nat.lt_irrefl _)

end Positions

/-! ### Three sources -/

/-- A name that cannot be unescaped and a number with an unknown suffix are taken by the parsers that refuse
them. -/
theorem parse_err_index_ne :
    let _ := plainParser
    let name := @ParseStream.new asciiLexer "\"\\q\"".toList
    let content := @ParseStream.new asciiLexer "5x".toList
    (Identifier.parse name).1 = .err .unescape ∧ (Identifier.parse name).2.index = 1 ∧
      (LoadableContent.parse none [] [] content).1 = .err (.custom "Suffix \x60x\x60 is unknown") ∧
      (LoadableContent.parse none [] [] content).2.index = 1 := by
  decide +kernel

/-- `parse_err_index_iff` at a bracket, which is no name, and at a number with an unknown suffix. -/
theorem parse_err_index_iff_bracket :
    let _ := plainParser
    (Identifier.parse (@ParseStream.new asciiLexer "[".toList)).2.index = 0 ∧
      (LoadableContent.parse none [] [] (@ParseStream.new asciiLexer "5x".toList)).2.index ≠ 0 := by
  intro _
  have _ := plainParser_lawful
  have hname : Identifier.parse (@ParseStream.new asciiLexer "[".toList) =
      (.err (.unexpect ⟨SpecialChar.bracketOpen, ⟨0, 1⟩⟩), _) := run_of_fst (by decide +kernel)
  have hcontent : LoadableContent.parse none [] [] (@ParseStream.new asciiLexer "5x".toList) =
      (.err (.custom "Suffix \x60x\x60 is unknown"), _) := run_of_fst (by decide +kernel)
  constructor
  · refine (parse_err_index_iff.1 _ _ hname).2 fun tk htk => ?_
    have hc : (@ParseStream.new asciiLexer "[".toList).current = some ⟨SpecialChar.bracketOpen, ⟨0, 1⟩⟩ := by
      decide +kernel
    exact Option.some.inj (hc.symm.trans htk) ▸ rfl
  · intro hindex
    have hall := (parse_err_index_iff.2 _ _ _ _ _ hcontent).1 hindex
    exact absurd (hall ⟨.literal (.int .decimal false) 1, ⟨0, 2⟩⟩ (by decide +kernel)) (by decide)

private def oneFieldSource : List Char := "field[0]x:[!]A;".toList

/-- A field that is accepted with debug assertions is refused without them. -/
theorem Field.parseIn_oneField :
    let _ := plainParser
    let st := @ParseStream.new asciiLexer oneFieldSource
    (Field.parseIn true [] st).1 = .ok ⟨⟨.private, false⟩, 0, ⟨"x"⟩, .common "!" "A" none []⟩ ∧
      (Field.parseIn true [] st).2.index = 11 ∧
      (Field.parseIn false [] st).1 = .err .noMatch ∧ (Field.parseIn false [] st).2.index = 0 := by
  decide +kernel

/-- `Field.parseIn_ne` at the same field. -/
theorem Field.parseIn_ne_oneField :
    let _ := plainParser
    let st := @ParseStream.new asciiLexer oneFieldSource
    Field.parseIn true [] st ≠ Field.parseIn false [] st := by
  intro _ st
  have _ := plainParser_lawful
  have hc : st.current = some ⟨Keyword.field, ⟨0, 5⟩⟩ := by decide +kernel
  exact (Field.parseIn_ne hc rfl []).2.2

end PuralinguaIR
