import PuralinguaIR.LiteralPanics
import PuralinguaIR.Safety

/-!
# Sources that break no parser

A few kinds of tokens can end a run of the parser with a panic, or keep it from ending: floats, raw strings cut
short, numbers too large for their place, hyphens before what has no sign, `where` and `ExceptionTable`. A
source in which none of them stands where it does harm is `Harmless`.
-/

namespace PuralinguaIR

open Text Effect Effect.Prog Reading

/-- A derived parser ends as one of its alternatives does somewhere behind the position, or with an error. -/
class DerivingUniParser [UniParser] : Prop extends LawfulUniParser where
  firstOf_run : ∀ {α : Type} {ps : List (Parser α)} {st}, (∀ p ∈ ps, Keeps Forward p) →
    (∃ e st', firstOf ps st = (.err e, st')) ∨ ∃ p ∈ ps, ∃ st', Forward st st' ∧ firstOf ps st = p st'

theorem plainParser_deriving : @DerivingUniParser plainParser := by
  let _ := plainParser
  refine { plainParser_lawful with firstOf_run := fun {α ps st} hps => ?_ }
  show (∃ e st', tryInOrder ps st = (.err e, st')) ∨ ∃ p ∈ ps, ∃ st', Forward st st' ∧ tryInOrder ps st = p st'
  induction ps with
  | nil => exact .inl ⟨.noMatch, st, rfl⟩
  | cons p ps ih =>
    have hp := hps p List.mem_cons_self st
    rcases hrun : p st with ⟨_ | _ | _ | _, st'⟩
    case err e =>
      rw [hrun] at hp
      rcases ih fun q hq => hps q (List.mem_cons_of_mem p hq) with ⟨e', st'', h⟩ | ⟨q, hq, st'', hf, h⟩
      · exact .inl ⟨e', st'', by simp only [tryInOrder, hrun, hp.reset, h]⟩
      · exact .inr ⟨q, List.mem_cons_of_mem p hq, st'', hf, by simp only [tryInOrder, hrun, hp.reset, h]⟩
    all_goals exact .inr ⟨p, List.mem_cons_self, st, .refl st, by simp only [tryInOrder, hrun]⟩

/-! ### Tokens that do no harm -/

/-- The kind of the token before the position. -/
def previousKind (st : ParseStream) : Option TokenKind :=
  if st.index = 0 then none else st.tokens[st.index - 1]?.map (·.kind)

theorem previousKind_skip {st : ParseStream} {tk : TokenInfo} (hc : st.current = some tk) :
    previousKind (st.skip 1) = some tk.kind := by
  have htoken : (st.skip 1).tokens[(st.skip 1).index - 1]? = some tk := hc
  have hindex : (st.skip 1).index ≠ 0 := Nat.succ_ne_zero st.index
  rw [previousKind, if_neg hindex, htoken]
  rfl

/-- The tokens behind which a content stands. -/
def TokenKind.leadsContent (k : TokenKind) : Bool := k == .statementKeyword .load || k == .specialChar .hyphen

/-- An integer at the position is no content that is loaded. -/
def AtOperand (st : ParseStream) : Prop := ∀ k ∈ previousKind st, k.leadsContent = false

theorem atOperand_skip {st : ParseStream} {tk : TokenInfo} (hc : st.current = some tk)
    (hk : tk.kind.leadsContent = false) : AtOperand (st.skip 1) := by
  intro k hprevious
  rw [previousKind_skip hc] at hprevious
  obtain rfl := Option.some.inj hprevious
  exact hk

/-- What stands at the position breaks no parser, when numbers must be below `bound`. -/
structure HarmlessAt (bound : Nat) (st : ParseStream) : Prop where
  name : ¬BadName st
  integer : AtOperand st → ¬BadInteger bound st
  sign : previousKind st = some (.specialChar .hyphen) → ∀ tk ∈ st.current, tk.kind.refusesSign = false
  float : ∀ tk ∈ st.current, tk.kind.isFloat = false
  keyword : ∀ tk ∈ st.current, tk.kind ≠ .keyword .where ∧ tk.kind ≠ .keyword .exceptionTable

/-- An integer token has digits that are a number below `bound`. -/
def TokenInfo.isBelow (bound : Nat) (src : List Char) (tk : TokenInfo) : Bool :=
  match tk.kind with
  | .literal (.int b _) suffixStart =>
    ((textOf src tk.span).bind fun text => slice text 0 suffixStart).any fun main =>
    decide (b.Fits (main.drop b.marker.length) bound)
  | _ => true

/-- The token, behind one of the given kind, breaks no parser. -/
def TokenInfo.isHarmless (bound : Nat) (src : List Char) (previous : Option TokenKind) (tk : TokenInfo) : Bool :=
  !tk.isCutShort src && (previous.any (·.leadsContent) || tk.isBelow bound src) &&
    (previous != some (.specialChar .hyphen) || !tk.kind.refusesSign) && !tk.kind.isFloat &&
      tk.kind != .keyword .where && tk.kind != .keyword .exceptionTable

private theorem isBelow_iff {bound : Nat} {src : List Char} {tk : TokenInfo} {b : Base} {digits : List Char}
    (htext : IntegerText src tk b digits) : tk.isBelow bound src ↔ b.Fits digits bound := by
  obtain ⟨emptyInt, suffix, hkind, htext⟩ := htext
  have hslice : slice (b.marker ++ digits ++ suffix) 0 (byteLen (b.marker ++ digits)) =
      some (b.marker ++ digits) := by
    have h := slice_append [] (b.marker ++ digits) suffix
    rwa [List.nil_append, byteLen_nil, Nat.zero_add] at h
  rw [TokenInfo.isBelow, hkind, htext]
  dsimp only
  rw [Option.bind_some, hslice, Option.any_some, List.drop_left, decide_eq_true_iff]

theorem HarmlessAt.of_isHarmless {bound : Nat} {st : ParseStream}
    (h : ∀ tk ∈ st.current, tk.isHarmless bound st.source (previousKind st)) : HarmlessAt bound st := by
  have hall (tk : TokenInfo) (htk : tk ∈ st.current) := h tk htk
  simp only [TokenInfo.isHarmless, Bool.and_eq_true, Bool.not_eq_true', Bool.or_eq_true, bne_iff_ne] at hall
  refine ⟨?_, fun hat => ?_, fun hprevious tk htk => ?_, fun tk htk => (hall tk htk).1.1.2, fun tk htk => ?_⟩
  · rintro ⟨tk, htk, hcut⟩
    rw [(hall tk htk).1.1.1.1.1] at hcut
    cases hcut
  · rintro ⟨tk, htk, b, digits, htext, hfits⟩
    rcases (hall tk htk).1.1.1.1.2 with hleads | hbelow
    · obtain ⟨k, hk, hleads⟩ := (Option.any_eq_true ..).1 hleads
      rw [hat k hk] at hleads
      cases hleads
    · exact hfits ((isBelow_iff htext).1 hbelow)
  · rcases (hall tk htk).1.1.1.2 with hne | hsign
    · exact absurd hprevious hne
    · exact hsign
  · exact ⟨(hall tk htk).1.2, (hall tk htk).2⟩

section Sources

variable [UniLexer]

/-- No token of the source breaks a parser. -/
def Harmless (bound : Nat) (src : List Char) : Prop := ∀ index, HarmlessAt bound ⟨src, lex src, index⟩

/-- It is enough to check the tokens one after the other, each with the one before it. -/
theorem Harmless.of_check {bound : Nat} {src : List Char}
    (h : ∀ p ∈ (lex src).zip (none :: (lex src).map (some ·.kind)), p.1.isHarmless bound src p.2) :
    Harmless bound src := by
  intro index
  refine .of_isHarmless fun tk htk => ?_
  refine h (tk, previousKind ⟨src, lex src, index⟩) (List.mem_of_getElem? (i := index) ?_)
  rw [List.getElem?_zip_eq_some]
  refine ⟨htk, ?_⟩
  cases index with
  | zero => rfl
  | succ i =>
    have hlt : i + 1 < (lex src).length := (List.getElem?_eq_some_iff.1 htk).1
    have hprevious := List.getElem?_eq_getElem (Nat.lt_of_succ_lt hlt)
    rw [List.getElem?_cons_succ, List.getElem?_map, hprevious]
    simp [previousKind, hprevious]

/-- A stream over a harmless source without invalid tokens. -/
structure Clean (bound : Nat) (st : ParseStream) : Prop where
  lexed : Lexed st
  valid : ∀ tk ∈ st.tokens, tk.kind.isInvalid = false
  harmless : Harmless bound st.source

namespace Clean

variable {bound : Nat} {st st' : ParseStream}

theorem stable (bound : Nat) : Stable (Clean bound) := by
  intro st st' hf h
  refine ⟨h.lexed.forward hf, ?_, ?_⟩
  · rw [hf.tokens]
    exact h.valid
  · rw [hf.source]
    exact h.harmless

theorem forward (h : Clean bound st) (hf : Forward st st') : Clean bound st' := stable bound st st' hf h

theorem harmlessAt (h : Clean bound st) : HarmlessAt bound st := by
  have hat := h.harmless st.index
  rwa [← h.lexed] at hat

end Clean

/-- A clean stream at a place where an operand may stand. -/
def CleanOperand (bound : Nat) (st : ParseStream) : Prop := Clean bound st ∧ AtOperand st

/-- From a clean stream, the parser ends at a clean stream or with an error. -/
abbrev Runs (bound : Nat) {α : Type} (p : Parser α) : Prop := Safe (Clean bound) p fun _ => Clean bound

/-- The same from where an operand may stand. -/
abbrev RunsAt (bound : Nat) {α : Type} (p : Parser α) : Prop := Safe (CleanOperand bound) p fun _ => Clean bound

/-- The same up to where an operand may stand. -/
abbrev RunsTo (bound : Nat) {α : Type} (p : Parser α) : Prop := Safe (Clean bound) p fun _ => CleanOperand bound

variable {bound : Nat} {α β : Type} {K : α → ParseStream → Prop}

theorem runs_of_forward {p : Parser α} (hk : Keeps Forward p) (hp : ∀ st, Clean bound st → ¬Breaks p st) :
    Runs bound p :=
  safe_of_forward (Clean.stable bound) hk hp

theorem RunsTo.runs {p : Parser α} (h : RunsTo bound p) : Runs bound p := h.mono (fun _ h => h) fun _ _ h => h.1

theorem Runs.runsAt {p : Parser α} (h : Runs bound p) : RunsAt bound p := h.mono (fun _ h => h.1) fun _ _ h => h

theorem RunsAt.map {p : Parser α} (h : RunsAt bound p) (f : α → β) : RunsAt bound (f <$> p) :=
  Safe.map (K := fun _ => Clean bound) h

theorem runs_pure (a : α) : Runs bound (pure a : Parser α) := Safe.pure fun _ h => h

/-! ### Tokens -/

theorem takeIf_runsTo {p : TokenInfo → Bool} {e : ParseStream → ParseError}
    (hp : ∀ tk, p tk → tk.kind.leadsContent = false) : RunsTo bound (takeIf p e) :=
  safe_takeIf fun st tk hst hc htk => ⟨hst.forward (.skip st 1), atOperand_skip hc (hp tk htk)⟩

theorem require_runsTo {k : TokenKind} (hk : k.leadsContent = false) : RunsTo bound (require k) := by
  refine takeIf_runsTo fun tk htk => ?_
  rw [eq_of_beq htk]
  exact hk

theorem require_runs (k : TokenKind) : Runs bound (require k) :=
  safe_takeIf fun st _ hst _ _ => hst.forward (.skip st 1)

theorem attempt_runs {p : Parser α} (hk : Keeps Forward p) (hp : Runs bound p) : Runs bound (attempt p) :=
  (safe_attempt (Clean.stable bound) hk hp).mono (fun _ h => h) fun _ _ h => h.1

variable [UniParser]

omit [UniLexer] in
theorem safe_call {I : ParseStream → Prop} {J : α → ParseStream → Prop} {p : Parser α} (h : Safe I p J) :
    Safe I (call p) J :=
  fun st hst => ⟨fun hbreaks => (h st hst).1 (breaks_call.1 hbreaks),
    fun a st' ha => (h st hst).2 a st' (call_eq_ok.1 ha)⟩

/-! ### Operands -/

omit [UniLexer] in
/-- No name begins with a token that leads a content. -/
private theorem identifier_not_leads {st st' : ParseStream} {tk : TokenInfo} {name : Identifier}
    (hc : st.current = some tk) (h : Identifier.parse st = (.ok name, st')) : tk.kind.leadsContent = false := by
  have hrun : current st = (.ok (some tk), st) := congrArg (fun o => (Outcome.ok o, st)) hc
  rw [Identifier.parse, bind_of_ok hrun] at h
  obtain ⟨kind, span⟩ := tk
  cases kind with
  | specialChar c => cases h
  | statementKeyword k => cases h
  | _ => rfl

theorem identifier_runsTo : RunsTo bound Identifier.parse := by
  intro st hst
  constructor
  · rw [Identifier.breaks_parse hst.lexed]
    exact hst.harmlessAt.name
  · intro name st' h
    obtain ⟨rfl, tk, hc⟩ := Identifier.parse_eq_ok h
    exact ⟨hst.forward (.skip st 1), atOperand_skip hc (identifier_not_leads hc h)⟩

theorem name_runs {f : Identifier → Parser α} (hf : ∀ name, Safe (Clean bound) (f name) K) :
    Safe (Clean bound) (call Identifier.parse >>= f) K :=
  (safe_call identifier_runsTo.runs).bind hf

omit [UniLexer] [UniParser] in
theorem BadInteger.mono {m n : Nat} {st : ParseStream} (h : BadInteger n st) (hmn : m ≤ n) : BadInteger m st := by
  obtain ⟨tk, htk, b, digits, htext, hfits⟩ := h
  exact ⟨tk, htk, b, digits, htext, fun h' => hfits ⟨h'.ne_nil, h'.isDigit, Nat.lt_of_lt_of_le h'.value_lt hmn⟩⟩

omit [UniParser] in
theorem CleanOperand.not_badInteger {st : ParseStream} (h : CleanOperand bound st) {n : Nat} (hn : bound ≤ n) :
    ¬BadInteger n st :=
  fun hbad => h.1.harmlessAt.integer h.2 (hbad.mono hn)

omit [UniParser] in
theorem runsAt_of_forward {p : Parser α} (hk : Keeps Forward p) (hp : ∀ st, CleanOperand bound st → ¬Breaks p st) :
    RunsAt bound p :=
  fun st hst => ⟨hp st hst, fun _ _ ha => hst.1.forward (hk.of_run ha)⟩

variable [LawfulUniParser]

theorem integerValue_runsAt (hbound : bound ≤ 2 ^ 64) : RunsAt bound integerValue := by
  refine runsAt_of_forward integerValue_forward fun st hst => ?_
  rw [integerValue_breaks hst.1.lexed]
  exact hst.not_badInteger hbound

theorem integerIndex_runsAt (hbound : bound ≤ 2 ^ 32) : RunsAt bound integerIndex := by
  refine runsAt_of_forward integerIndex_forward fun st hst => ?_
  rcases integer_cases hst.1.lexed with ⟨tk, b, digits, hc, htext⟩ | hnone
  · have hfits := not_not.1 ((badInteger_iff hc htext).not.1 (hst.not_badInteger hbound))
    have hrun := integerIndex_run hst.1.lexed hc htext
    rw [if_pos hfits] at hrun
    exact not_breaks_of_ok hrun
  · obtain ⟨e, he⟩ := integerIndex_declines hnone
    exact not_breaks_of_err he

private theorem indexOrName_not_breaks (hbound : bound ≤ 2 ^ 32) (byIndex : UInt32 → α) (byName : Identifier → α)
    {st : ParseStream} (hst : CleanOperand bound st) :
    ¬Breaks (firstOf [byIndex <$> integerIndex, byName <$> call Identifier.parse]) st := by
  rw [breaks_indexOrName hst.1.lexed, not_or]
  exact ⟨hst.not_badInteger hbound, hst.1.harmlessAt.name⟩

theorem itemRef_runsAt (hbound : bound ≤ 2 ^ 32) : RunsAt bound ItemRef.parse :=
  runsAt_of_forward itemRef_parse_forward fun _ => indexOrName_not_breaks hbound _ _

theorem fieldReference_runsAt (hbound : bound ≤ 2 ^ 32) : RunsAt bound FieldReference.parse :=
  runsAt_of_forward fieldReference_parse_forward fun _ => indexOrName_not_breaks hbound _ _

theorem arrayLen_runsAt (hbound : bound ≤ 2 ^ 64) : RunsAt bound ArrayLen.parse := by
  refine runsAt_of_forward arrayLen_parse_forward fun st hst => ?_
  rcases integer_cases hst.1.lexed with ⟨tk, b, digits, hc, htext⟩ | hnone
  · have hfits := not_not.1 ((badInteger_iff hc htext).not.1 (hst.not_badInteger hbound))
    have hrun := integerValue_run hst.1.lexed hc htext
    rw [if_pos hfits] at hrun
    exact not_breaks_of_ok (UniParser.firstOf_ok (map_eq_ok.2 ⟨_, hrun, rfl⟩))
  · -- without an integer only the second alternative is left
    have hname : ¬Breaks (ArrayLen.dynamic <$> call Identifier.parse) st := by
      rw [breaks_map, breaks_call]
      exact (identifier_runsTo st hst.1).1
    rw [ArrayLen.parse, Breaks, UniParser.firstOf_declines ((integerValue_declines hnone).map _)]
    rcases not_breaks_iff.1 hname with ⟨a, st', ha⟩ | ⟨e, st', he⟩
    · exact not_breaks_of_ok (UniParser.firstOf_ok ha)
    · obtain ⟨e', st'', he'⟩ := LawfulUniParser.firstOf_err he
      exact not_breaks_of_err he'

/-! ### References -/

variable (tyGenerics methodGenerics : List Identifier)

omit [UniLexer] in
private theorem AfterAssembly.forward {st st' : ParseStream} (h : AfterAssembly st st') : Forward st st' := by
  obtain ⟨tk, st₁, name, st₂, tk', hopen, hname, hclose⟩ := h
  exact (((require_forward _).of_run hopen).trans (assemblyName_forward.of_run hname)).trans
    ((require_forward _).of_run hclose)

omit [UniLexer] in
variable {tyGenerics methodGenerics} in
theorem TypeOperand.forward {depth : Nat} {st st' : ParseStream}
    (h : TypeOperand tyGenerics methodGenerics depth st st') : Forward st st' := by
  induction h with
  | alone => exact .refl _
  | assembly hopen => exact (require_forward _).of_run hopen
  | type hassembly => exact hassembly.forward
  | argument hassembly hname hless hturn _ ih =>
    have hargs := hturn.forward (typeReferenceDepth_forward _ _ _) (require_forward _)
    have hstart := hassembly.forward.trans ((identifier_parse_forward.of_run hname).trans
      ((require_forward _).of_run hless))
    exact (hstart.trans hargs).trans ih

/-- A type reference ends with a name or a bracket. -/
private theorem typeReferenceDepth_atOperand {depth : Nat} {st st' : ParseStream} {t : TypeReference}
    (hst : Clean bound st) (h : typeReferenceDepth tyGenerics methodGenerics depth st = (.ok t, st')) :
    AtOperand st' := by
  have hname {st st' : ParseStream} {name : Identifier} (hst : Clean bound st)
      (h : call Identifier.parse st = (.ok name, st')) : AtOperand st' :=
    ((safe_call identifier_runsTo st hst).2 name st' h).2
  cases depth with
  | zero => cases h
  | succ depth =>
    obtain ⟨o, st₁, hopen, h⟩ := bind_eq_ok.1 h
    have h₁ := hst.forward ((attempt_forward (require_forward _)).of_run hopen)
    cases o with
    | some tk =>
      obtain ⟨assembly, st₂, hassembly, h⟩ := bind_eq_ok.1 h
      obtain ⟨tk', st₃, hclose, h⟩ := bind_eq_ok.1 h
      have h₃ := (h₁.forward (assemblyName_forward.of_run hassembly)).forward ((require_forward _).of_run hclose)
      obtain ⟨name, st₄, hident, h⟩ := bind_eq_ok.1 h
      obtain ⟨o, st₅, hless, h⟩ := bind_eq_ok.1 h
      cases o with
      | some tk'' =>
        obtain ⟨args, st₆, -, h⟩ := bind_eq_ok.1 h
        obtain ⟨tk₃, st₇, hgreater, h⟩ := bind_eq_ok.1 h
        cases h
        obtain ⟨hc, hkind, rfl⟩ := takeIf_eq_ok.1 hgreater
        refine atOperand_skip hc ?_
        rw [eq_of_beq hkind]
        rfl
      | none =>
        cases h
        obtain ⟨a, ha, -⟩ | ⟨-, e, he⟩ := attempt_eq_ok.1 hless
        · cases ha
        · obtain ⟨rfl, -⟩ := takeIf_eq_err he
          exact hname h₃ hident
    | none =>
      obtain ⟨name, st₂, hident, h⟩ := bind_eq_ok.1 h
      have h₂ := hname h₁ hident
      cases hty : position tyGenerics name with
      | some pos =>
        rw [hty] at h
        cases h
        exact h₂
      | none =>
        rw [hty] at h
        cases hmethod : position methodGenerics name with
        | some pos =>
          rw [hmethod] at h
          cases h
          exact h₂
        | none =>
          rw [hmethod] at h
          obtain ⟨tk, st₃, -, h⟩ := bind_eq_ok.1 h
          cases h

theorem typeReference_runsTo : RunsTo bound (typeReference tyGenerics methodGenerics) := by
  intro st hst
  constructor
  · rw [typeReference_breaks _ _ hst.lexed]
    rintro ⟨st', hplace, hbad⟩
    exact (hst.forward hplace.forward).harmlessAt.name hbad
  · intro t st' h
    exact ⟨hst.forward ((typeReference_forward _ _).of_run h), typeReferenceDepth_atOperand _ _ hst h⟩

theorem type_runs {f : TypeReference → Parser α} (hf : ∀ t, Safe (Clean bound) (f t) K) :
    Safe (Clean bound) (call (typeReference tyGenerics methodGenerics) >>= f) K :=
  (safe_call (typeReference_runsTo _ _).runs).bind hf

omit [UniParser] [LawfulUniParser] in
theorem whileOk_runs {p : Parser α} (hk : Keeps Forward p) (hconsumes : Consumes p) (hp : Runs bound p) :
    Runs bound (whileOk p) :=
  safe_foldWhileOk_stable (Clean.stable bound) hk (fun _ => hconsumes.bind fun _ => Keeps.pure _) hp
    (fun _ _ => runs_pure _) []

theorem methodReference_runsAt (hbound : bound ≤ 2 ^ 32) :
    RunsAt bound (MethodReference.parse tyGenerics methodGenerics) := by
  refine (safe_call (itemRef_runsAt hbound)).bind fun m => ?_
  refine (attempt_runs (require_forward _) (require_runs _)).bind fun o => ?_
  cases o with
  | none => exact runs_pure _
  | some tk =>
    refine (whileOk_runs (call_forward (typeReference_forward _ _)) (call_consumes (typeReference_consumes _ _))
      (safe_call (typeReference_runsTo _ _).runs)).bind fun generics => ?_
    exact (require_runs _).bind fun tk => runs_pure _

theorem parseMethodIn_runsAt (hbound : bound ≤ 2 ^ 32) :
    RunsAt bound (parseMethodIn tyGenerics methodGenerics) := by
  refine (safe_call (methodReference_runsAt _ _ hbound)).bind fun m => ?_
  exact (require_runs _).bind fun tk => type_runs _ _ fun ty => runs_pure _

/-! ### Contents -/

/-- The place of an operand of a content is behind a parenthesis, a type or a name. -/
private theorem ContentOperand.clean {tyGenerics methodGenerics : List Identifier} {k : Keyword} {op : Operand}
    {st st' : ParseStream} (h : ContentOperand tyGenerics methodGenerics k st op st') (hst : Clean bound st) :
    Clean bound st' ∧ (op ≠ .name → AtOperand st') := by
  have hopen {st st₁ : ParseStream} {tk : TokenInfo} (hst : Clean bound st)
      (h : require SpecialChar.parenthesisOpen st = (.ok tk, st₁)) : CleanOperand bound st₁ :=
    (require_runsTo rfl st hst).2 tk st₁ h
  cases h with
  | arg h => exact (hopen hst h).imp_right fun h _ => h
  | staticType h hplace => exact ⟨(hopen hst h).1.forward hplace.forward, fun h => absurd rfl h⟩
  | staticField h hty =>
    have hty := (typeReference_runsTo _ _ _ (hopen hst h).1).2 _ _ hty
    exact hty.imp_right fun h _ => h
  | container h => exact ⟨(hopen hst h).1, fun h => absurd rfl h⟩
  | field h hname => exact ((identifier_runsTo _ (hopen hst h).1).2 _ _ hname).imp_right fun h _ => h
  | size h hplace => exact ⟨(hopen hst h).1.forward hplace.forward, fun h => absurd rfl h⟩

/-- No content of a clean stream is bad. -/
private theorem BadContent.not_clean {tyGenerics methodGenerics : List Identifier} {signed : Bool}
    {st : ParseStream} (h : BadContent tyGenerics methodGenerics Operand.Bad signed st) (hbound : bound ≤ 2 ^ 32)
    (hsigned : signed = true → previousKind st = some (.specialChar .hyphen)) : ¬Clean bound st := by
  induction h with
  | @hyphen signed st tk hc hkind hbad ih =>
    intro hst
    refine ih (fun _ => ?_) (hst.forward (.skip st 1))
    rw [previousKind_skip hc, hkind]
  | float hc hkind =>
    intro hst
    rw [hst.harmlessAt.float _ hc] at hkind
    cases hkind
  | cutShort hc hcut => exact fun hst => hst.harmlessAt.name ⟨_, hc, hcut⟩
  | sign hc hkind =>
    intro hst
    rw [hst.harmlessAt.sign (hsigned rfl) _ hc] at hkind
    cases hkind
  | @operand st tk k op st' hc hkind hplace hbad =>
    intro hst
    obtain ⟨hst', hat⟩ := hplace.clean (hst.forward (.skip st 1))
    cases op with
    | name => exact hst'.harmlessAt.name hbad
    | reference =>
      rcases hbad with hbad | hbad
      · exact CleanOperand.not_badInteger ⟨hst', hat nofun⟩ hbound hbad
      · exact hst'.harmlessAt.name hbad
    | value => exact CleanOperand.not_badInteger ⟨hst', hat nofun⟩ (Nat.le_trans hbound (by decide)) hbad

theorem content_runs (hbound : bound ≤ 2 ^ 32) :
    Runs bound (LoadableContent.parse none tyGenerics methodGenerics) := by
  refine runs_of_forward (loadableContent_parse_forward _ _ _) fun st hst => ?_
  have hbreaks : Breaks (LoadableContent.parse none tyGenerics methodGenerics) st ↔
      BadContent tyGenerics methodGenerics Operand.Bad false st :=
    parseDepth_breaks hst.lexed hst.valid (Nat.lt_succ_self _)
  exact fun h => (hbreaks.1 h).not_clean hbound nofun hst

end Sources

end PuralinguaIR
