import PuralinguaIR.Progress
import PuralinguaIR.TypeDef

/-!
# How the parsers move

No parser leaves the position before the one it began at, whatever its end, as long as the parsing library does not
(`LawfulUniParser`). Members of a body take at least the token of their keyword.
-/

namespace PuralinguaIR

open Text Effect Effect.Prog Reading

/-- What the parsing library does with the position and with parts that break. -/
class LawfulUniParser [UniParser] : Prop where
  /-- A failed call leaves the position at or behind the one it began at. -/
  rewind_le : ∀ {i j : Nat}, i ≤ j → i ≤ rewind i j
  firstOf_forward : ∀ {α : Type} {ps : List (Parser α)}, (∀ p ∈ ps, Keeps Forward p) → Keeps Forward (firstOf ps)
  /-- When the only alternative fails, so do all. -/
  firstOf_err : ∀ {α : Type} {p : Parser α} {st st' e}, p st = (.err e, st') →
    ∃ e' st'', firstOf [p] st = (.err e', st'')
  firstOf_breaks : ∀ {α : Type} {p : Parser α} {ps st}, Breaks p st → Breaks (firstOf (p :: ps)) st
  punctuated_forward : ∀ {α β : Type} {item : Parser α} {sep : Parser β} {atLeastOne : Bool},
    Keeps Forward item → Keeps Forward sep → Keeps Forward (punctuated atLeastOne item sep)
  /-- A list whose items take tokens breaks where an item or a separator does. -/
  punctuated_breaks : ∀ {α β : Type} {item : Parser α} {sep : Parser β} {atLeastOne : Bool} {st},
    Consumes item → Keeps Forward sep → (Breaks (punctuated atLeastOne item sep) st ↔
      ∃ st', SeparatedTurn item sep st st' ∧ (Breaks item st' ∨ After item st' fun _ st'' => Breaks sep st''))
  sizeOfUsize_mem : sizeOfUsize ∈ [1, 2, 4, 8]

/-! ### The plain library -/

private theorem tryInOrder_forward {α : Type} {ps : List (Parser α)} (h : ∀ p ∈ ps, Keeps Forward p) :
    Keeps Forward (tryInOrder ps) := by
  induction ps with
  | nil => exact fun st => .refl st
  | cons p ps ih =>
    intro st
    have hp := h p (by simp) st
    have hps := ih fun q hq => h q (by simp [hq])
    unfold tryInOrder
    rcases hrun : p st with ⟨_ | _ | _ | _, st'⟩
    all_goals rw [hrun] at hp
    -- the next alternative begins where this one began
    case err =>
      have hreset : { st' with index := st.index } = st := hp.reset
      show Forward st (tryInOrder ps { st' with index := st.index }).2
      rw [hreset]
      exact hps st
    all_goals exact hp

private theorem separatedTurns_forward {α β : Type} {item : Parser α} {sep : Parser β} (hitem : Keeps Forward item)
    (hsep : Keeps Forward sep) (n : Nat) : Keeps Forward (separatedTurns item sep n) := by
  induction n with
  | zero => exact fun st => .refl st
  | succ n ih =>
    refine (attempt_forward hitem).bind fun o => ?_
    cases o with
    | none => exact Keeps.pure _
    | some a =>
      refine (attempt_forward hsep).bind fun o => ?_
      cases o with
      | none => exact Keeps.pure _
      | some b => exact ih.bind fun as => Keeps.pure _

private theorem breaks_separatedTurns {α β : Type} {item : Parser α} {sep : Parser β} (hitem : Consumes item)
    (hsep : Keeps Forward sep) {n : Nat} {st : ParseStream} (hn : st.rest.length < n) :
    Breaks (separatedTurns item sep n) st ↔
      ∃ st', SeparatedTurn item sep st st' ∧ (Breaks item st' ∨ After item st' fun _ st'' => Breaks sep st'') := by
  induction n generalizing st with
  | zero => omega
  | succ n ih =>
    constructor
    · intro h
      rw [separatedTurns, breaks_bind, breaks_attempt] at h
      rcases h with hbreaks | ⟨o, st₁, ho, h⟩
      · exact ⟨st, .here, .inl hbreaks⟩
      obtain ⟨a, rfl, ha⟩ | ⟨rfl, -⟩ := attempt_eq_ok.1 ho
      · rw [breaks_bind, breaks_attempt] at h
        rcases h with hbreaks | ⟨o, st₂, ho, h⟩
        · exact ⟨st, .here, .inr ⟨a, st₁, ha, hbreaks⟩⟩
        obtain ⟨b, rfl, hb⟩ | ⟨rfl, -⟩ := attempt_eq_ok.1 ho
        · have h₁ := hitem st a st₁ ha
          have h₂ := (hsep.of_run hb).length_rest_le
          rcases breaks_bind.1 h with h | ⟨as, st₃, -, h⟩
          · obtain ⟨st', hreach, hbreaks⟩ := (ih (by omega)).1 h
            exact ⟨st', .next ha hb hreach, hbreaks⟩
          · exact absurd h (not_breaks_pure _ _)
        · exact absurd h (not_breaks_pure _ _)
      · exact absurd h (not_breaks_pure _ _)
    · rintro ⟨st', hreach, hbreaks⟩
      rw [separatedTurns]
      cases hreach with
      | here =>
        rw [breaks_bind, breaks_attempt]
        rcases hbreaks with hbreaks | ⟨a, st₁, ha, hbreaks⟩
        · exact .inl hbreaks
        · exact .inr ⟨some a, st₁, attempt_of_ok ha, breaks_bind.2 (.inl (breaks_attempt.2 hbreaks))⟩
      | @next _ a st₁ b st₂ _ ha hb hreach =>
        have h₁ := hitem st a st₁ ha
        have h₂ := (hsep.of_run hb).length_rest_le
        refine (breaks_bind_of_ok (attempt_of_ok ha)).2 ((breaks_bind_of_ok (attempt_of_ok hb)).2 ?_)
        exact breaks_bind.2 (.inl ((ih (by omega)).2 ⟨st', hreach, hbreaks⟩))

theorem plainParser_lawful : @LawfulUniParser plainParser :=
  let _ := plainParser
  { rewind_le := fun _ => Nat.le_refl _
    firstOf_forward := tryInOrder_forward
    firstOf_err := fun h => ⟨.noMatch, _, by simp only [firstOf, tryInOrder, h]; rfl⟩
    firstOf_breaks := fun {_ p ps st} h => by
      show Breaks (tryInOrder (p :: ps)) st
      unfold Breaks tryInOrder
      rcases hp : p st with ⟨_ | _ | _ | _, st'⟩ <;> simp [Breaks, hp] at h ⊢
    punctuated_forward := fun hitem hsep =>
      (withTurns_forward (separatedTurns_forward hitem hsep)).bind fun as => by
        split
        · exact Keeps.fail _
        · exact Keeps.pure _
    punctuated_breaks := fun {_ _ item sep atLeastOne st} hitem hsep => by
      have hturns := breaks_separatedTurns hitem hsep (Nat.lt_succ_self st.rest.length)
      rw [← hturns]
      show Breaks (withTurns (separatedTurns item sep) >>= _) st ↔ Breaks (withTurns (separatedTurns item sep)) st
      rw [breaks_bind, or_iff_left]
      rintro ⟨as, st', -, h⟩
      split at h
      · exact not_breaks_fail _ _ h
      · exact not_breaks_pure _ _ h
    sizeOfUsize_mem := by decide }

/-! ### Moving forward -/

section Moving

variable {α : Type}

@[grind ←]
theorem require_forward (k : TokenKind) : Keeps Forward (require k) := takeIf_forward _ _

@[grind ←]
theorem expect_forward (k : TokenKind) : Keeps Forward (expect k) := takeIf_forward _ _

@[grind ←]
theorem requireF_forward (p : TokenInfo → Bool) : Keeps Forward (requireF p) := takeIf_forward _ _

@[grind ←]
theorem consume_forward : Keeps Forward consume := by
  intro st
  unfold consume
  split
  · exact .skip st 1
  · exact .refl st

@[grind ←]
theorem current_forward : Keeps Forward current := fun st => .refl st

@[grind ←]
theorem advance_forward : Keeps Forward advance := fun st => .skip st 1

@[grind ←]
theorem tokenText_forward (tk : TokenInfo) : Keeps Forward (tokenText tk) := by
  intro st
  exact Keeps.unwrap (R := Forward) (ε := ParseError) (textOf st.source tk.span) st

@[grind ←]
theorem sliceOrPanic_forward (cs : List Char) (start stop : Nat) : Keeps Forward (sliceOrPanic cs start stop) :=
  Keeps.unwrap _

@[grind ←]
theorem subOrPanic_forward (stop n : Nat) : Keeps Forward (subOrPanic stop n) := by
  unfold subOrPanic
  grind

@[grind ←]
theorem assert_forward (b : Bool) : Keeps Forward (assert b) := by
  unfold assert
  grind

@[grind ←]
theorem previousToken_forward : Keeps Forward previousToken := by
  intro st
  unfold previousToken
  split
  · exact .refl st
  · exact Keeps.unwrap (R := Forward) (ε := ParseError) _ st

theorem foldWhileOk_turns_forward {β : Type} {p : Parser α} {step : β → α → Parser β} (hp : Keeps Forward p)
    (hstep : ∀ b a, Keeps Forward (step b a)) (b : β) :
    Keeps Forward (withTurns fun turns => foldWhileOk p step turns b) :=
  withTurns_forward fun n => foldWhileOk_forward hp hstep n b

theorem foldUntilOk_turns_forward {β : Type} {p : Parser α} {step : β → Parser β} (hp : Keeps Forward p)
    (hstep : ∀ b, Keeps Forward (step b)) (b : β) :
    Keeps Forward (withTurns fun turns => foldUntilOk p step turns b) :=
  withTurns_forward fun n => foldUntilOk_forward hp hstep n b

@[grind ←]
theorem whileOk_forward {p : Parser α} (hp : Keeps Forward p) : Keeps Forward (whileOk p) :=
  foldWhileOk_turns_forward hp (fun _ _ => Keeps.pure _) []

@[grind ←]
theorem integerToken_getValue_forward (tk : TokenInfo) : Keeps Forward (IntegerToken.getValue tk) := by
  unfold IntegerToken.getValue
  split
  · refine Keeps.bind (tokenText_forward tk) fun text => Keeps.bind (sliceOrPanic_forward _ _ _) fun valueS => ?_
    split <;> grind
  · exact Keeps.pure _

variable [UniParser] [LawfulUniParser]

@[grind ←]
theorem call_forward {p : Parser α} (hp : Keeps Forward p) : Keeps Forward (call p) := by
  intro st
  have h := hp st
  unfold call
  rcases hrun : p st with ⟨_ | _ | _ | _, st'⟩
  all_goals rw [hrun] at h
  case err => exact ⟨h.source, h.tokens, LawfulUniParser.rewind_le h.index_le⟩
  all_goals exact h

@[grind ←]
theorem integerValue_forward : Keeps Forward integerValue := by
  refine Keeps.bind (call_forward (requireF_forward _)) fun tk => ?_
  grind

@[grind ←]
theorem integerIndex_forward : Keeps Forward integerIndex := by
  unfold integerIndex
  grind

omit [LawfulUniParser] in
@[grind ←]
theorem identifier_parse_forward : Keeps Forward Identifier.parse := by
  refine Keeps.bind current_forward fun tk => ?_
  split
  · exact Keeps.fail _
  · split <;> grind

@[grind ←]
theorem itemRef_parse_forward : Keeps Forward ItemRef.parse := by
  refine LawfulUniParser.firstOf_forward fun p hp => ?_
  simp only [List.mem_cons, List.not_mem_nil, or_false] at hp
  rcases hp with rfl | rfl <;> grind

@[grind ←]
theorem fieldReference_parse_forward : Keeps Forward FieldReference.parse := by
  refine LawfulUniParser.firstOf_forward fun p hp => ?_
  simp only [List.mem_cons, List.not_mem_nil, or_false] at hp
  rcases hp with rfl | rfl <;> grind

@[grind ←]
theorem assemblyName_forward : Keeps Forward assemblyName := by
  refine Keeps.bind (attempt_forward (require_forward _)) fun o => ?_
  split <;> grind

/-- A type reference is written out behind a bracket, or it is a name. -/
private theorem typeReferenceDepth_eq (tyGenerics methodGenerics : List Identifier) {depth : Nat}
    (ih : Keeps Forward (typeReferenceDepth tyGenerics methodGenerics depth)) :
    ∃ common generic, Keeps Forward common ∧ (∀ name, Keeps Forward (generic name)) ∧
      typeReferenceDepth tyGenerics methodGenerics (depth + 1) = (do
        match ← attempt (require SpecialChar.bracketOpen) with
        | some _ => common
        | none => call Identifier.parse >>= generic) := by
  refine ⟨_, _, ?_, fun ident => ?_, rfl⟩
  · refine Keeps.bind assemblyName_forward fun assemblyName => Keeps.bind (require_forward _) fun _ => ?_
    refine Keeps.bind (call_forward identifier_parse_forward) fun typeName => ?_
    refine Keeps.bind (attempt_forward (require_forward _)) fun o => ?_
    split
    · refine Keeps.bind (LawfulUniParser.punctuated_forward ih (require_forward _)) fun generics => ?_
      grind
    · exact Keeps.pure _
  · split
    · exact Keeps.pure _
    · split <;> grind

theorem typeReferenceDepth_forward (tyGenerics methodGenerics : List Identifier) (depth : Nat) :
    Keeps Forward (typeReferenceDepth tyGenerics methodGenerics depth) := by
  induction depth with
  | zero => exact fun st => .refl st
  | succ depth ih =>
    obtain ⟨common, generic, hcommon, hgeneric, h⟩ := typeReferenceDepth_eq tyGenerics methodGenerics ih
    rw [h]
    refine Keeps.bind (attempt_forward (require_forward _)) fun o => ?_
    split
    · exact hcommon
    · exact Keeps.bind (call_forward identifier_parse_forward) hgeneric

@[grind ←]
theorem typeReference_forward (tyGenerics methodGenerics : List Identifier) :
    Keeps Forward (typeReference tyGenerics methodGenerics) :=
  withTurns_forward (typeReferenceDepth_forward tyGenerics methodGenerics)

@[grind ←]
theorem methodReference_parse_forward (tyGenerics methodGenerics : List Identifier) :
    Keeps Forward (MethodReference.parse tyGenerics methodGenerics) := by
  refine Keeps.bind (call_forward itemRef_parse_forward) fun index => ?_
  refine Keeps.bind (attempt_forward (require_forward _)) fun o => ?_
  split <;> grind

/-! ### Statements -/

omit [LawfulUniParser] in
@[grind ←]
theorem quotedText_forward (tk : TokenInfo) (terminated : Bool) (suffixStart : Nat) (isNegative : Option Bool) :
    Keeps Forward (LoadableContent.quotedText tk terminated suffixStart isNegative) := by
  unfold LoadableContent.quotedText
  grind

omit [LawfulUniParser] in
@[grind ←]
theorem ofLiteral_forward (tk : TokenInfo) (kind : LiteralKind) (suffixStart : Nat) (isNegative : Option Bool) :
    Keeps Forward (LoadableContent.ofLiteral tk kind suffixStart isNegative) := by
  have hdigits (radix : Nat) (cs : List Char) : Keeps Forward (LoadableContent.digitsOf radix cs) :=
    sliceOrPanic_forward _ _ _
  have hunsigned (bound make radix cs) : Keeps Forward (LoadableContent.unsigned bound make radix cs) :=
    (hdigits radix cs).bind fun _ => (Keeps.okOr _ _).bind fun _ => Keeps.pure _
  have hsigned (bound make isNegative radix cs) :
      Keeps Forward (LoadableContent.signed bound make isNegative radix cs) := by
    refine (hdigits radix cs).bind fun _ => (Keeps.okOr _ _).bind fun v => ?_
    split
    · split <;> grind
    · exact Keeps.pure _
  have hofDigits (ty isNegative radix cs) : Keeps Forward (LoadableContent.ofDigits ty isNegative radix cs) := by
    unfold LoadableContent.ofDigits
    split
    case h_5 | h_10 =>
      split
      all_goals first | exact hunsigned _ _ _ _ | exact hsigned _ _ _ _ _ | exact Keeps.panic
    all_goals first | exact hunsigned _ _ _ _ | exact hsigned _ _ _ _ _ | exact Keeps.fail _
  have hbytes (bytes start stop) : Keeps Forward (sliceBytesOrPanic bytes start stop) := by
    unfold sliceBytesOrPanic
    grind
  cases kind with
  | int base emptyInt => cases emptyInt <;> grind [LoadableContent.ofLiteral]
  | _ => grind [LoadableContent.ofLiteral]

/-- The kinds of the tokens with which what a `Load` statement loads begins. -/
def TokenKind.beginsContent : TokenKind → Bool
  | specialChar .hyphen => true
  | literal .. => true
  | keyword .true => true
  | keyword .false => true
  | keyword .this => true
  | keyword .loadArg => true
  | keyword .static => true
  | keyword .loadField => true
  | keyword .sizeof => true
  | _ => false

omit [LawfulUniParser] in
theorem parseDepth_eof {tyGenerics methodGenerics : List Identifier} {depth : Nat} {isNegative : Option Bool}
    {st : ParseStream} (h : st.current = none) :
    LoadableContent.parseDepth tyGenerics methodGenerics (depth + 1) isNegative st =
    (.err .unexpectedEOF, st) := by
  have hrun : consume st = (.ok none, st) := by rw [consume, h]
  rw [LoadableContent.parseDepth, bind_of_ok hrun]
  rfl

omit [LawfulUniParser] in
/-- The token that begins no content is given back. -/
theorem parseDepth_unexpected {tyGenerics methodGenerics : List Identifier} {depth : Nat}
    {isNegative : Option Bool}
    {st : ParseStream} {tk : TokenInfo} (h : st.current = some tk) (hkind : tk.kind.beginsContent = false) :
    LoadableContent.parseDepth tyGenerics methodGenerics (depth + 1) isNegative st =
    (.err .expectAllLiterals, st) := by
  have hrun : consume st = (.ok (some tk), st.skip 1) := by rw [consume, h]
  have hback : LoadableContent.stepBack (st.skip 1) = (.ok (), st) := by
    have hindex : (st.skip 1).index ≠ 0 := Nat.succ_ne_zero st.index
    exact if_neg hindex
  have hend : (do LoadableContent.stepBack; fail .expectAllLiterals : Parser LoadableContent) (st.skip 1) =
      (.err .expectAllLiterals, st) := bind_step hback rfl
  rw [LoadableContent.parseDepth, bind_of_ok hrun]
  obtain ⟨kind, span⟩ := tk
  cases kind with
  | specialChar c => cases c <;> first | exact hend | cases hkind
  | keyword k => cases k <;> first | exact hend | cases hkind
  | literal kind suffixStart => cases hkind
  | _ => exact hend

/-- A token that begins a content stays taken. -/
theorem parseDepth_content {tyGenerics methodGenerics : List Identifier} {depth : Nat} {isNegative : Option Bool}
    (hhyphen : ∀ isNegative,
      Keeps Forward (LoadableContent.parseDepth tyGenerics methodGenerics depth isNegative))
    {st : ParseStream} {tk : TokenInfo} (h : st.current = some tk) (hkind : tk.kind.beginsContent) :
    Forward (st.skip 1)
      (LoadableContent.parseDepth tyGenerics methodGenerics (depth + 1) isNegative st).2 := by
  have hrun : consume st = (.ok (some tk), st.skip 1) := by rw [consume, h]
  have hparentheses {p : Parser LoadableContent} (hp : Keeps Forward p) : Keeps Forward (do
      assert isNegative.isNone
      let _ ← require SpecialChar.parenthesisOpen
      p) := by
    grind
  rw [LoadableContent.parseDepth, bind_of_ok hrun]
  obtain ⟨kind, span⟩ := tk
  cases kind with
  | specialChar c => cases c <;> first | exact hhyphen _ _ | cases hkind
  | keyword k =>
    cases k with
    | true => exact Keeps.pure _ _
    | false => exact Keeps.pure _ _
    | this => exact ((assert_forward _).bind fun _ => Keeps.pure _) _
    | loadArg => exact hparentheses (by grind) _
    | static => exact hparentheses (by grind) _
    | loadField => exact hparentheses (by grind) _
    | sizeof => exact hparentheses (by grind) _
    | _ => cases hkind
  | literal kind suffixStart => exact ofLiteral_forward _ _ _ _ _
  | _ => cases hkind

/-- The token that begins no content is given back, but not those before it. -/
theorem parseDepth_forward (tyGenerics methodGenerics : List Identifier) (depth : Nat) (isNegative : Option Bool) :
    Keeps Forward (LoadableContent.parseDepth tyGenerics methodGenerics depth isNegative) := by
  induction depth generalizing isNegative with
  | zero => exact fun st => .refl st
  | succ depth ih =>
    intro st
    cases hc : st.current with
    | none =>
      rw [parseDepth_eof hc]
      exact .refl st
    | some tk =>
      cases hkind : tk.kind.beginsContent with
      | false =>
        rw [parseDepth_unexpected hc hkind]
        exact .refl st
      | true => exact (Forward.skip st 1).trans (parseDepth_content ih hc hkind)

@[grind ←]
theorem loadableContent_parse_forward (isNegative : Option Bool) (tyGenerics methodGenerics : List Identifier) :
    Keeps Forward (LoadableContent.parse isNegative tyGenerics methodGenerics) :=
  withTurns_forward fun depth => parseDepth_forward tyGenerics methodGenerics depth isNegative

@[grind ←]
theorem arrayLen_parse_forward : Keeps Forward ArrayLen.parse := by
  refine LawfulUniParser.firstOf_forward fun p hp => ?_
  simp only [List.mem_cons, List.not_mem_nil, or_false] at hp
  rcases hp with rfl | rfl <;> grind

@[grind ←]
theorem checkKind_parse_forward : Keeps Forward CheckKind.parse := by
  refine LawfulUniParser.firstOf_forward fun p hp => ?_
  simp only [List.mem_cons, List.not_mem_nil, or_false] at hp
  subst hp
  grind

@[grind ←]
theorem jumpCondition_parse_forward : Keeps Forward JumpCondition.parse := by
  refine LawfulUniParser.firstOf_forward fun p hp => ?_
  simp only [List.mem_cons, List.not_mem_nil, or_false] at hp
  rcases hp with rfl | rfl | rfl | rfl <;> grind

@[grind ←]
theorem jumpTargetType_parse_forward : Keeps Forward JumpTargetType.parse := by
  refine LawfulUniParser.firstOf_forward fun p hp => ?_
  simp only [List.mem_cons, List.not_mem_nil, or_false] at hp
  rcases hp with rfl | rfl | rfl <;> grind

@[grind ←]
theorem argsAndResult_forward : Keeps Forward argsAndResult := by
  have hargs : Keeps Forward commonArgs :=
    LawfulUniParser.punctuated_forward (call_forward identifier_parse_forward) (require_forward _)
  unfold argsAndResult
  grind

@[grind ←]
theorem parseOperands_forward (tyGenerics methodGenerics : List Identifier) (k : StatementKeyword) :
    Keeps Forward (Statement.parseOperands tyGenerics methodGenerics k) := by
  cases k <;> grind [Statement.parseOperands]

@[grind ←]
theorem statement_parse_forward (tyGenerics methodGenerics : List Identifier) :
    Keeps Forward (Statement.parse tyGenerics methodGenerics) := by
  refine Keeps.bind (requireF_forward _) fun tk => ?_
  split <;> grind

/-! ### Members -/

omit [UniParser] [LawfulUniParser] in
/-- A part that may be there, after a token of its own. -/
theorem optional_forward {α β : Type} {k : TokenKind} {p : TokenInfo → Parser (Option β)} {f : Option β → Parser α}
    (hp : ∀ tk, Keeps Forward (p tk)) (hf : ∀ x, Keeps Forward (f x)) :
    Keeps Forward (do
      match ← attempt (expect k) with
      | some tk => do
        let x ← p tk
        f x
      | none => f none) := by
  refine Keeps.bind (attempt_forward (expect_forward _)) fun o => ?_
  split
  · exact Keeps.bind (hp _) hf
  · exact hf _

omit [UniParser] [LawfulUniParser] in
@[grind ←]
theorem attrLoop_forward {β : Type} (isModifier : Keyword → Bool) (set : Keyword → β → Option β) (init : β) :
    Keeps Forward (attrLoop isModifier set init) := by
  refine foldWhileOk_turns_forward (requireF_forward _) (fun s tk => ?_) _
  obtain ⟨result, index⟩ := s
  dsimp only
  split
  · exact Keeps.pure _
  · split <;> grind

omit [UniParser] [LawfulUniParser] in
@[grind ←]
theorem indexValue_forward (index : Option TokenInfo) : Keeps Forward (indexValue index) := by
  cases index <;> grind [indexValue]

@[grind ←]
theorem parseGenericResult_forward : Keeps Forward ParseGenericResult.parse := by
  refine Keeps.bind (attempt_forward (expect_forward _)) fun o => ?_
  split <;> grind

omit [UniParser] [LawfulUniParser] in
@[grind ←]
theorem field_parseAttr_forward : Keeps Forward Field.parseAttr := by
  refine Keeps.bind (attrLoop_forward _ _ _) fun s => Keeps.bind (indexValue_forward _) fun index => ?_
  split <;> grind

omit [LawfulUniParser] in
/-- With debug assertions the keyword is taken first. -/
theorem Field.parseIn_true (tyGenerics : List Identifier) :
    Field.parseIn true tyGenerics = (do
      let tk ← consume
      assert (tk.any (·.kind == .keyword .field))
      Field.parseIn false tyGenerics) := rfl

theorem field_parseIn_forward (debugAssertions : Bool) (tyGenerics : List Identifier) :
    Keeps Forward (Field.parseIn debugAssertions tyGenerics) := by
  have hrest : Keeps Forward (Field.parseIn false tyGenerics) := by
    refine Keeps.bind (expect_forward _) fun _ => Keeps.bind (call_forward field_parseAttr_forward) fun s => ?_
    refine Keeps.bind (expect_forward _) fun _ => Keeps.bind (call_forward identifier_parse_forward) fun name => ?_
    grind
  cases debugAssertions with
  | false => exact hrest
  | true => exact Keeps.bind consume_forward fun tk => Keeps.bind (assert_forward _) fun _ => hrest

omit [UniParser] [LawfulUniParser] in
@[grind ←]
theorem method_parseAttr_forward : Keeps Forward Method.parseAttr := by
  refine Keeps.bind (attrLoop_forward _ _ _) fun s => Keeps.bind (indexValue_forward _) fun index => ?_
  split <;> grind

@[grind ←]
theorem parameter_parse_forward (tyGenerics methodGenerics : List Identifier) :
    Keeps Forward (Parameter.parse tyGenerics methodGenerics) := by
  refine Keeps.bind (require_forward _) fun _ => Keeps.bind ?_ fun attr => by grind
  refine foldWhileOk_turns_forward (requireF_forward _) (fun _ tk => ?_) _
  split <;> grind

@[grind ←]
theorem parseLocals_forward (attr : MethodAttr TypeReference) (tyGenerics methodGenerics : List Identifier) :
    Keeps Forward (parseLocals attr tyGenerics methodGenerics) := by
  refine Keeps.bind (attempt_forward (expect_forward _)) fun o => ?_
  split
  · exact Keeps.pure _
  · refine Keeps.bind (expect_forward _) fun _ => Keeps.bind ?_ fun s => by grind
    exact foldWhileOk_turns_forward (call_forward identifier_parse_forward) (fun s name => by grind) _

@[grind ←]
theorem parseLoc_forward : Keeps Forward parseLoc := by
  unfold parseLoc
  grind

@[grind ←]
theorem parse2Loc_forward : Keeps Forward parse2Loc := by
  unfold parse2Loc
  grind

@[grind ←]
theorem parseHandler_forward (h : Handlers) : Keeps Forward (parseHandler h) := by
  refine Keeps.bind (attempt_forward (expect_forward _)) fun isCatch => ?_
  dsimp only
  split
  · grind
  · refine Keeps.bind (attempt_forward (expect_forward _)) fun isFinally => ?_
    split
    · grind
    · refine Keeps.bind (attempt_forward (expect_forward _)) fun isFault => ?_
      split <;> grind

@[grind ←]
theorem parseMethodIn_forward (tyGenerics methodGenerics : List Identifier) :
    Keeps Forward (parseMethodIn tyGenerics methodGenerics) := by
  unfold parseMethodIn
  grind

@[grind ←]
theorem parseExceptionTableEntry_forward (tyGenerics methodGenerics : List Identifier) :
    Keeps Forward (parseExceptionTableEntry tyGenerics methodGenerics) := by
  have hhandlers := foldUntilOk_turns_forward (expect_forward SpecialChar.braceClose) parseHandler_forward
    ⟨none, none, none⟩
  refine Keeps.bind integerValue_forward fun tryBegin => Keeps.bind (expect_forward _) fun _ => ?_
  refine Keeps.bind parseLoc_forward fun tryEnd => Keeps.bind (typeReference_forward _ _) fun ty => ?_
  refine optional_forward (fun _ => (parseMethodIn_forward _ _).map some) fun filter => ?_
  refine Keeps.bind (expect_forward _) fun _ => Keeps.bind (expect_forward _) fun _ =>
    Keeps.bind hhandlers fun h => ?_
  split <;> grind

@[grind ←]
theorem parseExceptionTable_forward (tyGenerics methodGenerics : List Identifier) :
    Keeps Forward (parseExceptionTable tyGenerics methodGenerics) := by
  refine Keeps.bind (attempt_forward (expect_forward _)) fun o => ?_
  split
  · exact Keeps.pure _
  · exact Keeps.bind (expect_forward _) fun _ => foldUntilOk_turns_forward (expect_forward _) (fun _ => by grind) _

/-- A method is its keyword and a rest. -/
private theorem method_parse_eq (tyGenerics : List Identifier) : ∃ rest, Keeps Forward rest ∧
    Method.parse tyGenerics = (do
      let tk ← consume
      assert (tk.any (·.kind == .keyword .method))
      rest) := by
  refine ⟨_, ?_, rfl⟩
  refine Keeps.bind (expect_forward _) fun _ => Keeps.bind (call_forward method_parseAttr_forward) fun s => ?_
  refine Keeps.bind (expect_forward _) fun _ => Keeps.bind (call_forward identifier_parse_forward) fun name => ?_
  refine Keeps.bind (call_forward parseGenericResult_forward) fun g => Keeps.bind (expect_forward _) fun _ => ?_
  refine Keeps.bind (LawfulUniParser.punctuated_forward (call_forward (parameter_parse_forward _ _))
    (require_forward _)) fun args => ?_
  refine Keeps.bind (expect_forward _) fun _ => Keeps.bind (expect_forward _) fun _ => ?_
  refine Keeps.bind (call_forward (typeReference_forward _ _)) fun returnType => ?_
  refine optional_forward (fun _ => (parseMethodIn_forward _ _).map some) fun impl => ?_
  have hbody : Keeps Forward (do
      let _ ← expect SpecialChar.braceOpen
      let r ← call (parseLocals s.1 tyGenerics g.generics)
      let exceptionTable ← call (parseExceptionTable tyGenerics g.generics)
      let statements ← withTurns fun turns =>
        foldUntilOk (expect SpecialChar.braceClose)
          (fun statements => do pure (statements ++ [← call (Statement.parse tyGenerics g.generics)])) turns []
      pure (Method.mk r.1 s.2.1 s.2.2 name g.generics g.isGenericInfinite args returnType impl r.2 exceptionTable
        statements)) := by
    refine Keeps.bind (expect_forward _) fun _ => Keeps.bind (call_forward (parseLocals_forward _ _ _)) fun r => ?_
    refine Keeps.bind (call_forward (parseExceptionTable_forward _ _)) fun table => Keeps.bind ?_ fun _ =>
      Keeps.pure _
    exact foldUntilOk_turns_forward (expect_forward _) (fun _ => by grind) _
  refine Keeps.bind (attempt_forward (expect_forward _)) fun o => ?_
  cases o with
  | none => exact hbody
  | some tk => exact fun st => .refl st

theorem method_parse_forward (tyGenerics : List Identifier) : Keeps Forward (Method.parse tyGenerics) := by
  obtain ⟨rest, hrest, h⟩ := method_parse_eq tyGenerics
  rw [h]
  exact Keeps.bind consume_forward fun tk => Keeps.bind (assert_forward _) fun _ => hrest

/-! ### Taking tokens -/

omit [UniParser] [LawfulUniParser] in
theorem tokenText_state {tk : TokenInfo} {st st' : ParseStream} {cs : List Char}
    (h : tokenText tk st = (.ok cs, st')) : st' = st :=
  (unwrap_eq_ok.1 h).2

omit [UniParser] [LawfulUniParser] in
theorem subOrPanic_state {stop n m : Nat} {st st' : ParseStream} (h : subOrPanic stop n st = (.ok m, st')) :
    st' = st := by
  unfold subOrPanic at h
  split at h
  · exact (congrArg Prod.snd h).symm
  · cases h

omit [LawfulUniParser] in
/-- A name is one token. -/
theorem Identifier.parse_eq_ok {st st' : ParseStream} {name : Identifier}
    (h : Identifier.parse st = (.ok name, st')) : st' = st.skip 1 ∧ ∃ tk, st.current = some tk := by
  have hrun : current st = (.ok st.current, st) := rfl
  have hadvance (st : ParseStream) : advance st = (.ok (), st.skip 1) := rfl
  rw [Identifier.parse, bind_of_ok hrun] at h
  cases hc : st.current with
  | none =>
    rw [hc] at h
    cases h
  | some tk =>
    rw [hc] at h
    refine ⟨?_, tk, rfl⟩
    obtain ⟨kind, span⟩ := tk
    cases kind with
    | literal kind suffixStart =>
      cases kind with
      | str terminated =>
        cases terminated with
        | false => cases h
        | true =>
          obtain ⟨text, s₁, htext, h₁⟩ := bind_eq_ok.1 h
          obtain ⟨stop, s₂, hstop, h₂⟩ := bind_eq_ok.1 h₁
          obtain ⟨cs, s₃, hcs, h₃⟩ := bind_eq_ok.1 h₂
          obtain ⟨rfl, rfl, rfl⟩ : s₁ = st ∧ s₂ = s₁ ∧ s₃ = s₂ :=
            ⟨tokenText_state htext, subOrPanic_state hstop, (unwrap_eq_ok.1 hcs).2⟩
          rw [bind_of_ok (hadvance _)] at h₃
          obtain ⟨s, s₄, hs, h₄⟩ := bind_eq_ok.1 h₃
          rw [← (okOr_eq_ok.1 hs).2]
          exact (congrArg Prod.snd h₄).symm
      | rawStr nHashes =>
        obtain ⟨stop, s₁, hstop, h₁⟩ := bind_eq_ok.1 h
        obtain rfl : s₁ = st := subOrPanic_state hstop
        rw [bind_of_ok (hadvance _)] at h₁
        obtain ⟨text, s₂, htext, h₂⟩ := bind_eq_ok.1 h₁
        obtain ⟨cs, s₃, hcs, h₃⟩ := bind_eq_ok.1 h₂
        rw [← tokenText_state htext, ← (unwrap_eq_ok.1 hcs).2]
        exact (congrArg Prod.snd h₃).symm
      | _ => cases h
    | identifier =>
      have h₁ : (tokenText _ >>= _) (st.skip 1) = (.ok name, st') := h
      obtain ⟨text, s₁, htext, h₂⟩ := bind_eq_ok.1 h₁
      rw [← tokenText_state htext]
      exact (congrArg Prod.snd h₂).symm
    | rawIdentifier =>
      have h₁ : (tokenText _ >>= _) (st.skip 1) = (.ok name, st') := h
      obtain ⟨text, s₁, htext, h₂⟩ := bind_eq_ok.1 h₁
      obtain ⟨cs, s₂, hcs, h₃⟩ := bind_eq_ok.1 h₂
      rw [← tokenText_state htext, ← (unwrap_eq_ok.1 hcs).2]
      exact (congrArg Prod.snd h₃).symm
    | _ => cases h

omit [LawfulUniParser] in
theorem identifier_parse_consumes : Consumes Identifier.parse := by
  intro st name st' h
  obtain ⟨rfl, tk, hc⟩ := Identifier.parse_eq_ok h
  exact length_rest_skip_lt hc

omit [LawfulUniParser] in
theorem call_consumes {p : Parser α} (hp : Consumes p) : Consumes (call p) :=
  fun st a st' h => hp st a st' (call_eq_ok.1 h)

theorem typeReferenceDepth_consumes (tyGenerics methodGenerics : List Identifier) (depth : Nat) :
    Consumes (typeReferenceDepth tyGenerics methodGenerics depth) := by
  cases depth with
  | zero =>
    intro st ty st' h
    cases h
  | succ depth =>
    obtain ⟨common, generic, hcommon, hgeneric, heq⟩ := typeReferenceDepth_eq tyGenerics methodGenerics
      (typeReferenceDepth_forward tyGenerics methodGenerics depth)
    rw [heq]
    intro st ty st' h
    obtain ⟨o, st₁, ho, hrest⟩ := bind_eq_ok.1 h
    rcases attempt_eq_ok.1 ho with ⟨tk, rfl, htk⟩ | ⟨rfl, e, he⟩
    · have h₁ := takeIf_consumes _ _ st tk st₁ htk
      have h₂ := (hcommon.of_run hrest).length_rest_le
      omega
    · have h₁ := ((require_forward SpecialChar.bracketOpen).of_run he).length_rest_le
      have h₂ := ((call_consumes identifier_parse_consumes).bind hgeneric) st₁ ty st' hrest
      omega

theorem typeReference_consumes (tyGenerics methodGenerics : List Identifier) :
    Consumes (typeReference tyGenerics methodGenerics) :=
  fun st ty st' h => typeReferenceDepth_consumes tyGenerics methodGenerics _ st ty st' h

omit [UniParser] [LawfulUniParser] in
/-- A parser that begins with a keyword it has looked at before. -/
theorem keyword_consumes (f : TokenInfo → Bool) {p : Parser α} (hp : Keeps Forward p) :
    Consumes (do
      let tk ← consume
      assert (tk.any f)
      p) := by
  intro st a st' h
  obtain ⟨o, st₁, ho, hrest⟩ := bind_eq_ok.1 h
  obtain ⟨_, st₂, hassert, hrun⟩ := bind_eq_ok.1 hrest
  unfold consume at ho
  cases hc : st.current with
  | none =>
    rw [hc] at ho
    cases ho
    cases hassert
  | some tk =>
    rw [hc] at ho
    obtain ⟨rfl, rfl⟩ : some tk = o ∧ st.skip 1 = st₁ := by simpa using ho
    have h₁ := length_rest_skip_lt hc
    have h₂ := ((assert_forward _).of_run hassert).length_rest_le
    have h₃ := (hp.of_run hrun).length_rest_le
    omega

/-- Every member takes a token. -/
theorem parseMember_consumes (tyGenerics : List Identifier) (withFields : Bool)
    (members : List Method × List Field) : Consumes (parseMember tyGenerics withFields members) := by
  have hmethod : Consumes (Method.parse tyGenerics) := by
    obtain ⟨rest, hrest, h⟩ := method_parse_eq tyGenerics
    rw [h]
    exact keyword_consumes _ hrest
  have hfield : Consumes (Field.parse tyGenerics) := keyword_consumes _ (field_parseIn_forward false tyGenerics)
  refine Consumes.bind_right current_forward fun o => ?_
  split
  · intro st a st' h
    cases h
  · split
    · exact (call_consumes hmethod).bind fun _ => Keeps.pure _
    · split
      · exact (call_consumes hfield).bind fun _ => Keeps.pure _
      · intro st a st' h
        cases h
    · intro st a st' h
      cases h

/-! ### Definitions -/

omit [UniParser] [LawfulUniParser] in
theorem bodyEnd_forward : Keeps Forward bodyEnd := by
  refine Keeps.bind (attempt_forward (require_forward _)) fun o => ?_
  cases o with
  | some tk => exact Keeps.pure _
  | none =>
    refine Keeps.bind current_forward fun o => ?_
    cases o with
    | some tk => exact Keeps.fail _
    | none => exact Keeps.pure _

omit [UniParser] [LawfulUniParser] in
theorem parseBounds_forward : Keeps Forward parseBounds := by
  refine Keeps.bind (attempt_forward (expect_forward _)) fun o => ?_
  cases o with
  | some tk => exact Keeps.panic
  | none => exact Keeps.pure _

omit [UniParser] [LawfulUniParser] in
theorem isEof_forward : Keeps Forward isEof := by
  refine Keeps.bind current_forward fun o => ?_
  cases o with
  | none => exact Keeps.pure _
  | some tk => exact Keeps.fail _

theorem attrAndIndex_forward (type : TypeSpecificAttrType) : Keeps Forward (attrAndIndex type) := by
  have hattr : Keeps Forward (TypeAttrAndIndex.parse type) := by
    refine Keeps.bind (attrLoop_forward _ _ _) fun r => ?_
    obtain ⟨attr, index⟩ := r
    cases index with
    | none => exact Keeps.fail _
    | some tk => exact Keeps.pure _
  refine Keeps.bind (call_forward hattr) fun r => Keeps.bind (integerToken_getValue_forward _) fun v => ?_
  exact Keeps.bind (Keeps.unwrap _) fun v => Keeps.bind (Keeps.unwrap _) fun index => Keeps.pure _

theorem parseMember_forward (tyGenerics : List Identifier) (withFields : Bool)
    (members : List Method × List Field) : Keeps Forward (parseMember tyGenerics withFields members) := by
  refine Keeps.bind current_forward fun o => ?_
  cases o with
  | none => exact Keeps.fail _
  | some tk =>
    dsimp only
    split
    · exact Keeps.bind (call_forward (method_parse_forward _)) fun _ => Keeps.pure _
    · split
      · exact Keeps.bind (call_forward (field_parseIn_forward true _)) fun _ => Keeps.pure _
      · exact Keeps.fail _
    · exact Keeps.fail _

theorem parseMembers_forward (tyGenerics : List Identifier) (withFields : Bool) :
    Keeps Forward (parseMembers tyGenerics withFields) :=
  Keeps.bind (expect_forward _) fun _ =>
    foldUntilOk_turns_forward bodyEnd_forward (parseMember_forward tyGenerics withFields) _

/-- A definition is its keyword and a rest. -/
private theorem definition_moves {k : Keyword} {p : Parser α} (hp : Keeps Forward p) :
    Keeps Forward (call (require k) >>= fun _ => p) ∧ Consumes (call (require k) >>= fun _ => p) :=
  ⟨Keeps.bind (call_forward (require_forward _)) fun _ =>
    hp, (call_consumes (takeIf_consumes _ _)).bind fun _ => hp⟩

theorem classDef_parse_moves : Keeps Forward ClassDef.parse ∧ Consumes ClassDef.parse := by
  refine definition_moves ?_
  refine Keeps.bind (call_forward (require_forward _)) fun _ => Keeps.bind (attrAndIndex_forward _) fun a => ?_
  have hrest (main : Option UInt32) : Keeps Forward (do
      let name ← call Identifier.parse
      let g ← call ParseGenericResult.parse
      let parent ← do
        match ← attempt (expect SpecialChar.colon) with
        | some _ => some <$> call (typeReference g.generics [])
        | none => pure none
      parseBounds
      let ms ← parseMembers g.generics true
      pure (ClassDef.mk a.1 a.2 main name g.generics g.isGenericInfinite parent ms.1 ms.2)) := by
    refine Keeps.bind (call_forward identifier_parse_forward) fun name => ?_
    refine Keeps.bind (call_forward parseGenericResult_forward) fun g => ?_
    refine optional_forward (fun _ => (call_forward (typeReference_forward _ _)).map some) fun parent => ?_
    exact Keeps.bind parseBounds_forward fun _ => Keeps.bind (parseMembers_forward _ _) fun _ => Keeps.pure _
  refine Keeps.bind (call_forward (require_forward _)) fun _ => ?_
  refine Keeps.bind (attempt_forward (expect_forward _)) fun o => ?_
  cases o with
  | none => exact hrest none
  | some tk =>
    refine Keeps.bind (expect_forward _) fun _ => Keeps.bind integerIndex_forward fun id => ?_
    exact Keeps.bind (expect_forward _) fun _ => hrest (some id)

theorem structDef_parse_moves : Keeps Forward StructDef.parse ∧ Consumes StructDef.parse := by
  refine definition_moves ?_
  refine Keeps.bind (call_forward (require_forward _)) fun _ => Keeps.bind (attrAndIndex_forward _) fun a => ?_
  refine Keeps.bind (call_forward (require_forward _)) fun _ => ?_
  refine Keeps.bind (call_forward identifier_parse_forward) fun name => ?_
  refine Keeps.bind (call_forward parseGenericResult_forward) fun g => ?_
  exact Keeps.bind parseBounds_forward fun _ => Keeps.bind (parseMembers_forward _ _) fun _ => Keeps.pure _

theorem interfaceDef_parse_moves : Keeps Forward InterfaceDef.parse ∧ Consumes InterfaceDef.parse := by
  refine definition_moves ?_
  refine Keeps.bind (call_forward (require_forward _)) fun _ => Keeps.bind (attrAndIndex_forward _) fun a => ?_
  refine Keeps.bind (call_forward (require_forward _)) fun _ => ?_
  refine Keeps.bind (call_forward identifier_parse_forward) fun name => ?_
  refine Keeps.bind (call_forward parseGenericResult_forward) fun g => ?_
  have hrest (rs : List TypeReference) : Keeps Forward (do
      parseBounds
      let ms ← parseMembers g.generics false
      pure (InterfaceDef.mk a.1 a.2 name g.generics g.isGenericInfinite rs ms.1)) :=
    Keeps.bind parseBounds_forward fun _ => Keeps.bind (parseMembers_forward _ _) fun _ => Keeps.pure _
  refine Keeps.bind (attempt_forward (expect_forward _)) fun o => ?_
  cases o with
  | none => exact hrest []
  | some tk =>
    exact Keeps.bind (call_forward (LawfulUniParser.punctuated_forward (call_forward (typeReference_forward _ _))
      (require_forward _))) hrest

theorem typeDef_parse_forward : Keeps Forward TypeDef.parse := by
  refine Keeps.bind current_forward fun o => ?_
  cases o with
  | none => exact Keeps.fail _
  | some tk =>
    dsimp only
    split
    · exact (call_forward classDef_parse_moves.1).map _
    · exact (call_forward structDef_parse_moves.1).map _
    · exact (call_forward interfaceDef_parse_moves.1).map _
    · exact Keeps.fail _

/-- Every definition takes a token. -/
theorem typeDef_parse_consumes : Consumes TypeDef.parse := by
  refine Consumes.bind_right current_forward fun o => ?_
  cases o with
  | none =>
    intro st a st' h
    cases h
  | some tk =>
    dsimp only
    split
    · exact (call_consumes classDef_parse_moves.2).map _
    · exact (call_consumes structDef_parse_moves.2).map _
    · exact (call_consumes interfaceDef_parse_moves.2).map _
    · intro st a st' h
      cases h

end Moving

end PuralinguaIR
