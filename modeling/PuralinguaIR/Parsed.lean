import PuralinguaIR.Definitions
import PuralinguaIR.Ensures
import PuralinguaIR.Moves

/-!
# Parsed definitions are well formed

Whatever the parser accepts is well formed: a generic parameter stands for the position of its name, an overriding
method overrides its own slot, every local variable has a type, and the flags of a definition are those of its
kind. Positions are 32-bit numbers, so the source must not have more than `2 ^ 32` tokens.
-/

namespace PuralinguaIR

open Text Effect Effect.Prog Reading

/-- What the values of the parsing library are made of. -/
class SoundUniParser [UniParser] : Prop where
  /-- The value of a derived parser is the value of one of its alternatives, tried in the same source. -/
  firstOf_value : ∀ {α : Type} {ps : List (Parser α)} {st st' a}, (∀ p ∈ ps, Keeps Forward p) →
    firstOf ps st = (.ok a, st') → ∃ p ∈ ps, ∃ st₁, Forward st st₁ ∧ p st₁ = (.ok a, st')
  /-- The parts of a separated list are values of the parser of its items. -/
  punctuated_value : ∀ {α β : Type} {item : Parser α} {sep : Parser β} {atLeastOne : Bool} {st st' as},
    Keeps Forward item → Keeps Forward sep → punctuated atLeastOne item sep st = (.ok as, st') →
      ∀ a ∈ as, ∃ st₁ st₂, Forward st st₁ ∧ item st₁ = (.ok a, st₂)

/-! ### The plain library -/

private theorem tryInOrder_value {α : Type} {ps : List (Parser α)} {st st' : ParseStream} {a : α}
    (hps : ∀ p ∈ ps, Keeps Forward p) (h : tryInOrder ps st = (.ok a, st')) : ∃ p ∈ ps, p st = (.ok a, st') := by
  induction ps with
  | nil => cases h
  | cons p ps ih =>
    have hp := hps p (by simp) st
    unfold tryInOrder at h
    rcases hrun : p st with ⟨_ | _ | _ | _, st₁⟩
    all_goals rw [hrun] at h hp
    case ok b =>
      cases h
      exact ⟨p, by simp, hrun⟩
    case err e =>
      have hreset : { st₁ with index := st.index } = st := hp.reset
      have htail : tryInOrder ps st = (.ok a, st') := by
        rw [← hreset]
        exact h
      obtain ⟨q, hq, hrun⟩ := ih (fun q hq => hps q (by simp [hq])) htail
      exact ⟨q, by simp [hq], hrun⟩
    all_goals cases h

private theorem separatedTurns_value {α β : Type} {item : Parser α} {sep : Parser β} (hitem : Keeps Forward item)
    (hsep : Keeps Forward sep) {n : Nat} {st st' : ParseStream} {as : List α}
    (h : separatedTurns item sep n st = (.ok as, st')) :
    ∀ a ∈ as, ∃ st₁ st₂, Forward st st₁ ∧ item st₁ = (.ok a, st₂) := by
  induction n generalizing st as with
  | zero => cases h
  | succ n ih =>
    obtain ⟨o, s₁, ho, hrest⟩ := bind_eq_ok.1 h
    cases o with
    | none =>
      cases hrest
      exact nofun
    | some x =>
      have hx : item st = (.ok x, s₁) := by
        obtain ⟨y, hy, hrun⟩ | ⟨hnone, -⟩ := attempt_eq_ok.1 ho
        · cases hy
          exact hrun
        · cases hnone
      obtain ⟨o', s₂, ho', hrest⟩ := bind_eq_ok.1 hrest
      cases o' with
      | none =>
        cases hrest
        intro a ha
        obtain rfl : a = x := by simpa using ha
        exact ⟨st, s₁, .refl st, hx⟩
      | some y =>
        obtain ⟨xs, s₃, hxs, hrest⟩ := bind_eq_ok.1 hrest
        cases hrest
        intro a ha
        rcases List.mem_cons.1 ha with rfl | ha
        · exact ⟨st, s₁, .refl st, hx⟩
        · obtain ⟨st₁, st₂, hforward, hrun⟩ := ih hxs a ha
          have hmove : Forward st s₂ := (hitem.of_run hx).trans ((attempt_forward hsep).of_run ho')
          exact ⟨st₁, st₂, hmove.trans hforward, hrun⟩

theorem plainParser_sound : @SoundUniParser plainParser :=
  let _ := plainParser
  { firstOf_value := fun {_ _ st _ _} hps h => by
      obtain ⟨p, hp, hrun⟩ := tryInOrder_value hps h
      exact ⟨p, hp, st, .refl st, hrun⟩
    punctuated_value := fun {_ _ item sep atLeastOne st st' as} hitem hsep h => by
      obtain ⟨xs, s₁, hxs, hrest⟩ := bind_eq_ok.1 h
      split at hrest
      · cases hrest
      · cases hrest
        exact separatedTurns_value hitem hsep hxs }

section Parsing

variable [UniParser] [LawfulUniParser] {α β : Type} {n : Nat} {P : α → Prop} {Q : β → Prop}

/-! ### The parsing library -/

omit [LawfulUniParser] in
theorem call_ensures {p : Parser α} (hp : Ensures (Fits n) p P) : Ensures (Fits n) (call p) P := by
  intro st hst
  have h := hp st hst
  unfold call
  rcases hrun : p st with ⟨_ | _ | _ | _, st'⟩
  all_goals rw [hrun] at h
  case ok a => exact h
  all_goals exact ⟨h.1, nofun⟩

theorem punctuated_ensures [SoundUniParser] {item : Parser α} {sep : Parser β} {atLeastOne : Bool}
    (hitem : Keeps Forward item) (hsep : Keeps Forward sep) (h : Ensures (Fits n) item P) :
    Ensures (Fits n) (punctuated atLeastOne item sep) fun as => ∀ a ∈ as, P a := by
  intro st hst
  refine ⟨Fits.forward (LawfulUniParser.punctuated_forward hitem hsep st) hst, fun as has a ha => ?_⟩
  obtain ⟨st₁, st₂, hforward, hrun⟩ := SoundUniParser.punctuated_value hitem hsep (run_of_fst has) a ha
  exact (h.of_run (Fits.forward hforward hst) hrun).2

omit [UniParser] [LawfulUniParser] in
theorem whileOk_ensures {p : Parser α} (hp : Ensures (Fits n) p P) :
    Ensures (Fits n) (whileOk p) fun as => ∀ a ∈ as, P a := by
  refine withTurns_ensures fun turns => foldWhileOk_ensures (J := fun as => ∀ a ∈ as, P a) hp ?_ turns
    fun _ h => absurd h List.not_mem_nil
  refine fun as a has ha => Ensures.pure fun b hb => ?_
  rcases List.mem_append.1 hb with hb | hb
  · exact has b hb
  · obtain rfl : b = a := by simpa using hb
    exact ha

omit [UniParser] [LawfulUniParser] in
/-- The values of a loop are at most as many as the tokens. -/
theorem whileOk_length {p : Parser α} (hp : Keeps Forward p) :
    Ensures (Fits n) (whileOk p) fun as => as.length ≤ n := by
  intro st hst
  refine ⟨Fits.forward (whileOk_forward hp st) hst, fun as has => ?_⟩
  have hlen := foldWhileOk_length (run_of_fst (p := whileOk p) has)
  have hrest := hst.length_rest
  rw [List.length_nil] at hlen
  omega

omit [UniParser] [LawfulUniParser] in
/-- A part that may be there, after a token of its own. -/
theorem optional_ensures {k : TokenKind} {p : Parser (Option β)} {f : Option β → Parser α}
    (hp : Ensures (Fits n) p fun x => ∀ b ∈ x, Q b) (hf : ∀ x, (∀ b ∈ x, Q b) → Ensures (Fits n) (f x) P) :
    Ensures (Fits n) (do
      match ← attempt (expect k) with
      | some _ => do
        let x ← p
        f x
      | none => f none) P := by
  refine ensures_then (attempt_forward (expect_forward _)) fun o => ?_
  cases o with
  | none => exact hf none nofun
  | some tk => exact hp.bind hf

variable [SoundUniParser]

/-! ### References -/

omit [UniParser] [LawfulUniParser] [SoundUniParser] in
theorem position_lt {generics : List Identifier} {name : Identifier} {pos : Nat}
    (h : position generics name = some pos) : pos < generics.length := by
  obtain ⟨hlt, -⟩ := List.findIdx?_eq_some_iff_getElem.1 h
  exact hlt

omit [UniParser] [LawfulUniParser] [SoundUniParser] in
private theorem ofNat_position {generics : List Identifier} {name : Identifier} {pos : Nat}
    (hlen : generics.length ≤ 2 ^ 32) (h : position generics name = some pos) :
    (UInt32.ofNat pos).toNat = pos := by
  have := position_lt h
  rw [UInt32.toNat_ofNat']
  exact Nat.mod_eq_of_lt (by omega)

variable {tyGenerics methodGenerics : List Identifier}

theorem typeReferenceDepth_inScope (hty : tyGenerics.length ≤ 2 ^ 32) (hmethod : methodGenerics.length ≤ 2 ^ 32)
    (depth : Nat) :
    Ensures (Fits n) (typeReferenceDepth tyGenerics methodGenerics depth)
      fun r => r.inScope tyGenerics methodGenerics := by
  induction depth with
  | zero => exact Ensures.diverge
  | succ depth ih =>
    refine ensures_then (attempt_forward (require_forward _)) fun o => ?_
    cases o with
    | some tk =>
      refine ensures_then assemblyName_forward fun assemblyName => ensures_then (require_forward _) fun _ => ?_
      refine ensures_then (call_forward identifier_parse_forward) fun typeName => ?_
      refine ensures_then (attempt_forward (require_forward _)) fun o => ?_
      cases o with
      | none => exact Ensures.pure rfl
      | some tk =>
        refine (punctuated_ensures (typeReferenceDepth_forward _ _ _) (require_forward _) ih).bind
          fun generics h => ?_
        refine ensures_then (require_forward _) fun _ => Ensures.pure ?_
        simp only [TypeReference.inScope, TypeReference.inScopeAll_eq, Option.isNone_none, Bool.true_and]
        exact List.all_eq_true.2 h
    | none =>
      refine ensures_then (call_forward identifier_parse_forward) fun ident => ?_
      cases hpos : position tyGenerics ident with
      | some pos =>
        refine Ensures.pure ?_
        rw [TypeReference.inScope, ofNat_position hty hpos]
        exact beq_iff_eq.2 hpos
      | none =>
        cases hpos' : position methodGenerics ident with
        | some pos =>
          refine Ensures.pure ?_
          rw [TypeReference.inScope, ofNat_position hmethod hpos']
          exact Bool.and_eq_true_iff.2 ⟨beq_iff_eq.2 hpos, beq_iff_eq.2 hpos'⟩
        | none => exact ensures_then previousToken_forward fun tk => Ensures.fail _

theorem typeReference_inScope (hty : tyGenerics.length ≤ 2 ^ 32) (hmethod : methodGenerics.length ≤ 2 ^ 32) :
    Ensures (Fits n) (typeReference tyGenerics methodGenerics) fun r => r.inScope tyGenerics methodGenerics :=
  withTurns_ensures (typeReferenceDepth_inScope hty hmethod)

theorem MethodReference.parse_inScope (hty : tyGenerics.length ≤ 2 ^ 32)
    (hmethod : methodGenerics.length ≤ 2 ^ 32) : Ensures (Fits n) (MethodReference.parse tyGenerics methodGenerics)
      fun m => m.inScope tyGenerics methodGenerics := by
  refine ensures_then (call_forward itemRef_parse_forward) fun index => ?_
  refine ensures_then (attempt_forward (require_forward _)) fun o => ?_
  cases o with
  | none => exact Ensures.pure rfl
  | some tk =>
    refine (whileOk_ensures (call_ensures (typeReference_inScope hty hmethod))).bind fun generics h => ?_
    exact ensures_then (require_forward _) fun _ => Ensures.pure (List.all_eq_true.2 h)

/-! ### Statements -/

omit [UniParser] [LawfulUniParser] [SoundUniParser] in
private theorem unsigned_inScope {make : Nat → LoadableContent}
    (hmake : ∀ v, (make v).inScope tyGenerics methodGenerics) (bound radix : Nat) (valueS : List Char) :
    Ensures (Fits n) (LoadableContent.unsigned bound make radix valueS)
      fun c => c.inScope tyGenerics methodGenerics := by
  refine ensures_then (sliceOrPanic_forward _ _ _) fun digits => ensures_then (Keeps.okOr _ _) fun v => ?_
  exact Ensures.pure (hmake v)

omit [UniParser] [LawfulUniParser] [SoundUniParser] in
private theorem signed_inScope {make : Int → LoadableContent}
    (hmake : ∀ v, (make v).inScope tyGenerics methodGenerics) (bound : Nat) (isNegative : Option Bool)
    (radix : Nat) (valueS : List Char) :
    Ensures (Fits n) (LoadableContent.signed bound make isNegative radix valueS)
      fun c => c.inScope tyGenerics methodGenerics := by
  refine ensures_then (sliceOrPanic_forward _ _ _) fun digits => ensures_then (Keeps.okOr _ _) fun v => ?_
  split
  · split
    · exact Ensures.pure (hmake _)
    · exact Ensures.panic
  · exact Ensures.pure (hmake v)

omit [LawfulUniParser] [SoundUniParser] in
private theorem ofDigits_inScope (ty : String) (isNegative : Option Bool) (radix : Nat) (valueS : List Char) :
    Ensures (Fits n) (LoadableContent.ofDigits ty isNegative radix valueS)
      fun c => c.inScope tyGenerics methodGenerics := by
  unfold LoadableContent.ofDigits
  split
  case h_5 => split <;> first | exact unsigned_inScope (fun _ => rfl) _ _ _ | exact Ensures.panic
  case h_10 => split <;> first | exact signed_inScope (fun _ => rfl) _ _ _ _ | exact Ensures.panic
  case h_11 => exact Ensures.fail _
  all_goals
    first
    | exact unsigned_inScope (fun _ => rfl) _ _ _
    | exact signed_inScope (fun _ => rfl) _ _ _ _

omit [LawfulUniParser] [SoundUniParser] in
/-- A literal loads no type. -/
private theorem ofLiteral_inScope (tk : TokenInfo) (kind : LiteralKind) (suffixStart : Nat)
    (isNegative : Option Bool) :
    Ensures (Fits n) (LoadableContent.ofLiteral tk kind suffixStart isNegative)
      fun c => c.inScope tyGenerics methodGenerics := by
  have hquoted := quotedText_forward tk
  have htext := tokenText_forward tk
  unfold LoadableContent.ofLiteral
  split
  · refine ensures_then htext fun text => ensures_then (sliceOrPanic_forward _ _ _) fun valueS => ?_
    exact ensures_then (sliceOrPanic_forward _ _ _) fun ty => ofDigits_inScope _ _ _ _
  · exact Ensures.fail _
  · exact Ensures.panic
  · exact ensures_then (hquoted _ _ _) fun s => (ensures_of_forward (Keeps.okOr _ _)).map fun _ _ => rfl
  · exact ensures_then (hquoted _ _ _) fun s => (ensures_of_forward (Keeps.okOr _ _)).map fun _ _ => rfl
  · exact ensures_then (hquoted _ _ _) fun s => Ensures.pure rfl
  · exact ensures_then (hquoted _ _ _) fun s => Ensures.pure rfl
  · refine ensures_then (assert_forward _) fun _ => ensures_then (subOrPanic_forward _ _) fun stop => ?_
    refine ensures_then htext fun text => ensures_then (sliceOrPanic_forward _ _ _) fun s => ?_
    exact Ensures.pure rfl
  · refine ensures_then (assert_forward _) fun _ => ensures_then (subOrPanic_forward _ _) fun stop => ?_
    refine ensures_then htext fun text => ?_
    unfold sliceBytesOrPanic
    split
    · exact Ensures.pure rfl
    · exact Ensures.panic

omit [UniParser] [LawfulUniParser] [SoundUniParser] in
private theorem stepBack_fail (e : ParseError) :
    Ensures (Fits n) (do
      LoadableContent.stepBack
      fail e) P := by
  refine Ensures.bind (P := fun _ => True) (fun st hst => ?_) fun _ _ => Ensures.fail e
  unfold LoadableContent.stepBack
  split
  · exact ⟨hst, nofun⟩
  · exact ⟨hst, fun _ _ => trivial⟩

theorem LoadableContent.parseDepth_inScope (hty : tyGenerics.length ≤ 2 ^ 32)
    (hmethod : methodGenerics.length ≤ 2 ^ 32) (depth : Nat) (isNegative : Option Bool) :
    Ensures (Fits n) (LoadableContent.parseDepth tyGenerics methodGenerics depth isNegative)
      fun c => c.inScope tyGenerics methodGenerics := by
  have hparen : Keeps Forward (require SpecialChar.parenthesisOpen) := require_forward _
  have htype := call_ensures (n := n) (typeReference_inScope hty hmethod)
  induction depth generalizing isNegative with
  | zero => exact Ensures.diverge
  | succ depth ih =>
    refine ensures_then consume_forward fun o => ?_
    cases o with
    | none => exact Ensures.fail _
    | some tk =>
      dsimp only
      split
      · exact ih _
      · exact ofLiteral_inScope _ _ _ _
      · refine Ensures.pure ?_
        split <;> rfl
      · refine Ensures.pure ?_
        split <;> rfl
      · exact ensures_then (assert_forward _) fun _ => Ensures.pure rfl
      · refine ensures_then (assert_forward _) fun _ => ensures_then hparen fun _ => ?_
        refine ensures_then integerValue_forward fun id => ensures_then (require_forward _) fun _ => ?_
        exact Ensures.pure rfl
      · refine ensures_then (assert_forward _) fun _ => ensures_then hparen fun _ => ?_
        refine htype.bind fun ty h => ensures_then (call_forward fieldReference_parse_forward) fun field => ?_
        exact ensures_then (require_forward _) fun _ => Ensures.pure h
      · refine ensures_then (assert_forward _) fun _ => ensures_then hparen fun _ => ?_
        refine ensures_then (call_forward identifier_parse_forward) fun container => ?_
        refine ensures_then (call_forward fieldReference_parse_forward) fun field => ?_
        exact ensures_then (require_forward _) fun _ => Ensures.pure rfl
      · refine ensures_then (assert_forward _) fun _ => ensures_then hparen fun _ => ?_
        exact htype.bind fun ty h => ensures_then (require_forward _) fun _ => Ensures.pure h
      · exact stepBack_fail _

theorem LoadableContent.parse_inScope (hty : tyGenerics.length ≤ 2 ^ 32)
    (hmethod : methodGenerics.length ≤ 2 ^ 32) (isNegative : Option Bool) :
    Ensures (Fits n) (LoadableContent.parse isNegative tyGenerics methodGenerics)
      fun c => c.inScope tyGenerics methodGenerics :=
  withTurns_ensures fun depth => parseDepth_inScope hty hmethod depth isNegative

omit [SoundUniParser] in
/-- The end of a call, which mentions no type. -/
private theorem argsAndResult_pure {make : List Identifier → Identifier → Statement}
    (hmake : ∀ args result, (make args result).inScope tyGenerics methodGenerics) :
    Ensures (Fits n) (do
      let (args, result) ← argsAndResult
      pure (make args result)) fun s => s.inScope tyGenerics methodGenerics :=
  ensures_then argsAndResult_forward fun r => Ensures.pure (hmake r.1 r.2)

/-- The type references of a statement are in scope. -/
theorem Statement.parseOperands_inScope (hty : tyGenerics.length ≤ 2 ^ 32)
    (hmethod : methodGenerics.length ≤ 2 ^ 32) (k : StatementKeyword) :
    Ensures (Fits n) (Statement.parseOperands tyGenerics methodGenerics k)
      fun s => s.inScope tyGenerics methodGenerics := by
  have htype := call_ensures (n := n) (typeReference_inScope hty hmethod)
  have hmethodRef := call_ensures (n := n) (MethodReference.parse_inScope hty hmethod)
  have hname := call_forward identifier_parse_forward
  have hfield := call_forward fieldReference_parse_forward
  cases k with
  | load =>
    refine (call_ensures (LoadableContent.parse_inScope hty hmethod none)).bind fun c h => ?_
    refine ensures_then (require_forward _) fun _ => ensures_then hname fun var => ?_
    exact ensures_then (require_forward _) fun _ => Ensures.pure h
  | newObject =>
    refine htype.bind fun ty h => hmethodRef.bind fun ctor h' => argsAndResult_pure fun args result => ?_
    exact Bool.and_eq_true_iff.2 ⟨h, h'⟩
  | newArray =>
    refine htype.bind fun ty h => ensures_then (call_forward arrayLen_parse_forward) fun len => ?_
    refine ensures_then (require_forward _) fun _ => ensures_then hname fun result => ?_
    exact ensures_then (require_forward _) fun _ => Ensures.pure h
  | instanceCall =>
    refine ensures_then hname fun val => hmethodRef.bind fun method h => argsAndResult_pure fun args result => ?_
    exact h
  | interfaceCall =>
    refine ensures_then hname fun val => ensures_then (require_forward _) fun _ => htype.bind fun ty h => ?_
    refine hmethodRef.bind fun method h' => argsAndResult_pure fun args result => ?_
    exact Bool.and_eq_true_iff.2 ⟨h, h'⟩
  | staticCall =>
    refine htype.bind fun ty h => hmethodRef.bind fun method h' => argsAndResult_pure fun args result => ?_
    exact Bool.and_eq_true_iff.2 ⟨h, h'⟩
  | setStaticField =>
    refine ensures_then hname fun val => ensures_then (require_forward _) fun _ => htype.bind fun ty h => ?_
    exact ensures_then hfield fun field => ensures_then (require_forward _) fun _ => Ensures.pure h
  | readPointerTo | writePointer =>
    refine ensures_then hname fun _ => ensures_then hname fun _ => ensures_then (require_forward _) fun _ => ?_
    exact ensures_then hname fun _ => ensures_then (require_forward _) fun _ => Ensures.pure rfl
  | check =>
    refine ensures_then (call_forward checkKind_parse_forward) fun _ => ensures_then hname fun _ => ?_
    refine ensures_then (require_forward _) fun _ => ensures_then hname fun _ => ?_
    exact ensures_then (require_forward _) fun _ => Ensures.pure rfl
  | nonPurusCall =>
    refine ensures_then (require_forward _) fun _ => ensures_then hname fun _ => ensures_then hname fun _ => ?_
    exact argsAndResult_pure fun _ _ => rfl
  | setField =>
    refine ensures_then hname fun _ => ensures_then (require_forward _) fun _ => ensures_then hname fun _ => ?_
    refine ensures_then (require_forward _) fun _ => ensures_then hfield fun _ => ?_
    exact ensures_then (require_forward _) fun _ => Ensures.pure rfl
  | setThisField =>
    refine ensures_then hname fun _ => ensures_then (require_forward _) fun _ => ensures_then hfield fun _ => ?_
    exact ensures_then (require_forward _) fun _ => Ensures.pure rfl
  | throw | returnVal =>
    exact ensures_then hname fun _ => ensures_then (require_forward _) fun _ => Ensures.pure rfl
  | jump =>
    refine ensures_then (call_forward jumpCondition_parse_forward) fun _ => ?_
    refine ensures_then (call_forward jumpTargetType_parse_forward) fun _ => ?_
    refine ensures_then integerValue_forward fun _ => ensures_then (require_forward _) fun _ => ?_
    exact Ensures.pure rfl
  | nop => exact ensures_then (require_forward _) fun _ => Ensures.pure rfl

theorem Statement.parse_inScope (hty : tyGenerics.length ≤ 2 ^ 32) (hmethod : methodGenerics.length ≤ 2 ^ 32) :
    Ensures (Fits n) (Statement.parse tyGenerics methodGenerics)
      fun s => s.inScope tyGenerics methodGenerics := by
  refine ensures_then (requireF_forward _) fun tk => ?_
  cases tk.kind.statementKeyword? with
  | none => exact Ensures.panic
  | some k => exact Statement.parseOperands_inScope hty hmethod k

/-! ### Attributes and generic names -/

omit [UniParser] [LawfulUniParser] [SoundUniParser] in
/-- What every keyword keeps, the attribute loop keeps. -/
theorem attrLoop_ensures {isModifier : Keyword → Bool} {set : Keyword → β → Option β} {init : β}
    (hset : ∀ kw b c, Q b → set kw b = some c → Q c) (hinit : Q init) :
    Ensures (Fits n) (attrLoop isModifier set init) fun r => Q r.1 := by
  refine withTurns_ensures fun turns => foldWhileOk_ensures (J := fun r : β × Option TokenInfo => Q r.1)
    (ensures_of_forward (requireF_forward _)) (fun r tk hr _ => ?_) turns hinit
  obtain ⟨result, index⟩ := r
  dsimp only
  split
  · exact Ensures.pure hr
  · split
    · rename_i kw _
      refine Ensures.bind (P := Q) (fun st hst => ?_) fun c hc => Ensures.pure hc
      cases hkw : set kw result with
      | none => exact ⟨hst, nofun⟩
      | some c => exact ⟨hst, by rintro _ ⟨⟩; exact hset kw result c hr hkw⟩
    · exact Ensures.panic

omit [SoundUniParser] in
/-- A definition has at most as many generic names as there are tokens. -/
theorem ParseGenericResult.parse_length :
    Ensures (Fits n) ParseGenericResult.parse fun g => g.generics.length ≤ n := by
  refine ensures_then (attempt_forward (expect_forward _)) fun o => ?_
  cases o with
  | none => exact Ensures.pure (Nat.zero_le n)
  | some tk =>
    refine (whileOk_length (call_forward identifier_parse_forward)).bind fun generics h => ?_
    refine ensures_then (attempt_forward (expect_forward _)) fun o => ?_
    exact ensures_then (expect_forward _) fun _ => Ensures.pure h

/-! ### Members -/

theorem Field.parse_inScope (hty : tyGenerics.length ≤ 2 ^ 32) :
    Ensures (Fits n) (Field.parse tyGenerics) fun f => f.inScope tyGenerics := by
  rw [Field.parse, Field.parseIn_true]
  refine ensures_then consume_forward fun tk => ensures_then (assert_forward _) fun _ => ?_
  refine ensures_then (expect_forward _) fun _ => ensures_then (call_forward field_parseAttr_forward) fun a => ?_
  refine ensures_then (expect_forward _) fun _ =>
    ensures_then (call_forward identifier_parse_forward) fun name => ?_
  refine ensures_then (expect_forward _) fun _ => ?_
  refine (call_ensures (typeReference_inScope hty (Nat.zero_le _))).bind fun ty h => ?_
  exact ensures_then (expect_forward _) fun _ => Ensures.pure h

omit [UniParser] [LawfulUniParser] [SoundUniParser] in
/-- No keyword sets the overridden slot or adds a local variable. -/
private theorem setAttr_unset {kw : Keyword} {s s' : MethodAttrState}
    (hs : s.attr.overrides = none ∧ s.attr.localVariableTypes = []) (h : Method.setAttr kw s = some s') :
    s'.attr.overrides = none ∧ s'.attr.localVariableTypes = [] := by
  unfold Method.setAttr at h
  split at h
  · cases h
    exact hs
  · split at h
    all_goals cases h
    all_goals exact hs

omit [UniParser] [LawfulUniParser] [SoundUniParser] in
/-- An overriding method overrides the slot of its own index. -/
theorem Method.parseAttr_overrides :
    Ensures (Fits n) Method.parseAttr fun r =>
      (r.1.overrides = none ∨ r.1.overrides = some r.2.2) ∧ r.1.localVariableTypes = [] := by
  refine (attrLoop_ensures (Q := fun s : MethodAttrState => s.attr.overrides = none ∧
    s.attr.localVariableTypes = []) (fun _ _ _ => setAttr_unset) ⟨rfl, rfl⟩).bind fun r hr => ?_
  obtain ⟨s, tk⟩ := r
  refine ensures_then (indexValue_forward tk) fun index => ?_
  dsimp only at hr ⊢
  cases index with
  | none => exact Ensures.fail _
  | some index =>
    refine Ensures.pure ?_
    split
    · exact ⟨Or.inr rfl, hr.2⟩
    · exact ⟨Or.inl hr.1, hr.2⟩

theorem Parameter.parse_inScope (hty : tyGenerics.length ≤ 2 ^ 32) (hmethod : methodGenerics.length ≤ 2 ^ 32) :
    Ensures (Fits n) (Parameter.parse tyGenerics methodGenerics)
      fun p => p.ty.inScope tyGenerics methodGenerics := by
  refine ensures_then (require_forward _) fun _ => ensures_then ?_ fun attr => ?_
  · refine foldWhileOk_turns_forward (requireF_forward _) (fun _ tk => ?_) _
    split
    · exact Keeps.pure _
    · exact Keeps.panic
  refine ensures_then (require_forward _) fun _ => ?_
  exact (call_ensures (typeReference_inScope hty hmethod)).bind fun ty h => Ensures.pure h

/-- The local variables, each with its type. -/
theorem parseLocals_inScope (hty : tyGenerics.length ≤ 2 ^ 32) (hmethod : methodGenerics.length ≤ 2 ^ 32)
    {attr : MethodAttr TypeReference} (hattr : attr.localVariableTypes = []) :
    Ensures (Fits n) (parseLocals attr tyGenerics methodGenerics) fun r =>
      r.1.overrides = attr.overrides ∧ r.2.length = r.1.localVariableTypes.length ∧
        r.1.localVariableTypes.all (·.inScope tyGenerics methodGenerics) := by
  let J := fun r : MethodAttr TypeReference × List Identifier => r.1.overrides = attr.overrides ∧
    r.2.length = r.1.localVariableTypes.length ∧
      r.1.localVariableTypes.all (·.inScope tyGenerics methodGenerics)
  have hinit : J (attr, []) := ⟨rfl, by simp [hattr], by simp [hattr]⟩
  refine ensures_then (attempt_forward (expect_forward _)) fun o => ?_
  cases o with
  | none => exact Ensures.pure hinit
  | some tk =>
    refine ensures_then (expect_forward _) fun _ => Ensures.bind (P := J) ?_ fun r hr => ?_
    · refine withTurns_ensures fun turns => foldWhileOk_ensures
        (ensures_of_forward (call_forward identifier_parse_forward)) (fun r name hr _ => ?_) turns hinit
      obtain ⟨attr', locals⟩ := r
      obtain ⟨hoverrides, hlen, hscope⟩ := hr
      refine ensures_then (expect_forward _) fun _ => (typeReference_inScope hty hmethod).bind fun ty h => ?_
      refine Ensures.pure ⟨hoverrides, ?_, ?_⟩
      · simpa using hlen
      · rw [List.all_append, hscope]
        simpa using h
    · exact ensures_then (expect_forward _) fun _ => Ensures.pure hr

theorem parseMethodIn_inScope (hty : tyGenerics.length ≤ 2 ^ 32) (hmethod : methodGenerics.length ≤ 2 ^ 32) :
    Ensures (Fits n) (parseMethodIn tyGenerics methodGenerics)
      fun m => methodInScope tyGenerics methodGenerics m := by
  refine (call_ensures (MethodReference.parse_inScope hty hmethod)).bind fun m h => ?_
  refine ensures_then (expect_forward _) fun _ => ?_
  refine (call_ensures (typeReference_inScope hty hmethod)).bind fun ty h' => Ensures.pure ?_
  exact Bool.and_eq_true_iff.2 ⟨h', h⟩

theorem parseExceptionTableEntry_inScope (hty : tyGenerics.length ≤ 2 ^ 32)
    (hmethod : methodGenerics.length ≤ 2 ^ 32) :
    Ensures (Fits n) (parseExceptionTableEntry tyGenerics methodGenerics)
      fun e => e.inScope tyGenerics methodGenerics := by
  have hhandlers := foldUntilOk_turns_forward (expect_forward SpecialChar.braceClose) parseHandler_forward
    ⟨none, none, none⟩
  refine ensures_then integerValue_forward fun tryBegin => ensures_then (expect_forward _) fun _ => ?_
  refine ensures_then parseLoc_forward fun tryEnd => (typeReference_inScope hty hmethod).bind fun ty h => ?_
  refine optional_ensures (Q := fun m => methodInScope tyGenerics methodGenerics m)
    ((parseMethodIn_inScope hty hmethod).map fun m hm => ?_) fun filter hfilter => ?_
  · rintro _ ⟨⟩
    exact hm
  refine ensures_then (expect_forward _) fun _ => ensures_then (expect_forward _) fun _ => ?_
  refine ensures_then hhandlers fun handlers => ?_
  split
  · refine Ensures.pure (Bool.and_eq_true_iff.2 ⟨h, ?_⟩)
    cases filter with
    | none => rfl
    | some m => exact hfilter m rfl
  · exact Ensures.fail _

omit [UniParser] [LawfulUniParser] [SoundUniParser] in
/-- A loop that collects parts. -/
private theorem collect_all {stop : Parser β} {p : Parser α} {ok : α → Bool} (hstop : Keeps Forward stop)
    (hp : Ensures (Fits n) p fun a => ok a) :
    Ensures (Fits n) (withTurns fun turns =>
      foldUntilOk stop (fun as => do pure (as ++ [← p])) turns []) fun as => as.all ok := by
  refine withTurns_ensures fun turns => foldUntilOk_ensures (J := fun as : List α => as.all ok)
    (ensures_of_forward hstop) (fun as has => hp.bind fun a ha => Ensures.pure ?_) turns rfl
  rw [List.all_append, has]
  simpa using ha

theorem parseExceptionTable_inScope (hty : tyGenerics.length ≤ 2 ^ 32) (hmethod : methodGenerics.length ≤ 2 ^ 32) :
    Ensures (Fits n) (parseExceptionTable tyGenerics methodGenerics)
      fun es => es.all (·.inScope tyGenerics methodGenerics) := by
  refine ensures_then (attempt_forward (expect_forward _)) fun o => ?_
  cases o with
  | none => exact Ensures.pure rfl
  | some tk =>
    exact ensures_then (expect_forward _) fun _ =>
      collect_all (expect_forward _) (parseExceptionTableEntry_inScope hty hmethod)

theorem Method.parse_wellFormed (hty : tyGenerics.length ≤ 2 ^ 32) (hn : n ≤ 2 ^ 32) :
    Ensures (Fits n) (Method.parse tyGenerics) fun m => m.WellFormed tyGenerics := by
  refine ensures_then consume_forward fun tk => ensures_then (assert_forward _) fun _ => ?_
  refine ensures_then (expect_forward _) fun _ => (call_ensures Method.parseAttr_overrides).bind fun a ha => ?_
  obtain ⟨attr, callConv, index⟩ := a
  obtain ⟨hoverrides, hlocals⟩ := ha
  refine ensures_then (expect_forward _) fun _ =>
    ensures_then (call_forward identifier_parse_forward) fun name => ?_
  refine (call_ensures ParseGenericResult.parse_length).bind fun g hg => ?_
  have hmethod : g.generics.length ≤ 2 ^ 32 := Nat.le_trans hg hn
  refine ensures_then (expect_forward _) fun _ => ?_
  refine (punctuated_ensures (call_forward (parameter_parse_forward _ _)) (require_forward _)
    (call_ensures (Parameter.parse_inScope hty hmethod))).bind fun args hargs => ?_
  refine ensures_then (expect_forward _) fun _ => ensures_then (expect_forward _) fun _ => ?_
  refine (call_ensures (typeReference_inScope hty hmethod)).bind fun returnType hreturn => ?_
  refine optional_ensures (Q := fun m => methodInScope tyGenerics g.generics m)
    ((parseMethodIn_inScope hty hmethod).map fun m hm => ?_) fun impl himpl => ?_
  · rintro _ ⟨⟩
    exact hm
  refine ensures_then (attempt_forward (expect_forward _)) fun o => ?_
  cases o with
  | some tk => exact Ensures.panic.bind (P := fun _ => False) nofun
  | none =>
    refine ensures_then (expect_forward _) fun _ => ?_
    refine (call_ensures (parseLocals_inScope hty hmethod hlocals)).bind fun r hr => ?_
    refine (call_ensures (parseExceptionTable_inScope hty hmethod)).bind fun table htable => ?_
    refine (collect_all (expect_forward _)
      (call_ensures (Statement.parse_inScope hty hmethod))).bind fun statements hstatements => Ensures.pure ?_
    exact {
      overrides := by rw [hr.1]; exact hoverrides
      locals := hr.2.1
      types := hr.2.2
      args := List.all_eq_true.2 hargs
      returnType := hreturn
      impl := by
        cases impl with
        | none => rfl
        | some m => exact himpl m rfl
      exceptionTable := htable
      statements := hstatements }

/-! ### Definitions -/

omit [UniParser] [LawfulUniParser] [SoundUniParser] in
theorem TypeAttr.set_type {kw : Keyword} {attr attr' : TypeAttr} {type : TypeSpecificAttrType}
    (hattr : attr.specific.type = type) (h : TypeAttr.set kw attr = some attr') : attr'.specific.type = type := by
  unfold TypeAttr.set at h
  split at h
  · cases h
    exact hattr
  · obtain ⟨specific, hinsert, rfl⟩ := Option.map_eq_some_iff.1 h
    rw [← hattr]
    unfold TypeSpecificAttr.insert at hinsert
    split at hinsert
    · split at hinsert
      all_goals cases hinsert
      all_goals simp_all [TypeSpecificAttr.type]
    · split at hinsert
      all_goals cases hinsert
      all_goals simp_all [TypeSpecificAttr.type]
    · cases hinsert

omit [LawfulUniParser] [SoundUniParser] in
theorem attrAndIndex_type (type : TypeSpecificAttrType) :
    Ensures (Fits n) (attrAndIndex type) fun r => r.1.specific.type = type := by
  have hempty : type.empty.type = type := by cases type <;> rfl
  refine (call_ensures (P := fun r : TypeAttrAndIndex => r.attr.specific.type = type) ?_).bind fun r hr => ?_
  · refine (attrLoop_ensures (Q := fun attr : TypeAttr => attr.specific.type = type)
      (fun _ _ _ => TypeAttr.set_type) hempty).bind fun r hr => ?_
    obtain ⟨attr, index⟩ := r
    cases index with
    | none => exact Ensures.fail _
    | some tk => exact Ensures.pure hr
  · refine ensures_then (integerToken_getValue_forward _) fun v => ensures_then (Keeps.unwrap _) fun v => ?_
    exact ensures_then (Keeps.unwrap _) fun index => Ensures.pure hr

/-- What the members of a body satisfy; only bodies with fields have any. -/
private def MembersOk (tyGenerics : List Identifier) (withFields : Bool) (ms : List Method × List Field) : Prop :=
  (∀ m ∈ ms.1, m.WellFormed tyGenerics) ∧ (∀ f ∈ ms.2, f.inScope tyGenerics) ∧ (withFields = false → ms.2 = [])

private theorem parseMember_wellFormed (hty : tyGenerics.length ≤ 2 ^ 32) (hn : n ≤ 2 ^ 32) {withFields : Bool}
    {ms : List Method × List Field} (hms : MembersOk tyGenerics withFields ms) :
    Ensures (Fits n) (parseMember tyGenerics withFields ms) (MembersOk tyGenerics withFields) := by
  refine ensures_then current_forward fun o => ?_
  cases o with
  | none => exact Ensures.fail _
  | some tk =>
    dsimp only
    split
    · refine (call_ensures (Method.parse_wellFormed hty hn)).bind fun m hm => Ensures.pure ⟨?_, hms.2⟩
      intro m' hm'
      rcases List.mem_append.1 hm' with hm' | hm'
      · exact hms.1 m' hm'
      · obtain rfl : m' = m := by simpa using hm'
        exact hm
    · split
      · refine (call_ensures (Field.parse_inScope hty)).bind fun f hf => Ensures.pure ⟨hms.1, ?_, fun h => ?_⟩
        · intro f' hf'
          rcases List.mem_append.1 hf' with hf' | hf'
          · exact hms.2.1 f' hf'
          · obtain rfl : f' = f := by simpa using hf'
            exact hf
        · simp_all
      · exact Ensures.fail _
    · exact Ensures.fail _

private theorem parseMembers_wellFormed (hty : tyGenerics.length ≤ 2 ^ 32) (hn : n ≤ 2 ^ 32) (withFields : Bool) :
    Ensures (Fits n) (parseMembers tyGenerics withFields) (MembersOk tyGenerics withFields) := by
  have hinit : MembersOk tyGenerics withFields ([], []) := ⟨fun _ h => absurd h List.not_mem_nil,
    fun _ h => absurd h List.not_mem_nil, fun _ => rfl⟩
  have hturn := fun ms (hms : MembersOk tyGenerics withFields ms) => parseMember_wellFormed hty hn hms
  refine ensures_then (expect_forward _) fun _ => withTurns_ensures fun turns => ?_
  exact foldUntilOk_ensures (ensures_of_forward bodyEnd_forward) hturn turns hinit

/-- A class from its name on. -/
private theorem classRest_wellFormed (hn : n ≤ 2 ^ 32) {attr : TypeAttr} (hattr : attr.specific.type = .class)
    (index : UInt32) (main : Option UInt32) :
    Ensures (Fits n) (do
      let name ← call Identifier.parse
      let ⟨generics, isGenericInfinite⟩ ← call ParseGenericResult.parse
      let parent ← do
        match ← attempt (expect SpecialChar.colon) with
        | some _ => some <$> call (typeReference generics [])
        | none => pure none
      parseBounds
      let (methods, fields) ← parseMembers generics true
      pure { attr, index, main, name, generics, isGenericInfinite, parent, methods, fields })
      fun d => (TypeDef.class d).WellFormed := by
  refine ensures_then (call_forward identifier_parse_forward) fun name => ?_
  refine (call_ensures ParseGenericResult.parse_length).bind fun g hg => ?_
  have hty : g.generics.length ≤ 2 ^ 32 := Nat.le_trans hg hn
  refine optional_ensures (Q := fun r => r.inScope g.generics [])
    ((call_ensures (typeReference_inScope hty (Nat.zero_le _))).map fun r hr => ?_) fun parent hparent => ?_
  · rintro _ ⟨⟩
    exact hr
  refine ensures_then parseBounds_forward fun _ => (parseMembers_wellFormed hty hn true).bind fun ms hms => ?_
  refine Ensures.pure ⟨hattr, fun r hr => ?_, hms.1, hms.2.1⟩
  exact hparent r (by simpa [TypeDef.headerTypes] using hr)

theorem ClassDef.parse_wellFormed (hn : n ≤ 2 ^ 32) :
    Ensures (Fits n) ClassDef.parse fun d => (TypeDef.class d).WellFormed := by
  refine ensures_then (call_forward (require_forward _)) fun _ => ?_
  refine ensures_then (call_forward (require_forward _)) fun _ => (attrAndIndex_type .class).bind fun a ha => ?_
  obtain ⟨attr, index⟩ := a
  refine ensures_then (call_forward (require_forward _)) fun _ => ?_
  refine ensures_then (attempt_forward (expect_forward _)) fun o => ?_
  cases o with
  | none => exact classRest_wellFormed hn ha index none
  | some tk =>
    refine ensures_then (expect_forward _) fun _ => ensures_then integerIndex_forward fun id => ?_
    exact ensures_then (expect_forward _) fun _ => classRest_wellFormed hn ha index (some id)

theorem StructDef.parse_wellFormed (hn : n ≤ 2 ^ 32) :
    Ensures (Fits n) StructDef.parse fun d => (TypeDef.struct d).WellFormed := by
  refine ensures_then (call_forward (require_forward _)) fun _ => ?_
  refine ensures_then (call_forward (require_forward _)) fun _ => (attrAndIndex_type .struct).bind fun a ha => ?_
  obtain ⟨attr, index⟩ := a
  refine ensures_then (call_forward (require_forward _)) fun _ => ?_
  refine ensures_then (call_forward identifier_parse_forward) fun name => ?_
  refine (call_ensures ParseGenericResult.parse_length).bind fun g hg => ?_
  refine ensures_then parseBounds_forward fun _ => ?_
  refine (parseMembers_wellFormed (Nat.le_trans hg hn) hn true).bind fun ms hms => ?_
  exact Ensures.pure ⟨ha, fun _ h => absurd h List.not_mem_nil, hms.1, hms.2.1⟩

theorem InterfaceDef.parse_wellFormed (hn : n ≤ 2 ^ 32) :
    Ensures (Fits n) InterfaceDef.parse fun d => (TypeDef.interface d).WellFormed := by
  refine ensures_then (call_forward (require_forward _)) fun _ => ?_
  refine ensures_then (call_forward (require_forward _)) fun _ =>
    (attrAndIndex_type .interface).bind fun a ha => ?_
  obtain ⟨attr, index⟩ := a
  refine ensures_then (call_forward (require_forward _)) fun _ => ?_
  refine ensures_then (call_forward identifier_parse_forward) fun name => ?_
  refine (call_ensures ParseGenericResult.parse_length).bind fun g hg => ?_
  have hty : g.generics.length ≤ 2 ^ 32 := Nat.le_trans hg hn
  have hrequired : Ensures (Fits n) (call (punctuated true (call (typeReference g.generics []))
      (require SpecialChar.comma))) fun rs => ∀ r ∈ rs, r.inScope g.generics [] :=
    call_ensures (punctuated_ensures (call_forward (typeReference_forward _ _)) (require_forward _)
      (call_ensures (typeReference_inScope hty (Nat.zero_le _))))
  have hrest : ∀ rs : List TypeReference, (∀ r ∈ rs, r.inScope g.generics []) → Ensures (Fits n) (do
      parseBounds
      let (methods, _) ← parseMembers g.generics false
      pure (InterfaceDef.mk attr index name g.generics g.isGenericInfinite rs methods))
      fun d => (TypeDef.interface d).WellFormed := by
    intro rs hrs
    refine ensures_then parseBounds_forward fun _ => (parseMembers_wellFormed hty hn false).bind fun ms hms => ?_
    exact Ensures.pure ⟨ha, hrs, hms.1, fun _ h => absurd h List.not_mem_nil⟩
  refine ensures_then (attempt_forward (expect_forward _)) fun o => ?_
  cases o with
  | none => exact hrest [] fun _ h => absurd h List.not_mem_nil
  | some tk => exact hrequired.bind hrest

theorem TypeDef.parse_wellFormed (hn : n ≤ 2 ^ 32) : Ensures (Fits n) TypeDef.parse TypeDef.WellFormed := by
  refine ensures_then current_forward fun o => ?_
  cases o with
  | none => exact Ensures.fail _
  | some tk =>
    dsimp only
    split
    · exact (call_ensures (ClassDef.parse_wellFormed hn)).map fun _ h => h
    · exact (call_ensures (StructDef.parse_wellFormed hn)).map fun _ h => h
    · exact (call_ensures (InterfaceDef.parse_wellFormed hn)).map fun _ h => h
    · exact Ensures.fail _

/-! ### Files -/

omit [UniParser] [LawfulUniParser] [SoundUniParser] in
theorem TypeDef.WellFormed.setIndex {d : TypeDef} (h : d.WellFormed) (index : UInt32) :
    (d.setIndex index).WellFormed := by
  cases d <;> exact ⟨h.attr, h.headerTypes, h.methods, h.fields⟩

omit [UniParser] [LawfulUniParser] [SoundUniParser] in
@[simp] theorem TypeDef.index_setIndex (d : TypeDef) (index : UInt32) : (d.setIndex index).index = index := by
  cases d <;> rfl

/-- The definitions of a file are well formed, and their indices stand after those of the files before. -/
theorem File.parseTypes_wellFormed (lastIndex : UInt32) :
    Ensures (Fits (2 ^ 32)) (File.parseTypes lastIndex)
      fun f => ∀ d ∈ f.types, d.WellFormed ∧ lastIndex ≤ d.index := by
  let J := fun ds : List TypeDef => ∀ d ∈ ds, d.WellFormed ∧ lastIndex ≤ d.index
  have hturn : ∀ ds, J ds → Ensures (Fits (2 ^ 32)) (File.parseType lastIndex ds) J := by
    intro ds hds
    refine (TypeDef.parse_wellFormed (Nat.le_refl _)).bind fun d hd => ?_
    split
    · rename_i hlt
      refine Ensures.pure fun d' hd' => ?_
      rcases List.mem_append.1 hd' with hd' | hd'
      · exact hds d' hd'
      · obtain rfl : d' = d.setIndex (d.index + lastIndex) := by simpa using hd'
        refine ⟨hd.setIndex _, ?_⟩
        rw [TypeDef.index_setIndex, UInt32.le_iff_toNat_le, UInt32.toNat_add, Nat.mod_eq_of_lt hlt]
        exact Nat.le_add_left _ _
    · exact Ensures.panic
  refine Ensures.bind (P := J) ?_ fun ds hds => Ensures.pure hds
  have hinit : J [] := fun _ h => absurd h List.not_mem_nil
  exact withTurns_ensures fun turns => foldUntilOk_ensures (ensures_of_forward isEof_forward) hturn turns hinit

omit [LawfulUniParser] [SoundUniParser] in
theorem File.parse_eq_ok [UniLexer] {source : List Char} {lastIndex : UInt32} {f : File}
    (h : File.parse source lastIndex = .ok f) :
    (File.parseTypes lastIndex (ParseStream.new source)).1 = .ok f := by
  unfold File.parse at h
  split at h
  · cases h
  · exact h

/-- Every definition of a source that is accepted is well formed: its flags are those of its kind of type, generic
parameters stand at the positions of their names, a method overrides its own slot or none, and every local variable
has a type. -/
theorem File.wellFormed_of_parse [UniLexer] {source : List Char} {lastIndex : UInt32} {f : File}
    (hlen : (lex source).length ≤ 2 ^ 32) (h : File.parse source lastIndex = .ok f) :
    ∀ d ∈ f.types, d.WellFormed ∧ lastIndex ≤ d.index :=
  ((File.parseTypes_wellFormed lastIndex).of_run (s := ParseStream.new source) hlen
    (run_of_fst (File.parse_eq_ok h))).2

end Parsing

/-- `wellFormed_of_parse` at a generic class with a field of the type of its parameter. -/
theorem File.wellFormed_of_parse_generic :
    let d : TypeDef := .class ⟨⟨.public, .class false false⟩, 7, none, ⟨"A"⟩, [⟨"T"⟩], false, none, [],
      [⟨⟨.private, false⟩, 0, ⟨"x"⟩, .typeGeneric (some "T") 0⟩]⟩
    @File.parse plainParser asciiLexer "class[public 2]A[T]\x7bfield[0]x:T;\x7d".toList 5 = .ok ⟨[d]⟩ ∧
      d.WellFormed := by
  let _ := plainParser
  let _ := asciiLexer
  have hlawful := plainParser_lawful
  have hsound := plainParser_sound
  intro d
  have hlex : (lex "class[public 2]A[T]\x7bfield[0]x:T;\x7d".toList).length ≤ 2 ^ 32 := by decide +kernel
  have hparse : File.parse "class[public 2]A[T]\x7bfield[0]x:T;\x7d".toList 5 = .ok ⟨[d]⟩ := by decide +kernel
  exact ⟨hparse, (File.wellFormed_of_parse hlex hparse d (List.mem_singleton.2 rfl)).1⟩

end PuralinguaIR
