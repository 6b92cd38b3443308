import PuralinguaIR.Harmless
import PuralinguaIR.Parsed

/-!
# The parser answers

On a harmless source every parser ends with a value or an error, from the operands of a statement up to the
whole file (`File.parse_answers`): no loop goes round without taking tokens, and no token ends the run.
-/

namespace PuralinguaIR

open Text Effect Effect.Prog Reading

section Parsers

variable [UniLexer] [UniParser] [DerivingUniParser] {bound : Nat} {α β : Type} {K : α → ParseStream → Prop}

/-! ### Sequences -/

omit [UniParser] [DerivingUniParser] in
theorem take_runs (k : TokenKind) {f : TokenInfo → Parser α} (hf : ∀ tk, Safe (Clean bound) (f tk) K) :
    Safe (Clean bound) (require k >>= f) K :=
  (require_runs k).bind hf

omit [UniParser] [DerivingUniParser] in
/-- Behind a token that leads no content an operand may stand. -/
theorem take_runsAt {k : TokenKind} (hk : k.leadsContent = false) {f : TokenInfo → Parser α}
    (hf : ∀ tk, Safe (CleanOperand bound) (f tk) K) : Safe (Clean bound) (require k >>= f) K :=
  (require_runsTo hk).bind hf

omit [DerivingUniParser] in
theorem name_runsAt {f : Identifier → Parser α} (hf : ∀ name, Safe (CleanOperand bound) (f name) K) :
    Safe (Clean bound) (call Identifier.parse >>= f) K :=
  (safe_call identifier_runsTo).bind hf

theorem type_runsAt (tyGenerics methodGenerics : List Identifier) {f : TypeReference → Parser α}
    (hf : ∀ t, Safe (CleanOperand bound) (f t) K) :
    Safe (Clean bound) (call (typeReference tyGenerics methodGenerics) >>= f) K :=
  (safe_call (typeReference_runsTo _ _)).bind hf

theorem punctuated_runs {item : Parser α} {sep : Parser β} {atLeastOne : Bool} (hk : Keeps Forward item)
    (hconsumes : Consumes item) (hksep : Keeps Forward sep) (hitem : Runs bound item) (hsep : Runs bound sep) :
    Runs bound (punctuated atLeastOne item sep) := by
  refine runs_of_forward (LawfulUniParser.punctuated_forward hk hksep) fun st hst => ?_
  rw [LawfulUniParser.punctuated_breaks hconsumes hksep]
  rintro ⟨st', hturn, hbreaks⟩
  have hst' := hst.forward (hturn.forward hk hksep)
  rcases hbreaks with hbreaks | ⟨a, st'', ha, hbreaks⟩
  · exact (hitem st' hst').1 hbreaks
  · exact (hsep st'' (hst'.forward (hk.of_run ha))).1 hbreaks

/-- Alternatives, each of which leads to the same condition. -/
theorem firstOf_safe {ps : List (Parser α)} {J : α → ParseStream → Prop} (hk : ∀ p ∈ ps, Keeps Forward p)
    (hps : ∀ p ∈ ps, Safe (Clean bound) p J) : Safe (Clean bound) (firstOf ps) J := by
  intro st hst
  have hrun : (∃ e st', firstOf ps st = (.err e, st')) ∨ ∃ p ∈ ps, ∃ st', Forward st st' ∧ firstOf ps st = p st' :=
    DerivingUniParser.firstOf_run hk
  rcases hrun with ⟨e, st', he⟩ | ⟨p, hp, st', hf, hrun⟩
  · refine ⟨not_breaks_of_err he, fun a st'' ha => ?_⟩
    cases he.symm.trans ha
  · obtain ⟨hends, hvalue⟩ := hps p hp st' (hst.forward hf)
    rw [Breaks, hrun]
    exact ⟨hends, hvalue⟩

/-! ### Statements -/

theorem checkKind_runs : Runs bound CheckKind.parse := by
  have halternative : Runs bound (call (require Keyword.checkAllZero) >>= fun _ => pure CheckKind.allZero) :=
    (safe_call (require_runs _)).bind fun _ => runs_pure _
  refine firstOf_safe (List.forall_mem_singleton.2 ?_) (List.forall_mem_singleton.2 halternative)
  exact Keeps.bind (call_forward (require_forward _)) fun _ => Keeps.pure _

theorem jumpTargetType_runsTo : RunsTo bound JumpTargetType.parse := by
  have hforward (k : Keyword) (t : JumpTargetType) :
      Keeps Forward (call (require k) >>= fun _ => (pure t : Parser JumpTargetType)) :=
    Keeps.bind (call_forward (require_forward _)) fun _ => Keeps.pure _
  have halternative (k : Keyword) (t : JumpTargetType) :
      RunsTo bound (call (require k) >>= fun _ => (pure t : Parser JumpTargetType)) :=
    (safe_call (require_runsTo rfl)).bind fun _ => Safe.pure fun _ h => h
  refine firstOf_safe ?_ ?_
  · simpa using ⟨hforward _ _, hforward _ _, hforward _ _⟩
  · simpa using ⟨halternative _ _, halternative _ _, halternative _ _⟩

theorem jumpCondition_runs : Runs bound JumpCondition.parse := by
  have hcheck (k : Keyword) (make : CheckKind → Identifier → JumpCondition) : Runs bound (do
      let _ ← call (require k)
      let kind ← call CheckKind.parse
      let toCheck ← call Identifier.parse
      pure (make kind toCheck)) := by
    refine (safe_call (require_runs _)).bind fun _ => (safe_call checkKind_runs).bind fun kind => ?_
    exact name_runs fun toCheck => runs_pure _
  have hif : Runs bound (do
      let _ ← call (require Keyword.if)
      let val ← call Identifier.parse
      pure (JumpCondition.ifTrue val)) :=
    (safe_call (require_runs _)).bind fun _ => name_runs fun val => runs_pure _
  refine firstOf_safe ?_ ?_
  · simp only [List.forall_mem_cons, List.not_mem_nil, false_imp_iff, implies_true, and_true]
    refine ⟨?_, ?_, ?_, Keeps.pure _⟩
    · exact Keeps.bind (call_forward (require_forward _)) fun _ => (call_forward identifier_parse_forward).map _
    all_goals
      refine Keeps.bind (call_forward (require_forward _)) fun _ => ?_
      exact Keeps.bind (call_forward checkKind_parse_forward) fun _ =>
        (call_forward identifier_parse_forward).map _
  · simp only [List.forall_mem_cons, List.not_mem_nil, false_imp_iff, implies_true, and_true]
    exact ⟨hif, hcheck _ _, hcheck _ _, runs_pure _⟩

theorem argsAndResult_runs : Runs bound argsAndResult := by
  have hargs : Runs bound commonArgs :=
    punctuated_runs (call_forward identifier_parse_forward) (call_consumes identifier_parse_consumes)
      (require_forward _) (safe_call identifier_runsTo.runs) (require_runs _)
  refine take_runs _ fun _ => (safe_call hargs).bind fun args => take_runs _ fun _ => take_runs _ fun _ => ?_
  exact name_runs fun result => take_runs _ fun _ => runs_pure _

/-- What comes behind a name or a type, up to the semicolon. -/
private theorem args_runs (make : List Identifier × Identifier → Statement) :
    Runs bound (argsAndResult >>= fun r => pure (make r)) :=
  argsAndResult_runs.bind fun _ => runs_pure _

omit [UniParser] [DerivingUniParser] in
private theorem semicolon_runs (s : Statement) :
    Runs bound (require SpecialChar.semicolon >>= fun _ => (pure s : Parser Statement)) :=
  take_runs _ fun _ => runs_pure s

private theorem field_runs (hbound : bound ≤ 2 ^ 32) (make : FieldReference → Statement) : RunsAt bound (do
    let field ← call FieldReference.parse
    let _ ← require SpecialChar.semicolon
    pure (make field)) :=
  (safe_call (fieldReference_runsAt hbound)).bind fun _ => semicolon_runs _

private theorem method_runs (hbound : bound ≤ 2 ^ 32) (tyGenerics methodGenerics : List Identifier)
    (make : MethodReference → List Identifier × Identifier → Statement) : RunsAt bound (do
      let method ← call (MethodReference.parse tyGenerics methodGenerics)
      let r ← argsAndResult
      pure (make method r)) :=
  (safe_call (methodReference_runsAt _ _ hbound)).bind fun _ => args_runs _

theorem parseOperands_runs (hbound : bound ≤ 2 ^ 32) (tyGenerics methodGenerics : List Identifier)
    (k : StatementKeyword) : Runs bound (Statement.parseOperands tyGenerics methodGenerics k) := by
  have hname {make : Identifier → Statement} : Runs bound (do
      let result ← call Identifier.parse
      let _ ← require SpecialChar.semicolon
      pure (make result)) :=
    name_runs fun _ => semicolon_runs _
  have harrow {make : Identifier → Statement} : Runs bound (do
      let _ ← require SpecialChar.thinArrow
      let result ← call Identifier.parse
      let _ ← require SpecialChar.semicolon
      pure (make result)) :=
    take_runs _ fun _ => hname
  cases k with
  | load => exact (safe_call (content_runs _ _ hbound)).bind fun _ => harrow
  | readPointerTo => exact name_runs fun _ => name_runs fun _ => harrow
  | writePointer => exact name_runs fun _ => name_runs fun _ => harrow
  | check => exact (safe_call checkKind_runs).bind fun _ => name_runs fun _ => harrow
  | newObject => exact type_runsAt _ _ fun ty => method_runs hbound _ _ fun ctor r => .newObject ty ctor r.1 r.2
  | newArray =>
    have hlen : bound ≤ 2 ^ 64 := Nat.le_trans hbound (by decide)
    exact type_runsAt _ _ fun _ => (safe_call (arrayLen_runsAt hlen)).bind fun _ => harrow
  | instanceCall =>
    exact name_runsAt fun val => method_runs hbound _ _ fun method r => .instanceCall val method r.1 r.2
  | interfaceCall =>
    refine name_runs fun val => take_runs _ fun _ => type_runsAt _ _ fun interface => ?_
    exact method_runs hbound _ _ fun method r => .interfaceCall val interface method r.1 r.2
  | staticCall =>
    exact type_runsAt _ _ fun ty => method_runs hbound _ _ fun method r => .staticCall ty method r.1 r.2
  | nonPurusCall =>
    refine take_runs _ fun _ => name_runs fun config => name_runs fun fPointer => ?_
    exact args_runs fun r => .nonPurusCall config fPointer r.1 r.2
  | setField =>
    refine name_runs fun val => take_runs _ fun _ => name_runs fun container => take_runsAt rfl fun _ => ?_
    exact field_runs hbound (.setField val container)
  | setThisField => exact name_runs fun val => take_runsAt rfl fun _ => field_runs hbound (.setThisField val)
  | setStaticField =>
    refine name_runs fun val => take_runs _ fun _ => type_runsAt _ _ fun ty => ?_
    exact field_runs hbound (.setStaticField val ty)
  | throw => exact hname
  | returnVal => exact hname
  | jump =>
    have hvalue : bound ≤ 2 ^ 64 := Nat.le_trans hbound (by decide)
    refine (safe_call jumpCondition_runs).bind fun _ => (safe_call jumpTargetType_runsTo).bind fun _ => ?_
    exact (integerValue_runsAt hvalue).bind fun _ => semicolon_runs _
  | nop => exact semicolon_runs _

theorem statement_runs (hbound : bound ≤ 2 ^ 32) (tyGenerics methodGenerics : List Identifier) :
    Runs bound (Statement.parse tyGenerics methodGenerics) := by
  have htake : Safe (Clean bound) (requireF (·.kind.statementKeyword?.isSome)) fun tk st =>
      Clean bound st ∧ tk.kind.statementKeyword?.isSome :=
    safe_takeIf fun st _ hst _ htk => ⟨hst.forward (.skip st 1), htk⟩
  refine htake.bind fun tk => Safe.assuming fun hkeyword => ?_
  obtain ⟨k, hk⟩ := Option.isSome_iff_exists.1 hkeyword
  rw [hk]
  exact parseOperands_runs hbound _ _ k

/-! ### Attributes -/

omit [UniParser] [DerivingUniParser] in
/-- The token is an integer with digits that are a number below `bound`. -/
def TokenInfo.ReadsBelow (bound : Nat) (src : List Char) (tk : TokenInfo) : Prop :=
  tk ∈ lex src ∧ ∃ b digits, IntegerText src tk b digits ∧ b.Fits digits bound

omit [UniParser] [DerivingUniParser] in
theorem CleanOperand.readsBelow {st : ParseStream} {tk : TokenInfo} (hst : CleanOperand bound st)
    (hc : st.current = some tk) (hint : tk.kind.isInt) : tk.ReadsBelow bound st.source := by
  have hliteral : tk.kind.isLiteralOf .int := by
    obtain ⟨kind, span⟩ := tk
    unfold TokenKind.isInt at hint
    split at hint
    · rename_i hkind
      rw [hkind]
      rfl
    · cases hint
  have htk := hst.1.lexed.mem_lex hc
  obtain ⟨b, digits, htext⟩ := exists_integerText htk hliteral
  exact ⟨htk, b, digits, htext, not_not.1 ((badInteger_iff hc htext).not.1 (hst.1.harmlessAt.integer hst.2))⟩

omit [UniParser] [DerivingUniParser] in
/-- The loop over the attributes, when each modifier sets one: it keeps what every modifier keeps. -/
theorem attrLoop_safe {isModifier : Keyword → Bool} {set : Keyword → β → Option β} {init : β} {V : β → Prop}
    (hset : ∀ kw b, isModifier kw → V b → ∃ b', set kw b = some b' ∧ V b') (hinit : V init) :
    Safe (CleanOperand bound) (attrLoop isModifier set init) fun r st =>
      Clean bound st ∧ ∀ tk ∈ r.2, tk.ReadsBelow bound st.source := by
  let I (s : β × Option TokenInfo) (st : ParseStream) : Prop :=
    CleanOperand bound st ∧ V s.1 ∧ ∀ tk ∈ s.2, tk.ReadsBelow bound st.source
  let J (s : β × Option TokenInfo) (tk : TokenInfo) (st : ParseStream) : Prop :=
    I s st ∧ (tk.kind.isKeyword isModifier || tk.kind.isInt) ∧ (tk.kind.isInt → tk.ReadsBelow bound st.source)
  have hleads (tk : TokenInfo) (htk : tk.kind.isKeyword isModifier || tk.kind.isInt) :
      tk.kind.leadsContent = false := by
    obtain ⟨kind, span⟩ := tk
    cases kind with
    | statementKeyword k => cases htk
    | specialChar c => cases htk
    | _ => rfl
  refine (safe_foldWhileOk (I := I) (J := J) (K := I) (fun s => ?_) (fun s => ?_) (fun s tk => ?_)
    ?_ (init, none)).mono (fun st hst => ⟨hst, hinit, nofun⟩) fun r st hst => ⟨hst.1.1, hst.2.2⟩
  · refine (takeIf_consumes _ _).bind fun tk => ?_
    obtain ⟨result, index⟩ := s
    dsimp only
    split
    · exact Keeps.pure _
    · split <;> grind
  · refine safe_takeIf fun st tk hst hc htk => ?_
    have hst' : CleanOperand bound (st.skip 1) := ⟨hst.1.1.forward (.skip st 1), atOperand_skip hc (hleads tk htk)⟩
    exact ⟨⟨hst', hst.2⟩, htk, hst.1.readsBelow hc⟩
  · obtain ⟨result, index⟩ := s
    dsimp only
    split
    · rename_i hint
      refine Safe.pure fun st ⟨⟨hst, hV, _⟩, _, hreads⟩ => ⟨hst, hV, ?_⟩
      rintro _ ⟨⟩
      exact hreads hint
    · rename_i hint
      rintro st ⟨⟨hst, hV, hindex⟩, htk, -⟩
      rw [Bool.eq_false_iff.2 hint, Bool.or_false] at htk
      obtain ⟨kind, span⟩ := tk
      cases kind with
      | keyword kw =>
        obtain ⟨b', hb', hV'⟩ := hset kw result htk hV
        dsimp only
        rw [hb']
        exact (Safe.pure (I := fun s => s = st) fun _ h => h ▸ ⟨hst, hV', hindex⟩) st rfl
      | _ => cases htk
  · rintro s st e st' hst he
    obtain ⟨rfl, -⟩ := takeIf_eq_err he
    exact hst

omit [UniParser] [DerivingUniParser] in
theorem getValue_safe (tk : TokenInfo) : Safe (fun st => Clean bound st ∧ tk.ReadsBelow bound st.source)
    (IntegerToken.getValue tk) fun v st => Clean bound st ∧ (bound ≤ 2 ^ 64 → ∃ n ∈ v, n.toNat < bound) := by
  rintro st ⟨hst, htk, b, digits, htext, hfits⟩
  have hrun := htext.getValue_run htk
  refine ⟨not_breaks_of_ok hrun, fun v st' hv => ?_⟩
  obtain ⟨rfl, rfl⟩ : v = _ ∧ st' = st := by simpa using hv.symm.trans hrun
  refine ⟨hst, fun hbound => ?_⟩
  have hlt := Nat.lt_of_lt_of_le hfits.value_lt hbound
  rw [if_pos ⟨hfits.ne_nil, hfits.isDigit, hlt⟩]
  refine ⟨_, rfl, ?_⟩
  rw [UInt64.toNat_ofNat', Nat.mod_eq_of_lt hlt]
  exact hfits.value_lt

omit [UniParser] [DerivingUniParser] in
theorem indexValue_safe (index : Option TokenInfo) :
    Safe (fun st => Clean bound st ∧ ∀ tk ∈ index, tk.ReadsBelow bound st.source) (indexValue index)
      fun _ => Clean bound := by
  cases index with
  | none => exact Safe.pure fun st h => h.1
  | some tk =>
    refine Safe.bind ((getValue_safe tk).mono (fun st h => ⟨h.1, h.2 tk rfl⟩) fun _ _ h => h) fun v => ?_
    exact Safe.pure fun st h => h.1

omit [UniLexer] [UniParser] [DerivingUniParser] in
private theorem Field.setAttr_isSome {kw : Keyword} (attr : FieldAttr) (hkw : kw.isFieldModifier) :
    ∃ attr', Field.setAttr kw attr = some attr' ∧ True := by
  simp only [Keyword.isFieldModifier, Keyword.fieldModifiers, Keyword.visibilityModifiers, List.contains_iff_mem,
    List.mem_append, List.mem_cons, List.not_mem_nil, or_false] at hkw
  rcases hkw with (rfl | rfl | rfl) | rfl <;> exact ⟨_, rfl, trivial⟩

omit [UniLexer] [UniParser] [DerivingUniParser] in
private theorem Method.setAttr_isSome {kw : Keyword} (s : MethodAttrState) (hkw : kw.isMethodModifier) :
    ∃ s', Method.setAttr kw s = some s' ∧ True := by
  simp only [Keyword.isMethodModifier, Keyword.methodModifiers, Keyword.visibilityModifiers, List.contains_iff_mem,
    List.mem_append, List.mem_cons, List.not_mem_nil, or_false] at hkw
  rcases hkw with (rfl | rfl | rfl) | rfl | rfl | rfl | rfl | rfl | rfl | rfl | rfl | rfl <;>
    exact ⟨_, rfl, trivial⟩

omit [UniLexer] [UniParser] [DerivingUniParser] in
private theorem TypeAttr.set_isSome {kw : Keyword} {attr : TypeAttr} {type : TypeSpecificAttrType}
    (hkw : type.isModifier kw) (hattr : attr.specific.type = type) :
    ∃ attr', TypeAttr.set kw attr = some attr' ∧ attr'.specific.type = type := by
  suffices hset : ∃ attr', TypeAttr.set kw attr = some attr' by
    obtain ⟨attr', hset⟩ := hset
    exact ⟨attr', hset, TypeAttr.set_type hattr hset⟩
  obtain ⟨vis, specific⟩ := attr
  cases specific with
  | «class» static isPartial =>
    subst hattr
    simp only [TypeSpecificAttr.type, TypeSpecificAttrType.isModifier, Keyword.isClassModifier,
      Keyword.classModifiers,
      Keyword.typeModifiers, Keyword.visibilityModifiers, List.contains_iff_mem, List.mem_append, List.mem_cons,
      List.not_mem_nil, or_false] at hkw
    rcases hkw with (rfl | rfl | rfl) | rfl | rfl <;> exact ⟨_, rfl⟩
  | struct ref isPartial =>
    subst hattr
    simp only [TypeSpecificAttr.type, TypeSpecificAttrType.isModifier, Keyword.isStructModifier,
      Keyword.structModifiers, Keyword.typeModifiers, Keyword.visibilityModifiers, List.contains_iff_mem,
      List.mem_append, List.mem_cons, List.not_mem_nil, or_false] at hkw
    rcases hkw with (rfl | rfl | rfl) | rfl | rfl <;> exact ⟨_, rfl⟩
  | interface =>
    subst hattr
    simp only [TypeSpecificAttr.type, TypeSpecificAttrType.isModifier, Keyword.isInterfaceModifier,
      Keyword.interfaceModifiers, Keyword.typeModifiers, Keyword.visibilityModifiers, List.contains_iff_mem,
      List.mem_cons, List.not_mem_nil, or_false] at hkw
    rcases hkw with rfl | rfl | rfl <;> exact ⟨_, rfl⟩

omit [DerivingUniParser] in
/-- The attributes with the index of a definition. -/
theorem attrAndIndex_safe (hbound : bound ≤ 2 ^ 32) (type : TypeSpecificAttrType) :
    Safe (CleanOperand bound) (attrAndIndex type) fun r st => Clean bound st ∧ r.2.toNat < bound := by
  have hparse : Safe (CleanOperand bound) (TypeAttrAndIndex.parse type) fun r st =>
      Clean bound st ∧ r.index.ReadsBelow bound st.source := by
    have hinit : type.empty.type = type := by cases type <;> rfl
    refine (attrLoop_safe (V := fun attr : TypeAttr => attr.specific.type = type) (fun _ _ => TypeAttr.set_isSome)
      hinit).bind fun r => ?_
    obtain ⟨attr, index⟩ := r
    cases index with
    | none => exact Safe.fail _
    | some tk => exact Safe.pure fun st h => ⟨h.1, h.2 tk rfl⟩
  refine (safe_call hparse).bind fun r => (getValue_safe r.index).bind fun v => Safe.assuming fun hv => ?_
  obtain ⟨n, rfl, hn⟩ := hv (Nat.le_trans hbound (by decide))
  have hindex : tryU32 n = some (UInt32.ofNat n.toNat) := if_pos (Nat.lt_of_lt_of_le hn hbound)
  rw [unwrap_some, pure_bind, hindex, unwrap_some, pure_bind]
  refine Safe.pure fun st hst => ⟨hst, ?_⟩
  rw [UInt32.toNat_ofNat', Nat.mod_eq_of_lt (Nat.lt_of_lt_of_le hn hbound)]
  exact hn

/-! ### Members -/

omit [UniParser] [DerivingUniParser] in
/-- A part that may be there, behind a token of its own. -/
theorem optional_runs {k : TokenKind} (hk : k.leadsContent = false) {p : TokenInfo → Parser (Option β)}
    {f : Option β → Parser α} (hp : ∀ tk, RunsAt bound (p tk)) (hf : ∀ x, Safe (Clean bound) (f x) K) :
    Safe (Clean bound) (do
      match ← attempt (expect k) with
      | some tk => do
        let x ← p tk
        f x
      | none => f none) K := by
  refine (safe_attempt (Clean.stable bound) (expect_forward _) (require_runsTo hk)).bind fun o => ?_
  cases o with
  | none => exact (hf none).mono (fun st h => h.1) fun _ _ h => h
  | some tk => exact ((hp tk).mono (fun st h => h.2 tk rfl) fun _ _ h => h).bind hf

omit [UniParser] [DerivingUniParser] in
/-- `where` and `ExceptionTable` are not there. -/
theorem absent_safe {k : Keyword} (hk : k = .where ∨ k = .exceptionTable) :
    Safe (Clean bound) (attempt (expect k)) fun o st => Clean bound st ∧ o = none := by
  intro st hst
  have hdeclines : Declines (expect k) st := by
    refine takeIf_declines fun tk htk => ?_
    rw [← TokenStream.current_eq] at htk
    obtain ⟨hwhere, htable⟩ := hst.harmlessAt.keyword tk htk
    rcases hk with rfl | rfl
    · exact beq_false_of_ne hwhere
    · exact beq_false_of_ne htable
  refine ⟨not_breaks_of_ok hdeclines.attempt, fun o st' ho => ?_⟩
  cases hdeclines.attempt.symm.trans ho
  exact ⟨hst, rfl⟩

theorem parseGenericResult_runs : Runs bound ParseGenericResult.parse := by
  refine (attempt_runs (expect_forward _) (require_runs _)).bind fun o => ?_
  cases o with
  | none => exact runs_pure _
  | some tk =>
    refine (whileOk_runs (call_forward identifier_parse_forward) (call_consumes identifier_parse_consumes)
      (safe_call identifier_runsTo.runs)).bind fun generics => ?_
    refine (attempt_runs (expect_forward _) (require_runs _)).bind fun plus => ?_
    exact take_runs _ fun _ => runs_pure _

omit [UniParser] [DerivingUniParser] in
/-- A parser that takes its keyword first. -/
theorem keyword_safe {k : TokenKind} {p : Parser α} (hp : Runs bound p) :
    Safe (fun st => Clean bound st ∧ ∃ tk, st.current = some tk ∧ tk.kind = k) (do
      let tk ← consume
      assert (tk.any (·.kind == k))
      p) fun _ => Clean bound := by
  rintro st ⟨hst, tk, hc, hkind⟩
  have hrun : consume st = (.ok (some tk), st.skip 1) := by rw [consume, hc]
  have hassert : assert ((some tk).any (·.kind == k)) (st.skip 1) = (.ok (), st.skip 1) := by
    rw [Option.any_some, hkind, beq_self_eq_true]
    rfl
  obtain ⟨hends, hvalue⟩ := hp (st.skip 1) (hst.forward (.skip st 1))
  rw [breaks_bind_of_ok hrun, breaks_bind_of_ok hassert]
  refine ⟨hends, fun a st' h => hvalue a st' ?_⟩
  rwa [bind_of_ok hrun, bind_of_ok hassert] at h

theorem fieldParse_safe (tyGenerics : List Identifier) :
    Safe (fun st => Clean bound st ∧ ∃ tk, st.current = some tk ∧ tk.kind = .keyword .field)
      (Field.parse tyGenerics) fun _ => Clean bound := by
  have hloop : Safe (CleanOperand bound) (attrLoop Keyword.isFieldModifier Field.setAttr ⟨.private, false⟩)
      fun r st =>
      Clean bound st ∧ ∀ tk ∈ r.2, tk.ReadsBelow bound st.source :=
    attrLoop_safe (V := fun _ => True) (fun _ attr hkw _ => Field.setAttr_isSome attr hkw) trivial
  have hattr : RunsAt bound Field.parseAttr := by
    refine hloop.bind fun r => ?_
    obtain ⟨attr, index⟩ := r
    refine (indexValue_safe index).bind fun index => ?_
    cases index with
    | none => exact Safe.fail _
    | some index => exact runs_pure _
  rw [Field.parse, Field.parseIn_true]
  refine keyword_safe (take_runsAt rfl fun _ => (safe_call hattr).bind fun r => take_runs _ fun _ => ?_)
  exact name_runs fun name => take_runs _ fun _ => type_runs _ _ fun ty => take_runs _ fun _ => runs_pure _

theorem parameter_runs (tyGenerics methodGenerics : List Identifier) :
    Runs bound (Parameter.parse tyGenerics methodGenerics) := by
  refine take_runs _ fun _ => Safe.bind (J := fun _ => Clean bound) ?_ fun attr => take_runs _ fun _ => ?_
  · refine safe_foldWhileOk_stable (J := fun tk st =>
      Clean bound st ∧ tk.kind.isKeyword Keyword.isParameterModifier)
      (Clean.stable bound) (requireF_forward _) (fun _ => ?_) ?_ (fun _ tk => ?_) _
    · refine (takeIf_consumes _ _).bind fun tk => ?_
      split
      · exact Keeps.pure _
      · exact Keeps.panic
    · exact safe_takeIf fun st tk hst _ htk => ⟨hst.forward (.skip st 1), htk⟩
    · refine Safe.assuming fun htk => ?_
      obtain ⟨kind, span⟩ := tk
      cases kind with
      | keyword kw =>
        obtain rfl : kw = .ref := by
          simpa [TokenKind.isKeyword, Keyword.isParameterModifier, Keyword.parameterModifiers] using htk
        exact runs_pure _
      | _ => cases htk
  · exact type_runs _ _ fun ty => runs_pure _

theorem parseLocals_runs (attr : MethodAttr TypeReference) (tyGenerics methodGenerics : List Identifier) :
    Runs bound (parseLocals attr tyGenerics methodGenerics) := by
  refine (attempt_runs (expect_forward _) (require_runs _)).bind fun o => ?_
  cases o with
  | none => exact runs_pure _
  | some tk =>
    refine take_runs _ fun _ => Safe.bind (J := fun _ => Clean bound) ?_ fun r => take_runs _ fun _ => runs_pure _
    refine safe_foldWhileOk_stable (Clean.stable bound) (call_forward identifier_parse_forward) (fun _ => ?_)
      (safe_call identifier_runsTo.runs) (fun _ name => ?_) _
    · refine (call_consumes identifier_parse_consumes).bind fun name => ?_
      exact Keeps.bind (expect_forward _) fun _ => Keeps.bind (typeReference_forward _ _) fun _ => Keeps.pure _
    · exact take_runs _ fun _ => (typeReference_runsTo _ _).runs.bind fun ty => runs_pure _

omit [DerivingUniParser] in
theorem parseExceptionTable_runs (tyGenerics methodGenerics : List Identifier) :
    Runs bound (parseExceptionTable tyGenerics methodGenerics) := by
  refine (absent_safe (.inr rfl)).bind fun o => Safe.assuming ?_
  rintro rfl
  exact runs_pure _

omit [UniParser] [DerivingUniParser] in
theorem methodAttr_runsAt : RunsAt bound Method.parseAttr := by
  have hloop : Safe (CleanOperand bound)
      (attrLoop Keyword.isMethodModifier Method.setAttr ⟨Method.defaultAttr, .platformDefault, false⟩) fun r st =>
        Clean bound st ∧ ∀ tk ∈ r.2, tk.ReadsBelow bound st.source :=
    attrLoop_safe (V := fun _ => True) (fun _ s hkw _ => Method.setAttr_isSome s hkw) trivial
  refine hloop.bind fun r => ?_
  obtain ⟨s, index⟩ := r
  refine (indexValue_safe index).bind fun index => ?_
  cases index with
  | none => exact Safe.fail _
  | some index => exact runs_pure _

omit [UniLexer] in
private theorem parameter_consumes (tyGenerics methodGenerics : List Identifier) :
    Consumes (Parameter.parse tyGenerics methodGenerics) := by
  refine (takeIf_consumes _ _).bind fun _ => Keeps.bind ?_ fun attr => by grind
  refine foldWhileOk_turns_forward (requireF_forward _) (fun _ tk => ?_) _
  split
  · exact Keeps.pure _
  · exact Keeps.panic

omit [UniLexer] in
private theorem statement_consumes (tyGenerics methodGenerics : List Identifier) :
    Consumes (Statement.parse tyGenerics methodGenerics) := by
  refine (takeIf_consumes _ _).bind fun tk => ?_
  split
  · exact parseOperands_forward _ _ _
  · exact Keeps.panic

theorem methodParse_safe (hbound : bound ≤ 2 ^ 32) (tyGenerics : List Identifier) :
    Safe (fun st => Clean bound st ∧ ∃ tk, st.current = some tk ∧ tk.kind = .keyword .method)
      (Method.parse tyGenerics) fun _ => Clean bound := by
  refine keyword_safe (take_runsAt rfl fun _ => (safe_call methodAttr_runsAt).bind fun s => take_runs _ fun _ =>
    ?_)
  refine name_runs fun name => (safe_call parseGenericResult_runs).bind fun g => take_runs _ fun _ => ?_
  refine (punctuated_runs (call_forward (parameter_parse_forward _ _)) (call_consumes (parameter_consumes _ _))
    (require_forward _) (safe_call (parameter_runs _ _)) (require_runs _)).bind fun args => ?_
  refine take_runs _ fun _ => take_runs _ fun _ => type_runs _ _ fun returnType => ?_
  refine optional_runs rfl (fun _ => (parseMethodIn_runsAt _ _ hbound).map some) fun impl => ?_
  refine (absent_safe (.inl rfl)).bind fun o => Safe.assuming ?_
  rintro rfl
  refine take_runs _ fun _ => (safe_call (parseLocals_runs _ _ _)).bind fun r => ?_
  refine (safe_call (parseExceptionTable_runs _ _)).bind fun table => ?_
  have hstep (statements : List Statement) : Runs bound (do
      let s ← call (Statement.parse tyGenerics g.generics)
      pure (statements ++ [s])) :=
    (safe_call (statement_runs hbound _ _)).bind fun s => runs_pure _
  refine (safe_foldUntilOk (Clean.stable bound) (expect_forward _) (fun _ => ?_) (fun _ => ?_) (require_runs _)
    hstep []).bind fun statements => runs_pure _
  · exact Keeps.bind (call_forward (statement_parse_forward _ _)) fun _ => Keeps.pure _
  · exact (call_consumes (statement_consumes _ _)).bind fun _ => Keeps.pure _

/-! ### Definitions -/

omit [UniParser] [DerivingUniParser] in
/-- The next token, which is left where it is. -/
theorem current_safe : Safe (Clean bound) (current : Parser (Option TokenInfo)) fun o st =>
    Clean bound st ∧ o = st.current := by
  refine fun st hst => ⟨not_breaks_of_ok rfl, fun o st' ho => ?_⟩
  cases ho
  exact ⟨hst, rfl⟩

omit [UniParser] [DerivingUniParser] in
theorem bodyEnd_runs : Runs bound bodyEnd := by
  refine (attempt_runs (require_forward _) (require_runs _)).bind fun o => ?_
  cases o with
  | some tk => exact runs_pure _
  | none =>
    refine current_safe.bind fun o => ?_
    cases o with
    | some tk => exact Safe.fail _
    | none => exact Safe.pure fun st h => h.1

theorem parseMember_runs (hbound : bound ≤ 2 ^ 32) (tyGenerics : List Identifier) (withFields : Bool)
    (members : List Method × List Field) : Runs bound (parseMember tyGenerics withFields members) := by
  refine current_safe.bind fun o => ?_
  cases o with
  | none => exact Safe.fail _
  | some tk =>
    dsimp only
    split
    · rename_i hkind
      refine Safe.bind ((safe_call (methodParse_safe hbound tyGenerics)).mono
        (fun st h => ⟨h.1, tk, h.2.symm, hkind⟩) fun _ _ h => h) fun method => runs_pure _
    · rename_i hkind
      split
      · refine Safe.bind ((safe_call (fieldParse_safe tyGenerics)).mono (fun st h => ⟨h.1, tk, h.2.symm, hkind⟩)
          fun _ _ h => h) fun field => runs_pure _
      · exact Safe.fail _
    · exact Safe.fail _

theorem parseMembers_runs (hbound : bound ≤ 2 ^ 32) (tyGenerics : List Identifier) (withFields : Bool) :
    Runs bound (parseMembers tyGenerics withFields) :=
  take_runs _ fun _ => safe_foldUntilOk (Clean.stable bound) bodyEnd_forward (parseMember_forward _ _)
    (parseMember_consumes _ _) bodyEnd_runs (parseMember_runs hbound _ _) _

omit [UniParser] [DerivingUniParser] in
theorem parseBounds_runs : Runs bound parseBounds := by
  refine (absent_safe (.inl rfl)).bind fun o => Safe.assuming ?_
  rintro rfl
  exact runs_pure _

/-- What comes behind the header of a definition. -/
private theorem body_safe (hbound : bound ≤ 2 ^ 32) (tyGenerics : List Identifier) (withFields : Bool)
    {make : List Method × List Field → α} (hmake : ∀ ms st, Clean bound st → K (make ms) st) :
    Safe (Clean bound) (do
      parseBounds
      let ms ← parseMembers tyGenerics withFields
      pure (make ms)) K :=
  parseBounds_runs.bind fun _ => (parseMembers_runs hbound _ _).bind fun ms => Safe.pure fun st hst =>
    hmake ms st hst

theorem classDef_safe (hbound : bound ≤ 2 ^ 32) :
    Safe (Clean bound) ClassDef.parse fun d st => Clean bound st ∧ d.index.toNat < bound := by
  refine (safe_call (require_runs _)).bind fun _ => (safe_call (require_runsTo rfl)).bind fun _ => ?_
  refine (attrAndIndex_safe hbound .class).bind fun a => Safe.assuming fun hindex => ?_
  have hrest (main : Option UInt32) : Safe (Clean bound) (do
      let name ← call Identifier.parse
      let g ← call ParseGenericResult.parse
      let parent ← do
        match ← attempt (expect SpecialChar.colon) with
        | some _ => some <$> call (typeReference g.generics [])
        | none => pure none
      parseBounds
      let ms ← parseMembers g.generics true
      pure (ClassDef.mk a.1 a.2 main name g.generics g.isGenericInfinite parent ms.1 ms.2))
      fun d st => Clean bound st ∧ d.index.toNat < bound := by
    refine name_runs fun name => (safe_call parseGenericResult_runs).bind fun g => ?_
    refine optional_runs rfl (fun _ => ?_) fun parent => body_safe hbound _ _ fun ms st hst => ⟨hst, hindex⟩
    exact RunsAt.map (Runs.runsAt (safe_call (typeReference_runsTo _ _).runs)) some
  refine (safe_call (require_runs _)).bind fun _ =>
    (attempt_runs (expect_forward _) (require_runs _)).bind fun o => ?_
  cases o with
  | none => exact hrest none
  | some tk =>
    refine take_runsAt rfl fun _ => (integerIndex_runsAt hbound).bind fun id => ?_
    exact take_runs _ fun _ => hrest (some id)

theorem structDef_safe (hbound : bound ≤ 2 ^ 32) :
    Safe (Clean bound) StructDef.parse fun d st => Clean bound st ∧ d.index.toNat < bound := by
  refine (safe_call (require_runs _)).bind fun _ => (safe_call (require_runsTo rfl)).bind fun _ => ?_
  refine (attrAndIndex_safe hbound .struct).bind fun a => Safe.assuming fun hindex => ?_
  refine (safe_call (require_runs _)).bind fun _ => name_runs fun name => ?_
  refine (safe_call parseGenericResult_runs).bind fun g => ?_
  exact body_safe hbound _ _ fun ms st hst => ⟨hst, hindex⟩

theorem interfaceDef_safe (hbound : bound ≤ 2 ^ 32) :
    Safe (Clean bound) InterfaceDef.parse fun d st => Clean bound st ∧ d.index.toNat < bound := by
  refine (safe_call (require_runs _)).bind fun _ => (safe_call (require_runsTo rfl)).bind fun _ => ?_
  refine (attrAndIndex_safe hbound .interface).bind fun a => Safe.assuming fun hindex => ?_
  refine (safe_call (require_runs _)).bind fun _ => name_runs fun name => ?_
  refine (safe_call parseGenericResult_runs).bind fun g => ?_
  have hrest (rs : List TypeReference) : Safe (Clean bound) (do
      parseBounds
      let ms ← parseMembers g.generics false
      pure (InterfaceDef.mk a.1 a.2 name g.generics g.isGenericInfinite rs ms.1))
      fun d st => Clean bound st ∧ d.index.toNat < bound :=
    body_safe hbound _ _ fun ms st hst => ⟨hst, hindex⟩
  refine (attempt_runs (expect_forward _) (require_runs _)).bind fun o => ?_
  cases o with
  | none => exact hrest []
  | some tk =>
    exact (safe_call (punctuated_runs (call_forward (typeReference_forward _ _))
      (call_consumes (typeReference_consumes _ _)) (require_forward _) (safe_call (typeReference_runsTo _ _).runs)
      (require_runs _))).bind hrest

theorem typeDef_safe (hbound : bound ≤ 2 ^ 32) :
    Safe (Clean bound) TypeDef.parse fun d st => Clean bound st ∧ d.index.toNat < bound := by
  refine current_safe.bind fun o => ?_
  cases o with
  | none => exact Safe.fail _
  | some tk =>
    have hmap {α : Type} {p : Parser α} {f : α → TypeDef} (hp : Safe (Clean bound) p fun d st =>
        Clean bound st ∧ (f d).index.toNat < bound) : Safe (fun st => Clean bound st ∧ some tk = st.current)
          (f <$> call p) fun d st => Clean bound st ∧ d.index.toNat < bound :=
      Safe.map ((safe_call hp).mono (fun st h => h.1) fun _ _ h => h)
    dsimp only
    split
    · exact hmap (classDef_safe hbound)
    · exact hmap (structDef_safe hbound)
    · exact hmap (interfaceDef_safe hbound)
    · exact Safe.fail _

/-! ### Files -/

omit [UniParser] [DerivingUniParser] in
theorem isEof_runs : Runs bound isEof := by
  refine current_safe.bind fun o => ?_
  cases o with
  | some tk => exact Safe.fail _
  | none => exact Safe.pure fun st h => h.1

theorem parseTypes_runs {lastIndex : UInt32} (hbound : bound + lastIndex.toNat ≤ 2 ^ 32) :
    Runs bound (File.parseTypes lastIndex) := by
  have hle : bound ≤ 2 ^ 32 := Nat.le_trans (Nat.le_add_right _ _) hbound
  have hstep (types : List TypeDef) : Runs bound (File.parseType lastIndex types) := by
    refine (typeDef_safe hle).bind fun d => Safe.assuming fun hindex => ?_
    rw [if_pos (by omega)]
    exact runs_pure _
  have hadd (types : List TypeDef) (d : TypeDef) : Keeps Forward (if d.index.toNat + lastIndex.toNat < 2 ^ 32 then
      pure (types ++ [d.setIndex (d.index + lastIndex)]) else panic : Parser (List TypeDef)) := by
    split
    · exact Keeps.pure _
    · exact Keeps.panic
  refine (safe_foldUntilOk (Clean.stable bound) isEof_forward (fun _ => Keeps.bind typeDef_parse_forward (hadd _))
    (fun _ => typeDef_parse_consumes.bind (hadd _)) isEof_runs hstep []).bind fun types => runs_pure _

/-- A harmless source is read as a file or refused: the parser comes to an end, and no token ends the run. -/
theorem File.parse_answers {src : List Char} {lastIndex : UInt32}
    (h : Harmless (2 ^ 32 - lastIndex.toNat) src) :
    (∃ f, File.parse src lastIndex = .ok f) ∨ ∃ e, File.parse src lastIndex = .err e := by
  unfold File.parse
  cases hfind : (lex src).find? (·.kind.isInvalid) with
  | some tk => exact .inr ⟨_, rfl⟩
  | none =>
    have hvalid : ∀ tk ∈ lex src, tk.kind.isInvalid = false := by simpa using hfind
    have hclean : Clean (2 ^ 32 - lastIndex.toNat) (ParseStream.new src) := ⟨Lexed.new src, hvalid, h⟩
    have hbound : 2 ^ 32 - lastIndex.toNat + lastIndex.toNat ≤ 2 ^ 32 := by
      have := lastIndex.toNat_lt
      omega
    rcases not_breaks_iff.1 (parseTypes_runs hbound _ hclean).1 with ⟨f, st', hf⟩ | ⟨e, st', he⟩
    · exact .inl ⟨f, congrArg Prod.fst hf⟩
    · exact .inr ⟨e, congrArg Prod.fst he⟩

end Parsers

/-- A class whose method loads a number that is no index. -/
private def loadsNumber : List Char :=
  "class[public 0]A\x7bmethod[0]m()->[!]A\x7blocals(x:[!]A)Load 5000000000u64->x;ReturnVal x;\x7d\x7d".toList

/-- `File.parse_answers` for a class with a large number behind `Load`. -/
theorem File.parse_answers_load :
    (∃ f, @File.parse plainParser asciiLexer loadsNumber 7 = .ok f) ∨
      ∃ e, @File.parse plainParser asciiLexer loadsNumber 7 = .err e := by
  let _ := plainParser
  let _ := asciiLexer
  have _ := plainParser_deriving
  have hcheck : ∀ p ∈ (lex loadsNumber).zip (none :: (lex loadsNumber).map (some ·.kind)),
      p.1.isHarmless (2 ^ 32 - (7 : UInt32).toNat) loadsNumber p.2 := by decide +kernel
  exact File.parse_answers (.of_check hcheck)

end PuralinguaIR
