import PuralinguaIR.BadOperands

/-!
# Exception tables that are never read to the end

The loop over the handlers of an entry goes round for ever at a token that neither begins a handler nor closes
the block, and at the end of the input (`IsEndless`). An exception table is read or refused exactly when it
comes to no such place and to no bad operand (`parseExceptionTable_breaks_iff`).
-/

namespace PuralinguaIR

open Text Effect Effect.Prog Reading

/-- The kinds of the tokens with which a handler begins. -/
def TokenKind.isHandler (k : TokenKind) : Bool :=
  k == .keyword .exceptionCatch || k == .keyword .exceptionFinally || k == .keyword .exceptionFault

section Handlers

variable [UniParser]

/-! ### Where locations are read -/

/-- A location reads its number behind the keyword that may stand there. -/
def LocOperand (st st' : ParseStream) : Prop := ∃ rel, attempt (expect Keyword.tryRel) st = (.ok rel, st')

/-- The places at which two locations read their numbers. -/
inductive RangeOperand : ParseStream → ParseStream → Prop where
  | start {st st'} : LocOperand st st' → RangeOperand st st'
  | stop {st loc st₁ tk st₂ st'} : parseLoc st = (.ok loc, st₁) →
      expect SpecialChar.doubledDot st₁ = (.ok tk, st₂) → LocOperand st₂ st' → RangeOperand st st'

/-- The places behind the keyword of a handler that is not there yet; the keyword of one that is there is
skipped. -/
inductive HandlerRange (h : Handlers) (st : ParseStream) : ParseStream → Prop where
  | «catch» {o st₁} : attempt (expect Keyword.exceptionCatch) st = (.ok o, st₁) →
      (o.isSome && h.catch.isNone) = true → HandlerRange h st st₁
  | «finally» {o st₁ o' st₂} : attempt (expect Keyword.exceptionCatch) st = (.ok o, st₁) →
      (o.isSome && h.catch.isNone) = false → attempt (expect Keyword.exceptionFinally) st₁ = (.ok o', st₂) →
      (o'.isSome && h.finally.isNone) = true → HandlerRange h st st₂
  | fault {o st₁ o' st₂ o'' st₃} : attempt (expect Keyword.exceptionCatch) st = (.ok o, st₁) →
      (o.isSome && h.catch.isNone) = false → attempt (expect Keyword.exceptionFinally) st₁ = (.ok o', st₂) →
      (o'.isSome && h.finally.isNone) = false → attempt (expect Keyword.exceptionFault) st₂ = (.ok o'', st₃) →
      (o''.isSome && h.fault.isNone) = true → HandlerRange h st st₃

/-- The loop over the handlers comes to `h` and goes on. -/
def HandlerTurn (st : ParseStream) (h : Handlers) (st' : ParseStream) : Prop :=
  UntilTurn (expect SpecialChar.braceClose) parseHandler ⟨none, none, none⟩ st h st' ∧
    Declines (expect SpecialChar.braceClose) st'

/-- No handler begins at the position. -/
def NoHandler (st : ParseStream) : Prop := ∀ tk, st.current = some tk → tk.kind.isHandler = false

/-! ### Where entries read operands -/

section Entries

variable (tyGenerics methodGenerics : List Identifier)

def AtType (st st' : ParseStream) : Prop :=
  ∃ tryBegin st₁ tk st₂ tryEnd, integerValue st = (.ok tryBegin, st₁) ∧
    expect SpecialChar.doubledDot st₁ = (.ok tk, st₂) ∧ parseLoc st₂ = (.ok tryEnd, st')

def AtFilter (st st' : ParseStream) : Prop :=
  ∃ st₁ ty, AtType st st₁ ∧ typeReference tyGenerics methodGenerics st₁ = (.ok ty, st')

/-- The filter of an entry. -/
def parseFilter : Parser (Option (TypeReference × MethodReference)) := do
  match ← attempt (expect Keyword.where) with
  | some _ => some <$> parseMethodIn tyGenerics methodGenerics
  | none => pure none

def AtHandlers (st st' : ParseStream) : Prop :=
  ∃ st₁ filter st₂ tk st₃ tk', AtFilter tyGenerics methodGenerics st st₁ ∧
    parseFilter tyGenerics methodGenerics st₁ = (.ok filter, st₂) ∧ expect SpecialChar.arrow st₂ = (.ok tk, st₃) ∧
      expect SpecialChar.braceOpen st₃ = (.ok tk', st')

/-- The places at which a method of a type reads its operands. -/
inductive MethodInOperand (st : ParseStream) : Operand → ParseStream → Prop where
  | method {op st'} : MethodOperand tyGenerics methodGenerics st op st' → MethodInOperand st op st'
  | type {m st₁ tk st₂ st'} : MethodReference.parse tyGenerics methodGenerics st = (.ok m, st₁) →
      expect Keyword.in st₁ = (.ok tk, st₂) → TypeOperand tyGenerics methodGenerics (st₂.rest.length + 1) st₂ st' →
      MethodInOperand st .name st'

/-- The places at which an entry reads its operands. -/
inductive EntryOperand (st : ParseStream) : Operand → ParseStream → Prop where
  | tryBegin : EntryOperand st .value st
  | tryEnd {tryBegin st₁ tk st₂ st'} : integerValue st = (.ok tryBegin, st₁) →
      expect SpecialChar.doubledDot st₁ = (.ok tk, st₂) → LocOperand st₂ st' → EntryOperand st .value st'
  | type {st₁ st'} : AtType st st₁ → TypeOperand tyGenerics methodGenerics (st₁.rest.length + 1) st₁ st' →
      EntryOperand st .name st'
  | filter {st₁ tk st₂ op st'} : AtFilter tyGenerics methodGenerics st st₁ →
      expect Keyword.where st₁ = (.ok tk, st₂) → MethodInOperand tyGenerics methodGenerics st₂ op st' →
      EntryOperand st op st'
  | handler {st₁ h st₂ st₃ st'} : AtHandlers tyGenerics methodGenerics st st₁ → HandlerTurn st₁ h st₂ →
      HandlerRange h st₂ st₃ → RangeOperand st₃ st' → EntryOperand st .value st'

end Entries

variable [UniLexer]

/-! ### Locations and handlers -/

omit [UniParser] [UniLexer] in
private theorem not_breaks_attempt_expect (k : TokenKind) (st : ParseStream) :
    ¬Breaks (attempt (expect k)) st := by
  rw [breaks_attempt]
  exact not_breaks_require k st

omit [UniParser] [UniLexer] in
private theorem expect_eq_err {k : TokenKind} {st st' : ParseStream} {e : ParseError}
    (h : expect k st = (.err e, st')) : st' = st ∧ ∀ tk, st.current = some tk → (tk.kind == k) = false := by
  unfold expect require at h
  exact takeIf_eq_err h

omit [UniParser] [UniLexer] in
private theorem attempt_expect_forward (k : TokenKind) : Keeps Forward (attempt (expect k)) :=
  attempt_forward (expect_forward k)

private theorem parseLoc_breaks {st : ParseStream} (h : Lexed st) :
    Breaks parseLoc st ↔ ∃ st', LocOperand st st' ∧ BadInteger (2 ^ 64) st' := by
  have hloc {isRel : Bool} {st' : ParseStream} {rel : Option TokenInfo}
      (hrel : attempt (expect Keyword.tryRel) st = (.ok rel, st')) : Breaks (do
        let loc ← integerValue
        pure { isRel, loc } : Parser ExceptionLoc) st' ↔ BadInteger (2 ^ 64) st' := by
    rw [breaks_bind_left fun _ _ _ => not_breaks_pure _ _]
    exact integerValue_breaks (h.forward ((attempt_expect_forward _).of_run hrel))
  rw [parseLoc, breaks_bind_right (not_breaks_attempt_expect _ _)]
  constructor
  · rintro ⟨rel, st', hrel, hbad⟩
    exact ⟨st', ⟨rel, hrel⟩, (hloc hrel).1 hbad⟩
  · rintro ⟨st', ⟨rel, hrel⟩, hbad⟩
    exact ⟨rel, st', hrel, (hloc hrel).2 hbad⟩

variable [LawfulUniParser]

private theorem parse2Loc_breaks {st : ParseStream} (h : Lexed st) :
    Breaks parse2Loc st ↔ ∃ st', RangeOperand st st' ∧ BadInteger (2 ^ 64) st' := by
  have hstop {loc : ExceptionLoc} {st₁ st₂ : ParseStream} {tk : TokenInfo} (hloc : parseLoc st = (.ok loc, st₁))
      (htk : expect SpecialChar.doubledDot st₁ = (.ok tk, st₂)) : Breaks (do
        let b ← parseLoc
        pure (loc, b)) st₂ ↔ ∃ st', LocOperand st₂ st' ∧ BadInteger (2 ^ 64) st' := by
    rw [breaks_bind_left fun _ _ _ => not_breaks_pure _ _]
    exact parseLoc_breaks (h.forward ((parseLoc_forward.of_run hloc).trans ((expect_forward _).of_run htk)))
  rw [parse2Loc, breaks_bind, parseLoc_breaks h]
  constructor
  · rintro (⟨st', hplace, hbad⟩ | ⟨loc, st₁, hloc, hbad⟩)
    · exact ⟨st', .start hplace, hbad⟩
    obtain ⟨tk, st₂, htk, hbad⟩ := (breaks_bind_right (not_breaks_require _ _)).1 hbad
    obtain ⟨st', hplace, hbad⟩ := (hstop hloc htk).1 hbad
    exact ⟨st', .stop hloc htk hplace, hbad⟩
  · rintro ⟨st', hplace, hbad⟩
    cases hplace with
    | start hplace => exact .inl ⟨st', hplace, hbad⟩
    | stop hloc htk hplace =>
      exact .inr ⟨_, _, hloc, (breaks_bind_right (not_breaks_require _ _)).2
        ⟨_, _, htk, (hstop hloc htk).2 ⟨st', hplace, hbad⟩⟩⟩

private theorem parseHandler_breaks {h : Handlers} {st : ParseStream} (hlexed : Lexed st) :
    Breaks (parseHandler h) st ↔
      ∃ st₁ st', HandlerRange h st st₁ ∧ RangeOperand st₁ st' ∧ BadInteger (2 ^ 64) st' := by
  have hrange {st₁ : ParseStream} (hf : Forward st st₁) {f : ExceptionLoc × ExceptionLoc → Handlers} : Breaks (do
      let r ← parse2Loc
      pure (f r)) st₁ ↔ ∃ st', RangeOperand st₁ st' ∧ BadInteger (2 ^ 64) st' := by
    rw [breaks_bind_left fun _ _ _ => not_breaks_pure _ _]
    exact parse2Loc_breaks (hlexed.forward hf)
  have hforward {k : TokenKind} {st st' : ParseStream} {o : Option TokenInfo}
      (h : attempt (expect k) st = (.ok o, st')) : Forward st st' := (attempt_expect_forward k).of_run h
  rw [parseHandler, breaks_bind_right (not_breaks_attempt_expect _ _)]
  constructor
  · rintro ⟨o, st₁, ho, hbad⟩
    cases hcatch : o.isSome && h.catch.isNone with
    | true =>
      simp only [hcatch, if_true] at hbad
      obtain ⟨st', hplace, hbad⟩ := (hrange (hforward ho)).1 hbad
      exact ⟨st₁, st', .catch ho hcatch, hplace, hbad⟩
    | false =>
      simp only [hcatch, Bool.false_eq_true, if_false] at hbad
      obtain ⟨o', st₂, ho', hbad⟩ := (breaks_bind_right (not_breaks_attempt_expect _ _)).1 hbad
      cases hfinally : o'.isSome && h.finally.isNone with
      | true =>
        simp only [hfinally, if_true] at hbad
        obtain ⟨st', hplace, hbad⟩ := (hrange ((hforward ho).trans (hforward ho'))).1 hbad
        exact ⟨st₂, st', .finally ho hcatch ho' hfinally, hplace, hbad⟩
      | false =>
        simp only [hfinally, Bool.false_eq_true, if_false] at hbad
        obtain ⟨o'', st₃, ho'', hbad⟩ := (breaks_bind_right (not_breaks_attempt_expect _ _)).1 hbad
        cases hfault : o''.isSome && h.fault.isNone with
        | true =>
          simp only [hfault, if_true] at hbad
          obtain ⟨st', hplace, hbad⟩ := (hrange ((hforward ho).trans ((hforward ho').trans (hforward ho'')))).1
            hbad
          exact ⟨st₃, st', .fault ho hcatch ho' hfinally ho'' hfault, hplace, hbad⟩
        | false =>
          simp only [hfault, Bool.false_eq_true, if_false] at hbad
          exact absurd hbad (not_breaks_pure _ _)
  · rintro ⟨st₁, st', hplace, hbad⟩
    cases hplace with
    | «catch» ho hcatch =>
      refine ⟨_, _, ho, ?_⟩
      simp only [hcatch, if_true]
      exact (hrange (hforward ho)).2 ⟨st', hbad⟩
    | «finally» ho hcatch ho' hfinally =>
      refine ⟨_, _, ho, ?_⟩
      simp only [hcatch, Bool.false_eq_true, if_false]
      refine (breaks_bind_right (not_breaks_attempt_expect _ _)).2 ⟨_, _, ho', ?_⟩
      simp only [hfinally, if_true]
      exact (hrange ((hforward ho).trans (hforward ho'))).2 ⟨st', hbad⟩
    | fault ho hcatch ho' hfinally ho'' hfault =>
      refine ⟨_, _, ho, ?_⟩
      simp only [hcatch, Bool.false_eq_true, if_false]
      refine (breaks_bind_right (not_breaks_attempt_expect _ _)).2 ⟨_, _, ho', ?_⟩
      simp only [hfinally, Bool.false_eq_true, if_false]
      refine (breaks_bind_right (not_breaks_attempt_expect _ _)).2 ⟨_, _, ho'', ?_⟩
      simp only [hfault, if_true]
      exact (hrange ((hforward ho).trans ((hforward ho').trans (hforward ho'')))).2 ⟨st', hbad⟩

/-! ### Turns of the handler loop -/

omit [UniParser] [UniLexer] [LawfulUniParser] in
private theorem attempt_expect_run {k : TokenKind} {st st' : ParseStream} {o : Option TokenInfo}
    (h : attempt (expect k) st = (.ok o, st')) : o.isSome ∧ st'.rest.length < st.rest.length ∨
      o = none ∧ st' = st ∧ ∀ tk, st.current = some tk → (tk.kind == k) = false := by
  have hconsumes : Consumes (expect k) := takeIf_consumes _ _
  obtain ⟨tk, rfl, htk⟩ | ⟨rfl, e, he⟩ := attempt_eq_ok.1 h
  · exact .inl ⟨rfl, hconsumes st tk st' htk⟩
  · obtain ⟨rfl, hnone⟩ := expect_eq_err he
    exact .inr ⟨rfl, rfl, hnone⟩

omit [UniLexer] in
/-- A turn takes a token, or no handler begins. -/
private theorem parseHandler_turn {h h' : Handlers} {st st' : ParseStream}
    (hrun : parseHandler h st = (.ok h', st')) :
    st'.rest.length < st.rest.length ∨ NoHandler st := by
  have hrange {st₁ : ParseStream} {f : ExceptionLoc × ExceptionLoc → Handlers} (hrun : (do
      let r ← parse2Loc
      pure (f r)) st₁ = (.ok h', st')) : st'.rest.length ≤ st₁.rest.length :=
    ((parse2Loc_forward.bind fun _ => Keeps.pure _).of_run hrun).length_rest_le
  have hle {k : TokenKind} {st₁ st₂ : ParseStream} {o : Option TokenInfo}
      (ho : attempt (expect k) st₁ = (.ok o, st₂)) : st₂.rest.length ≤ st₁.rest.length :=
    ((attempt_expect_forward k).of_run ho).length_rest_le
  obtain ⟨o, st₁, ho, hrun⟩ := bind_eq_ok.1 hrun
  have h₁ := hle ho
  dsimp only at hrun
  split at hrun
  · rename_i htaken
    have hrest := hrange hrun
    rcases attempt_expect_run ho with ⟨-, hlt⟩ | ⟨rfl, -⟩
    · exact .inl (by omega)
    · cases htaken
  obtain ⟨o', st₂, ho', hrun⟩ := bind_eq_ok.1 hrun
  have h₂ := hle ho'
  split at hrun
  · rename_i htaken
    have hrest := hrange hrun
    rcases attempt_expect_run ho' with ⟨-, hlt⟩ | ⟨rfl, -⟩
    · exact .inl (by omega)
    · cases htaken
  obtain ⟨o'', st₃, ho'', hrun⟩ := bind_eq_ok.1 hrun
  have h₃ := hle ho''
  split at hrun
  · rename_i htaken
    have hrest := hrange hrun
    rcases attempt_expect_run ho'' with ⟨-, hlt⟩ | ⟨rfl, -⟩
    · exact .inl (by omega)
    · cases htaken
  cases hrun
  -- no handler has been read; each keyword was there and has been skipped, or was not there
  rcases attempt_expect_run ho with ⟨-, hlt⟩ | ⟨-, rfl, hcatch⟩
  · exact .inl (by omega)
  rcases attempt_expect_run ho' with ⟨-, hlt⟩ | ⟨-, rfl, hfinally⟩
  · exact .inl (by omega)
  rcases attempt_expect_run ho'' with ⟨-, hlt⟩ | ⟨-, rfl, hfault⟩
  · exact .inl (by omega)
  exact .inr fun tk htk => by simp [TokenKind.isHandler, hcatch tk htk, hfinally tk htk, hfault tk htk]

omit [UniLexer] [LawfulUniParser] in
private theorem parseHandler_other {st : ParseStream} (hother : NoHandler st) (h : Handlers) :
    parseHandler h st = (.ok h, st) := by
  have hnone {k : TokenKind} (hk : k.isHandler) : attempt (expect k) st = (.ok none, st) := by
    refine (takeIf_declines fun tk htk => ?_).attempt
    rw [← TokenStream.current_eq] at htk
    refine Bool.eq_false_iff.2 fun heq => ?_
    obtain rfl : tk.kind = k := by simpa using heq
    rw [hother tk htk] at hk
    cases hk
  rw [parseHandler, bind_of_ok (hnone rfl)]
  show (attempt (expect Keyword.exceptionFinally) >>= _) st = _
  rw [bind_of_ok (hnone rfl)]
  show (attempt (expect Keyword.exceptionFault) >>= _) st = _
  rw [bind_of_ok (hnone rfl)]
  rfl

/-- The loop breaks at a bad location and where it is stuck. -/
private theorem handlers_breaks {st : ParseStream} (hlexed : Lexed st) :
    Breaks (withTurns fun turns =>
      foldUntilOk (expect SpecialChar.braceClose) parseHandler turns ⟨none, none, none⟩) st ↔
        ∃ h st₁, HandlerTurn st h st₁ ∧
          (NoHandler st₁ ∨ ∃ st₂ st', HandlerRange h st₁ st₂ ∧ RangeOperand st₂ st' ∧
              BadInteger (2 ^ 64) st') := by
  rw [breaks_foldUntilOk]
  · refine exists_congr fun h => exists_congr fun st₁ => ?_
    rw [HandlerTurn, and_assoc]
    refine and_congr_right fun hturn => ?_
    have hlexed₁ := hlexed.forward (hturn.forward (expect_forward _) parseHandler_forward)
    constructor
    · rintro (hbreaks | ⟨e, st₂, he, hbreaks⟩ | hstuck)
      · exact absurd hbreaks (not_breaks_require _ _)
      · obtain ⟨rfl, -⟩ := expect_eq_err he
        exact ⟨⟨e, he⟩, .inr ((parseHandler_breaks hlexed₁).1 hbreaks)⟩
      · exact ⟨hstuck.1, .inl ((parseHandler_turn hstuck.2).resolve_left (Nat.lt_irrefl _))⟩
    · rintro ⟨⟨e, he⟩, hnone | hbad⟩
      · exact .inr (.inr ⟨⟨e, he⟩, parseHandler_other hnone h⟩)
      · exact .inr (.inl ⟨e, st₁, he, (parseHandler_breaks hlexed₁).2 hbad⟩)
  · intro h st e st₁ h' st₂ he hrun
    obtain ⟨rfl, -⟩ := expect_eq_err he
    exact (parseHandler_turn hrun).imp_right fun hnone => ⟨⟨e, he⟩, parseHandler_other hnone h⟩

/-! ### Entries -/

variable {tyGenerics methodGenerics : List Identifier}

private theorem parseMethodIn_breaks {st : ParseStream} (h : Lexed st) :
    Breaks (parseMethodIn tyGenerics methodGenerics) st ↔
      ∃ op st', MethodInOperand tyGenerics methodGenerics st op st' ∧ op.Bad st' := by
  have htype {m : MethodReference} {st₁ st₂ : ParseStream} {tk : TokenInfo}
      (hm : MethodReference.parse tyGenerics methodGenerics st = (.ok m, st₁))
      (htk : expect Keyword.in st₁ = (.ok tk, st₂)) : Breaks (do
        let ty ← call (typeReference tyGenerics methodGenerics)
        pure (ty, m)) st₂ ↔
          ∃ st', TypeOperand tyGenerics methodGenerics (st₂.rest.length + 1) st₂ st' ∧ BadName st' := by
    rw [breaks_bind_left fun _ _ _ => not_breaks_pure _ _, breaks_call]
    exact typeReference_breaks _ _
      (h.forward (((methodReference_parse_forward _ _).of_run hm).trans ((expect_forward _).of_run htk)))
  rw [parseMethodIn, breaks_bind, breaks_call, MethodReference.parse_breaks _ _ h]
  constructor
  · rintro (⟨op, st', hplace, hbad⟩ | ⟨m, st₁, hm, hbreaks⟩)
    · exact ⟨op, st', .method hplace, hbad⟩
    have hm := call_eq_ok.1 hm
    obtain ⟨tk, st₂, htk, hbreaks⟩ := (breaks_bind_right (not_breaks_require _ _)).1 hbreaks
    obtain ⟨st', hplace, hbad⟩ := (htype hm htk).1 hbreaks
    exact ⟨.name, st', .type hm htk hplace, hbad⟩
  · rintro ⟨op, st', hplace, hbad⟩
    cases hplace with
    | method hplace => exact .inl ⟨op, st', hplace, hbad⟩
    | type hm htk hplace =>
      exact .inr ⟨_, _, call_ok hm, (breaks_bind_right (not_breaks_require _ _)).2
        ⟨_, _, htk, (htype hm htk).2 ⟨st', hplace, hbad⟩⟩⟩

private theorem parseFilter_breaks {st : ParseStream} (h : Lexed st) :
    Breaks (parseFilter tyGenerics methodGenerics) st ↔ ∃ tk st₁ op st', expect Keyword.where st = (.ok tk, st₁) ∧
      MethodInOperand tyGenerics methodGenerics st₁ op st' ∧ op.Bad st' := by
  have hmethod {tk : TokenInfo} {st₁ : ParseStream} (htk : expect Keyword.where st = (.ok tk, st₁)) :
      Breaks (some <$> parseMethodIn tyGenerics methodGenerics) st₁ ↔
        ∃ op st', MethodInOperand tyGenerics methodGenerics st₁ op st' ∧ op.Bad st' := by
    rw [breaks_map]
    exact parseMethodIn_breaks (h.forward ((expect_forward _).of_run htk))
  rw [parseFilter, breaks_bind_right (not_breaks_attempt_expect _ _)]
  constructor
  · rintro ⟨o, st₁, ho, hbreaks⟩
    obtain ⟨tk, rfl, htk⟩ | ⟨rfl, -⟩ := attempt_eq_ok.1 ho
    · obtain ⟨op, st', hplace, hbad⟩ := (hmethod htk).1 hbreaks
      exact ⟨tk, st₁, op, st', htk, hplace, hbad⟩
    · exact absurd hbreaks (not_breaks_pure _ _)
  · rintro ⟨tk, st₁, op, st', htk, hplace, hbad⟩
    exact ⟨some tk, st₁, attempt_of_ok htk, (hmethod htk).2 ⟨op, st', hplace, hbad⟩⟩

omit [UniLexer] in
private theorem AtType.forward {st st' : ParseStream} (h : AtType st st') : Forward st st' := by
  obtain ⟨tryBegin, st₁, tk, st₂, tryEnd, hbegin, hdots, hend⟩ := h
  exact (integerValue_forward.of_run hbegin).trans
    (((expect_forward _).of_run hdots).trans (parseLoc_forward.of_run hend))

omit [UniLexer] in
private theorem AtFilter.forward {st st' : ParseStream} (h : AtFilter tyGenerics methodGenerics st st') :
    Forward st st' := by
  obtain ⟨st₁, ty, hat, hty⟩ := h
  exact hat.forward.trans ((typeReference_forward _ _).of_run hty)

omit [UniLexer] in
private theorem AtHandlers.forward {st st' : ParseStream} (h : AtHandlers tyGenerics methodGenerics st st') :
    Forward st st' := by
  obtain ⟨st₁, filter, st₂, tk, st₃, tk', hat, hfilter, harrow, hopen⟩ := h
  have hforward : Keeps Forward (parseFilter tyGenerics methodGenerics) := by
    unfold parseFilter
    grind
  exact (hat.forward.trans (hforward.of_run hfilter)).trans
    (((expect_forward _).of_run harrow).trans ((expect_forward _).of_run hopen))

omit [UniLexer] [LawfulUniParser] in
private theorem parseExceptionTableEntry_eq : parseExceptionTableEntry tyGenerics methodGenerics = (do
    let tryBegin ← integerValue
    let _ ← expect SpecialChar.doubledDot
    let tryEnd ← parseLoc
    let exceptionType ← typeReference tyGenerics methodGenerics
    let filter ← parseFilter tyGenerics methodGenerics
    let _ ← expect SpecialChar.arrow
    let _ ← expect SpecialChar.braceOpen
    let h ← withTurns fun turns =>
      foldUntilOk (expect SpecialChar.braceClose) parseHandler turns ⟨none, none, none⟩
    match h.catch with
    | some «catch» =>
      pure { tryBegin, tryEnd, exceptionType, filter, «catch», «finally» := h.finally, fault := h.fault }
    | none => fail (.custom "No catch in an exception table")) := by
  refine bind_congr fun tryBegin => bind_congr fun _ => bind_congr fun tryEnd => bind_congr fun ty => ?_
  rw [parseFilter, bind_assoc]
  refine bind_congr fun o => ?_
  cases o <;> rfl

/-- An entry breaks at a bad operand and where its handlers go on for ever. -/
private theorem parseExceptionTableEntry_breaks {st : ParseStream} (h : Lexed st) :
    Breaks (parseExceptionTableEntry tyGenerics methodGenerics) st ↔
      (∃ op st', EntryOperand tyGenerics methodGenerics st op st' ∧ op.Bad st') ∨
        ∃ st₁ hs st₂, AtHandlers tyGenerics methodGenerics st st₁ ∧ HandlerTurn st₁ hs st₂ ∧ NoHandler st₂ := by
  have hentry {tryBegin : UInt64} {tryEnd : ExceptionLoc} {exceptionType : TypeReference}
      {filter : Option (TypeReference × MethodReference)} {st₁ : ParseStream} : Breaks (do
        let h ← withTurns fun turns =>
          foldUntilOk (expect SpecialChar.braceClose) parseHandler turns ⟨none, none, none⟩
        match h.catch with
        | some «catch» =>
          pure { tryBegin, tryEnd, exceptionType, filter, «catch», «finally» := h.finally, fault := h.fault }
        | none => fail (.custom "No catch in an exception table") : Parser ExceptionTableEntry) st₁ ↔
          Breaks (withTurns fun turns =>
            foldUntilOk (expect SpecialChar.braceClose) parseHandler turns ⟨none, none, none⟩) st₁ := by
    refine breaks_bind_left fun hs st₂ _ => ?_
    cases hs.catch with
    | none => exact not_breaks_fail _ _
    | some «catch» => exact not_breaks_pure _ _
  rw [parseExceptionTableEntry_eq]
  constructor
  · intro hbreaks
    rcases breaks_bind.1 hbreaks with hbad | ⟨tryBegin, st₁, hbegin, hbreaks⟩
    · exact .inl ⟨.value, st, .tryBegin, (integerValue_breaks h).1 hbad⟩
    obtain ⟨tk, st₂, hdots, hbreaks⟩ := (breaks_bind_right (not_breaks_require _ _)).1 hbreaks
    have h₂ := h.forward ((integerValue_forward.of_run hbegin).trans ((expect_forward _).of_run hdots))
    rcases breaks_bind.1 hbreaks with hbad | ⟨tryEnd, st₃, hend, hbreaks⟩
    · obtain ⟨st', hplace, hbad⟩ := (parseLoc_breaks h₂).1 hbad
      exact .inl ⟨.value, st', .tryEnd hbegin hdots hplace, hbad⟩
    have hat : AtType st st₃ := ⟨tryBegin, st₁, tk, st₂, tryEnd, hbegin, hdots, hend⟩
    rcases breaks_bind.1 hbreaks with hbad | ⟨ty, st₄, hty, hbreaks⟩
    · obtain ⟨st', hplace, hbad⟩ := (typeReference_breaks _ _ (h.forward hat.forward)).1 hbad
      exact .inl ⟨.name, st', .type hat hplace, hbad⟩
    have hat : AtFilter tyGenerics methodGenerics st st₄ := ⟨st₃, ty, hat, hty⟩
    rcases breaks_bind.1 hbreaks with hbad | ⟨filter, st₅, hfilter, hbreaks⟩
    · obtain ⟨tk', st₅, op, st', hwhere, hplace, hbad⟩ := (parseFilter_breaks (h.forward hat.forward)).1 hbad
      exact .inl ⟨op, st', .filter hat hwhere hplace, hbad⟩
    obtain ⟨tk', st₆, harrow, hbreaks⟩ := (breaks_bind_right (not_breaks_require _ _)).1 hbreaks
    obtain ⟨tk'', st₇, hopen, hbreaks⟩ := (breaks_bind_right (not_breaks_require _ _)).1 hbreaks
    have hat : AtHandlers tyGenerics methodGenerics st st₇ :=
      ⟨st₄, filter, st₅, tk', st₆, tk'', hat, hfilter, harrow, hopen⟩
    obtain ⟨hs, st₈, hturn, hnone | ⟨st₉, st', hrange, hplace, hbad⟩⟩ :=
      (handlers_breaks (h.forward hat.forward)).1 (hentry.1 hbreaks)
    · exact .inr ⟨st₇, hs, st₈, hat, hturn, hnone⟩
    · exact .inl ⟨.value, st', .handler hat hturn hrange hplace, hbad⟩
  · -- the loop comes to its turn when everything before it is read
    have hloop {st₁ : ParseStream} (hat : AtHandlers tyGenerics methodGenerics st st₁)
        (hbreaks : Breaks (withTurns fun turns =>
          foldUntilOk (expect SpecialChar.braceClose) parseHandler turns ⟨none, none, none⟩) st₁) :
        Breaks (parseExceptionTableEntry tyGenerics methodGenerics) st := by
      obtain ⟨st₂, filter, st₃, tk, st₄, tk', hat, hfilter, harrow, hopen⟩ := hat
      obtain ⟨st₅, ty, hat, hty⟩ := hat
      obtain ⟨tryBegin, st₆, tk'', st₇, tryEnd, hbegin, hdots, hend⟩ := hat
      rw [parseExceptionTableEntry_eq, breaks_bind_of_ok hbegin, breaks_bind_of_ok hdots, breaks_bind_of_ok hend,
        breaks_bind_of_ok hty, breaks_bind_of_ok hfilter, breaks_bind_of_ok harrow, breaks_bind_of_ok hopen,
          hentry]
      exact hbreaks
    rw [parseExceptionTableEntry_eq] at hloop
    rintro (⟨op, st', hplace, hbad⟩ | ⟨st₁, hs, st₂, hat, hturn, hnone⟩)
    · cases hplace with
      | tryBegin => exact breaks_bind.2 (.inl ((integerValue_breaks h).2 hbad))
      | tryEnd hbegin hdots hplace =>
        have h₂ := h.forward ((integerValue_forward.of_run hbegin).trans ((expect_forward _).of_run hdots))
        rw [breaks_bind_of_ok hbegin, breaks_bind_of_ok hdots]
        exact breaks_bind.2 (.inl ((parseLoc_breaks h₂).2 ⟨st', hplace, hbad⟩))
      | type hat hplace =>
        have hty := (typeReference_breaks _ _ (h.forward hat.forward)).2 ⟨st', hplace, hbad⟩
        obtain ⟨tryBegin, st₁, tk, st₂, tryEnd, hbegin, hdots, hend⟩ := hat
        rw [breaks_bind_of_ok hbegin, breaks_bind_of_ok hdots, breaks_bind_of_ok hend]
        exact breaks_bind.2 (.inl hty)
      | filter hat hwhere hplace =>
        have hfilter := (parseFilter_breaks (h.forward hat.forward)).2 ⟨_, _, op, st', hwhere, hplace, hbad⟩
        obtain ⟨st₁, ty, hat, hty⟩ := hat
        obtain ⟨tryBegin, st₂, tk, st₃, tryEnd, hbegin, hdots, hend⟩ := hat
        rw [breaks_bind_of_ok hbegin, breaks_bind_of_ok hdots, breaks_bind_of_ok hend, breaks_bind_of_ok hty]
        exact breaks_bind.2 (.inl hfilter)
      | handler hat hturn hrange hplace =>
        exact hloop hat ((handlers_breaks (h.forward hat.forward)).2
          ⟨_, _, hturn, .inr ⟨_, st', hrange, hplace, hbad⟩⟩)
    · exact hloop hat ((handlers_breaks (h.forward hat.forward)).2 ⟨hs, st₂, hturn, .inl hnone⟩)

/-! ### Tables -/

omit [UniLexer] in
theorem parseExceptionTableEntry_consumes :
    Consumes (parseExceptionTableEntry tyGenerics methodGenerics) := by
  have hvalue : Consumes integerValue := by
    have htoken : Consumes IntegerToken.parse := takeIf_consumes _ _
    exact (call_consumes htoken).bind fun tk => by grind
  have hfilter : Keeps Forward (parseFilter tyGenerics methodGenerics) := by
    unfold parseFilter
    grind
  have hhandlers := foldUntilOk_turns_forward (expect_forward SpecialChar.braceClose) parseHandler_forward
    ⟨none, none, none⟩
  rw [parseExceptionTableEntry_eq]
  refine hvalue.bind fun tryBegin => (expect_forward _).bind fun _ => parseLoc_forward.bind fun tryEnd => ?_
  refine (typeReference_forward _ _).bind fun ty => hfilter.bind fun filter => (expect_forward _).bind fun _ => ?_
  refine (expect_forward _).bind fun _ => hhandlers.bind fun h => ?_
  cases h.catch with
  | none => exact Keeps.fail _
  | some «catch» => exact Keeps.pure _

variable (tyGenerics methodGenerics)

/-- The loop over the entries comes to an entry. -/
def EntryTurn (st st' : ParseStream) : Prop :=
  ∃ tk st₁ tk' st₂ entries, expect Keyword.exceptionTable st = (.ok tk, st₁) ∧
    expect SpecialChar.braceOpen st₁ = (.ok tk', st₂) ∧
      UntilTurn (expect SpecialChar.braceClose)
        (fun entries => do pure (entries ++ [← parseExceptionTableEntry tyGenerics methodGenerics])) [] st₂ entries
        st' ∧ Declines (expect SpecialChar.braceClose) st'

/-- The handlers of an entry that is read go on for ever. -/
def IsEndless (st : ParseStream) : Prop :=
  ∃ st₁ st₂ h st₃, EntryTurn tyGenerics methodGenerics st st₁ ∧ AtHandlers tyGenerics methodGenerics st₁ st₂ ∧
    HandlerTurn st₂ h st₃ ∧ NoHandler st₃

/-- An operand of an entry that is read is bad. -/
def ReadsBad (st : ParseStream) : Prop :=
  ∃ st₁ op st', EntryTurn tyGenerics methodGenerics st st₁ ∧ EntryOperand tyGenerics methodGenerics st₁ op st' ∧
    op.Bad st'

omit [UniLexer] in
private theorem entries_breaks {st : ParseStream} :
    Breaks (withTurns fun turns => foldUntilOk (expect SpecialChar.braceClose)
      (fun entries => do pure (entries ++ [← parseExceptionTableEntry tyGenerics methodGenerics])) turns []) st ↔
        ∃ entries st', UntilTurn (expect SpecialChar.braceClose)
          (fun entries => do pure (entries ++ [← parseExceptionTableEntry tyGenerics methodGenerics])) [] st
            entries
          st' ∧ Declines (expect SpecialChar.braceClose) st' ∧
            Breaks (parseExceptionTableEntry tyGenerics methodGenerics) st' := by
  have hconsumes (entries : List ExceptionTableEntry) : Consumes (do
      pure (entries ++ [← parseExceptionTableEntry tyGenerics methodGenerics]) :
          Parser (List ExceptionTableEntry)) :=
    parseExceptionTableEntry_consumes.bind fun _ => Keeps.pure _
  have hentry {entries : List ExceptionTableEntry} {st : ParseStream} : Breaks (do
      pure (entries ++ [← parseExceptionTableEntry tyGenerics methodGenerics]) :
        Parser (List ExceptionTableEntry)) st ↔ Breaks (parseExceptionTableEntry tyGenerics methodGenerics) st :=
    breaks_bind_left fun _ _ _ => not_breaks_pure _ _
  rw [breaks_foldUntilOk]
  · refine exists_congr fun entries => exists_congr fun st' => and_congr_right fun _ => ?_
    constructor
    · rintro (hbreaks | ⟨e, st₂, he, hbreaks⟩ | hstuck)
      · exact absurd hbreaks (not_breaks_require _ _)
      · obtain ⟨rfl, -⟩ := expect_eq_err he
        exact ⟨⟨e, he⟩, hentry.1 hbreaks⟩
      · exact absurd (hconsumes entries _ _ _ hstuck.2) (Nat.lt_irrefl _)
    · rintro ⟨⟨e, he⟩, hbreaks⟩
      exact .inr (.inl ⟨e, st', he, hentry.2 hbreaks⟩)
  · intro entries st e st₁ entries' st₂ he hrun
    obtain ⟨rfl, -⟩ := expect_eq_err he
    exact .inl (hconsumes entries _ _ _ hrun)

omit [UniLexer] in
private theorem parseExceptionTable_breaks {st : ParseStream} :
    Breaks (parseExceptionTable tyGenerics methodGenerics) st ↔ ∃ st₁, EntryTurn tyGenerics methodGenerics st st₁ ∧
      Breaks (parseExceptionTableEntry tyGenerics methodGenerics) st₁ := by
  rw [parseExceptionTable, breaks_bind_right (not_breaks_attempt_expect _ _)]
  constructor
  · rintro ⟨o, st₁, ho, hbreaks⟩
    obtain ⟨tk, rfl, htk⟩ | ⟨rfl, -⟩ := attempt_eq_ok.1 ho
    · obtain ⟨tk', st₂, hopen, hbreaks⟩ := (breaks_bind_right (not_breaks_require _ _)).1 hbreaks
      obtain ⟨entries, st', hturn, hnone, hbreaks⟩ := (entries_breaks tyGenerics methodGenerics).1 hbreaks
      exact ⟨st', ⟨tk, st₁, tk', st₂, entries, htk, hopen, hturn, hnone⟩, hbreaks⟩
    · exact absurd hbreaks (not_breaks_pure _ _)
  · rintro ⟨st', ⟨tk, st₁, tk', st₂, entries, htk, hopen, hturn, hnone⟩, hbreaks⟩
    refine ⟨some tk, st₁, attempt_of_ok htk, (breaks_bind_of_ok hopen).2 ?_⟩
    exact (entries_breaks tyGenerics methodGenerics).2 ⟨entries, st', hturn, hnone, hbreaks⟩

omit [UniLexer] in
private theorem EntryTurn.forward {st st' : ParseStream} (h : EntryTurn tyGenerics methodGenerics st st') :
    Forward st st' := by
  obtain ⟨tk, st₁, tk', st₂, entries, htk, hopen, hturn, -⟩ := h
  exact ((expect_forward _).of_run htk).trans (((expect_forward _).of_run hopen).trans
    (hturn.forward (expect_forward _) fun _ => by grind))

/-- An exception table is read or refused exactly when it comes neither to handlers that go on for ever nor to a
bad operand. -/
theorem parseExceptionTable_breaks_iff {st : ParseStream} (h : Lexed st) :
    ¬Breaks (parseExceptionTable tyGenerics methodGenerics) st ↔
      ¬IsEndless tyGenerics methodGenerics st ∧ ¬ReadsBad tyGenerics methodGenerics st := by
  have hentry {st₁ : ParseStream} (hturn : EntryTurn tyGenerics methodGenerics st st₁) :
      Breaks (parseExceptionTableEntry tyGenerics methodGenerics) st₁ ↔ _ :=
    parseExceptionTableEntry_breaks (h.forward hturn.forward)
  rw [← not_or, not_iff_not, parseExceptionTable_breaks]
  constructor
  · rintro ⟨st₁, hturn, hbreaks⟩
    rcases (hentry hturn).1 hbreaks with ⟨op, st', hplace, hbad⟩ | ⟨st₂, hs, st₃, hat, hhandler, hnone⟩
    · exact .inr ⟨st₁, op, st', hturn, hplace, hbad⟩
    · exact .inl ⟨st₁, st₂, hs, st₃, hturn, hat, hhandler, hnone⟩
  · rintro (⟨st₁, st₂, hs, st₃, hturn, hat, hhandler, hnone⟩ | ⟨st₁, op, st', hturn, hplace, hbad⟩)
    · exact ⟨st₁, hturn, (hentry hturn).2 (.inr ⟨st₂, hs, st₃, hat, hhandler, hnone⟩)⟩
    · exact ⟨st₁, hturn, (hentry hturn).2 (.inl ⟨op, st', hplace, hbad⟩)⟩

end Handlers

/-! ### Four tables -/

/-- A token that is no handler, a handler that is repeated and the end of the input. -/
theorem parseExceptionTable_diverges :
    let _ := plainParser
    ∀ handlers ∈ ["x\x7d\x7d", "ExceptionCatch 1..2 ExceptionCatch 3..4\x7d\x7d", ""],
      (parseExceptionTable [] []
        (@ParseStream.new asciiLexer ("exception_table\x7b0..1[!]E=>\x7b" ++ handlers).toList)).1 = .diverge := by
  decide +kernel

private def catchSource : List Char := "exception_table\x7b0..1[!]E=>\x7bExceptionCatch 1..2\x7d\x7d".toList

/-- `parseExceptionTable_breaks_iff` at a table that is read. -/
theorem parseExceptionTable_breaks_iff_read :
    let _ := plainParser
    let st := @ParseStream.new asciiLexer catchSource
    ¬IsEndless [] [] st ∧ ¬ReadsBad [] [] st := by
  intro _ st
  have _ := plainParser_lawful
  have hread : (parseExceptionTable [] [] st).1 = .ok [⟨0, ⟨false, 1⟩, .common "!" "E" none [], none,
      (⟨false, 1⟩, ⟨false, 2⟩), none, none⟩] := by decide +kernel
  have hlexed : @Lexed asciiLexer st := @Lexed.new asciiLexer catchSource
  exact (@parseExceptionTable_breaks_iff _ asciiLexer _ [] [] st hlexed).1 (not_breaks_of_ok (run_of_fst hread))

end PuralinguaIR
