import PuralinguaIR.BadOperands

/-!
# Literals that break a run

A content breaks the run at a float, at a raw string cut short, at a hyphen before something that has no sign,
and at a bad operand in its parentheses, and nowhere else (`BadContent`, `literal_breaks_iff`).
-/

namespace PuralinguaIR

open Text Effect Effect.Prog Reading

/-! ### Contents that break -/

def TokenKind.isFloat : TokenKind → Bool
  | literal (.float ..) _ => true
  | _ => false

/-- The kinds of the tokens before which no hyphen may stand, though they begin a content. -/
def TokenKind.refusesSign : TokenKind → Bool
  | literal (.int ..) _ => false
  | literal (.float ..) _ => false
  | literal .. => true
  | keyword .this => true
  | keyword .loadArg => true
  | keyword .static => true
  | keyword .loadField => true
  | keyword .sizeof => true
  | _ => false

section Contents

variable [UniParser] (tyGenerics methodGenerics : List Identifier)

/-- The places at which a content that begins with the given keyword reads its operands. -/
inductive ContentOperand : Keyword → ParseStream → Operand → ParseStream → Prop where
  | arg {st tk st₁} : require SpecialChar.parenthesisOpen st = (.ok tk, st₁) →
    ContentOperand .loadArg st .value st₁
  | staticType {st tk st₁ st'} : require SpecialChar.parenthesisOpen st = (.ok tk, st₁) →
      TypeOperand tyGenerics methodGenerics (st₁.rest.length + 1) st₁ st' → ContentOperand .static st .name st'
  | staticField {st tk st₁ ty st₂} : require SpecialChar.parenthesisOpen st = (.ok tk, st₁) →
      typeReference tyGenerics methodGenerics st₁ = (.ok ty, st₂) → ContentOperand .static st .reference st₂
  | container {st tk st₁} : require SpecialChar.parenthesisOpen st = (.ok tk, st₁) →
      ContentOperand .loadField st .name st₁
  | field {st tk st₁ name st₂} : require SpecialChar.parenthesisOpen st = (.ok tk, st₁) →
      Identifier.parse st₁ = (.ok name, st₂) → ContentOperand .loadField st .reference st₂
  | size {st tk st₁ st'} : require SpecialChar.parenthesisOpen st = (.ok tk, st₁) →
      TypeOperand tyGenerics methodGenerics (st₁.rest.length + 1) st₁ st' → ContentOperand .sizeof st .name st'

/-- What stands at the position cannot be loaded and ends the run, when the operands `bad` are the ones that do;
`signed` says that a hyphen stands before it. -/
inductive BadContent (bad : Operand → ParseStream → Prop) : (signed : Bool) → ParseStream → Prop where
  | hyphen {signed st tk} : st.current = some tk → tk.kind = .specialChar .hyphen →
      BadContent bad true (st.skip 1) → BadContent bad signed st
  | float {signed st tk} : st.current = some tk → tk.kind.isFloat → BadContent bad signed st
  | cutShort {signed st tk} : st.current = some tk → tk.isCutShort st.source → BadContent bad signed st
  | sign {st tk} : st.current = some tk → tk.kind.refusesSign → BadContent bad true st
  | operand {st tk k op st'} : st.current = some tk → tk.kind = .keyword k →
      ContentOperand tyGenerics methodGenerics k (st.skip 1) op st' → bad op st' → BadContent bad false st

/-- The operand is a raw string cut short. -/
def Operand.IsCutShort : Operand → ParseStream → Prop
  | value, _ => False
  | _, st => BadName st

/-- The operand is an integer that is no number of its type. -/
def Operand.IsUnreadable : Operand → ParseStream → Prop
  | name, _ => False
  | reference, st => BadInteger (2 ^ 32) st
  | value, st => BadInteger (2 ^ 64) st

/-- The content at the position reads an integer that is no number of its type. -/
def ReadsUnreadable (st : ParseStream) : Prop :=
  ∃ tk ∈ st.current, ∃ k op st', tk.kind = .keyword k ∧
    ContentOperand tyGenerics methodGenerics k (st.skip 1) op st' ∧ op.IsUnreadable st'

/-! ### Literals -/

variable [UniLexer] {tyGenerics methodGenerics}

omit [UniLexer] [UniParser] in
private theorem breaks_assert {b : Bool} {st : ParseStream} : Breaks (assert b) st ↔ b = false := by
  cases b with
  | true => exact iff_of_false (not_breaks_pure _ _) (by decide)
  | false => exact iff_of_true (breaks_panic st) rfl

omit [UniLexer] [UniParser] in
private theorem assert_none (st : ParseStream) : assert (none : Option Bool).isNone st = (.ok (), st) := rfl

namespace LoadableContent

omit [UniLexer] in
/-- The text of a quoted literal with an end is cut out, unless there is a sign. -/
private theorem quotedText_breaks {tk : TokenInfo} {x q : Char} {body suffix : List Char} (hx : x.utf8Size = 1)
    (hq : q.utf8Size = 1) {st : ParseStream} (htext : textOf st.source tk.span = some (x :: body ++ [q] ++ suffix))
    (isNegative : Option Bool) :
    Breaks (quotedText tk Bool.true (byteLen (x :: body ++ [q])) isNegative) st ↔ isNegative.isSome := by
  have hterminated : assert Bool.true st = (.ok (), st) := rfl
  rw [quotedText, breaks_bind_of_ok hterminated]
  cases isNegative with
  | some b => exact iff_of_true (breaks_bind.2 (.inl (breaks_panic st))) rfl
  | none =>
    refine iff_of_false ?_ (by simp)
    rw [breaks_bind_of_ok (assert_none st), breaks_bind_of_ok (tokenText_run htext),
      breaks_bind_of_ok (subOrPanic_quoted hx st), breaks_bind_of_ok (sliceOrPanic_quoted hx hq suffix st)]
    exact not_breaks_okOr _ _ _

/-- An integer is read or reported. -/
private theorem ofLiteral_int_not_breaks [LawfulUniParser] {st : ParseStream} {tk : TokenInfo}
    (htk : tk ∈ lex st.source) {b : Base} {emptyInt : Bool} {suffixStart : Nat}
    (hkind : tk.kind = .literal (.int b emptyInt) suffixStart) (isNegative : Option Bool) :
    ¬Breaks (ofLiteral tk (.int b emptyInt) suffixStart isNegative) st := by
  obtain ⟨digits, suffix, htext, rfl, -, hhex⟩ :=
    scan_int (mem_scan_of_mem_lex htk (by simp [hkind]) (by simp [hkind])) hkind
  cases emptyInt with
  | true => exact not_breaks_fail _ _
  | false =>
    rw [Breaks, ofLiteral_int htext]
    by_cases hsuffix : ∃ s : IntSuffix, suffix = s.asStr.toList
    · obtain ⟨s, rfl⟩ := hsuffix
      obtain ⟨t, ht⟩ := s.exists_type LawfulUniParser.sizeOfUsize_mem
      obtain ⟨hok, herr⟩ := t.read_run hhex isNegative st
      rw [String.ofList_toList, ofDigits_suffix, ht, Option.elim_some]
      by_cases hfits : b.Fits digits t.bound
      · rw [hok hfits]
        simp
      · rw [herr hfits]
        simp
    · rw [ofDigits_unknown fun s hs => hsuffix ⟨s, by rw [← hs, String.toList_ofList]⟩]
      simp

omit [UniLexer] in
/-- The content of a raw string is cut out, unless the string is cut short. -/
private theorem ofLiteral_rawStr_breaks {st : ParseStream} {tk : TokenInfo} {nHashes : Option UInt8}
    {main suffix : List Char} (hkind : tk.kind = .literal (.rawStr nHashes) (byteLen main))
    (htext : textOf st.source tk.span = some (main ++ suffix))
    (hshape : (LiteralKind.rawStr nHashes).IsText main suffix) :
    Breaks (ofLiteral tk (.rawStr nHashes) (byteLen main) none) st ↔ tk.isCutShort st.source := by
  obtain ⟨stop, hstop, hslice⟩ := rawStr_slice hshape
  obtain ⟨kind, span⟩ := tk
  obtain rfl : kind = _ := hkind
  rw [ofLiteral, breaks_bind_of_ok (assert_none st)]
  dsimp only
  rw [breaks_bind_of_ok (hstop st), breaks_bind_of_ok (tokenText_run htext),
    breaks_bind_left fun _ _ _ => not_breaks_pure _ _, hslice, TokenInfo.isCutShort_rawStr htext]

omit [UniLexer] in
/-- Bytes are cut out anywhere. -/
private theorem ofLiteral_rawByteStr_not_breaks {st : ParseStream} {tk : TokenInfo} {nHashes : Option UInt8}
    {main suffix : List Char} (htext : textOf st.source tk.span = some (main ++ suffix))
    (hshape : (LiteralKind.rawByteStr nHashes).IsText main suffix) :
    ¬Breaks (ofLiteral tk (.rawByteStr nHashes) (byteLen main) none) st := by
  rw [ofLiteral, breaks_bind_of_ok (assert_none st)]
  cases nHashes with
  | some n =>
    obtain ⟨content, rfl⟩ := hshape
    have hstop : subOrPanic (byteLen ('b' :: 'r' :: hashed n.toNat content)) (1 + n.toNat) st =
        (.ok (byteLen ('b' :: 'r' :: hashed n.toNat content) - (1 + n.toNat)), st) :=
      subOrPanic_hashed ['b', 'r'] n.toNat content st
    rw [Option.getD_some, breaks_bind_of_ok hstop, breaks_bind_of_ok (tokenText_run htext),
      breaks_bind_of_ok (sliceBytesOrPanic_hashed n.toNat content suffix st)]
    exact not_breaks_pure _ _
  | none =>
    obtain ⟨x, u, rfl⟩ := hshape
    have hpos := x.utf8Size_pos
    have hlen : byteLen ('b' :: 'r' :: x :: u) = 2 + (x.utf8Size + byteLen u) := by
      rw [byteLen_cons, byteLen_cons, byteLen_cons, ← Nat.add_assoc]
      rfl
    have hstop : subOrPanic (byteLen ('b' :: 'r' :: x :: u)) 1 st =
        (.ok (byteLen ('b' :: 'r' :: x :: u) - 1), st) :=
      subOrPanic_run (by omega)
    have hrange : 2 + (0 : UInt8).toNat ≤ byteLen ('b' :: 'r' :: x :: u) - 1 ∧
        byteLen ('b' :: 'r' :: x :: u) - 1 ≤ (utf8Bytes ('b' :: 'r' :: x :: u ++ suffix)).length := by
      have hzero : (0 : UInt8).toNat = 0 := rfl
      rw [length_utf8Bytes, byteLen_append, hzero]
      omega
    obtain ⟨bytes, hslice⟩ : ∃ bytes, sliceBytesOrPanic (utf8Bytes ('b' :: 'r' :: x :: u ++ suffix))
        (2 + (0 : UInt8).toNat) (byteLen ('b' :: 'r' :: x :: u) - 1) st = (.ok bytes, st) := by
      rw [sliceBytesOrPanic, if_pos hrange]
      exact ⟨_, rfl⟩
    rw [Option.getD_none]
    show ¬Breaks (subOrPanic _ 1 >>= _) st
    rw [breaks_bind_of_ok hstop, breaks_bind_of_ok (tokenText_run htext), breaks_bind_of_ok hslice]
    exact not_breaks_pure _ _

/-- A literal breaks the run when it is a float or cut short, or when it has a sign it cannot have. -/
private theorem ofLiteral_breaks [LawfulUniParser] {st : ParseStream} {tk : TokenInfo} (htk : tk ∈ lex st.source)
    (hvalid : tk.kind.isInvalid = Bool.false) {kind : LiteralKind} {suffixStart : Nat}
    (hkind : tk.kind = .literal kind suffixStart) (isNegative : Option Bool) :
    Breaks (ofLiteral tk kind suffixStart isNegative) st ↔
      tk.kind.isFloat ∨ tk.isCutShort st.source ∨ isNegative.isSome ∧ tk.kind.refusesSign := by
  obtain ⟨main, suffix, htext, rfl, hshape⟩ :=
    scan_literal (mem_scan_of_mem_lex htk (by simp [hkind]) (by simp [hkind])) hkind
  obtain ⟨tkKind, span⟩ := tk
  obtain rfl : tkKind = _ := hkind
  have hquoted {f : List Char → Parser LoadableContent} (hf : ∀ s st, ¬Breaks (f s) st) {x q : Char}
      {body : List Char} (hx : x.utf8Size = 1) (hq : q.utf8Size = 1) (hmain : main = x :: body ++ [q]) :
      Breaks (quotedText ⟨.literal kind (byteLen main), span⟩ Bool.true (byteLen main) isNegative >>= f) st ↔
        isNegative.isSome := by
    subst hmain
    rw [breaks_bind, quotedText_breaks hx hq htext, or_iff_left]
    rintro ⟨s, st', -, h⟩
    exact hf s st' h
  cases kind with
  | int b emptyInt =>
    refine iff_of_false (ofLiteral_int_not_breaks htk rfl isNegative) ?_
    simp [TokenKind.isFloat, TokenInfo.isCutShort, TokenKind.refusesSign]
  | float b emptyExponent => exact iff_of_true (breaks_panic st) (.inl rfl)
  | char terminated =>
    obtain rfl : terminated = Bool.true := by simpa [TokenKind.isInvalid] using hvalid
    obtain ⟨x, body, q, hx, hq, hmain⟩ := hshape
    rw [ofLiteral, hquoted (fun s st => by rw [breaks_map]; exact not_breaks_okOr _ _ _) hx hq hmain]
    simp [TokenKind.isFloat, TokenInfo.isCutShort, TokenKind.refusesSign]
  | byte terminated =>
    obtain rfl : terminated = Bool.true := by simpa [TokenKind.isInvalid] using hvalid
    obtain ⟨x, body, q, hx, hq, hmain⟩ := hshape
    rw [ofLiteral, hquoted (fun s st => by rw [breaks_map]; exact not_breaks_okOr _ _ _) hx hq hmain]
    simp [TokenKind.isFloat, TokenInfo.isCutShort, TokenKind.refusesSign]
  | str terminated =>
    obtain rfl : terminated = Bool.true := by simpa [TokenKind.isInvalid] using hvalid
    obtain ⟨x, body, q, hx, hq, hmain⟩ := hshape
    rw [ofLiteral, hquoted (fun s st => not_breaks_pure _ _) hx hq hmain]
    simp [TokenKind.isFloat, TokenInfo.isCutShort, TokenKind.refusesSign]
  | byteStr terminated =>
    obtain rfl : terminated = Bool.true := by simpa [TokenKind.isInvalid] using hvalid
    obtain ⟨x, body, q, hx, hq, hmain⟩ := hshape
    rw [ofLiteral, hquoted (fun s st => not_breaks_pure _ _) hx hq hmain]
    simp [TokenKind.isFloat, TokenInfo.isCutShort, TokenKind.refusesSign]
  | rawStr nHashes =>
    cases isNegative with
    | some b => exact iff_of_true (breaks_bind.2 (.inl (breaks_panic st))) (.inr (.inr ⟨rfl, rfl⟩))
    | none =>
      rw [ofLiteral_rawStr_breaks rfl htext hshape]
      simp [TokenKind.isFloat]
  | rawByteStr nHashes =>
    cases isNegative with
    | some b => exact iff_of_true (breaks_bind.2 (.inl (breaks_panic st))) (.inr (.inr ⟨rfl, rfl⟩))
    | none =>
      refine iff_of_false (ofLiteral_rawByteStr_not_breaks htext hshape) ?_
      simp [TokenKind.isFloat, TokenInfo.isCutShort]

end LoadableContent

/-! ### Contents -/

variable [LawfulUniParser]

omit [UniLexer] [LawfulUniParser] in
/-- What makes the token at the position bad. -/
private theorem badContent_iff {bad : Operand → ParseStream → Prop} {signed : Bool} {st : ParseStream}
    {tk : TokenInfo} (hc : st.current = some tk) : BadContent tyGenerics methodGenerics bad signed st ↔
      tk.kind = .specialChar .hyphen ∧ BadContent tyGenerics methodGenerics bad true (st.skip 1) ∨
      (tk.kind.isFloat ∨ tk.isCutShort st.source ∨ signed ∧ tk.kind.refusesSign) ∨
      signed = false ∧ ∃ k op st', tk.kind = .keyword k ∧
        ContentOperand tyGenerics methodGenerics k (st.skip 1) op st' ∧ bad op st' := by
  constructor
  · intro h
    cases h with
    | hyphen hc' hkind h =>
      cases hc.symm.trans hc'
      exact .inl ⟨hkind, h⟩
    | float hc' hkind =>
      cases hc.symm.trans hc'
      exact .inr (.inl (.inl hkind))
    | cutShort hc' hcut =>
      cases hc.symm.trans hc'
      exact .inr (.inl (.inr (.inl hcut)))
    | sign hc' hkind =>
      cases hc.symm.trans hc'
      exact .inr (.inl (.inr (.inr ⟨rfl, hkind⟩)))
    | operand hc' hkind hplace hbad =>
      cases hc.symm.trans hc'
      exact .inr (.inr ⟨rfl, _, _, _, hkind, hplace, hbad⟩)
  · rintro (⟨hkind, h⟩ | (hkind | hcut | ⟨rfl, hkind⟩) | ⟨rfl, k, op, st', hkind, hplace, hbad⟩)
    · exact .hyphen hc hkind h
    · exact .float hc hkind
    · exact .cutShort hc hcut
    · exact .sign hc hkind
    · exact .operand hc hkind hplace hbad

omit [UniLexer] [UniParser] [LawfulUniParser] in
/-- Something in parentheses, before which no hyphen may stand. -/
private theorem parentheses_breaks (isNegative : Option Bool) {st : ParseStream} {p : Parser LoadableContent} :
    Breaks (do
      assert isNegative.isNone
      let _ ← require SpecialChar.parenthesisOpen
      p) st ↔ isNegative.isSome ∨ isNegative.isSome = false ∧
        ∃ tk, require SpecialChar.parenthesisOpen st = (.ok tk, st.skip 1) ∧ Breaks p (st.skip 1) := by
  cases isNegative with
  | some b => exact iff_of_true (breaks_bind.2 (.inl (breaks_panic st))) (.inl rfl)
  | none =>
    rw [breaks_bind_of_ok (assert_none st), breaks_bind_right (not_breaks_require _ _)]
    constructor
    · rintro ⟨tk, st', htk, h⟩
      obtain ⟨-, -, rfl⟩ := takeIf_eq_ok.1 htk
      exact .inr ⟨rfl, tk, htk, h⟩
    · rintro (h | ⟨-, tk, htk, h⟩)
      · cases h
      · exact ⟨tk, _, htk, h⟩

omit [UniLexer] [UniParser] [LawfulUniParser] in
private theorem not_breaks_closing {α : Type} (k : TokenKind) (a : α) (st : ParseStream) :
    ¬Breaks (do
      let _ ← require k
      pure a) st := by
  rw [breaks_bind_left fun _ _ _ => not_breaks_pure _ _]
  exact not_breaks_require _ _

omit [LawfulUniParser] in
/-- The operand in the parentheses of an argument. -/
private theorem loadArg_breaks {st : ParseStream} (h : Lexed st) :
    (∃ tk, require SpecialChar.parenthesisOpen st = (.ok tk, st.skip 1) ∧ Breaks (do
      let id ← integerValue
      let _ ← require SpecialChar.parenthesisClose
      pure (.arg id) : Parser LoadableContent) (st.skip 1)) ↔
        ∃ op st', ContentOperand tyGenerics methodGenerics .loadArg st op st' ∧ op.Bad st' := by
  rw [breaks_bind_left fun _ _ _ => not_breaks_closing _ _ _, integerValue_breaks (h.forward (.skip st 1))]
  constructor
  · rintro ⟨tk, htk, hbad⟩
    exact ⟨.value, _, .arg htk, hbad⟩
  · rintro ⟨op, st', hplace, hbad⟩
    cases hplace with
    | arg htk =>
      obtain ⟨-, -, rfl⟩ := takeIf_eq_ok.1 htk
      exact ⟨_, htk, hbad⟩

/-- A field reference is the last thing in its parentheses. -/
private theorem fieldReference_breaks {st : ParseStream} (h : Lexed st) (f : FieldReference → LoadableContent) :
    Breaks (do
      let field ← call FieldReference.parse
      let _ ← require SpecialChar.parenthesisClose
      pure (f field)) st ↔ Operand.reference.Bad st := by
  rw [breaks_bind_left fun _ _ _ => not_breaks_closing _ _ _, breaks_call]
  exact breaks_indexOrName h _ _

private theorem static_breaks {st : ParseStream} (h : Lexed st) :
    (∃ tk, require SpecialChar.parenthesisOpen st = (.ok tk, st.skip 1) ∧ Breaks (do
      let ty ← call (typeReference tyGenerics methodGenerics)
      let field ← call FieldReference.parse
      let _ ← require SpecialChar.parenthesisClose
      pure (.static ty field) : Parser LoadableContent) (st.skip 1)) ↔
        ∃ op st', ContentOperand tyGenerics methodGenerics .static st op st' ∧ op.Bad st' := by
  have h₁ := h.forward (.skip st 1)
  rw [breaks_bind, breaks_call, typeReference_breaks tyGenerics methodGenerics h₁]
  constructor
  · rintro ⟨tk, htk, ⟨st', hplace, hbad⟩ | ⟨ty, st₂, hty, hbad⟩⟩
    · exact ⟨.name, st', .staticType htk hplace, hbad⟩
    · have hty := call_eq_ok.1 hty
      have h₂ := h₁.forward ((typeReference_forward _ _).of_run hty)
      exact ⟨.reference, st₂, .staticField htk hty, (fieldReference_breaks h₂ _).1 hbad⟩
  · rintro ⟨op, st', hplace, hbad⟩
    cases hplace with
    | staticType htk hplace =>
      obtain ⟨-, -, rfl⟩ := takeIf_eq_ok.1 htk
      exact ⟨_, htk, .inl ⟨st', hplace, hbad⟩⟩
    | @staticField _ _ _ ty _ htk hty =>
      obtain ⟨-, -, rfl⟩ := takeIf_eq_ok.1 htk
      have h₂ := h₁.forward ((typeReference_forward _ _).of_run hty)
      exact ⟨_, htk, .inr ⟨ty, st', call_ok hty, (fieldReference_breaks h₂ _).2 hbad⟩⟩

private theorem loadField_breaks {st : ParseStream} (h : Lexed st) :
    (∃ tk, require SpecialChar.parenthesisOpen st = (.ok tk, st.skip 1) ∧ Breaks (do
      let container ← call Identifier.parse
      let field ← call FieldReference.parse
      let _ ← require SpecialChar.parenthesisClose
      pure (.field container field) : Parser LoadableContent) (st.skip 1)) ↔
        ∃ op st', ContentOperand tyGenerics methodGenerics .loadField st op st' ∧ op.Bad st' := by
  have h₁ := h.forward (.skip st 1)
  rw [breaks_bind, breaks_call, Identifier.breaks_parse h₁]
  constructor
  · rintro ⟨tk, htk, hbad | ⟨name, st₂, hname, hbad⟩⟩
    · exact ⟨.name, _, .container htk, hbad⟩
    · have hname := call_eq_ok.1 hname
      have h₂ := h₁.forward (identifier_parse_forward.of_run hname)
      exact ⟨.reference, st₂, .field htk hname, (fieldReference_breaks h₂ _).1 hbad⟩
  · rintro ⟨op, st', hplace, hbad⟩
    cases hplace with
    | container htk =>
      obtain ⟨-, -, rfl⟩ := takeIf_eq_ok.1 htk
      exact ⟨_, htk, .inl hbad⟩
    | @field _ _ _ name _ htk hname =>
      obtain ⟨-, -, rfl⟩ := takeIf_eq_ok.1 htk
      have h₂ := h₁.forward (identifier_parse_forward.of_run hname)
      exact ⟨_, htk, .inr ⟨name, st', call_ok hname, (fieldReference_breaks h₂ _).2 hbad⟩⟩

private theorem sizeof_breaks {st : ParseStream} (h : Lexed st) :
    (∃ tk, require SpecialChar.parenthesisOpen st = (.ok tk, st.skip 1) ∧ Breaks (do
      let ty ← call (typeReference tyGenerics methodGenerics)
      let _ ← require SpecialChar.parenthesisClose
      pure (.size ty) : Parser LoadableContent) (st.skip 1)) ↔
        ∃ op st', ContentOperand tyGenerics methodGenerics .sizeof st op st' ∧ op.Bad st' := by
  rw [breaks_bind_left fun _ _ _ => not_breaks_closing _ _ _, breaks_call,
    typeReference_breaks tyGenerics methodGenerics (h.forward (.skip st 1))]
  constructor
  · rintro ⟨tk, htk, st', hplace, hbad⟩
    exact ⟨.name, st', .size htk hplace, hbad⟩
  · rintro ⟨op, st', hplace, hbad⟩
    cases hplace with
    | size htk hplace =>
      obtain ⟨-, -, rfl⟩ := takeIf_eq_ok.1 htk
      exact ⟨_, htk, st', hplace, hbad⟩

omit [UniLexer] [LawfulUniParser] in
/-- Only what begins a content is a bad one. -/
private theorem BadContent.beginsContent {bad : Operand → ParseStream → Prop} {signed : Bool} {st : ParseStream}
    (h : BadContent tyGenerics methodGenerics bad signed st) :
    ∃ tk, st.current = some tk ∧ tk.kind.beginsContent := by
  cases h with
  | @hyphen _ _ tk hc hkind _ => exact ⟨tk, hc, by rw [hkind]; rfl⟩
  | @float _ _ tk hc hkind =>
    refine ⟨tk, hc, ?_⟩
    obtain ⟨kind, span⟩ := tk
    cases kind with
    | literal => rfl
    | _ => cases hkind
  | @cutShort _ _ tk hc hcut =>
    refine ⟨tk, hc, ?_⟩
    obtain ⟨kind, span⟩ := tk
    cases kind with
    | literal => rfl
    | _ => simp [TokenInfo.isCutShort] at hcut
  | @sign _ tk hc hkind =>
    refine ⟨tk, hc, ?_⟩
    obtain ⟨kind, span⟩ := tk
    cases kind with
    | literal => rfl
    | keyword k => cases k <;> first | rfl | cases hkind
    | _ => cases hkind
  | @operand _ tk k op st' hc hkind hplace _ =>
    refine ⟨tk, hc, ?_⟩
    rw [hkind]
    cases hplace <;> rfl

omit [UniLexer] [LawfulUniParser] in
/-- What makes a keyword bad. -/
private theorem badContent_keyword {bad : Operand → ParseStream → Prop} {signed : Bool} {st : ParseStream}
    {k : Keyword} {span : Span} (hc : st.current = some ⟨.keyword k, span⟩) :
      BadContent tyGenerics methodGenerics bad signed st ↔
      signed ∧ (TokenKind.keyword k).refusesSign ∨ signed = false ∧ ∃ op st',
        ContentOperand tyGenerics methodGenerics k (st.skip 1) op st' ∧ bad op st' := by
  rw [badContent_iff hc]
  simp [TokenKind.isFloat, TokenInfo.isCutShort]

/-- A content breaks the run exactly when it is bad. -/
theorem parseDepth_breaks {depth : Nat} {isNegative : Option Bool} {st : ParseStream} (h : Lexed st)
    (hvalid : ∀ tk ∈ st.tokens, tk.kind.isInvalid = false) (hdepth : st.rest.length < depth) :
    Breaks (LoadableContent.parseDepth tyGenerics methodGenerics depth isNegative) st ↔
      BadContent tyGenerics methodGenerics Operand.Bad isNegative.isSome st := by
  induction depth generalizing isNegative st with
  | zero => omega
  | succ depth ih =>
    cases hc : st.current with
    | none =>
      refine iff_of_false (not_breaks_of_err (parseDepth_eof hc)) fun hbad => ?_
      obtain ⟨tk, htk, -⟩ := hbad.beginsContent
      cases hc.symm.trans htk
    | some tk =>
      cases hbegins : tk.kind.beginsContent with
      | false =>
        refine iff_of_false (not_breaks_of_err (parseDepth_unexpected hc hbegins)) fun hbad => ?_
        obtain ⟨tk', htk', hkind⟩ := hbad.beginsContent
        obtain rfl : tk = tk' := Option.some.inj (hc.symm.trans htk')
        rw [hbegins] at hkind
        cases hkind
      | true =>
        have hrun : consume st = (.ok (some tk), st.skip 1) := by rw [consume, hc]
        have h₁ : Lexed (st.skip 1) := h.forward (.skip st 1)
        have hmem : tk ∈ lex (st.skip 1).source := h.mem_lex hc
        rw [LoadableContent.parseDepth, breaks_bind_of_ok hrun]
        obtain ⟨kind, span⟩ := tk
        cases kind with
        | literal kind suffixStart =>
          have hliteral := LoadableContent.ofLiteral_breaks hmem (hvalid _ (Lexed.mem hc)) rfl isNegative
          rw [badContent_iff hc]
          simpa using hliteral
        | specialChar c =>
          cases c with
          | hyphen =>
            have hlt := length_rest_skip_lt hc
            have hbad : Breaks (LoadableContent.parseDepth tyGenerics methodGenerics depth
                (some (!isNegative.getD false))) (st.skip 1) ↔ _ := ih h₁ hvalid (by omega)
            rw [badContent_iff hc]
            simpa [TokenKind.isFloat, TokenInfo.isCutShort, TokenKind.refusesSign] using hbad
          | _ => cases hbegins
        | keyword k =>
          rw [badContent_keyword hc]
          have hparentheses {p : Parser LoadableContent} (hsign : (TokenKind.keyword k).refusesSign)
              (hp : (∃ tk, require SpecialChar.parenthesisOpen (st.skip 1) = (.ok tk, (st.skip 1).skip 1) ∧
                Breaks p ((st.skip 1).skip 1)) ↔
                  ∃ op st', ContentOperand tyGenerics methodGenerics k (st.skip 1) op st' ∧ op.Bad st') :=
            (parentheses_breaks isNegative).trans
              (or_congr (iff_self_and.2 fun _ => hsign) (and_congr_right fun _ => hp))
          cases k with
          | this =>
            rw [breaks_bind_left fun _ _ _ => not_breaks_pure _ _, breaks_assert]
            cases isNegative with
            | some b => exact iff_of_true rfl (.inl ⟨rfl, rfl⟩)
            | none => exact iff_of_false (by simp) (by rintro (⟨h, -⟩ | ⟨-, op, st', hplace, -⟩) <;> contradiction)
          | loadArg => exact hparentheses rfl (loadArg_breaks h₁)
          | static => exact hparentheses rfl (static_breaks h₁)
          | loadField => exact hparentheses rfl (loadField_breaks h₁)
          | sizeof => exact hparentheses rfl (sizeof_breaks h₁)
          | true | false =>
            refine iff_of_false (not_breaks_pure _ _) ?_
            rintro (⟨-, hsign⟩ | ⟨-, op, st', hplace, -⟩)
            · cases hsign
            · cases hplace
          | _ => cases hbegins
        | _ => cases hbegins

omit [UniLexer] [LawfulUniParser] in
/-- Bad operands are of two kinds. -/
private theorem badContent_bad_iff {st : ParseStream} :
    BadContent tyGenerics methodGenerics Operand.Bad false st ↔
      BadContent tyGenerics methodGenerics Operand.IsCutShort false st ∨
        ReadsUnreadable tyGenerics methodGenerics st := by
  have hop (op : Operand) (st : ParseStream) : op.Bad st ↔ op.IsCutShort st ∨ op.IsUnreadable st := by
    cases op <;> simp [Operand.Bad, Operand.IsCutShort, Operand.IsUnreadable, or_comm]
  -- behind a hyphen there are no operands
  have hsigned {bad bad' : Operand → ParseStream → Prop} {signed : Bool} {st : ParseStream}
      (h : BadContent tyGenerics methodGenerics bad signed st) (hs : signed = true) :
      BadContent tyGenerics methodGenerics bad' true st := by
    induction h with
    | hyphen hc hkind _ ih => exact .hyphen hc hkind (ih rfl)
    | float hc hkind => exact .float hc hkind
    | cutShort hc hcut => exact .cutShort hc hcut
    | sign hc hkind => exact .sign hc hkind
    | operand => cases hs
  constructor
  · intro h
    cases h with
    | hyphen hc hkind h => exact .inl (.hyphen hc hkind (hsigned h rfl))
    | float hc hkind => exact .inl (.float hc hkind)
    | cutShort hc hcut => exact .inl (.cutShort hc hcut)
    | operand hc hkind hplace hbad =>
      rcases (hop _ _).1 hbad with hcut | hunreadable
      · exact .inl (.operand hc hkind hplace hcut)
      · exact .inr ⟨_, hc, _, _, _, hkind, hplace, hunreadable⟩
  · rintro (h | ⟨tk, hc, k, op, st', hkind, hplace, hbad⟩)
    · cases h with
      | hyphen hc hkind h => exact .hyphen hc hkind (hsigned h rfl)
      | float hc hkind => exact .float hc hkind
      | cutShort hc hcut => exact .cutShort hc hcut
      | operand hc hkind hplace hcut => exact .operand hc hkind hplace ((hop _ _).2 (.inl hcut))
    · exact .operand hc hkind hplace ((hop _ _).2 (.inr hbad))

/-- In a source without invalid tokens, a name is read or refused exactly when it is no raw string cut short, and a
content exactly when it is not bad and its integer operands can be read. -/
theorem literal_breaks_iff {src : List Char} (hvalid : ∀ tk ∈ lex src, tk.kind.isInvalid = false) (index : Nat)
    (tyGenerics methodGenerics : List Identifier) :
    (¬Breaks Identifier.parse ⟨src, lex src, index⟩ ↔ ¬BadName ⟨src, lex src, index⟩) ∧
      (¬Breaks (LoadableContent.parse none tyGenerics methodGenerics) ⟨src, lex src, index⟩ ↔
        ¬BadContent tyGenerics methodGenerics Operand.IsCutShort false ⟨src, lex src, index⟩ ∧
          ¬ReadsUnreadable tyGenerics methodGenerics ⟨src, lex src, index⟩) := by
  have h : Lexed ⟨src, lex src, index⟩ := rfl
  refine ⟨not_congr (Identifier.breaks_parse h), ?_⟩
  rw [← not_or, ← badContent_bad_iff]
  exact not_congr (parseDepth_breaks h hvalid (Nat.lt_succ_self _))

end Contents

/-! ### Four sources -/

/-- A raw string without an end is no name and cannot be loaded, and neither can a float or a string with a
sign. -/
theorem literal_panics :
    let _ := plainParser
    let lexed (s : String) := @ParseStream.new asciiLexer s.toList
    (∀ s ∈ ["r\"", "1.5", "-\"a\""], ∀ tk ∈ (lexed s).tokens, tk.kind.isInvalid = false) ∧
      (Identifier.parse (lexed "r\"")).1 = .panic ∧
        ∀ s ∈ ["r\"", "1.5", "-\"a\""], (LoadableContent.parse none [] [] (lexed s)).1 = .panic := by
  decide +kernel

/-- `literal_breaks_iff` at a string with a sign: there is no name, and the content ends the run. -/
theorem literal_breaks_iff_signed :
    let _ := plainParser
    let st : ParseStream := ⟨"-\"a\"".toList, @lex asciiLexer "-\"a\"".toList, 0⟩
    ¬Breaks Identifier.parse st ∧ Breaks (LoadableContent.parse none [] []) st := by
  intro _ st
  have _ := plainParser_lawful
  have hvalid : ∀ tk ∈ @lex asciiLexer "-\"a\"".toList, tk.kind.isInvalid = false := by decide +kernel
  have hhyphen : st.current = some ⟨SpecialChar.hyphen, ⟨0, 1⟩⟩ := by decide +kernel
  have hstring : (st.skip 1).current = some ⟨.literal (.str true) 3, ⟨1, 4⟩⟩ := by decide +kernel
  have h := @literal_breaks_iff _ asciiLexer _ _ hvalid 0 [] []
  constructor
  · refine h.1.2 ?_
    rintro ⟨tk, htk, hcut⟩
    obtain rfl := Option.some.inj (hhyphen.symm.trans htk)
    cases hcut
  · by_contra hreturns
    exact (h.2.1 hreturns).1 (.hyphen hhyphen rfl (.sign hstring rfl))

end PuralinguaIR
