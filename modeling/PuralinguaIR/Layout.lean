import PuralinguaIR.Agreement
import PuralinguaIR.TypeDef

/-!
# The layout of a source

What the parser makes of a source, also of one that it refuses, depends on the kinds and the texts of the tokens
and not on where they stand: from streams over two sources whose tokens are the same one by one, each parser
ends in the same way, with the same value or the same error.
-/

namespace PuralinguaIR

open Text Effect Effect.Prog Reading

/-! ### The same tokens -/

section Definitions

variable (src src' : List Char)

/-- Tokens of two sources that are of one kind and have one text. -/
structure SameToken (tk tk' : TokenInfo) : Prop where
  kind : tk.kind = tk'.kind
  text : textOf src tk.span = textOf src' tk'.span

instance instDecidableSameToken (tk tk' : TokenInfo) : Decidable (SameToken src src' tk tk') :=
  decidable_of_iff (tk.kind = tk'.kind ∧ textOf src tk.span = textOf src' tk'.span)
    ⟨fun h => ⟨h.1, h.2⟩, fun h => ⟨h.kind, h.text⟩⟩

/-- Errors that differ only in where their token stands. -/
inductive SameError : ParseError → ParseError → Prop where
  | unexpect {tk tk'} : SameToken src src' tk tk' → SameError (.unexpect tk) (.unexpect tk')
  | unexpectedEOF : SameError .unexpectedEOF .unexpectedEOF
  | expectLiteral (kind) : SameError (.expectLiteral kind) (.expectLiteral kind)
  | expectAllLiterals : SameError .expectAllLiterals .expectAllLiterals
  | unescape : SameError .unescape .unescape
  | parseInt : SameError .parseInt .parseInt
  | custom (message) : SameError (.custom message) (.custom message)
  | noMatch : SameError .noMatch .noMatch

/-- Streams over the same tokens of two sources, at one position. -/
structure SameStream (st st' : ParseStream) : Prop where
  source : st.source = src
  source' : st'.source = src'
  tokens : List.Forall₂ (SameToken src src') st.tokens st'.tokens
  index : st.index = st'.index

/-- Two parsers do the same on the two sources, up to `V`. -/
abbrev SameRuns {α β : Type} (V : α → β → Prop) (p : Parser α) (q : Parser β) : Prop :=
  Agrees (SameStream src src') (SameError src src') V p q

/-- A parser gives the same value on both sources. -/
abbrev Uniform {α : Type} (p : Parser α) : Prop := SameRuns src src' Eq p p

end Definitions

/-- The parsing library sees tokens only through the parsers that are handed to it. -/
class UniformUniParser [UniParser] : Prop where
  firstOf_uniform : ∀ {src src' : List Char} {α : Type} {ps : List (Parser α)}, (∀ p ∈ ps, Uniform src src' p) →
    Uniform src src' (firstOf ps)
  punctuated_uniform : ∀ {src src' : List Char} {α β : Type} {V : β → β → Prop} {item : Parser α} {sep : Parser β}
    {atLeastOne : Bool}, Uniform src src' item → SameRuns src src' V sep sep →
      Uniform src src' (punctuated atLeastOne item sep)

section Streams

variable {src src' : List Char} {st st' : ParseStream} {α β γ ζ : Type} {V : α → β → Prop} {W : γ → ζ → Prop}

private theorem getElem?_same {xs ys : List TokenInfo} (h : List.Forall₂ (SameToken src src') xs ys) (i : Nat) :
    Option.Rel (SameToken src src') xs[i]? ys[i]? := by
  induction h generalizing i with
  | nil => exact .none
  | cons hxy _ ih =>
    cases i with
    | zero => exact .some hxy
    | succ i => exact ih i

namespace SameStream

theorem getElem? (h : SameStream src src' st st') (i : Nat) :
    Option.Rel (SameToken src src') st.tokens[i]? st'.tokens[i]? :=
  getElem?_same h.tokens i

theorem current (h : SameStream src src' st st') : Option.Rel (SameToken src src') st.current st'.current := by
  have hcurrent := h.getElem? st.index
  rwa [show st'.tokens[st.index]? = st'.current by rw [h.index]; rfl] at hcurrent

theorem moveTo (h : SameStream src src' st st') {i j : Nat} (hij : i = j) :
    SameStream src src' { st with index := i } { st' with index := j } :=
  ⟨h.source, h.source', h.tokens, hij⟩

theorem skip (h : SameStream src src' st st') (n : Nat) : SameStream src src' (st.skip n) (st'.skip n) :=
  h.moveTo (congrArg (· + n) h.index)

theorem length_rest (h : SameStream src src' st st') : st.rest.length = st'.rest.length := by
  rw [TokenStream.rest, TokenStream.rest, List.length_drop, List.length_drop, h.tokens.length_eq, h.index]

end SameStream

theorem SameToken.any {p : TokenKind → Bool} {o u : Option TokenInfo} (h : Option.Rel (SameToken src src') o u) :
    o.any (p ·.kind) = u.any (p ·.kind) := by
  cases h with
  | some h => exact congrArg p h.kind
  | none => rfl

/-! ### Taking tokens -/

theorem takeIf_same {p : TokenInfo → Bool} (hp : ∀ tk tk', SameToken src src' tk tk' → p tk = p tk') :
    SameRuns src src' (SameToken src src') (takeIf p fun _ => .noMatch) (takeIf p fun _ => .noMatch) := by
  intro st st' hst
  have hcurrent := hst.current
  unfold takeIf
  generalize st.current = o at hcurrent
  generalize st'.current = u at hcurrent
  cases hcurrent with
  | none => exact ⟨.err .noMatch, hst⟩
  | @some tk tk' h =>
    dsimp only
    rw [hp tk tk' h]
    split
    · exact ⟨.ok h, hst.skip 1⟩
    · exact ⟨.err .noMatch, hst⟩

theorem require_same (k : TokenKind) : SameRuns src src' (SameToken src src') (require k) (require k) :=
  takeIf_same fun _ _ h => congrArg (· == k) h.kind

theorem requireF_same {p : TokenInfo → Bool} (hp : ∀ tk tk', SameToken src src' tk tk' → p tk = p tk') :
    SameRuns src src' (SameToken src src') (requireF p) (requireF p) :=
  takeIf_same hp

theorem current_same : SameRuns src src' (Option.Rel (SameToken src src')) current current :=
  fun _ _ hst => ⟨.ok hst.current, hst⟩

theorem consume_same : SameRuns src src' (Option.Rel (SameToken src src')) consume consume := by
  intro st st' hst
  have hcurrent := hst.current
  unfold consume
  generalize st.current = o at hcurrent
  generalize st'.current = u at hcurrent
  cases hcurrent with
  | none => exact ⟨.ok .none, hst⟩
  | some h => exact ⟨.ok (.some h), hst.skip 1⟩

theorem advance_same : SameRuns src src' (fun _ _ => True) advance advance :=
  .modify fun _ _ hst => hst.skip 1

theorem stepBack_same : Uniform src src' LoadableContent.stepBack := by
  intro st st' hst
  unfold LoadableContent.stepBack
  rw [hst.index]
  split
  · exact ⟨.panic, hst⟩
  · exact ⟨.ok rfl, hst.moveTo rfl⟩

theorem unwrap_same (o : Option α) : Uniform src src' (unwrap o) := by
  cases o with
  | some a => exact .pure rfl
  | none => exact .panic

theorem okOr_same {e : ParseError} (he : SameError src src' e e) (o : Option α) : Uniform src src' (okOr e o) := by
  cases o with
  | some a => exact .pure rfl
  | none => exact .fail he

theorem assert_same {b b' : Bool} (h : b = b') : SameRuns src src' Eq (assert b) (assert b') := by
  subst h
  unfold assert
  split
  · exact .pure rfl
  · exact .panic

theorem subOrPanic_same (stop n : Nat) : Uniform src src' (subOrPanic stop n) := by
  unfold subOrPanic
  split
  · exact .pure rfl
  · exact .panic

theorem tokenText_same {tk tk' : TokenInfo} (h : SameToken src src' tk tk') :
    SameRuns src src' Eq (tokenText tk) (tokenText tk') := by
  intro st st' hst
  unfold tokenText
  rw [hst.source, hst.source', h.text]
  exact unwrap_same _ st st' hst

theorem previousToken_same : SameRuns src src' (SameToken src src') previousToken previousToken := by
  intro st st' hst
  have hprevious := hst.getElem? (st.index - 1)
  unfold previousToken
  rw [hst.index] at hprevious ⊢
  split
  · exact ⟨.panic, hst⟩
  · exact Agrees.unwrap hprevious st st' hst

theorem call_same [UniParser] {p : Parser α} {q : Parser β} (h : SameRuns src src' V p q) :
    SameRuns src src' V (call p) (call q) := by
  intro st st' hst
  obtain ⟨hends, hstates⟩ := h st st' hst
  unfold call
  generalize p st = x at hends hstates
  generalize q st' = y at hends hstates
  obtain ⟨o, s⟩ := x
  obtain ⟨u, t⟩ := y
  cases hends with
  | ok h => exact ⟨.ok h, hstates⟩
  | err h => exact ⟨.err h, hstates.moveTo (by rw [hst.index, hstates.index])⟩
  | panic => exact ⟨.panic, hstates⟩
  | diverge => exact ⟨.diverge, hstates⟩

/-- A token that is taken, and then the next part. -/
theorem take_same (k : TokenKind) {f : Parser γ} {g : Parser ζ} (hf : SameRuns src src' W f g) :
    SameRuns src src' W (require k >>= fun _ => f) (require k >>= fun _ => g) :=
  (require_same k).bind fun _ _ _ => hf

/-- A token that may stand there, when both sides go on in the same way. -/
theorem mayTake_same (k : TokenKind) {f : Option TokenInfo → Parser γ} {g : Option TokenInfo → Parser ζ}
    (hnone : SameRuns src src' W (f none) (g none))
    (hsome : ∀ tk tk', SameRuns src src' W (f (some tk)) (g (some tk'))) :
    SameRuns src src' W (attempt (expect k) >>= f) (attempt (expect k) >>= g) :=
  (require_same k).cases_attempt hnone fun tk tk' _ => hsome tk tk'

/-- A part that may be there, after a token of its own. -/
theorem optional_same {k : TokenKind} {p : Parser (Option α)} {f : Option α → Parser γ} (hp : Uniform src src' p)
    (hf : ∀ x, Uniform src src' (f x)) : Uniform src src' (do
      match ← attempt (expect k) with
      | some _ => do
        let x ← p
        f x
      | none => f none) := by
  refine mayTake_same k (hf none) fun tk tk' => ?_
  exact hp.andThen hf

theorem withTurns_same {loop : Nat → Parser γ} {loop' : Nat → Parser ζ}
    (h : ∀ n, SameRuns src src' W (loop n) (loop' n)) : SameRuns src src' W (withTurns loop) (withTurns loop') :=
  withTurns_agrees (fun _ _ hst => hst.length_rest) h

end Streams

section Parsers

variable {src src' : List Char}

/-! ### Integers and names -/

namespace IntegerToken

theorem parse_same : SameRuns src src' (SameToken src src') parse parse :=
  requireF_same fun _ _ h => congrArg (TokenKind.isLiteralOf .int) h.kind

theorem getValue_same {tk tk' : TokenInfo} (h : SameToken src src' tk tk') :
    SameRuns src src' Eq (getValue tk) (getValue tk') := by
  unfold getValue
  rw [h.kind]
  split
  · refine (tokenText_same h).andThen fun text => ?_
    refine (unwrap_same _).andThen fun valueS => ?_
    dsimp only
    split
    · exact .pure rfl
    · exact (unwrap_same _).andThen fun digits => .pure rfl
  · exact .pure rfl

end IntegerToken

theorem whileOk_same {α : Type} {p : Parser α} (hp : Uniform src src' p) : Uniform src src' (whileOk p) :=
  withTurns_same fun n => foldWhileOk_agrees hp (fun _ _ _ _ hxs hx => .pure (by rw [hxs, hx])) n rfl

variable [UniParser]

theorem integerValue_same : Uniform src src' integerValue := by
  refine (call_same IntegerToken.parse_same).bind fun tk tk' h => ?_
  exact (IntegerToken.getValue_same h).andThen fun v => unwrap_same v

theorem integerIndex_same : Uniform src src' integerIndex := integerValue_same.andThen fun _ => unwrap_same _

theorem identifier_same : Uniform src src' Identifier.parse := by
  refine current_same.bind fun o u h => ?_
  cases h with
  | none => exact .fail .unexpectedEOF
  | @some tk tk' h =>
    dsimp only
    rw [h.kind]
    have hadvance {f : Unit → Parser Identifier} {g : Unit → Parser Identifier}
        (hf : SameRuns src src' Eq (f ()) (g ())) : SameRuns src src' Eq (advance >>= f) (advance >>= g) :=
      advance_same.bind fun _ _ _ => hf
    have hslice (start : Nat) (stop : List Char → Nat) : SameRuns src src' Eq (do
        let text ← tokenText tk
        let s ← sliceOrPanic text start (stop text)
        pure (⟨String.ofList s⟩ : Identifier)) (do
        let text ← tokenText tk'
        let s ← sliceOrPanic text start (stop text)
        pure ⟨String.ofList s⟩) := by
      refine (tokenText_same h).andThen fun text => ?_
      exact (unwrap_same _).andThen fun s => .pure rfl
    split
    · refine (tokenText_same h).andThen fun text => ?_
      refine (subOrPanic_same _ _).andThen fun stop => ?_
      refine (unwrap_same _).andThen fun s => ?_
      refine hadvance ?_
      exact (okOr_same .unescape _).andThen fun s => .pure rfl
    · refine (subOrPanic_same _ _).andThen fun stop => ?_
      exact hadvance (hslice _ fun _ => stop)
    · exact hadvance ((tokenText_same h).andThen fun text => .pure rfl)
    · exact hadvance (hslice 2 byteLen)
    · exact .fail (.unexpect h)

/-- A name, and then the next part. -/
theorem name_same {β : Type} {f g : Identifier → Parser β} (hf : ∀ name, SameRuns src src' Eq (f name) (g name)) :
    SameRuns src src' Eq (call Identifier.parse >>= f) (call Identifier.parse >>= g) :=
  (call_same identifier_same).andThen hf

theorem assemblyName_same : Uniform src src' assemblyName := by
  refine (require_same _).cases_attempt ?_ fun tk tk' h => ?_
  · exact name_same fun name => .pure rfl
  · exact (tokenText_same h).andThen fun text => .pure rfl

variable [UniformUniParser]

open UniformUniParser

theorem itemRef_same : Uniform src src' ItemRef.parse := by
  refine firstOf_uniform ?_
  simpa using ⟨integerIndex_same.map_eq ItemRef.byIndex, (call_same identifier_same).map_eq ItemRef.byName⟩

theorem fieldReference_same : Uniform src src' FieldReference.parse := by
  refine firstOf_uniform ?_
  simpa using ⟨integerIndex_same.map_eq FieldReference.byIndex,
    (call_same identifier_same).map_eq FieldReference.byName⟩

/-! ### References -/

theorem typeReferenceDepth_same (tyGenerics methodGenerics : List Identifier) (depth : Nat) :
    Uniform src src' (typeReferenceDepth tyGenerics methodGenerics depth) := by
  induction depth with
  | zero => exact .diverge
  | succ depth ih =>
    refine mayTake_same _ (name_same fun ident => ?_) fun tk tk' => ?_
    · split
      · exact .pure rfl
      · split
        · exact .pure rfl
        · refine previousToken_same.bind fun _ _ h => ?_
          exact .fail (.unexpect h)
    · refine assemblyName_same.andThen fun assemblyName => ?_
      refine take_same _ ?_
      refine name_same fun typeName => ?_
      refine mayTake_same _ (.pure rfl) fun tk tk' => ?_
      refine (punctuated_uniform ih (require_same _)).andThen fun generics => ?_
      exact take_same _ (.pure rfl)

theorem typeReference_same (tyGenerics methodGenerics : List Identifier) :
    Uniform src src' (typeReference tyGenerics methodGenerics) :=
  withTurns_same (typeReferenceDepth_same tyGenerics methodGenerics)

/-- A type, and then the next part. -/
theorem type_same {β : Type} (tyGenerics methodGenerics : List Identifier) {f g : TypeReference → Parser β}
    (hf : ∀ ty, SameRuns src src' Eq (f ty) (g ty)) :
    SameRuns src src' Eq (call (typeReference tyGenerics methodGenerics) >>= f)
      (call (typeReference tyGenerics methodGenerics) >>= g) :=
  (call_same (typeReference_same tyGenerics methodGenerics)).andThen hf

theorem methodReference_same (tyGenerics methodGenerics : List Identifier) :
    Uniform src src' (MethodReference.parse tyGenerics methodGenerics) := by
  refine (call_same itemRef_same).andThen fun index => ?_
  refine mayTake_same _ (.pure rfl) fun tk tk' => ?_
  refine (whileOk_same (call_same (typeReference_same _ _))).andThen fun generics => ?_
  exact take_same _ (.pure rfl)

/-! ### Contents of a load -/

namespace LoadableContent

omit [UniformUniParser] in
theorem ofDigits_same (ty : String) (isNegative : Option Bool) (radix : Nat) (valueS : List Char) :
    Uniform src src' (ofDigits ty isNegative radix valueS) := by
  have hdigits {f : List Char → Parser LoadableContent} (hf : ∀ digits, Uniform src src' (f digits)) :
      Uniform src src' (digitsOf radix valueS >>= f) := (unwrap_same _).andThen hf
  have hunsigned (bound : Nat) (make : Nat → LoadableContent) :
      Uniform src src' (unsigned bound make radix valueS) :=
    hdigits fun _ => (okOr_same .parseInt _).andThen fun _ => .pure rfl
  have hsigned (bound : Nat) (make : Int → LoadableContent) :
      Uniform src src' (signed bound make isNegative radix valueS) := by
    refine hdigits fun _ => ?_
    refine (okOr_same .parseInt _).andThen fun v => ?_
    split
    · split
      · exact .pure rfl
      · exact .panic
    · exact .pure rfl
  unfold ofDigits
  split
  case h_11 => exact .fail (.custom _)
  case h_5 | h_10 =>
    split
    case h_5 => exact .panic
    all_goals first | exact hunsigned _ _ | exact hsigned _ _
  all_goals first | exact hunsigned _ _ | exact hsigned _ _

omit [UniformUniParser] in
theorem ofLiteral_same {tk tk' : TokenInfo} (h : SameToken src src' tk tk') (kind : LiteralKind)
    (suffixStart : Nat) (isNegative : Option Bool) :
    SameRuns src src' Eq (ofLiteral tk kind suffixStart isNegative)
    (ofLiteral tk' kind suffixStart isNegative) := by
  have hquoted {terminated : Bool} {f : List Char → Parser LoadableContent} (hf : ∀ s, Uniform src src' (f s)) :
      SameRuns src src' Eq (quotedText tk terminated suffixStart isNegative >>= f)
        (quotedText tk' terminated suffixStart isNegative >>= f) := by
    refine Agrees.andThen ?_ hf
    refine (assert_same rfl).andThen fun _ => ?_
    refine (assert_same rfl).andThen fun _ => ?_
    refine (tokenText_same h).andThen fun text => ?_
    refine (subOrPanic_same _ _).andThen fun stop => ?_
    refine (unwrap_same _).andThen fun s => ?_
    exact okOr_same .unescape _
  have hraw (n : Nat) {f : Nat → Parser LoadableContent} {g : Nat → Parser LoadableContent}
      (hf : ∀ stop, SameRuns src src' Eq (f stop) (g stop)) :
      SameRuns src src' Eq (assert isNegative.isNone >>= fun _ => subOrPanic suffixStart (1 + n) >>= f)
        (assert isNegative.isNone >>= fun _ => subOrPanic suffixStart (1 + n) >>= g) :=
    (assert_same rfl).andThen fun _ => (subOrPanic_same _ _).andThen hf
  cases kind with
  | int base emptyInt =>
    cases emptyInt with
    | false =>
      refine (tokenText_same h).andThen fun text => ?_
      refine (unwrap_same _).andThen fun valueS => ?_
      refine (unwrap_same _).andThen fun ty => ?_
      exact ofDigits_same _ _ _ _
    | true => exact .fail .expectAllLiterals
  | float => exact .panic
  | char =>
    refine hquoted fun s => ?_
    exact (okOr_same (.expectLiteral _) _).map_eq _
  | byte =>
    refine hquoted fun s => ?_
    exact (okOr_same (.expectLiteral _) _).map_eq _
  | str => exact hquoted fun s => .pure rfl
  | byteStr => exact hquoted fun s => .pure rfl
  | rawStr nHashes =>
    refine hraw _ fun stop => ?_
    refine (tokenText_same h).andThen fun text => ?_
    exact (unwrap_same _).andThen fun s => .pure rfl
  | rawByteStr nHashes =>
    refine hraw _ fun stop => ?_
    refine (tokenText_same h).andThen fun text => ?_
    refine Agrees.andThen ?_ fun s => .pure rfl
    unfold sliceBytesOrPanic
    split
    · exact .pure rfl
    · exact .panic

theorem parseDepth_same (tyGenerics methodGenerics : List Identifier) (depth : Nat) (isNegative : Option Bool) :
    Uniform src src' (parseDepth tyGenerics methodGenerics depth isNegative) := by
  induction depth generalizing isNegative with
  | zero => exact .diverge
  | succ depth ih =>
    have hopen {f : Parser LoadableContent} (hf : Uniform src src' f) : Uniform src src'
        (assert isNegative.isNone >>= fun _ => require SpecialChar.parenthesisOpen >>= fun _ => f) :=
      (assert_same rfl).andThen fun _ => take_same _ hf
    have hclose (c : LoadableContent) : Uniform src src'
        (require SpecialChar.parenthesisClose >>= fun _ => pure c) :=
      take_same _ (.pure rfl)
    refine consume_same.bind fun o u h => ?_
    cases h with
    | none => exact .fail .unexpectedEOF
    | @some tk tk' h =>
      dsimp only
      rw [h.kind]
      split
      · exact ih _
      · exact ofLiteral_same h _ _ _
      · exact .pure rfl
      · exact .pure rfl
      · exact (assert_same rfl).andThen fun _ => .pure rfl
      · exact hopen (integerValue_same.andThen fun id => hclose _)
      · refine hopen (type_same _ _ fun ty => ?_)
        exact (call_same fieldReference_same).andThen fun field => hclose _
      · refine hopen (name_same fun container => ?_)
        exact (call_same fieldReference_same).andThen fun field => hclose _
      · exact hopen (type_same _ _ fun ty => hclose _)
      · refine stepBack_same.andThen fun _ => ?_
        exact .fail .expectAllLiterals

theorem parse_same (isNegative : Option Bool) (tyGenerics methodGenerics : List Identifier) :
    Uniform src src' (parse isNegative tyGenerics methodGenerics) :=
  withTurns_same fun depth => parseDepth_same tyGenerics methodGenerics depth isNegative

end LoadableContent

/-! ### Statements -/

theorem arrayLen_same : Uniform src src' ArrayLen.parse := by
  refine firstOf_uniform ?_
  simpa using ⟨integerValue_same.map_eq ArrayLen.static, (call_same identifier_same).map_eq ArrayLen.dynamic⟩

omit [UniformUniParser] in
/-- A token that is taken in a call of its own, and then the next part. -/
private theorem keyword_same (k : TokenKind) {α : Type} {f : Parser α} (hf : Uniform src src' f) :
    Uniform src src' (call (require k) >>= fun _ => f) :=
  (call_same (require_same k)).bind fun _ _ _ => hf

theorem checkKind_same : Uniform src src' CheckKind.parse :=
  firstOf_uniform (List.forall_mem_singleton.2 (keyword_same _ (.pure rfl)))

theorem jumpCondition_same : Uniform src src' JumpCondition.parse := by
  have hcheck (k : Keyword) (make : CheckKind → Identifier → JumpCondition) : Uniform src src' (do
      let _ ← call (require k)
      let kind ← call CheckKind.parse
      let toCheck ← call Identifier.parse
      pure (make kind toCheck)) := by
    refine keyword_same _ ?_
    refine (call_same checkKind_same).andThen fun kind => ?_
    exact name_same fun toCheck => .pure rfl
  have hif : Uniform src src' (do
      let _ ← call (require Keyword.if)
      let val ← call Identifier.parse
      pure (JumpCondition.ifTrue val)) :=
    keyword_same _ (name_same fun val => .pure rfl)
  refine firstOf_uniform ?_
  simp only [List.forall_mem_cons, List.not_mem_nil, false_imp_iff, implies_true, and_true]
  exact ⟨hif, hcheck _ _, hcheck _ _, .pure rfl⟩

theorem jumpTargetType_same : Uniform src src' JumpTargetType.parse := by
  have halternative (k : Keyword) (t : JumpTargetType) :
      Uniform src src' (call (require k) >>= fun _ => (pure t : Parser JumpTargetType)) :=
    keyword_same _ (.pure rfl)
  refine firstOf_uniform ?_
  simpa using ⟨halternative _ _, halternative _ _, halternative _ _⟩

theorem argsAndResult_same : Uniform src src' argsAndResult := by
  have hargs : Uniform src src' commonArgs := punctuated_uniform (call_same identifier_same) (require_same _)
  refine take_same _ ?_
  refine (call_same hargs).andThen fun args => ?_
  refine take_same _ ?_
  refine take_same _ ?_
  refine name_same fun result => ?_
  exact take_same _ (.pure rfl)

omit [UniParser] [UniformUniParser] in
private theorem semicolon_same (s : Statement) :
    Uniform src src' (require SpecialChar.semicolon >>= fun _ => (pure s : Parser Statement)) :=
  take_same _ (.pure rfl)

private theorem fieldOperand_same (make : FieldReference → Statement) : Uniform src src' (do
    let field ← call FieldReference.parse
    let _ ← require SpecialChar.semicolon
    pure (make field)) :=
  (call_same fieldReference_same).andThen fun _ => semicolon_same _

private theorem methodOperand_same (tyGenerics methodGenerics : List Identifier)
    (make : MethodReference → List Identifier × Identifier → Statement) : Uniform src src' (do
      let method ← call (MethodReference.parse tyGenerics methodGenerics)
      let r ← argsAndResult
      pure (make method r)) := by
  refine (call_same (methodReference_same _ _)).andThen fun method => ?_
  exact argsAndResult_same.andThen fun r => .pure rfl

theorem parseOperands_same (tyGenerics methodGenerics : List Identifier) (k : StatementKeyword) :
    Uniform src src' (Statement.parseOperands tyGenerics methodGenerics k) := by
  have harrow {f : Parser Statement} (hf : Uniform src src' f) :
      Uniform src src' (require SpecialChar.thinArrow >>= fun _ => f) :=
    take_same _ hf
  have hresult (make : Identifier → Statement) : Uniform src src' (do
      let _ ← require SpecialChar.thinArrow
      let result ← call Identifier.parse
      let _ ← require SpecialChar.semicolon
      pure (make result)) :=
    harrow (name_same fun result => semicolon_same _)
  cases k with
  | load =>
    refine (call_same (LoadableContent.parse_same _ _ _)).andThen fun literal => ?_
    exact hresult _
  | readPointerTo =>
    refine name_same fun ptr => ?_
    refine name_same fun size => ?_
    exact hresult _
  | writePointer =>
    refine name_same fun source => ?_
    refine name_same fun size => ?_
    exact hresult _
  | check =>
    refine (call_same checkKind_same).andThen fun kind => ?_
    refine name_same fun toCheck => ?_
    exact hresult _
  | newObject =>
    refine type_same _ _ fun ty => ?_
    exact methodOperand_same _ _ fun ctor r => .newObject ty ctor r.1 r.2
  | newArray =>
    refine type_same _ _ fun elementTy => ?_
    refine (call_same arrayLen_same).andThen fun len => ?_
    exact hresult _
  | instanceCall =>
    refine name_same fun val => ?_
    exact methodOperand_same _ _ fun method r => .instanceCall val method r.1 r.2
  | interfaceCall =>
    refine name_same fun val => ?_
    refine take_same _ ?_
    refine type_same _ _ fun interface => ?_
    exact methodOperand_same _ _ fun method r => .interfaceCall val interface method r.1 r.2
  | staticCall =>
    refine type_same _ _ fun ty => ?_
    exact methodOperand_same _ _ fun method r => .staticCall ty method r.1 r.2
  | nonPurusCall =>
    refine take_same _ ?_
    refine name_same fun config => ?_
    refine name_same fun fPointer => ?_
    exact argsAndResult_same.andThen fun r => .pure rfl
  | setField =>
    refine name_same fun val => ?_
    refine harrow (name_same fun container => ?_)
    refine take_same _ ?_
    exact fieldOperand_same (.setField val container)
  | setThisField =>
    refine name_same fun val => ?_
    exact harrow (fieldOperand_same (.setThisField val))
  | setStaticField =>
    refine name_same fun val => ?_
    exact harrow (type_same _ _ fun ty => fieldOperand_same (.setStaticField val ty))
  | throw =>
    refine name_same fun val => ?_
    exact semicolon_same _
  | returnVal =>
    refine name_same fun val => ?_
    exact semicolon_same _
  | jump =>
    refine (call_same jumpCondition_same).andThen fun condition => ?_
    refine (call_same jumpTargetType_same).andThen fun ty => ?_
    refine integerValue_same.andThen fun val => ?_
    exact semicolon_same _
  | nop => exact semicolon_same _

theorem statement_same (tyGenerics methodGenerics : List Identifier) :
    Uniform src src' (Statement.parse tyGenerics methodGenerics) := by
  have hkind {tk tk' : TokenInfo} (h : SameToken src src' tk tk') :
      tk.kind.statementKeyword? = tk'.kind.statementKeyword? := congrArg _ h.kind
  refine (requireF_same fun _ _ h => congrArg Option.isSome (hkind h)).bind fun tk tk' h => ?_
  rw [hkind h]
  split
  · exact parseOperands_same _ _ _
  · exact .panic

/-! ### Attributes -/

omit [UniParser] [UniformUniParser] in
/-- The attributes are the same, and so is the token of the index. -/
theorem attrLoop_same {β : Type} (isModifier : Keyword → Bool) (set : Keyword → β → Option β) (init : β) :
    SameRuns src src' (fun r r' => r.1 = r'.1 ∧ Option.Rel (SameToken src src') r.2 r'.2)
      (attrLoop isModifier set init) (attrLoop isModifier set init) := by
  refine withTurns_same fun n => foldWhileOk_agrees (requireF_same fun _ _ h => ?_) ?_ n ⟨rfl, .none⟩
  · rw [h.kind]
  · rintro ⟨result, index⟩ ⟨result', index'⟩ tk tk' ⟨hresult, hindex⟩ h
    obtain rfl : result = result' := hresult
    dsimp only
    rw [h.kind]
    split
    · exact .pure ⟨rfl, .some h⟩
    · split
      · refine (unwrap_same _).andThen fun attr => ?_
        exact .pure ⟨rfl, hindex⟩
      · exact .panic

omit [UniParser] [UniformUniParser] in
theorem indexValue_same {o u : Option TokenInfo} (h : Option.Rel (SameToken src src') o u) :
    SameRuns src src' Eq (indexValue o) (indexValue u) := by
  cases h with
  | some h => exact (IntegerToken.getValue_same h).andThen fun v => .pure rfl
  | none => exact .pure rfl

omit [UniParser] [UniformUniParser] in
theorem field_parseAttr_same : Uniform src src' Field.parseAttr := by
  refine (attrLoop_same _ _ _).bind ?_
  rintro ⟨attr, index⟩ ⟨attr', index'⟩ ⟨hattr, hindex⟩
  obtain rfl : attr = attr' := hattr
  refine (indexValue_same hindex).andThen fun o => ?_
  cases o with
  | some index => exact .pure rfl
  | none => exact .fail (.expectLiteral _)

omit [UniParser] [UniformUniParser] in
theorem method_parseAttr_same : Uniform src src' Method.parseAttr := by
  refine (attrLoop_same _ _ _).bind ?_
  rintro ⟨s, index⟩ ⟨s', index'⟩ ⟨hs, hindex⟩
  obtain rfl : s = s' := hs
  refine (indexValue_same hindex).andThen fun o => ?_
  cases o with
  | some index => exact .pure rfl
  | none => exact .fail (.expectLiteral _)

/-! ### Fields and methods -/

omit [UniformUniParser] in
theorem generics_same : Uniform src src' ParseGenericResult.parse := by
  refine mayTake_same _ (.pure rfl) fun tk tk' => ?_
  refine (whileOk_same (call_same identifier_same)).andThen fun generics => ?_
  refine mayTake_same _ ?_ fun tk tk' => ?_
  all_goals exact take_same _ (.pure rfl)

/-- A field is read in the same way with debug assertions and without. -/
theorem field_parse_same (debugAssertions : Bool) (tyGenerics : List Identifier) :
    Uniform src src' (Field.parseIn debugAssertions tyGenerics) := by
  have hfield : Uniform src src' (Field.parseIn false tyGenerics) := by
    refine take_same _ ?_
    refine (call_same field_parseAttr_same).andThen fun r => ?_
    refine take_same _ ?_
    refine name_same fun name => ?_
    refine take_same _ ?_
    refine type_same _ _ fun ty => ?_
    exact take_same _ (.pure rfl)
  cases debugAssertions with
  | false => exact hfield
  | true =>
    refine consume_same.bind fun o u h => ?_
    have hkeyword := SameToken.any (p := (· == .keyword .field)) h
    exact (assert_same hkeyword).andThen fun _ => hfield

theorem parameter_same (tyGenerics methodGenerics : List Identifier) :
    Uniform src src' (Parameter.parse tyGenerics methodGenerics) := by
  refine take_same _ ?_
  refine Agrees.andThen ?_ fun attr => ?_
  · refine withTurns_same fun n => foldWhileOk_agrees (requireF_same ?_) ?_ n rfl
    · intro tk tk' h
      rw [h.kind]
    · intro attr attr' tk tk' _ h
      rw [h.kind]
      split
      · exact .pure rfl
      · exact .panic
  · refine take_same _ ?_
    exact type_same _ _ fun ty => .pure rfl

theorem parseLocals_same (attr : MethodAttr TypeReference) (tyGenerics methodGenerics : List Identifier) :
    Uniform src src' (parseLocals attr tyGenerics methodGenerics) := by
  refine mayTake_same _ (.pure rfl) fun tk tk' => ?_
  refine take_same _ ?_
  refine Agrees.andThen ?_ fun r => take_same _ (.pure rfl)
  refine withTurns_same fun n => foldWhileOk_agrees (call_same identifier_same) ?_ n rfl
  rintro r _ name _ rfl rfl
  refine take_same _ ?_
  exact (typeReference_same _ _).andThen fun ty => .pure rfl

/-! ### Exception tables -/

omit [UniformUniParser] in
theorem parseLoc_same : Uniform src src' parseLoc := by
  refine mayTake_same _ ?_ fun tk tk' => ?_
  all_goals exact integerValue_same.andThen fun loc => .pure rfl

omit [UniformUniParser] in
theorem parse2Loc_same : Uniform src src' parse2Loc := by
  refine parseLoc_same.andThen fun start => ?_
  refine take_same _ ?_
  exact parseLoc_same.andThen fun stop => .pure rfl

omit [UniformUniParser] in
theorem parseHandler_same (h : Handlers) : Uniform src src' (parseHandler h) := by
  have hhandler (k : Keyword) (free : Bool) (make : ExceptionLoc × ExceptionLoc → Handlers) {p : Parser Handlers}
      (hp : Uniform src src' p) : Uniform src src' (attempt (expect k) >>= fun o =>
        if o.isSome && free then parse2Loc >>= fun range => pure (make range) else p) := by
    refine mayTake_same _ hp fun tk tk' => ?_
    cases free with
    | true => exact parse2Loc_same.andThen fun range => .pure rfl
    | false => exact hp
  -- a handler for each keyword, and behind the last of them nothing changes
  refine hhandler _ _ _ ?_
  refine hhandler _ _ _ ?_
  exact hhandler _ _ _ (.pure rfl)

theorem parseMethodIn_same (tyGenerics methodGenerics : List Identifier) :
    Uniform src src' (parseMethodIn tyGenerics methodGenerics) := by
  refine (call_same (methodReference_same _ _)).andThen fun method => ?_
  refine take_same _ ?_
  exact type_same _ _ fun ty => .pure rfl

theorem parseExceptionTableEntry_same (tyGenerics methodGenerics : List Identifier) :
    Uniform src src' (parseExceptionTableEntry tyGenerics methodGenerics) := by
  refine integerValue_same.andThen fun tryBegin => ?_
  refine take_same _ ?_
  refine parseLoc_same.andThen fun tryEnd => ?_
  refine (typeReference_same _ _).andThen fun exceptionType => ?_
  refine optional_same ((parseMethodIn_same _ _).map_eq some) fun filter => ?_
  refine take_same _ ?_
  refine take_same _ ?_
  refine Agrees.andThen ?_ fun h => ?_
  · refine withTurns_same fun n => foldUntilOk_agrees (require_same _) ?_ n rfl
    rintro h _ rfl
    exact parseHandler_same h
  · split
    · exact .pure rfl
    · exact .fail (.custom _)

omit [UniParser] [UniformUniParser] in
/-- Entries up to a closing brace. -/
theorem entries_same {α : Type} {p : Parser α} (hp : Uniform src src' p) : Uniform src src' (withTurns fun turns =>
    foldUntilOk (expect SpecialChar.braceClose) (fun xs => do pure (xs ++ [← p])) turns []) := by
  refine withTurns_same fun n => foldUntilOk_agrees (require_same _) ?_ n rfl
  rintro xs _ rfl
  exact hp.andThen fun x => .pure rfl

theorem parseExceptionTable_same (tyGenerics methodGenerics : List Identifier) :
    Uniform src src' (parseExceptionTable tyGenerics methodGenerics) := by
  refine mayTake_same _ (.pure rfl) fun tk tk' => ?_
  refine take_same _ ?_
  exact entries_same (parseExceptionTableEntry_same _ _)

theorem method_parse_same (tyGenerics : List Identifier) : Uniform src src' (Method.parse tyGenerics) := by
  refine consume_same.bind fun o u h => ?_
  have hmethod := SameToken.any (p := (· == .keyword .method)) h
  refine (assert_same hmethod).andThen fun _ => ?_
  refine take_same _ ?_
  refine (call_same method_parseAttr_same).andThen fun a => ?_
  refine take_same _ ?_
  refine name_same fun name => ?_
  refine (call_same generics_same).andThen fun g => ?_
  refine take_same _ ?_
  refine (punctuated_uniform (call_same (parameter_same _ _)) (require_same _)).andThen fun args => ?_
  refine take_same _ ?_
  refine take_same _ ?_
  refine type_same _ _ fun returnType => ?_
  refine optional_same ((parseMethodIn_same _ _).map_eq some) fun impl => ?_
  refine mayTake_same _ ?_ fun tk tk' => Agrees.panic.bind (V := fun _ _ => False) nofun
  refine take_same _ ?_
  refine (call_same (parseLocals_same _ _ _)).andThen fun r => ?_
  refine (call_same (parseExceptionTable_same _ _)).andThen fun exceptionTable => ?_
  exact (entries_same (call_same (statement_same _ _))).andThen fun statements => .pure rfl

/-! ### Definitions -/

omit [UniformUniParser] in
theorem attrAndIndex_same (type : TypeSpecificAttrType) : Uniform src src' (attrAndIndex type) := by
  refine (call_same (V := fun a a' => a.attr = a'.attr ∧ SameToken src src' a.index a'.index) ?_).bind
    fun a a' h => ?_
  · refine (attrLoop_same _ _ _).bind ?_
    rintro ⟨attr, index⟩ ⟨attr', index'⟩ ⟨hattr, hindex⟩
    cases hindex with
    | some h => exact .pure ⟨hattr, h⟩
    | none => exact .fail (.expectLiteral _)
  · obtain ⟨attr, index⟩ := a
    obtain ⟨attr', index'⟩ := a'
    obtain ⟨rfl, hindex⟩ := h
    refine (IntegerToken.getValue_same hindex).andThen fun v => ?_
    refine (unwrap_same _).andThen fun v => ?_
    exact (unwrap_same _).andThen fun index => .pure rfl

omit [UniParser] [UniformUniParser] in
theorem bodyEnd_same : Uniform src src' bodyEnd := by
  refine mayTake_same _ ?_ fun tk tk' => .pure rfl
  refine current_same.bind fun o u h => ?_
  cases h with
  | some h => exact .fail (.unexpect h)
  | none => exact .pure rfl

theorem parseMember_same (tyGenerics : List Identifier) (withFields : Bool) (members : List Method × List Field) :
    Uniform src src' (parseMember tyGenerics withFields members) := by
  refine current_same.bind fun o u h => ?_
  cases h with
  | none => exact .fail .unexpectedEOF
  | @some tk tk' h =>
    dsimp only
    rw [h.kind]
    split
    · exact (call_same (method_parse_same _)).andThen fun method => .pure rfl
    · split
      · exact (call_same (field_parse_same _ _)).andThen fun field => .pure rfl
      · exact .fail (.unexpect h)
    · exact .fail (.unexpect h)

theorem parseMembers_same (tyGenerics : List Identifier) (withFields : Bool) :
    Uniform src src' (parseMembers tyGenerics withFields) := by
  refine take_same _ ?_
  refine withTurns_same fun n => foldUntilOk_agrees bodyEnd_same ?_ n rfl
  rintro members _ rfl
  exact parseMember_same _ _ members

omit [UniParser] [UniformUniParser] in
theorem parseBounds_same : Uniform src src' parseBounds :=
  mayTake_same _ (.pure rfl) fun _ _ => .panic

theorem classDef_same : Uniform src src' ClassDef.parse := by
  refine keyword_same _ ?_
  refine keyword_same _ ?_
  refine (attrAndIndex_same _).andThen fun a => ?_
  refine keyword_same _ ?_
  -- the members are read the same way behind a main method and without one
  refine mayTake_same _ ?_ fun tk tk' => ?_
  on_goal 2 =>
    refine take_same _ ?_
    refine integerIndex_same.andThen fun id => ?_
    refine take_same _ ?_
  all_goals
    refine name_same fun name => ?_
    refine (call_same generics_same).andThen fun g => ?_
    refine optional_same ((call_same (typeReference_same _ _)).map_eq some) fun parent => ?_
    refine parseBounds_same.andThen fun _ => ?_
    exact (parseMembers_same _ _).andThen fun members => .pure rfl

theorem structDef_same : Uniform src src' StructDef.parse := by
  refine keyword_same _ ?_
  refine keyword_same _ ?_
  refine (attrAndIndex_same _).andThen fun a => ?_
  refine keyword_same _ ?_
  refine name_same fun name => ?_
  refine (call_same generics_same).andThen fun g => ?_
  refine parseBounds_same.andThen fun _ => ?_
  exact (parseMembers_same _ _).andThen fun members => .pure rfl

theorem interfaceDef_same : Uniform src src' InterfaceDef.parse := by
  refine keyword_same _ ?_
  refine keyword_same _ ?_
  refine (attrAndIndex_same _).andThen fun a => ?_
  refine keyword_same _ ?_
  refine name_same fun name => ?_
  refine (call_same generics_same).andThen fun g => ?_
  have hrequired (generics : List Identifier) : Uniform src src' (punctuated Bool.true
      (call (typeReference generics [])) (require SpecialChar.comma)) :=
    punctuated_uniform (call_same (typeReference_same _ _)) (require_same _)
  refine mayTake_same _ ?_ fun tk tk' => ?_
  on_goal 2 => refine (call_same (hrequired _)).andThen fun required => ?_
  all_goals
    refine parseBounds_same.andThen fun _ => ?_
    exact (parseMembers_same _ _).andThen fun members => .pure rfl

theorem typeDef_same : Uniform src src' TypeDef.parse := by
  refine current_same.bind fun o u h => ?_
  cases h with
  | none => exact .fail .unexpectedEOF
  | @some tk tk' h =>
    dsimp only
    rw [h.kind]
    split
    · exact (call_same classDef_same).map_eq _
    · exact (call_same structDef_same).map_eq _
    · exact (call_same interfaceDef_same).map_eq _
    · exact .fail (.unexpect h)

/-! ### Files -/

omit [UniParser] [UniformUniParser] in
theorem isEof_same : Uniform src src' isEof := by
  refine current_same.bind fun o u h => ?_
  cases h with
  | some h => exact .fail (.unexpect h)
  | none => exact .pure rfl

theorem parseTypes_same (lastIndex : UInt32) : Uniform src src' (File.parseTypes lastIndex) := by
  refine Agrees.andThen ?_ fun types => .pure rfl
  refine withTurns_same fun n => foldUntilOk_agrees isEof_same ?_ n rfl
  rintro types _ rfl
  refine typeDef_same.andThen fun ty => ?_
  split
  · exact .pure rfl
  · exact .panic

omit [UniParser] [UniformUniParser] in
private theorem find?_same {p : TokenKind → Bool} {xs ys : List TokenInfo}
    (h : List.Forall₂ (SameToken src src') xs ys) :
    Option.Rel (SameToken src src') (xs.find? (p ·.kind)) (ys.find? (p ·.kind)) := by
  induction h with
  | nil => exact .none
  | @cons tk tk' _ _ h _ ih =>
    rw [List.find?_cons, List.find?_cons, h.kind]
    split
    · exact .some h
    · exact ih

/-- Two sources with the same tokens one by one, in whatever layout, are read in the same way: both give the same
file, or both are refused for the same reason at a token of the same kind and text, or both break the parser in the
same way. -/
theorem File.parse_layout [UniLexer] (h : List.Forall₂ (SameToken src src') (lex src) (lex src'))
    (lastIndex : UInt32) :
    Outcome.Alike (SameError src src') Eq (File.parse src lastIndex) (File.parse src' lastIndex) := by
  have hinvalid := find?_same (p := TokenKind.isInvalid) h
  unfold File.parse
  generalize (lex src).find? (·.kind.isInvalid) = o at hinvalid
  generalize (lex src').find? (·.kind.isInvalid) = u at hinvalid
  cases hinvalid with
  | some h => exact .err (.unexpect h)
  | none => exact (parseTypes_same lastIndex (ParseStream.new src) (ParseStream.new src') ⟨rfl, rfl, h, rfl⟩).1

end Parsers

/-! ### The plain library -/

section Plain

variable {src src' : List Char} {α β : Type} {V : β → β → Prop}

private theorem tryInOrder_same {ps : List (Parser α)} (hps : ∀ p ∈ ps, Uniform src src' p) :
    Uniform src src' (tryInOrder ps) := by
  induction ps with
  | nil => exact .fail .noMatch
  | cons p ps ih =>
    intro st st' hst
    obtain ⟨hends, hstates⟩ := hps p List.mem_cons_self st st' hst
    unfold tryInOrder
    generalize p st = x at hends hstates
    generalize p st' = y at hends hstates
    obtain ⟨o, s⟩ := x
    obtain ⟨u, t⟩ := y
    cases hends with
    | err h => exact ih (fun q hq => hps q (List.mem_cons_of_mem p hq)) _ _ (hstates.moveTo hst.index)
    | ok h => exact ⟨.ok h, hstates⟩
    | panic => exact ⟨.panic, hstates⟩
    | diverge => exact ⟨.diverge, hstates⟩

private theorem separatedTurns_same {item : Parser α} {sep : Parser β} (hitem : Uniform src src' item)
    (hsep : SameRuns src src' V sep sep) (n : Nat) : Uniform src src' (separatedTurns item sep n) := by
  induction n with
  | zero => exact .diverge
  | succ n ih =>
    refine hitem.cases_attempt (.pure rfl) ?_
    rintro a _ rfl
    refine hsep.cases_attempt (.pure rfl) fun b b' _ => ?_
    exact ih.andThen fun as => .pure rfl

theorem plainParser_uniform : @UniformUniParser plainParser := by
  let _ := plainParser
  refine { firstOf_uniform := tryInOrder_same, punctuated_uniform := fun hitem hsep => ?_ }
  refine (withTurns_same (separatedTurns_same hitem hsep)).andThen fun as => ?_
  split
  · exact .fail .noMatch
  · exact .pure rfl

end Plain

/-- `parse_layout` at a source that is refused, written without spaces and with a comment. -/
theorem File.parse_layout_refused :
    let tight := "class[0]A\x7bA\x7d".toList
    let loose := "class [0] A /* no member */ \x7b A \x7d".toList
    @File.parse plainParser asciiLexer tight 0 = .err (.unexpect ⟨.identifier, ⟨10, 11⟩⟩) ∧
      Outcome.Alike (SameError tight loose) Eq (@File.parse plainParser asciiLexer tight 0)
        (@File.parse plainParser asciiLexer loose 0) := by
  let _ := plainParser
  let _ := asciiLexer
  have huniform := plainParser_uniform
  intro tight loose
  have hsame : List.Forall₂ (SameToken tight loose) (lex tight) (lex loose) := by decide +kernel
  have hrefused : File.parse tight 0 = .err (.unexpect ⟨.identifier, ⟨10, 11⟩⟩) := by decide +kernel
  exact ⟨hrefused, File.parse_layout hsame 0⟩

end PuralinguaIR
