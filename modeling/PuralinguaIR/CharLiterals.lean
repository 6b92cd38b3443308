import PuralinguaIR.LiteralValues

/-!
# Values of char literals

The two readers of a char token take the first character of its unescaped body and do not look behind it. They
agree with "the body stands for one character" exactly if the body stands for no more than one
(`charToken_value_iff`).
-/

namespace PuralinguaIR

open Text Effect Effect.Prog Reading

section Tokens

variable [UniLexer]

theorem quotedLiteral_terminated {body : Cursor → Bool × Cursor} (makeKind : Bool → LiteralKind) {c c' : Cursor}
    {suffixStart : Nat} (hne : makeKind true ≠ makeKind false)
    (h : quotedLiteral body makeKind c = (.literal (makeKind true) suffixStart, c')) :
    ∃ c₁, body c = (true, c₁) ∧ suffixStart = c₁.posWithinToken ∧ c' = eatLiteralSuffix c₁ := by
  unfold quotedLiteral at h
  generalize body c = r at h ⊢
  obtain ⟨terminated, c₁⟩ := r
  obtain ⟨hkind, hc'⟩ := Prod.mk.inj h
  obtain ⟨hkind, hstart⟩ := TokenKind.literal.inj hkind
  cases terminated with
  | false => exact absurd hkind.symm hne
  | true => exact ⟨c₁, rfl, hstart.symm, hc'.symm⟩

/-- A terminated char token is a body between two quotes and a suffix. -/
theorem lex_char {src : List Char} {tk : TokenInfo} {suffixStart : Nat} (htk : tk ∈ lex src)
    (hkind : tk.kind = .literal (.char true) suffixStart) :
    ∃ body suffix, textOf src tk.span = some ('\'' :: body ++ ['\''] ++ suffix) ∧
      suffixStart = byteLen ('\'' :: body ++ ['\'']) := by
  have hscan : tk ∈ scan src := mem_scan_of_mem_lex htk (by simp [hkind]) (by simp [hkind])
  obtain ⟨c, first, u, c', heaten, hrest, hparse, htext⟩ := scan_parse hscan (by simp [hkind]) (by simp [hkind])
  rw [hkind] at hparse
  have hquotes : ¬ (LiteralKind.char true).IsText [] [] := by
    rintro ⟨x, body, q, -, -, h⟩
    cases h
  rcases parse_eq_literal hparse with ⟨-, -, h⟩ | ⟨-, h⟩ | ⟨-, c₁, h, -⟩ | ⟨rfl, h⟩ | ⟨-, h⟩
  · unfold rawLiteral at h
    cases h
  · rcases byteString_eq_literal h with ⟨-, h⟩ | ⟨-, h⟩ | ⟨-, -, h⟩ <;> cases h
  · exact absurd h (number_kind_ne hquotes)
  · obtain ⟨c₁, hbody, rfl, rfl⟩ := quotedLiteral_terminated .char nofun h
    obtain ⟨body, hbody'⟩ := singleQuotedString_true hbody
    obtain ⟨suffix, hsuffix⟩ := (eatIdentifier_forward c₁).exists_taken
    have hforward : c.Forward c₁ := by
      have := singleQuotedString_forward c
      rwa [hbody] at this
    have hu : u = body ++ ['\''] ++ suffix := by
      refine (List.append_left_inj (eatLiteralSuffix c₁).rest).1 ?_
      rw [← hrest, hbody', show c₁.rest = suffix ++ (eatLiteralSuffix c₁).rest from hsuffix]
      simp
    refine ⟨body, suffix, by rw [htext, hu]; rfl, ?_⟩
    rw [hforward.posWithinToken (u := body ++ ['\'']) (by rw [hbody']; simp), Cursor.posWithinToken_first heaten]
    rfl
  · cases h

end Tokens

section Values

variable [UniParser]

/-- What both readers should make of a char token with the given body: its character if it stands for one. -/
structure IsCharOf (body : List Char) (tk : TokenInfo) (st : ParseStream)
    (tyGenerics methodGenerics : List Identifier) : Prop where
  value : ∀ c, (CharToken.getValue tk st).1 = .ok (some c) ↔ toUnescaped body = some [c]
  noValue : (∀ c, toUnescaped body ≠ some [c]) → (CharToken.getValue tk st).1 = .ok none
  loaded : ∀ c, (LoadableContent.parse none tyGenerics methodGenerics st).1 = .ok (.char c) ↔
    toUnescaped body = some [c]
  refused : (∀ c, toUnescaped body ≠ some [c]) →
    ∃ e, (LoadableContent.parse none tyGenerics methodGenerics st).1 = .err e

variable {span : Span} {body suffix : List Char} {st : ParseStream}

theorem CharToken.getValue_run (htext : textOf st.source span = some ('\'' :: body ++ ['\''] ++ suffix)) :
    getValue ⟨.literal (.char true) (byteLen ('\'' :: body ++ ['\''])), span⟩ st =
      (.ok ((toUnescaped body).bind List.head?), st) :=
  bind_step (unescapedText_run '\'' '\'' body suffix rfl rfl htext) rfl

/-- What a char token with the given unescaped body loads. -/
def loadedChar : Option (List Char) → Outcome ParseError LoadableContent
  | none => .err .unescape
  | some [] => .err (.expectLiteral .char)
  | some (c :: _) => .ok (.char c)

omit [UniParser] in
private theorem head_eq_some_iff {value : Option (List Char)} (hshort : ∀ s, value = some s → s.length ≤ 1)
    {c : Char} : value.bind List.head? = some c ↔ value = some [c] := by
  match value with
  | none | some [] => simp
  | some [d] => simp
  | some (d :: e :: s) => simpa using hshort _ rfl

omit [UniParser] in
theorem loadedChar_eq_ok {value : Option (List Char)} {c : Char} :
    loadedChar value = .ok (.char c) ↔ value.bind List.head? = some c := by
  match value with
  | none | some [] | some (d :: s) => simp [loadedChar]

omit [UniParser] in
theorem loadedChar_eq_err {value : Option (List Char)} (h : ∀ c, value.bind List.head? ≠ some c) :
    ∃ e, loadedChar value = .err e := by
  match value with
  | none | some [] => exact ⟨_, rfl⟩
  | some (d :: s) => exact absurd rfl (h d)

theorem LoadableContent.ofLiteral_char {kind : TokenKind}
    (htext : textOf st.source span = some ('\'' :: body ++ ['\''] ++ suffix)) :
    (ofLiteral ⟨kind, span⟩ (.char Bool.true) (byteLen ('\'' :: body ++ ['\''])) none st).1 =
      loadedChar (toUnescaped body) := by
  have hquoted : quotedText ⟨kind, span⟩ Bool.true (byteLen ('\'' :: body ++ ['\''])) none st = _ :=
    quotedText_run '\'' '\'' body suffix rfl rfl htext
  cases hvalue : toUnescaped body with
  | none =>
    rw [hvalue] at hquoted
    exact congrArg Prod.fst (bind_of_err hquoted)
  | some s =>
    rw [hvalue] at hquoted
    refine (congrArg Prod.fst (bind_of_ok hquoted)).trans ?_
    cases s with
    | nil => rfl
    | cons c s => rfl

variable [UniLexer]

/-- A char token denotes the character of its body exactly if the body has no second one. -/
theorem charToken_value_iff {src : List Char} {i : Nat} {tk : TokenInfo} {suffixStart : Nat}
    (htk : (lex src)[i]? = some tk) (hkind : tk.kind = .literal (.char true) suffixStart)
    (tyGenerics methodGenerics : List Identifier) :
    ∃ body suffix, textOf src tk.span = some ('\'' :: body ++ ['\''] ++ suffix) ∧
      suffixStart = byteLen ('\'' :: body ++ ['\'']) ∧
      (IsCharOf body tk ⟨src, lex src, i⟩ tyGenerics methodGenerics ↔
        ∀ s, toUnescaped body = some s → s.length ≤ 1) := by
  obtain ⟨body, suffix, htext, rfl⟩ := lex_char (List.mem_of_getElem? htk) hkind
  refine ⟨body, suffix, htext, rfl, ?_⟩
  let st : ParseStream := ⟨src, lex src, i⟩
  have hvalue : (CharToken.getValue tk st).1 = .ok ((toUnescaped body).bind List.head?) := by
    obtain ⟨kind, span⟩ := tk
    obtain rfl : kind = _ := hkind
    rw [CharToken.getValue_run htext]
  have hload : (LoadableContent.parse none tyGenerics methodGenerics st).1 = loadedChar (toUnescaped body) := by
    obtain ⟨hi, hget⟩ := List.getElem?_eq_some_iff.1 htk
    have hrest : st.rest = [] ++ tk :: (lex src).drop (i + 1) := hget ▸ List.drop_eq_getElem_cons hi
    rw [LoadableContent.parse_hyphens (List.forall_mem_nil _) hkind tyGenerics methodGenerics hrest]
    exact LoadableContent.ofLiteral_char htext
  constructor
  · intro hchar s hs
    match s with
    | [] | [_] => simp
    | c :: d :: s =>
      rw [hs] at hvalue
      have := (hchar.value c).1 hvalue
      simp [hs] at this
  · intro hshort
    constructor
    · intro c
      rw [hvalue, Outcome.ok.injEq, head_eq_some_iff hshort]
    · intro hne
      rw [hvalue, Option.eq_none_iff_forall_ne_some.2 fun c hc => hne c ((head_eq_some_iff hshort).1 hc)]
    · intro c
      rw [hload, loadedChar_eq_ok, head_eq_some_iff hshort]
    · intro hne
      rw [hload]
      exact loadedChar_eq_err fun c hc => hne c ((head_eq_some_iff hshort).1 hc)

end Values

/-- `'a'` denotes its character. -/
theorem charToken_value_iff_letter :
    let src := "'a'".toList
    let tk : TokenInfo := ⟨.literal (.char true) 3, ⟨0, 3⟩⟩
    (@CharToken.getValue plainParser tk ⟨src, @lex asciiLexer src, 0⟩).1 = .ok (some 'a') ∧
      (@LoadableContent.parse plainParser none [] [] ⟨src, @lex asciiLexer src, 0⟩).1 = .ok (.char 'a') := by
  intro src tk
  have htk : (@lex asciiLexer src)[0]? = some tk := by decide +kernel
  obtain ⟨body, suffix, htext, hstart, hiff⟩ := @charToken_value_iff plainParser asciiLexer _ _ _ _ htk rfl [] []
  have hsrc : src = '\'' :: body ++ ['\''] ++ suffix :=
    Option.some.inj ((by decide +kernel : some src = textOf src ⟨0, 3⟩).trans htext)
  have hbody : body = ['a'] := by
    match body with
    | [] => exact absurd hstart (by decide)
    | [x] =>
      have : x = 'a' ∧ suffix = [] := by simpa [src] using hsrc.symm
      rw [this.1]
    | x :: y :: body => simp [src] at hsrc
  subst hbody
  have hunescaped : @toUnescaped plainParser ['a'] = some ['a'] := by decide +kernel
  have hchar := hiff.2 fun s hs => by simp [Option.some.inj (hunescaped.symm.trans hs).symm]
  exact ⟨(@IsCharOf.value plainParser _ _ _ _ _ hchar 'a').2 hunescaped,
    (@IsCharOf.loaded plainParser _ _ _ _ _ hchar 'a').2 hunescaped⟩

/-- `'ab'` has no character of its own and is read as `'a'`. -/
theorem charToken_value_first :
    let src := "'ab'".toList
    let tk : TokenInfo := ⟨.literal (.char true) 4, ⟨0, 4⟩⟩
    @lex asciiLexer src = [tk] ∧ @toUnescaped plainParser ['a', 'b'] = some ['a', 'b'] ∧
      (@CharToken.getValue plainParser tk ⟨src, @lex asciiLexer src, 0⟩).1 = .ok (some 'a') ∧
      (@LoadableContent.parse plainParser none [] [] ⟨src, @lex asciiLexer src, 0⟩).1 = .ok (.char 'a') ∧
      ¬@IsCharOf plainParser ['a', 'b'] tk ⟨src, @lex asciiLexer src, 0⟩ [] [] := by
  intro src tk
  refine ⟨by decide +kernel, by decide +kernel, by decide +kernel, by decide +kernel, fun hchar => ?_⟩
  have hvalue : @toUnescaped plainParser ['a', 'b'] = some ['a'] :=
    (@IsCharOf.value plainParser _ _ _ _ _ hchar 'a').1 (by decide +kernel)
  exact absurd hvalue (by decide +kernel)

end PuralinguaIR
