import PuralinguaIR.Printing

/-!
# Lexing one printed token

A printed token before a space or the end of the source is read as one token (`LexesTo`): each loop of the lexer
stops where the text ends, whatever the source holds after it.
-/

namespace PuralinguaIR

open Text

/-- What follows a printed token: nothing, or a space. -/
inductive Stop : List Char → Prop where
  | eof : Stop []
  | space (cs : List Char) : Stop (' ' :: cs)

theorem Stop.first {c : Cursor} (h : Stop c.rest) : c.first = eofChar ∨ c.first = ' ' := by
  rw [Cursor.first_eq]
  generalize c.rest = rest at h
  cases h with
  | eof => exact Or.inl rfl
  | space cs => exact Or.inr rfl

theorem Stop.head {rest : List Char} (h : Stop rest) : ∀ c ∈ rest.head?, c = ' ' := by
  cases h with
  | eof => simp
  | space cs => simp

section Reading

variable [UniLexer]

/-! ### Names -/

private theorem isRustIdStart_false {d : Char} (hd : isAscii d) (hnot : (d.isAlpha || d == '_') = false) :
    isRustIdStart d = false := by
  rw [UniLexer.isRustIdStart_ascii _ hd, hnot]

private theorem isRustIdStart_stop {c : Cursor} (h : Stop c.rest) : isRustIdStart c.first = false := by
  rcases h.first with h | h <;> rw [h] <;> exact isRustIdStart_false (by decide) (by decide)

private theorem isXidContinue_stop {rest : List Char} (h : Stop rest) :
    ∀ c ∈ rest.head?, isXidContinue c = false := by
  intro c hc
  rw [h.head c hc, UniLexer.isXidContinue_ascii _ (by decide)]
  decide

private theorem eatLiteralSuffix_stop {c : Cursor} (h : Stop c.rest) : eatLiteralSuffix c = c := by
  unfold eatLiteralSuffix eatIdentifier
  rw [isRustIdStart_stop h]
  rfl

private theorem eatIdentifier_text (x : IdentText) {c : Cursor} {rest : List Char} (h : c.rest = x.text ++ rest)
    (hstop : Stop rest) : eatIdentifier c = c.skipTo rest := by
  have hrest : c.rest = x.start :: (x.cont ++ rest) := h
  have hstart : isRustIdStart c.first := by
    rw [Cursor.first_eq, hrest]
    exact x.isStart
  rw [eatIdentifier, if_pos hstart, c.bump_eq hrest,
    Cursor.eatWhile_eq _ rfl x.isCont (isXidContinue_stop hstop)]
  exact c.skipTo_skipTo (u := [x.start]) hrest

/-- A character that continues an identifier is none of the given ones. -/
private theorem ne_of_isXidContinue {c d : Char} (h : isXidContinue c) (hd : isAscii d)
    (hnot : (d.isAlphanum || d == '_') = false) : c ≠ d := by
  rintro rfl
  rw [UniLexer.isXidContinue_ascii _ hd, hnot] at h
  cases h

private theorem ne_of_isRustIdStart {c d : Char} (h : isRustIdStart c) (hd : isAscii d)
    (hnot : (d.isAlpha || d == '_') = false) : c ≠ d := by
  rintro rfl
  rw [isRustIdStart_false hd hnot] at h
  cases h

/-- The next character of a name or after it is none of the characters that make a literal or a bad name. -/
private theorem head_cont_ne {cont rest : List Char} (hcont : ∀ c ∈ cont, isXidContinue c) (hstop : Stop rest)
    {d : Char} (hd : d = '#' ∨ d = '"' ∨ d = '\'') : (cont ++ rest).headD eofChar ≠ d := by
  cases cont with
  | nil =>
    cases hstop with
    | eof => rcases hd with rfl | rfl | rfl <;> decide
    | space cs => rcases hd with rfl | rfl | rfl <;> simp
  | cons c cont =>
    have hc := hcont c (by simp)
    rcases hd with rfl | rfl | rfl <;> exact ne_of_isXidContinue hc (by decide) (by decide)

private theorem first_ne {c : Cursor} {cont rest : List Char} (h : c.rest = cont ++ rest)
    (hcont : ∀ c ∈ cont, isXidContinue c) (hstop : Stop rest) (d : Char) (hd : d = '#' ∨ d = '"' ∨ d = '\'') :
    c.first ≠ d := by
  rw [Cursor.first_eq, h]
  exact head_cont_ne hcont hstop hd

/-- A name that begins with a `b` is not taken for a byte string. -/
private theorem byteString_name {c : Cursor} {cont rest : List Char} (h : c.rest = cont ++ rest)
    (hcont : ∀ c ∈ cont, isXidContinue c) (hstop : Stop rest) : byteString c = identifierOrUnknownPrefix c := by
  have hfirst := first_ne h hcont hstop
  unfold byteString
  rw [if_neg (hfirst _ (by simp)), if_neg (hfirst _ (by simp)), if_neg]
  rintro ⟨hr, hsecond⟩
  -- the name goes on or ends after `br`, so neither a quote nor a hash stands there
  cases cont with
  | nil =>
    rw [Cursor.first_eq, h] at hr
    cases hstop <;> cases hr
  | cons d cont =>
    have hnext : c.second = (cont ++ rest).headD eofChar := by
      rw [Cursor.second, h]
      rfl
    rw [hnext] at hsecond
    have hne {x : Char} := @head_cont_ne _ cont rest (fun x hx => hcont x (by simp [hx])) hstop x
    rcases hsecond with hquote | hhash
    · exact hne (by simp) hquote
    · exact hne (by simp) hhash

private theorem identifierOrUnknownPrefix_text {c : Cursor} {cont rest : List Char} (h : c.rest = cont ++ rest)
    (hcont : ∀ c ∈ cont, isXidContinue c) (hstop : Stop rest) :
    identifierOrUnknownPrefix c = (.identifier, c.skipTo rest) := by
  have hfirst := Stop.first (c := c.skipTo rest) hstop
  unfold identifierOrUnknownPrefix
  rw [c.eatWhile_eq h hcont (isXidContinue_stop hstop)]
  rcases hfirst with hfirst | hfirst <;> simp [hfirst, isNonAsciiEmoji, isAscii, eofChar]

/-- The text is read as one token of the kind, wherever it stands before a stop. -/
def LexesTo (text : List Char) (kind : TokenKind) : Prop :=
  ∃ first tail, text = first :: tail ∧ isWhiteSpaceChar first = false ∧
    ∀ (c : Cursor) (rest : List Char), Stop rest → c.eaten = [first] → c.rest = tail ++ rest →
      sourceFrom c.originalSource c.tokenPos = text ++ rest → parse c c.tokenPos first = (some kind, c.skipTo rest)

theorem lexesTo_identifier (x : IdentText) : LexesTo x.text .identifier := by
  refine ⟨x.start, x.cont, rfl, ?_, fun c rest hstop _ hrest _ => ?_⟩
  · by_contra hws
    have := UniLexer.isRustIdStart_whiteSpace x.start (by simpa using hws)
    rw [x.isStart] at this
    cases this
  have hfirst : ∀ d, d = '#' ∨ d = '"' ∨ d = '\'' → c.first ≠ d := first_ne hrest x.isCont hstop
  have hident := identifierOrUnknownPrefix_text hrest x.isCont hstop
  have hslash : x.start ≠ '/' := ne_of_isRustIdStart x.isStart (by decide) (by decide)
  unfold parse
  rw [if_neg hslash]
  -- the lexer looks for a raw string after an `r` and for a byte string after a `b` before it takes a name
  by_cases hr : x.start = 'r'
  · rw [if_pos hr, if_neg (by simp [hfirst]), if_neg (by simp [hfirst]), hident]
  · rw [if_neg hr]
    by_cases hb : x.start = 'b'
    · rw [if_pos hb, byteString_name hrest x.isCont hstop, hident]
    · rw [if_neg hb, if_pos x.isStart, hident]

theorem lexesTo_rawIdentifier (x : IdentText) : LexesTo ('r' :: '#' :: x.text) .rawIdentifier := by
  refine ⟨'r', '#' :: x.text, rfl, by decide, fun c rest hstop _ hrest _ => ?_⟩
  have hfirst : c.first = '#' := Cursor.first_of_rest hrest
  have hsecond : isRustIdStart c.second := by
    rw [Cursor.second, hrest]
    exact x.isStart
  have hbump : c.bump = c.skipTo (x.text ++ rest) := c.bump_eq hrest
  have hident : rawIdentifier c = (.rawIdentifier, c.skipTo rest) := by
    unfold rawIdentifier
    rw [hbump, eatIdentifier_text x rfl hstop, c.skipTo_skipTo (u := ['#']) hrest]
  unfold parse
  rw [if_neg (by decide), if_pos rfl, if_pos ⟨hfirst, hsecond⟩, hident]

/-! ### Special characters -/

omit [UniLexer] in
private theorem parsePrefix_text (s : SpecialChar) {rest : List Char} (hstop : Stop rest) :
    SpecialChar.parsePrefix (s.asStr.toList ++ rest) = some s := by
  cases hstop with
  | eof => cases s <;> rfl
  | space cs => cases s <;> rfl

omit [UniLexer] in
/-- No token of another class begins with the first character of a special character, but for a slash and a
hash. -/
private theorem specialChar_first {s : SpecialChar} (hs : s ≠ .underscore) (hslash : s ≠ .solidus) :
    ∃ first tail, s.asStr.toList = first :: tail ∧ (s ≠ .numberSign → first ≠ '#') ∧ first.utf8Size = 1 ∧
      isWhiteSpaceChar first = false ∧ isAscii first ∧ (first.isAlpha || first == '_') = false ∧
        isDecimalDigit first = false ∧ first ≠ '"' ∧ first ≠ '\'' ∧ first ≠ '/' := by
  cases s <;> first
    | exact absurd rfl hs
    | exact absurd rfl hslash
    | exact ⟨_, _, rfl, by decide, by decide, by decide, by decide, by decide, by decide, by decide, by decide,
        by decide⟩

theorem lexesTo_specialChar {s : SpecialChar} (hs : s ≠ .underscore) :
    LexesTo s.asStr.toList (.specialChar s) := by
  by_cases hslash : s = .solidus
  · subst hslash
    refine ⟨'/', [], rfl, by decide, fun c rest hstop _ hrest _ => ?_⟩
    obtain rfl : c.rest = rest := hrest
    have hfirst : c.first ≠ '/' ∧ c.first ≠ '*' := by
      rcases hstop.first with h | h <;> rw [h] <;> decide
    unfold parse
    rw [if_pos rfl, if_neg hfirst.1, if_neg hfirst.2, c.skipTo_self]
  obtain ⟨first, tail, htext, hhash, hsize, hws, hascii, halpha, hdigit, hquote, hsingle, hne⟩ :=
    specialChar_first hs hslash
  refine ⟨first, tail, htext, hws, fun c rest hstop _ hrest hsource => ?_⟩
  have hstart : isRustIdStart first = false := isRustIdStart_false hascii halpha
  -- no letter, so neither a raw string nor a byte string begins here
  have hr : first ≠ 'r' := by
    rintro rfl
    exact absurd halpha (by decide)
  have hb : first ≠ 'b' := by
    rintro rfl
    exact absurd halpha (by decide)
  -- a hash is followed by a space, so it guards no string
  have hguard : ¬(first = '#' ∧ (c.first = '"' ∨ c.first = '#')) := by
    rintro ⟨hfirst, hnext⟩
    have hsharp : s = .numberSign := by
      by_contra hns
      exact hhash hns hfirst
    subst hsharp
    obtain rfl : tail = [] := (List.cons.inj htext).2.symm
    obtain rfl : c.rest = rest := hrest
    rcases hstop.first with h | h <;> rw [h] at hnext <;> exact absurd hnext (by decide)
  have hparse : SpecialChar.parsePrefix (sourceFrom c.originalSource c.tokenPos) = some s := by
    rw [hsource, parsePrefix_text s hstop]
  have hbump : c.bumpBytes (byteLen s.asStr.toList - 1) = c.skipTo rest := by
    have hlen : byteLen s.asStr.toList - 1 = byteLen tail := by
      rw [htext, byteLen_cons]
      omega
    unfold Cursor.bumpBytes
    rw [hlen, hrest, splitAtByte_append]
  unfold parse
  rw [if_neg hne, if_neg hr, if_neg hb, if_neg (by simp [hstart]), if_neg (by simp [hdigit]), if_neg hguard,
    if_neg hsingle, if_neg hquote, hparse]
  exact congrArg (some (TokenKind.specialChar s), ·) hbump

/-! ### Numbers -/

omit [UniLexer] in
/-- Digits and underscores are taken up to the first other character. -/
private theorem eatDigits_append {isDigit : Char → Bool} {digits rest : List Char} (b : Bool)
    (hdigits : ∀ c ∈ digits, c = '_' ∨ isDigit c) (hrest : ∀ c ∈ rest.head?, c ≠ '_' ∧ isDigit c = false) :
    eatDigits isDigit b (digits ++ rest) = (b || digits.any fun c => c != '_' && isDigit c, rest) := by
  induction digits generalizing b with
  | nil =>
    cases rest with
    | nil => simp [eatDigits]
    | cons c rest =>
      obtain ⟨hc, hdigit⟩ := hrest c (by simp)
      simp [eatDigits, hc, hdigit]
  | cons c digits ih =>
    have hrestDigits : ∀ d ∈ digits, d = '_' ∨ isDigit d := fun d hd => hdigits d (by simp [hd])
    rw [List.cons_append, eatDigits]
    by_cases hc : c = '_'
    · subst hc
      rw [if_pos rfl, ih b hrestDigits]
      simp
    · have hdigit : isDigit c := (hdigits c (by simp)).resolve_left hc
      rw [if_neg hc, if_pos hdigit, ih true hrestDigits]
      simp [hc, hdigit]

omit [UniLexer] in
private theorem isDecimalDigit_cases {c : Char} (h : isDecimalDigit c) : 48 ≤ c.toNat ∧ c.toNat ≤ 57 := by
  simp only [isDecimalDigit, Bool.and_eq_true, decide_eq_true_eq] at h
  exact h

omit [UniLexer] in
private theorem isDecimalDigit_of_isDigit {b : Base} {c : Char} (hb : b ≠ .hexadecimal) (h : b.isDigit c) :
    isDecimalDigit c := by
  cases b with
  | binary =>
    simp only [Base.isDigit, Bool.or_eq_true, beq_iff_eq] at h
    rcases h with rfl | rfl <;> decide
  | octal =>
    simp only [Base.isDigit, Bool.and_eq_true, decide_eq_true_eq] at h
    simp only [isDecimalDigit, Bool.and_eq_true, decide_eq_true_eq]
    exact ⟨h.1, Nat.le_trans h.2 (by decide)⟩
  | decimal => exact h
  | hexadecimal => exact absurd rfl hb

omit [UniLexer] in
private theorem IntSuffix.text_cases (s : IntSuffix) : ∃ c cs, s.asStr.toList = c :: cs ∧ (c = 'u' ∨ c = 'i') ∧
    cs.all fun d => isAscii d && (d.isAlphanum || d == '_') := by
  cases s <;> exact ⟨_, _, rfl, by decide, by decide⟩

/-- What is written after the digits of an integer. -/
private def suffixText (suffix : Option IntSuffix) : List Char := (suffix.map (·.asStr.toList)).getD []

omit [UniLexer] in
private theorem suffix_head {rest : List Char} (suffix : Option IntSuffix) (hstop : Stop rest) :
    ∀ c ∈ (suffixText suffix ++ rest).head?, c = ' ' ∨ c = 'u' ∨ c = 'i' := by
  intro c hc
  cases suffix with
  | none => exact Or.inl (hstop.head c hc)
  | some suffix =>
    obtain ⟨d, cs, htext, hd, -⟩ := suffix.text_cases
    obtain rfl : d = c := by simpa [suffixText, htext] using hc
    exact Or.inr hd

omit [UniLexer] in
private theorem suffix_first {c : Cursor} {rest : List Char} {suffix : Option IntSuffix} (hstop : Stop rest)
    (h : c.rest = suffixText suffix ++ rest) : c.first ∈ [eofChar, ' ', 'u', 'i'] := by
  have hhead := suffix_head suffix hstop
  rw [← h] at hhead
  rw [Cursor.first_eq]
  cases hrest : c.rest with
  | nil => simp
  | cons x xs =>
    have hx := hhead x (by rw [hrest]; rfl)
    simp [hx]

omit [UniLexer] in
/-- The digits of an integer are taken up to its suffix. -/
private theorem eatDigits_text {isDigit : Char → Bool} {n : IntText} (suffix : Option IntSuffix)
    {rest digits : List Char} (hstop : Stop rest) (hdigit : ∀ c, n.base.isDigit c → isDigit c)
    (hall : ∀ c ∈ digits, c ∈ n.digits)
    (hends : [' ', 'u', 'i'].all fun c => !isDigit c) :
    eatDigits isDigit false (digits ++ (suffixText suffix ++ rest)) =
      (digits.any fun c => c != '_' && isDigit c, suffixText suffix ++ rest) := by
  refine eatDigits_append false (fun c hc => (n.areDigits c (hall c hc)).imp id (hdigit c)) fun c hc => ?_
  simp only [List.all_cons, List.all_nil, Bool.and_true, Bool.and_eq_true, Bool.not_eq_true'] at hends
  rcases suffix_head suffix hstop c hc with rfl | rfl | rfl
  · exact ⟨by decide, hends.1⟩
  · exact ⟨by decide, hends.2.1⟩
  · exact ⟨by decide, hends.2.2⟩

private theorem numberTail_suffix {c : Cursor} {rest : List Char} {suffix : Option IntSuffix} (base : Base)
    (hstop : Stop rest) (h : c.rest = suffixText suffix ++ rest) : numberTail base c = (.int base false, c) := by
  have hfirst : c.first ≠ '.' ∧ c.first ≠ 'e' ∧ c.first ≠ 'E' := by
    have := suffix_first hstop h
    simp only [List.mem_cons, List.not_mem_nil, or_false] at this
    rcases this with h | h | h | h <;> rw [h] <;> decide
  unfold numberTail
  rw [if_neg (by simp [hfirst]), if_neg (by simp [hfirst])]

private theorem eatLiteralSuffix_text {c : Cursor} {rest : List Char} {suffix : Option IntSuffix}
    (hstop : Stop rest) (h : c.rest = suffixText suffix ++ rest) : eatLiteralSuffix c = c.skipTo rest := by
  cases suffix with
  | none =>
    obtain rfl : c.rest = rest := h
    rw [eatLiteralSuffix_stop hstop, c.skipTo_self]
  | some suffix =>
    obtain ⟨d, cs, htext, hd, hcs⟩ := suffix.text_cases
    have hstart : isRustIdStart d := by
      rcases hd with rfl | rfl <;> rw [UniLexer.isRustIdStart_ascii _ (by decide)] <;> decide
    have hcont : ∀ x ∈ cs, isXidContinue x := fun x hx => by
      obtain ⟨hascii, hx⟩ := Bool.and_eq_true_iff.1 (List.all_eq_true.1 hcs x hx)
      rwa [UniLexer.isXidContinue_ascii _ hascii]
    refine eatIdentifier_text ⟨d, cs, hstart, hcont⟩ ?_ hstop
    rw [h, suffixText, Option.map_some, Option.getD_some, htext]
    rfl

/-- After the marker of a base its digits are taken, and there is one. -/
private theorem prefixedNumber_text {n : IntText} {suffix : Option IntSuffix} {rest : List Char}
    (hstop : Stop rest) {isDigit : Char → Bool} {eat : Cursor → Bool × Cursor}
    (heat : ∀ c, eat c = ((eatDigits isDigit false c.rest).1, c.skipTo (eatDigits isDigit false c.rest).2))
    (hdigit : ∀ c, n.base.isDigit c → isDigit c) (hunderscore : isDigit '_' = false)
    (hends : [' ', 'u', 'i'].all fun c => !isDigit c) {c : Cursor}
    {m : Char} (h : c.rest = m :: (n.digits ++ (suffixText suffix ++ rest))) :
    prefixedNumber n.base eat c = (.int n.base false, c.skipTo (suffixText suffix ++ rest)) := by
  have hdigits := eatDigits_text suffix hstop hdigit (fun _ h => h) hends
  have hany : (n.digits.any fun c => c != '_' && isDigit c) = true := by
    obtain ⟨d, hd, hbase⟩ := n.hasDigit
    have hne : d ≠ '_' := by
      rintro rfl
      exact absurd (hdigit _ hbase) (by simp [hunderscore])
    exact List.any_eq_true.2 ⟨d, hd, by simp [hne, hdigit d hbase]⟩
  have hskip := c.skipTo_skipTo (u := [m]) (v := n.digits) h
  unfold prefixedNumber
  rw [c.bump_eq h, heat, Cursor.skipTo_rest, hdigits, hany, hskip]
  exact numberTail_suffix n.base hstop rfl

private theorem parse_number {c : Cursor} {first : Char} {base : Base} {value rest : List Char}
    {suffix : Option IntSuffix} (hfirst : isDecimalDigit first) (heaten : c.eaten = [first])
    (hrest : c.rest = value ++ (suffixText suffix ++ rest)) (hstop : Stop rest)
    (h : number c first = (.int base false, c.skipTo (suffixText suffix ++ rest))) :
    parse c c.tokenPos first = (some (.literal (.int base false) (byteLen (first :: value))), c.skipTo rest) := by
  obtain ⟨hlow, hhigh⟩ := isDecimalDigit_cases hfirst
  have hne : ∀ d : Char, 57 < d.toNat ∨ d.toNat < 48 → first ≠ d := by
    rintro d hd rfl
    omega
  have hstart : isRustIdStart first = false := by
    rw [UniLexer.isRustIdStart_ascii _ (by simp [isAscii]; omega)]
    have hdecide : ∀ k < 58, 48 ≤ k → ((Char.ofNat k).isAlpha || Char.ofNat k == '_') = false := by decide
    have := hdecide first.toNat (by omega) hlow
    rwa [Char.ofNat_toNat] at this
  -- the value ends where the suffix starts
  have hpos : (c.skipTo (suffixText suffix ++ rest)).posWithinToken = byteLen (first :: value) := by
    rw [Cursor.posWithinToken_skipTo hrest, Cursor.posWithinToken, heaten]
    simp
  have hsuffix : eatLiteralSuffix (c.skipTo (suffixText suffix ++ rest)) = c.skipTo rest := by
    rw [eatLiteralSuffix_text hstop rfl]
    exact c.skipTo_skipTo hrest
  unfold parse
  rw [if_neg (hne '/' (by decide)), if_neg (hne 'r' (by decide)), if_neg (hne 'b' (by decide)),
    if_neg (by simp [hstart]), if_pos hfirst, h]
  simp only [hpos, hsuffix]

private theorem lexesTo_prefixed {n : IntText} (suffix : Option IntSuffix) {m : Char} (isDigit : Char → Bool)
    (eat : Cursor → Bool × Cursor) (hmarker : n.base.marker = ['0', m])
    (heat : ∀ c, eat c = ((eatDigits isDigit false c.rest).1, c.skipTo (eatDigits isDigit false c.rest).2))
    (hdigit : ∀ c, n.base.isDigit c → isDigit c) (hunderscore : isDigit '_' = false)
    (hends : [' ', 'u', 'i'].all fun c => !isDigit c)
    (hnumber : ∀ c : Cursor, c.first = m → number c '0' = prefixedNumber n.base eat c) :
    LexesTo (n.text ++ suffixText suffix) (.literal (.int n.base false) (byteLen n.text)) := by
  have htext : n.text = '0' :: m :: n.digits := by
    rw [IntText.text, hmarker]
    rfl
  rw [htext]
  refine ⟨'0', m :: n.digits ++ suffixText suffix, rfl, by decide, fun c rest hstop heaten hrest _ => ?_⟩
  rw [List.append_assoc] at hrest
  have hfirst : c.first = m := Cursor.first_of_rest hrest
  refine parse_number (by decide) heaten hrest hstop ?_
  rw [hnumber c hfirst]
  exact prefixedNumber_text hstop heat hdigit hunderscore hends hrest

private theorem number_decimal {n : IntText} {suffix : Option IntSuffix} {rest : List Char} (hstop : Stop rest)
    (hbase : n.base = .decimal) {first : Char} {digits : List Char} (hdigits : n.digits = first :: digits)
    {c : Cursor} (h : c.rest = digits ++ (suffixText suffix ++ rest)) :
    number c first = (.int .decimal false, c.skipTo (suffixText suffix ++ rest)) := by
  have heat : (eatDecimalDigits c).2 = c.skipTo (suffixText suffix ++ rest) := by
    unfold eatDecimalDigits
    have hdecimal : ∀ d, n.base.isDigit d → isDecimalDigit d :=
      fun d => isDecimalDigit_of_isDigit (by simp [hbase])
    rw [h, eatDigits_text suffix hstop hdecimal (fun d hd => by simp [hdigits, hd]) (by decide)]
  have htail : numberTail .decimal (c.skipTo (suffixText suffix ++ rest)) = (.int .decimal false, _) :=
    numberTail_suffix .decimal hstop rfl
  unfold number
  split
  · -- after a zero the next character says whether digits follow
    cases digits with
    | nil =>
      have hfirst := suffix_first hstop h
      have hself : c.skipTo (suffixText suffix ++ rest) = c := by
        rw [← List.nil_append (suffixText suffix ++ rest), ← h, c.skipTo_self]
      simp only [List.mem_cons, List.not_mem_nil, or_false] at hfirst
      rw [hself]
      rcases hfirst with hf | hf | hf | hf <;> rw [hf] <;> rfl
    | cons d digits =>
      have hfirst : c.first = d := Cursor.first_of_rest h
      have hd : isDecimalDigit d ∨ d = '_' := by
        rcases n.areDigits d (by simp [hdigits]) with hd | hd
        · exact Or.inr hd
        · exact Or.inl (isDecimalDigit_of_isDigit (by simp [hbase]) hd)
      have hne : d ≠ 'b' ∧ d ≠ 'o' ∧ d ≠ 'x' := by
        refine ⟨?_, ?_, ?_⟩ <;> (rintro rfl; exact absurd hd (by decide))
      rw [hfirst, if_neg hne.1, if_neg hne.2.1, if_neg hne.2.2, if_pos hd, heat, htail]
  · rw [heat, htail]

theorem lexesTo_int (n : IntText) (suffix : Option IntSuffix) :
    LexesTo (n.text ++ suffixText suffix) (.literal (.int n.base false) (byteLen n.text)) := by
  cases hbase : n.base with
  | binary =>
    rw [← hbase]
    refine lexesTo_prefixed suffix isDecimalDigit eatDecimalDigits (by rw [hbase]; rfl) (fun c => rfl)
      (fun c => isDecimalDigit_of_isDigit (by simp [hbase])) (by decide) (by decide) fun c hc => ?_
    rw [number, if_pos rfl, if_pos hc, hbase]
  | octal =>
    rw [← hbase]
    refine lexesTo_prefixed suffix isDecimalDigit eatDecimalDigits (by rw [hbase]; rfl) (fun c => rfl)
      (fun c => isDecimalDigit_of_isDigit (by simp [hbase])) (by decide) (by decide) fun c hc => ?_
    rw [number, if_pos rfl, hc, if_neg (by decide), if_pos rfl, hbase]
  | hexadecimal =>
    rw [← hbase]
    refine lexesTo_prefixed suffix isHexadecimalDigit eatHexadecimalDigits (by rw [hbase]; rfl) (fun c => rfl)
      (fun c hc => by rwa [hbase] at hc) (by decide) (by decide) fun c hc => ?_
    rw [number, if_pos rfl, hc, if_neg (by decide), if_neg (by decide), if_pos rfl, hbase]
  | decimal =>
    obtain ⟨first, digits, hdigits⟩ : ∃ first digits, n.digits = first :: digits := by
      obtain ⟨d, hd, -⟩ := n.hasDigit
      exact List.exists_cons_of_ne_nil (List.ne_nil_of_mem hd)
    have hne : first ≠ '_' := n.startsWithDigit hbase first (by rw [hdigits]; rfl)
    have hfirst : isDecimalDigit first := by
      have := (n.areDigits first (by simp [hdigits])).resolve_left hne
      rwa [hbase] at this
    have htext : n.text = first :: digits := by
      rw [IntText.text, hbase, hdigits]
      rfl
    have hws : isWhiteSpaceChar first = false := by
      by_contra h
      have := isWhiteSpaceChar_cases (by simpa using h)
      have := isDecimalDigit_cases hfirst
      simp at *
      omega
    rw [htext]
    refine ⟨first, digits ++ suffixText suffix, rfl, hws, fun c rest hstop heaten hrest _ => ?_⟩
    rw [List.append_assoc] at hrest
    exact parse_number hfirst heaten hrest hstop (number_decimal hstop hbase hdigits hrest)

/-! ### Quoted literals -/

private theorem quotedLiteral_text {body : Cursor → Bool × Cursor} (makeKind : Bool → LiteralKind) {c : Cursor}
    {value rest : List Char} (hbody : body c = (true, c.skipTo rest)) (hrest : c.rest = value ++ rest)
    (hstop : Stop rest) :
    quotedLiteral body makeKind c = (.literal (makeKind true) (c.posWithinToken + byteLen value),
        c.skipTo rest) := by
  have hsuffix : eatLiteralSuffix (c.skipTo rest) = c.skipTo rest := eatLiteralSuffix_stop hstop
  unfold quotedLiteral
  rw [hbody]
  simp only [if_pos, hsuffix, Cursor.posWithinToken_skipTo hrest]

omit [UniLexer] in
private theorem doubleQuotedLoop_plain {c : Char} {cs : List Char} (hquote : c ≠ '"')
    (hescape : c = '\\' → ∀ d ∈ cs.head?, d ≠ '\\' ∧ d ≠ '"') :
    doubleQuotedLoop (c :: cs) = doubleQuotedLoop cs := by
  rw [doubleQuotedLoop.eq_def]
  split
  · contradiction
  · rename_i heq
    exact absurd (List.cons.inj heq).1 hquote
  · rename_i heq
    obtain ⟨rfl, rfl⟩ := List.cons.inj heq
    exact absurd rfl (hescape rfl '\\' rfl).1
  · rename_i heq
    obtain ⟨rfl, rfl⟩ := List.cons.inj heq
    exact absurd rfl (hescape rfl '"' rfl).2
  · rename_i heq
    rw [(List.cons.inj heq).2]

omit [UniLexer] in
private theorem doubleQuotedLoop_body {body : List Char} (h : isEscaped body) (rest : List Char) :
    doubleQuotedLoop (body ++ '"' :: rest) = (true, rest) := by
  induction body using isEscaped.induct with
  | case1 => rfl
  | case2 c cs ih =>
    rw [isEscaped] at h
    by_cases hc : c = '\\' ∨ c = '"'
    · rcases hc with rfl | rfl
      · exact ih h
      · exact ih h
    · -- the escaped character is an ordinary one, and is taken after the backslash
      have hne : c ≠ '\\' ∧ c ≠ '"' := not_or.1 hc
      rw [List.cons_append, List.cons_append, doubleQuotedLoop_plain (by decide) (by simpa using hne),
        doubleQuotedLoop_plain hne.2 (fun hc => absurd hc hne.1), ih h]
  | case3 c cs hc ih =>
    rw [isEscaped.eq_3 _ _ hc, Bool.and_eq_true, Bool.and_eq_true, bne_iff_ne, bne_iff_ne] at h
    rw [List.cons_append, doubleQuotedLoop_plain h.1.2 (fun hc => absurd hc h.1.1), ih h.2]

omit [UniLexer] in
private theorem doubleQuotedString_text (s : StrText) {c : Cursor} {rest : List Char}
    (h : c.rest = s.body ++ '"' :: rest) : doubleQuotedString c = (true, c.skipTo rest) := by
  unfold doubleQuotedString
  rw [h, doubleQuotedLoop_body s.isEscaped]

theorem lexesTo_str (s : StrText) : LexesTo s.text (.literal (.str true) (byteLen s.text)) := by
  refine ⟨'"', s.body ++ ['"'], rfl, by decide, fun c rest hstop heaten hrest _ => ?_⟩
  have hbody : c.rest = s.body ++ '"' :: rest := by simp [hrest]
  have hstart : isRustIdStart '"' = false := isRustIdStart_false (by decide) (by decide)
  have hpos : c.posWithinToken = 1 := Cursor.posWithinToken_first heaten
  have hlen : byteLen s.text = 1 + byteLen (s.body ++ ['"']) := rfl
  unfold parse
  rw [if_neg (by decide), if_neg (by decide), if_neg (by decide), if_neg (by simp [hstart]), if_neg (by decide),
    if_neg (by simp), if_neg (by decide), if_pos rfl,
    quotedLiteral_text .str (doubleQuotedString_text s hbody) hrest hstop, hpos, hlen]

omit [UniLexer] in
private theorem singleQuotedString_text {x : Char} (hx : x ≠ '\\') {c : Cursor} {rest : List Char}
    (h : c.rest = x :: '\'' :: rest) : singleQuotedString c = (true, c.skipTo rest) := by
  have hfirst : c.first = x := Cursor.first_of_rest h
  have hsecond : c.second = '\'' := Cursor.second_of_rest h
  have hskip := c.skipTo_skipTo (u := [x]) (v := ['\'']) h
  unfold singleQuotedString
  rw [if_pos ⟨hsecond, hfirst ▸ hx⟩, c.bump_eq h, Cursor.bump_eq _ rfl]
  exact congrArg (true, ·) hskip

theorem lexesTo_char {x : Char} (hx : x ≠ '\\') :
    LexesTo ['\'', x, '\''] (.literal (.char true) (byteLen ['\'', x, '\''])) := by
  refine ⟨'\'', [x, '\''], rfl, by decide, fun c rest hstop heaten hrest _ => ?_⟩
  have hstart : isRustIdStart '\'' = false := isRustIdStart_false (by decide) (by decide)
  have hpos : c.posWithinToken = 1 := Cursor.posWithinToken_first heaten
  unfold parse
  rw [if_neg (by decide), if_neg (by decide), if_neg (by decide), if_neg (by simp [hstart]), if_neg (by decide),
    if_neg (by simp), if_pos rfl]
  unfold char
  rw [quotedLiteral_text .char (singleQuotedString_text hx hrest) hrest hstop, hpos]
  rfl

omit [UniLexer] in
/-- Taking the quote, or the second letter, behind the letter of a byte literal. -/
private theorem byteQuote {q : Char} (hq : q.utf8Size = 1) {c : Cursor} {w : List Char} (heaten : c.eaten = ['b'])
    (h : c.rest = q :: w) : c.first = q ∧ c.bump = c.skipTo w ∧ (c.skipTo w).posWithinToken = 2 := by
  refine ⟨Cursor.first_of_rest h, c.bump_eq h, ?_⟩
  rw [Cursor.posWithinToken_skipTo (u := [q]) (w := w) h, Cursor.posWithinToken_first heaten, byteLen_cons, hq]
  rfl

theorem lexesTo_byte {x : Char} (hx : x ≠ '\\') :
    LexesTo ['b', '\'', x, '\''] (.literal (.byte true) (byteLen ['b', '\'', x, '\''])) := by
  refine ⟨'b', ['\'', x, '\''], rfl, by decide, fun c rest hstop heaten hrest _ => ?_⟩
  have hquote : c.rest = '\'' :: x :: '\'' :: rest := hrest
  obtain ⟨hfirst, hbump, hpos⟩ := byteQuote rfl heaten hquote
  have hlen : byteLen ['b', '\'', x, '\''] = 2 + byteLen [x, '\''] := by
    rw [byteLen_cons, byteLen_cons, ← Nat.add_assoc]
    rfl
  have hskip := c.skipTo_skipTo (u := ['\'']) (v := [x, '\'']) (w := rest) hquote
  have hbyte : byteString c = (.literal (.byte true) (byteLen ['b', '\'', x, '\'']), c.skipTo rest) := by
    unfold byteString
    have hbody : (c.skipTo (x :: '\'' :: rest)).rest = [x, '\''] ++ rest := rfl
    rw [hfirst, if_pos rfl, hbump, quotedLiteral_text .byte (singleQuotedString_text hx rfl) hbody hstop, hpos,
      hlen]
    exact congrArg (_, ·) hskip
  unfold parse
  rw [if_neg (by decide), if_neg (by decide), if_pos rfl, hbyte]

theorem lexesTo_byteStr (s : StrText) :
    LexesTo ('b' :: s.text) (.literal (.byteStr true) (byteLen ('b' :: s.text))) := by
  refine ⟨'b', s.text, rfl, by decide, fun c rest hstop heaten hrest _ => ?_⟩
  have hquote : c.rest = '"' :: ((s.body ++ ['"']) ++ rest) := hrest
  obtain ⟨hfirst, hbump, hpos⟩ := byteQuote rfl heaten hquote
  have hbody : (c.skipTo ((s.body ++ ['"']) ++ rest)).rest = s.body ++ '"' :: rest := by simp
  have hlen : byteLen ('b' :: s.text) = 2 + byteLen (s.body ++ ['"']) := by
    rw [StrText.text, byteLen_cons, List.cons_append, byteLen_cons, ← Nat.add_assoc]
    rfl
  have hskip := c.skipTo_skipTo (u := ['"']) hquote
  have hbyte : byteString c = (.literal (.byteStr true) (byteLen ('b' :: s.text)), c.skipTo rest) := by
    unfold byteString
    rw [hfirst, if_neg (by decide), if_pos rfl, hbump,
      quotedLiteral_text .byteStr (doubleQuotedString_text s hbody) rfl hstop, hpos, hlen, hskip]
  unfold parse
  rw [if_neg (by decide), if_neg (by decide), if_pos rfl, hbyte]

/-! ### Raw strings -/

omit [UniLexer] in
theorem eatHashes_replicate {n limit : Nat} {rest : List Char} (hn : n ≤ limit)
    (h : n = limit ∨ rest.head? ≠ some '#') : eatHashes limit (List.replicate n '#' ++ rest) = (n, rest) := by
  induction n generalizing limit with
  | zero =>
    rcases limit with _ | limit
    · rfl
    · have hhead : rest.head? ≠ some '#' := h.resolve_left (by omega)
      cases rest with
      | nil => rfl
      | cons c rest =>
        rw [List.replicate_zero, List.nil_append, eatHashes.eq_def]
        split
        · rename_i heq
          obtain rfl := (List.cons.inj heq).1
          exact absurd rfl hhead
        · rfl
  | succ n ih =>
    obtain ⟨limit, rfl⟩ : ∃ m, limit = m + 1 := ⟨limit - 1, by omega⟩
    rw [List.replicate_succ, List.cons_append, eatHashes, ih (by omega) (h.imp (by omega) id)]

omit [UniLexer] in
/-- The hashes a text begins with, and the rest. -/
theorem exists_hashes (cs : List Char) :
    ∃ k cs', cs = List.replicate k '#' ++ cs' ∧ cs'.head? ≠ some '#' := by
  induction cs with
  | nil => exact ⟨0, [], rfl, by simp⟩
  | cons c cs ih =>
    by_cases hc : c = '#'
    · obtain ⟨k, cs', rfl, hhead⟩ := ih
      exact ⟨k + 1, cs', by rw [hc, List.replicate_succ, List.cons_append], hhead⟩
    · exact ⟨0, c :: cs, rfl, by simpa using hc⟩

omit [UniLexer] in
/-- A text has no quote at all, or all the hashes stand after its first quote, or too few do. -/
theorem quote_cases (n : Nat) (cs : List Char) :
    '"' ∉ cs ∨ (∃ before after, cs = before ++ '"' :: (List.replicate n '#' ++ after) ∧ '"' ∉ before) ∨
      ∃ before k after, cs = before ++ '"' :: (List.replicate k '#' ++ after) ∧ '"' ∉ before ∧ k < n ∧
        after.head? ≠ some '#' := by
  by_cases hquote : '"' ∈ cs
  swap
  · exact Or.inl hquote
  obtain ⟨before, after, rfl, hbefore⟩ := List.eq_append_cons_of_mem hquote
  obtain ⟨k, after, rfl, hhead⟩ := exists_hashes after
  by_cases hk : k < n
  · exact Or.inr (Or.inr ⟨before, k, after, rfl, hbefore, hk, hhead⟩)
  · obtain ⟨m, rfl⟩ : ∃ m, k = n + m := ⟨k - n, by omega⟩
    exact Or.inr (Or.inl ⟨before, List.replicate m '#' ++ after, by simp [← List.replicate_append_replicate],
      hbefore⟩)

omit [UniLexer] in
/-- The content has no quote at all, or the hashes after its first quote are too few. -/
private theorem content_cases {n : Nat} {content : List Char}
    (hopen : ¬ '"' :: List.replicate n '#' <:+: content) :
    '"' ∉ content ∨ ∃ before k content', content = before ++ '"' :: (List.replicate k '#' ++ content') ∧
      '"' ∉ before ∧ k < n ∧ content'.head? ≠ some '#' ∧ ¬ '"' :: List.replicate n '#' <:+: content' := by
  rcases quote_cases n content with hquote | ⟨before, after, rfl, -⟩ | ⟨before, k, content', rfl, hbefore, hk,
    hhead⟩
  · exact Or.inl hquote
  · exact absurd ⟨before, after, by simp⟩ hopen
  · refine Or.inr ⟨before, k, content', rfl, hbefore, hk, hhead, fun hinside => ?_⟩
    refine hopen (hinside.trans (List.IsSuffix.isInfix ⟨before ++ '"' :: List.replicate k '#', ?_⟩))
    simp

omit [UniLexer] in
theorem eatUntil_quote {c : Cursor} {before after : List Char} (hbefore : '"' ∉ before)
    (h : c.rest = before ++ '"' :: after) : c.eatUntil '"' = c.skipTo ('"' :: after) := by
  unfold Cursor.eatUntil
  rw [h, List.dropWhile_append_of_pos fun x hx => ?_]
  · rfl
  · simpa using fun hx' : x = '"' => hbefore (hx' ▸ hx)

omit [UniLexer] in
/-- One turn of the search, at the next quote and the `k` hashes after it. -/
theorem rawString_turn {n k : Nat} {before after : List Char} {c : Cursor} (hbefore : '"' ∉ before)
    (h : c.rest = before ++ '"' :: (List.replicate k '#' ++ after)) (hk : k ≤ n)
    (hend : k = n ∨ after.head? ≠ some '#') :
    (c.eatUntil '"').isEof = false ∧ (eatHashes n (c.eatUntil '"').bump.rest).1 = k ∧
      (c.eatUntil '"').bump.skipTo (eatHashes n (c.eatUntil '"').bump.rest).2 = c.skipTo after := by
  have hbump : (c.eatUntil '"').bump = c.skipTo (List.replicate k '#' ++ after) := by
    rw [eatUntil_quote hbefore h, Cursor.bump_eq _ rfl]
    exact c.skipTo_skipTo (v := ['"']) h
  rw [hbump, Cursor.skipTo_rest, eatHashes_replicate hk hend, eatUntil_quote hbefore h]
  refine ⟨rfl, rfl, c.skipTo_skipTo (u := before ++ ['"']) ?_⟩
  simp [h]

section Turns

variable {prefixLen startPos n k fuel maxHashes : Nat} {offset : Option Nat} {c : Cursor}
    {before after : List Char}

omit [UniLexer] in
/-- Without a quote the search comes to the end. -/
theorem rawStringLoop_eof (hquote : '"' ∉ c.rest) :
    rawStringLoop prefixLen startPos n (fuel + 1) maxHashes offset c =
      (.error (.noTerminator n maxHashes offset), c.skipTo []) := by
  have huntil : c.eatUntil '"' = c.skipTo [] := by
    refine c.eatWhile_eq (List.append_nil _).symm (fun x hx => ?_) (by simp)
    simpa using fun hx' : x = '"' => hquote (hx' ▸ hx)
  rw [rawStringLoop, huntil]
  rfl

omit [UniLexer] in
/-- The search ends behind a quote with all the hashes. -/
theorem rawStringLoop_ends (hbefore : '"' ∉ before)
    (h : c.rest = before ++ '"' :: (List.replicate n '#' ++ after)) :
    rawStringLoop prefixLen startPos n (fuel + 1) maxHashes offset c = (.ok n, c.skipTo after) := by
  obtain ⟨heof, hcount, hskip⟩ := rawString_turn hbefore h (Nat.le_refl n) (Or.inl rfl)
  rw [rawStringLoop]
  simp only [heof, Bool.false_eq_true, if_false, hcount, if_true, hskip]

omit [UniLexer] in
/-- The search goes on behind a quote with too few hashes, and remembers it if they are more than before. -/
theorem rawStringLoop_goesOn (hbefore : '"' ∉ before)
    (h : c.rest = before ++ '"' :: (List.replicate k '#' ++ after)) (hk : k < n) (hend : after.head? ≠ some '#') :
    rawStringLoop prefixLen startPos n (fuel + 1) maxHashes offset c =
      if k > maxHashes then
        rawStringLoop prefixLen startPos n fuel k
          (some ((c.skipTo after).posWithinToken - startPos - k + prefixLen)) (c.skipTo after)
      else rawStringLoop prefixLen startPos n fuel maxHashes offset (c.skipTo after) := by
  obtain ⟨heof, hcount, hskip⟩ := rawString_turn hbefore h (Nat.le_of_lt hk) (Or.inr hend)
  rw [rawStringLoop]
  simp only [heof, Bool.false_eq_true, if_false, hcount, Nat.ne_of_lt hk, hskip]

omit [UniLexer] in
/-- The search passes over every quote in the content, which has too few hashes, and stops at the terminator. -/
private theorem rawStringLoop_content {content rest : List Char}
    (hopen : ¬ '"' :: List.replicate n '#' <:+: content)
    (hfuel : content.length < fuel) (h : c.rest = content ++ '"' :: (List.replicate n '#' ++ rest)) :
    rawStringLoop prefixLen startPos n fuel maxHashes offset c = (.ok n, c.skipTo rest) := by
  induction fuel generalizing content maxHashes offset c with
  | zero => omega
  | succ fuel ih =>
    rcases content_cases hopen with hquote | ⟨before, k, content', rfl, hbefore, hk, hhead, hopen'⟩
    · exact rawStringLoop_ends hquote h
    · have hrest : c.rest = before ++ '"' :: (List.replicate k '#' ++
          (content' ++ '"' :: (List.replicate n '#' ++ rest))) := by simp [h]
      -- the hashes after this quote end where the content or the terminator goes on
      have hend : (content' ++ '"' :: (List.replicate n '#' ++ rest)).head? ≠ some '#' := by
        cases content' with
        | nil => simp
        | cons x xs => exact hhead
      have hfuel' : content'.length < fuel := by
        simp only [List.length_append, List.length_cons] at hfuel
        omega
      have hdone := c.skipTo_skipTo (u := before ++ '"' :: List.replicate k '#')
        (v := content' ++ '"' :: List.replicate n '#') (w := rest) (by simp [h])
      rw [List.append_assoc, List.cons_append] at hdone
      rw [rawStringLoop_goesOn hbefore hrest hk hend]
      split
      · rw [ih hopen' hfuel' rfl, hdone]
      · rw [ih hopen' hfuel' rfl, hdone]

end Turns

omit [UniLexer] in
/-- Behind the opening hashes and the quote the search begins. -/
theorem rawStringUnvalidated_eq {c : Cursor} {n : Nat} {after : List Char}
    (h : c.rest = List.replicate n '#' ++ '"' :: after) (prefixLen : Nat) : rawStringUnvalidated c prefixLen =
      rawStringLoop prefixLen c.posWithinToken n (after.length + 1) 0 none (c.skipTo after) := by
  have hstart : eatHashes c.rest.length c.rest = (n, '"' :: after) := by
    rw [h]
    refine eatHashes_replicate ?_ (Or.inr (by simp))
    simp only [List.length_append, List.length_replicate]
    omega
  have hbump : (c.skipTo ('"' :: after)).bump = c.skipTo after := by
    rw [Cursor.bump_eq _ rfl]
    exact c.skipTo_skipTo (v := ['"']) h
  unfold rawStringUnvalidated
  simp only [hstart, Cursor.skipTo_rest, List.head?_cons, if_true, hbump]

omit [UniLexer] in
theorem rawDoubleQuotedString_text (s : RawText) (prefixLen : Nat) {c : Cursor} {rest : List Char}
    (h : c.rest = s.text ++ rest) : rawDoubleQuotedString c prefixLen = (.ok s.nHashes, c.skipTo rest) := by
  have hrest : c.rest = s.hashes ++ ('"' :: (s.content ++ '"' :: (s.hashes ++ rest))) := by simp [h, RawText.text]
  have hloop : rawStringUnvalidated c prefixLen = (.ok s.nHashes.toNat, c.skipTo rest) := by
    have hdone := c.skipTo_skipTo (u := s.hashes ++ ['"']) (v := s.content ++ '"' :: s.hashes) (w := rest)
      (by simp [hrest])
    rw [List.append_assoc, List.cons_append] at hdone
    rw [rawStringUnvalidated_eq hrest, rawStringLoop_content s.isOpen (by rw [List.length_append]; omega) rfl,
      hdone]
  unfold rawDoubleQuotedString
  rw [hloop]
  have hlt : s.nHashes.toNat < 256 := s.nHashes.toNat_lt
  simp [hlt]

/-- A raw literal ends behind its hashes, whatever follows; then a suffix may be taken. -/
private theorem rawLiteral_text (s : RawText) (prefixLen : Nat) (makeKind : Option UInt8 → LiteralKind)
    {c : Cursor} {rest : List Char} (hrest : c.rest = s.text ++ rest) : rawLiteral prefixLen makeKind c =
      (.literal (makeKind (some s.nHashes)) (c.posWithinToken + byteLen s.text),
        eatLiteralSuffix (c.skipTo rest)) := by
  unfold rawLiteral
  rw [rawDoubleQuotedString_text s prefixLen hrest]
  simp only [Except.isOk, Except.toBool, if_pos, Cursor.posWithinToken_skipTo hrest, Except.toOption]

omit [UniLexer] in
/-- A raw string begins, after its letters, with a quote, or with a hash before another hash or a quote. -/
theorem RawText.text_cases (s : RawText) :
    (∃ w, s.text = '"' :: w) ∨ ∃ d w, s.text = '#' :: d :: w ∧ (d = '#' ∨ d = '"') := by
  unfold RawText.text RawText.hashes
  rcases s.nHashes.toNat with _ | _ | n
  · exact Or.inl ⟨_, rfl⟩
  · exact Or.inr ⟨_, _, rfl, Or.inr rfl⟩
  · exact Or.inr ⟨_, _, rfl, Or.inl rfl⟩

theorem parse_rawStr (s : RawText) {c : Cursor} {rest : List Char} (heaten : c.eaten = ['r'])
    (hrest : c.rest = s.text ++ rest) (p : Nat) : parse c p 'r' =
      (some (.literal (.rawStr (some s.nHashes)) (byteLen ('r' :: s.text))),
          eatLiteralSuffix (c.skipTo rest)) := by
  have hpos : c.posWithinToken = 1 := Cursor.posWithinToken_first heaten
  have hfirst : (c.first = '#' ∨ c.first = '"') ∧ ¬(c.first = '#' ∧ isRustIdStart c.second) := by
    rw [Cursor.first_eq, Cursor.second, hrest]
    rcases s.text_cases with ⟨w, hw⟩ | ⟨d, w, hw, hd⟩
    · rw [hw]
      exact ⟨Or.inr rfl, fun h => absurd h.1 (by simp)⟩
    · rw [hw]
      refine ⟨Or.inl rfl, fun h => ?_⟩
      have hstart : isRustIdStart d := h.2
      rcases hd with rfl | rfl <;> rw [UniLexer.isRustIdStart_ascii _ (by decide)] at hstart <;> cases hstart
  unfold parse
  rw [if_neg (by decide), if_pos rfl, if_neg hfirst.2, if_pos hfirst.1, rawLiteral_text s 1 .rawStr hrest, hpos]
  rfl

theorem lexesTo_rawStr (s : RawText) :
    LexesTo ('r' :: s.text) (.literal (.rawStr (some s.nHashes)) (byteLen ('r' :: s.text))) := by
  refine ⟨'r', s.text, rfl, by decide, fun c rest hstop heaten hrest _ => ?_⟩
  rw [parse_rawStr s heaten hrest, eatLiteralSuffix_stop hstop]

theorem lexesTo_rawByteStr (s : RawText) :
    LexesTo ('b' :: 'r' :: s.text) (.literal (.rawByteStr (some s.nHashes)) (byteLen ('b' :: 'r' :: s.text))) := by
  refine ⟨'b', 'r' :: s.text, rfl, by decide, fun c rest hstop heaten hrest _ => ?_⟩
  have hrest' : c.rest = 'r' :: (s.text ++ rest) := hrest
  obtain ⟨hfirst, hbump, hpos⟩ := byteQuote rfl heaten hrest'
  have hsecond : c.second = '"' ∨ c.second = '#' := by
    rw [Cursor.second, hrest']
    rcases s.text_cases with ⟨w, hw⟩ | ⟨d, w, hw, -⟩ <;> rw [hw]
    · exact Or.inl rfl
    · exact Or.inr rfl
  have hlen : byteLen ('b' :: 'r' :: s.text) = 2 + byteLen s.text := by
    rw [byteLen_cons, byteLen_cons, ← Nat.add_assoc]
    rfl
  have hskip := c.skipTo_skipTo (u := ['r']) hrest'
  have hbyte : byteString c =
      (.literal (.rawByteStr (some s.nHashes)) (byteLen ('b' :: 'r' :: s.text)), c.skipTo rest) := by
    unfold byteString
    rw [if_neg (by rw [hfirst]; decide), if_neg (by rw [hfirst]; decide), if_pos ⟨hfirst, hsecond⟩, hbump,
      rawLiteral_text s 2 .rawByteStr (c.skipTo_rest _), hpos, hlen, hskip, eatLiteralSuffix_stop hstop]
  unfold parse
  rw [if_neg (by decide), if_neg (by decide), if_pos rfl, hbyte]

end Reading

end PuralinguaIR
