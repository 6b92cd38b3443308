import PuralinguaIR.Printing

/-!
# Where tokens stand

Every loop of the lexer takes a beginning of the text that is left (`Cursor.Forward`), so each token of a source is
made by one run of `parse` at the place where it stands (`mem_scan`). From this the text of an integer token is
known: the marker of its base, digits and underscores up to the start of the suffix, and the suffix
(`scan_int`).
-/

namespace PuralinguaIR

open Text

/-! ### Texts -/

theorem textOf_suffix (u v : List Char) : textOf (u ++ v) ⟨byteLen u, byteLen u + byteLen v⟩ = some v :=
  slice_of_eq (List.append_nil _).symm rfl rfl

theorem textOf_prefix (u v : List Char) : textOf (u ++ v) ⟨0, byteLen u⟩ = some u :=
  slice_of_eq (Eq.refl ([] ++ u ++ v)) rfl (Nat.zero_add _).symm

theorem textOf_self (u : List Char) : textOf u ⟨0, byteLen u⟩ = some u := by
  simpa using textOf_prefix u []

/-! ### Moving forward -/

/-- The cursor `c'` is the cursor `c` after it has taken a beginning of the text that is left. -/
structure Cursor.Forward (c c' : Cursor) : Prop where
  rest_suffix : c'.rest <:+ c.rest
  eq_skipTo : c' = c.skipTo c'.rest

namespace Cursor.Forward

theorem refl (c : Cursor) : c.Forward c := ⟨List.suffix_refl _, c.skipTo_self.symm⟩

theorem trans {c c' c'' : Cursor} (h : c.Forward c') (h' : c'.Forward c'') : c.Forward c'' := by
  obtain ⟨⟨u, hu⟩, heq⟩ := h
  obtain ⟨⟨v, hv⟩, heq'⟩ := h'
  have hskip := c.skipTo_skipTo (u := u) (v := v) (w := c''.rest) (by rw [hv, hu])
  rw [hv, ← heq, ← heq'] at hskip
  exact ⟨⟨u ++ v, by rw [List.append_assoc, hv, hu]⟩, hskip⟩

theorem skipTo {c : Cursor} {w : List Char} (h : w <:+ c.rest) : c.Forward (c.skipTo w) := ⟨h, rfl⟩

theorem bump (c : Cursor) : c.Forward c.bump := skipTo (List.tail_suffix _)

theorem eatWhile (p : Char → Bool) (c : Cursor) : c.Forward (c.eatWhile p) := skipTo (List.dropWhile_suffix _)

theorem eatUntil (b : Char) (c : Cursor) : c.Forward (c.eatUntil b) := skipTo (List.dropWhile_suffix _)

theorem exists_taken {c c' : Cursor} (h : c.Forward c') : ∃ u, c.rest = u ++ c'.rest := by
  obtain ⟨⟨u, hu⟩, -⟩ := h
  exact ⟨u, hu.symm⟩

/-- The position counts what has been taken. -/
theorem posWithinToken {c c' : Cursor} (h : c.Forward c') {u : List Char} (hu : c.rest = u ++ c'.rest) :
    c'.posWithinToken = c.posWithinToken + byteLen u := by
  rw [h.eq_skipTo]
  exact Cursor.posWithinToken_skipTo hu

theorem bumpBytes (n : Nat) (c : Cursor) : c.Forward (c.bumpBytes n) := by
  unfold Cursor.bumpBytes
  split
  · rename_i before rest' hsplit
    exact skipTo (splitAtByte_suffix hsplit)
  · exact refl c

end Cursor.Forward

/-- The character a cursor shows stands there, unless it is the one shown at the end. -/
theorem Cursor.rest_of_first {c : Cursor} {x : Char} (h : c.first = x) (hx : x ≠ eofChar) :
    c.rest = x :: c.bump.rest := by
  rw [Cursor.first_eq] at h
  cases hc : c.rest with
  | nil =>
    rw [hc] at h
    exact absurd h.symm hx
  | cons y ys =>
    rw [hc] at h
    rw [c.bump_eq hc, ← h]
    rfl

/-! ### The loops -/

theorem blockCommentLoop_suffix (depth : Nat) (cs : List Char) : (blockCommentLoop depth cs).2 <:+ cs := by
  fun_induction blockCommentLoop depth cs with
  | case1 depth => exact List.suffix_refl _
  | case2 depth cs ih => exact ih.trans (List.suffix_append ['/', '*'] cs)
  | case3 depth cs _ => exact List.suffix_append ['*', '/'] cs
  | case4 depth cs _ ih => exact ih.trans (List.suffix_append ['*', '/'] cs)
  | case5 depth c cs _ _ ih => exact ih.trans (List.suffix_cons c cs)

theorem singleQuotedLoop_suffix (cs : List Char) : (singleQuotedLoop cs).2 <:+ cs := by
  fun_induction singleQuotedLoop cs with
  | case1 => exact List.suffix_refl _
  | case2 cs => exact List.suffix_cons _ cs
  | case3 cs => exact List.suffix_refl _
  | case4 cs _ => exact List.suffix_refl _
  | case5 cs _ ih => exact ih.trans (List.suffix_cons _ cs)
  | case6 => exact List.nil_suffix
  | case7 c cs ih => exact ih.trans (List.suffix_append ['\\', c] cs)
  | case8 c cs _ _ _ _ _ ih => exact ih.trans (List.suffix_cons c cs)

theorem doubleQuotedLoop_suffix (cs : List Char) : (doubleQuotedLoop cs).2 <:+ cs := by
  fun_induction doubleQuotedLoop cs with
  | case1 => exact List.suffix_refl _
  | case2 cs => exact List.suffix_cons _ cs
  | case3 cs ih => exact ih.trans (List.suffix_append ['\\', '\\'] cs)
  | case4 cs ih => exact ih.trans (List.suffix_append ['\\', '"'] cs)
  | case5 c cs _ _ _ ih => exact ih.trans (List.suffix_cons c cs)

theorem eatHashes_suffix (limit : Nat) (cs : List Char) : (eatHashes limit cs).2 <:+ cs := by
  fun_induction eatHashes limit cs with
  | case1 limit cs n rest' heq ih =>
    rw [heq] at ih
    exact ih.trans (List.suffix_cons _ cs)
  | case2 limit cs _ => exact List.suffix_refl _

theorem eatDigits_suffix (isDigit : Char → Bool) (b : Bool) (cs : List Char) :
    (eatDigits isDigit b cs).2 <:+ cs := by
  fun_induction eatDigits isDigit b cs with
  | case1 b => exact List.suffix_refl _
  | case2 b cs ih => exact ih.trans (List.suffix_cons _ cs)
  | case3 b c cs _ _ ih => exact ih.trans (List.suffix_cons c cs)
  | case4 b c cs _ _ => exact List.suffix_refl _

/-! ### Comments, strings and digits -/

theorem lineComment_forward (c : Cursor) : c.Forward (lineComment c).2 :=
  (Cursor.Forward.bump c).trans (Cursor.Forward.eatUntil _ _)

theorem blockComment_forward (c : Cursor) : c.Forward (blockComment c).2 :=
  (Cursor.Forward.bump c).trans (Cursor.Forward.skipTo (blockCommentLoop_suffix _ _))

theorem singleQuotedString_forward (c : Cursor) : c.Forward (singleQuotedString c).2 := by
  unfold singleQuotedString
  split
  · exact (Cursor.Forward.bump c).trans (.bump _)
  · exact .skipTo (singleQuotedLoop_suffix _)

theorem doubleQuotedString_forward (c : Cursor) : c.Forward (doubleQuotedString c).2 :=
  .skipTo (doubleQuotedLoop_suffix _)

theorem rawStringLoop_forward {prefixLen startPos n fuel maxHashes : Nat} {offset : Option Nat} (c : Cursor) :
    c.Forward (rawStringLoop prefixLen startPos n fuel maxHashes offset c).2 := by
  induction fuel generalizing maxHashes offset c with
  | zero => exact .refl c
  | succ fuel ih =>
    have hquote : c.Forward (c.eatUntil '"').bump := (Cursor.Forward.eatUntil _ c).trans (.bump _)
    have hhashes := hquote.trans (.skipTo (eatHashes_suffix n _))
    rw [rawStringLoop]
    dsimp only
    split
    · exact .eatUntil _ c
    split
    · exact hhashes
    split
    · exact hhashes.trans (ih _)
    · exact hhashes.trans (ih _)

theorem rawStringUnvalidated_forward (c : Cursor) (prefixLen : Nat) :
    c.Forward (rawStringUnvalidated c prefixLen).2 := by
  have hhashes : c.Forward (c.skipTo (eatHashes c.rest.length c.rest).2) := .skipTo (eatHashes_suffix _ _)
  unfold rawStringUnvalidated
  dsimp only
  split
  · exact (hhashes.trans (.bump _)).trans (rawStringLoop_forward _)
  · exact hhashes.trans (.bump _)

theorem rawDoubleQuotedString_forward (c : Cursor) (prefixLen : Nat) :
    c.Forward (rawDoubleQuotedString c prefixLen).2 := by
  have h := rawStringUnvalidated_forward c prefixLen
  unfold rawDoubleQuotedString
  split
  · rename_i heq
    rwa [heq] at h
  · rename_i heq
    rw [heq] at h
    split <;> exact h

theorem eatDecimalDigits_forward (c : Cursor) :
    c.Forward (eatDecimalDigits c).2 := .skipTo (eatDigits_suffix _ _ _)

theorem eatHexadecimalDigits_forward (c : Cursor) : c.Forward (eatHexadecimalDigits c).2 :=
  .skipTo (eatDigits_suffix _ _ _)

theorem eatFloatExponent_forward (c : Cursor) : c.Forward (eatFloatExponent c).2 := by
  unfold eatFloatExponent
  split
  · exact (Cursor.Forward.bump c).trans (eatDecimalDigits_forward _)
  · exact eatDecimalDigits_forward c

/-! ### The readers of one token -/

section Readers

variable [UniLexer]

theorem eatIdentifier_forward (c : Cursor) : c.Forward (eatIdentifier c) := by
  unfold eatIdentifier
  split
  · exact (Cursor.Forward.bump c).trans (Cursor.Forward.eatWhile _ _)
  · exact .refl c

theorem rawIdentifier_forward (c : Cursor) : c.Forward (rawIdentifier c).2 :=
  (Cursor.Forward.bump c).trans (eatIdentifier_forward _)

theorem invalidIdentifier_forward (c : Cursor) : c.Forward (invalidIdentifier c).2 := Cursor.Forward.eatWhile _ c

theorem identifierOrUnknownPrefix_forward (c : Cursor) : c.Forward (identifierOrUnknownPrefix c).2 := by
  have hname : c.Forward (c.eatWhile isXidContinue) := .eatWhile _ c
  unfold identifierOrUnknownPrefix
  dsimp only
  split
  · exact hname
  split
  · exact hname.trans (invalidIdentifier_forward _)
  · exact hname

theorem quotedLiteral_forward {body : Cursor → Bool × Cursor} (hbody : ∀ c : Cursor, c.Forward (body c).2)
    (makeKind : Bool → LiteralKind) (c : Cursor) : c.Forward (quotedLiteral body makeKind c).2 := by
  unfold quotedLiteral
  dsimp only
  split
  · exact (hbody c).trans (eatIdentifier_forward _)
  · exact hbody c

theorem rawLiteral_forward (prefixLen : Nat) (makeKind : Option UInt8 → LiteralKind) (c : Cursor) :
    c.Forward (rawLiteral prefixLen makeKind c).2 := by
  unfold rawLiteral
  dsimp only
  split
  · exact (rawDoubleQuotedString_forward c _).trans (eatIdentifier_forward _)
  · exact rawDoubleQuotedString_forward c _

theorem byteString_forward (c : Cursor) : c.Forward (byteString c).2 := by
  unfold byteString
  split
  · exact (Cursor.Forward.bump c).trans (quotedLiteral_forward singleQuotedString_forward _ _)
  split
  · exact (Cursor.Forward.bump c).trans (quotedLiteral_forward doubleQuotedString_forward _ _)
  split
  · exact (Cursor.Forward.bump c).trans (rawLiteral_forward _ _ _)
  · exact identifierOrUnknownPrefix_forward c

theorem numberTail_forward (base : Base) (c : Cursor) : c.Forward (numberTail base c).2 := by
  have hexponent (c : Cursor) : c.Forward (eatFloatExponent c.bump).2 :=
    (Cursor.Forward.bump c).trans (eatFloatExponent_forward _)
  have hfraction : c.Forward (eatDecimalDigits c.bump).2 :=
    (Cursor.Forward.bump c).trans (eatDecimalDigits_forward _)
  unfold numberTail
  dsimp only
  split
  · split
    · split
      · exact hfraction.trans (hexponent _)
      · exact hfraction
    · exact .bump c
  split
  · exact hexponent c
  · exact .refl c

theorem prefixedNumber_forward (base : Base) {eat : Cursor → Bool × Cursor}
    (heat : ∀ c : Cursor, c.Forward (eat c).2) (c : Cursor) : c.Forward (prefixedNumber base eat c).2 := by
  have hdigits : c.Forward (eat c.bump).2 := (Cursor.Forward.bump c).trans (heat _)
  unfold prefixedNumber
  dsimp only
  split
  · exact hdigits.trans (numberTail_forward base _)
  · exact hdigits

theorem number_forward (c : Cursor) (firstDigit : Char) : c.Forward (number c firstDigit).2 := by
  have hdecimal : c.Forward (numberTail .decimal (eatDecimalDigits c).2).2 :=
    (eatDecimalDigits_forward c).trans (numberTail_forward _ _)
  unfold number
  split
  · split
    · exact prefixedNumber_forward _ eatDecimalDigits_forward c
    split
    · exact prefixedNumber_forward _ eatDecimalDigits_forward c
    split
    · exact prefixedNumber_forward _ eatHexadecimalDigits_forward c
    split
    · exact hdecimal
    split
    · exact numberTail_forward _ c
    · exact .refl c
  · exact hdecimal

/-- Reading a token takes a beginning of the text that is left. -/
theorem parse_forward (c : Cursor) (prevPos : Nat) (firstChar : Char) :
    c.Forward (parse c prevPos firstChar).2 := by
  unfold parse
  dsimp only
  split
  · split
    · exact lineComment_forward c
    split
    · exact blockComment_forward c
    · exact .refl c
  split
  · split
    · exact rawIdentifier_forward c
    split
    · exact rawLiteral_forward 1 .rawStr c
    · exact identifierOrUnknownPrefix_forward c
  split
  · exact byteString_forward c
  split
  · exact identifierOrUnknownPrefix_forward c
  split
  · exact (number_forward c _).trans (eatIdentifier_forward _)
  split
  · exact .bump c
  split
  · exact quotedLiteral_forward singleQuotedString_forward .char c
  split
  · exact quotedLiteral_forward doubleQuotedString_forward .str c
  split
  · exact .bumpBytes _ c
  split
  · exact invalidIdentifier_forward c
  · exact .refl c

/-! ### The driver -/

/-- Each token begins where the one before it ends. -/
theorem scanToken_forward (before : List Char) (first : Char) (rest : List Char) :
    ∃ u, rest = u ++ (scanToken (before ++ first :: rest) (byteLen before) first rest).2 ∧
      (scanToken (before ++ first :: rest) (byteLen before) first rest).1.span =
        ⟨byteLen before, byteLen before + byteLen (first :: u)⟩ := by
  unfold scanToken
  split
  · exact ⟨[], rfl, rfl⟩
  · have hforward := parse_forward ⟨before ++ first :: rest, byteLen before, [first], rest⟩ (byteLen before) first
    obtain ⟨u, hu⟩ := hforward.exists_taken
    refine ⟨u, hu, ?_⟩
    dsimp only
    rw [hforward.posWithinToken hu, Cursor.posWithinToken_first rfl]
    rfl

private theorem mem_scanFrom {src : List Char} {fuel : Nat} {before cs : List Char} (hsrc : src = before ++ cs)
    {tk : TokenInfo} (htk : tk ∈ scanFrom src fuel (byteLen before) cs) :
    ∃ before first rest, src = before ++ first :: rest ∧ tk = (scanToken src (byteLen before) first rest).1 := by
  induction fuel generalizing before cs with
  | zero => cases htk
  | succ fuel ih =>
    cases cs with
    | nil => cases htk
    | cons first rest =>
      have hstep : scanFrom src (fuel + 1) (byteLen before) (first :: rest) =
          (scanToken src (byteLen before) first rest).1 ::
            scanFrom src fuel (scanToken src (byteLen before) first rest).1.span.stop
              (scanToken src (byteLen before) first rest).2 := rfl
      rw [hstep, List.mem_cons] at htk
      rcases htk with htk | htk
      · exact ⟨before, first, rest, hsrc, htk⟩
      · obtain ⟨u, hu, hspan⟩ := scanToken_forward before first rest
        rw [← hsrc] at hu hspan
        rw [hspan, ← byteLen_append] at htk
        refine ih (hsrc.trans ?_) htk
        rw [List.append_assoc]
        exact congrArg (fun r => before ++ first :: r) hu

/-- Each token of a source is read at the place where it stands. -/
theorem mem_scan {src : List Char} {tk : TokenInfo} (htk : tk ∈ scan src) :
    ∃ before first rest, src = before ++ first :: rest ∧ tk = (scanToken src (byteLen before) first rest).1 :=
  mem_scanFrom (List.nil_append src).symm htk

/-- The text of a token is what the run of `parse` at its place has taken. -/
theorem scan_text {src : List Char} {tk : TokenInfo} (htk : tk ∈ scan src) :
    ∃ first u, textOf src tk.span = some (first :: u) ∧ (tk.kind = .whiteSpace ∨ ∃ c kind c',
      c.eaten = [first] ∧ c.rest = u ++ c'.rest ∧ parse c c.tokenPos first = (kind, c') ∧
        tk.kind = kind.getD .unknown) := by
  obtain ⟨before, first, rest, hsrc, rfl⟩ := mem_scan htk
  by_cases hws : isWhiteSpaceChar first
  · have hplace : src = before ++ [first] ++ rest := by
      rw [hsrc]
      simp
    rw [scanToken, if_pos hws]
    exact ⟨first, [], slice_of_eq hplace rfl rfl, .inl rfl⟩
  rw [scanToken, if_neg hws]
  generalize hparse : parse ⟨src, byteLen before, [first], rest⟩ (byteLen before) first = r
  obtain ⟨kind, c'⟩ := r
  have hforward := parse_forward ⟨src, byteLen before, [first], rest⟩ (byteLen before) first
  rw [hparse] at hforward
  obtain ⟨u, hu⟩ := hforward.exists_taken
  have hpos : c'.posWithinToken = byteLen (first :: u) := hforward.posWithinToken hu
  have hplace : src = before ++ (first :: u) ++ c'.rest := by
    rw [hsrc, show rest = u ++ c'.rest from hu]
    simp
  exact ⟨first, u, slice_of_eq hplace rfl (congrArg (byteLen before + ·) hpos),
    .inr ⟨_, kind, c', rfl, hu, hparse, rfl⟩⟩

/-- A token that is neither white space nor an unknown character is read by `parse`. -/
theorem scan_parse {src : List Char} {tk : TokenInfo} (htk : tk ∈ scan src) (hws : tk.kind ≠ .whiteSpace)
    (hunknown : tk.kind ≠ .unknown) : ∃ c first u c', c.eaten = [first] ∧ c.rest = u ++ c'.rest ∧
      parse c c.tokenPos first = (some tk.kind, c') ∧ textOf src tk.span = some (first :: u) := by
  obtain ⟨first, u, htext, h | ⟨c, kind, c', heaten, hrest, hparse, hkind⟩⟩ := scan_text htk
  · exact absurd h hws
  · cases kind with
    | none => exact absurd hkind hunknown
    | some kind =>
      obtain rfl : tk.kind = kind := hkind
      exact ⟨c, first, u, c', heaten, hrest, hparse, htext⟩

/-! ### Integers -/

omit [UniLexer] in
private theorem eatDigits_taken (isDigit : Char → Bool) (b : Bool) (cs : List Char) :
    ∃ u, cs = u ++ (eatDigits isDigit b cs).2 ∧ (eatDigits isDigit b cs).1 = (b || u.any (· != '_')) ∧
      ∀ c ∈ u, c = '_' ∨ isDigit c := by
  fun_induction eatDigits isDigit b cs with
  | case1 b => exact ⟨[], rfl, by simp, by simp⟩
  | case2 b cs ih =>
    obtain ⟨u, hu, hany, hdigits⟩ := ih
    exact ⟨'_' :: u, by rw [List.cons_append, ← hu], by simp [hany], by simpa using hdigits⟩
  | case3 b c cs hc hdigit ih =>
    obtain ⟨u, hu, hany, hdigits⟩ := ih
    refine ⟨c :: u, by rw [List.cons_append, ← hu], by simp [hany, hc], fun d hd => ?_⟩
    rcases List.mem_cons.1 hd with rfl | hd
    · exact Or.inr hdigit
    · exact hdigits d hd
  | case4 b c cs _ _ => exact ⟨[], rfl, by simp, by simp⟩

/-- A number that turns out to be an integer ends where its digits end. -/
private theorem numberTail_eq_int {base base' : Base} {emptyInt : Bool} {c c' : Cursor}
    (h : numberTail base c = (.int base' emptyInt, c')) : base' = base ∧ emptyInt = false ∧ c' = c := by
  unfold numberTail at h
  dsimp only at h
  split at h
  · split at h
    · split at h <;> cases h
    · cases h
  split at h
  · cases h
  · cases h
    exact ⟨rfl, rfl, rfl⟩

private theorem prefixedNumber_eq_int {base base' : Base} {emptyInt : Bool} {eat : Cursor → Bool × Cursor}
    {c c' : Cursor} (h : prefixedNumber base eat c = (.int base' emptyInt, c')) :
    base' = base ∧ emptyInt = !(eat c.bump).1 ∧ c' = (eat c.bump).2 := by
  unfold prefixedNumber at h
  dsimp only at h
  split at h
  · rename_i hdigits
    rw [hdigits]
    exact numberTail_eq_int h
  · rename_i hdigits
    cases h
    exact ⟨rfl, by simpa using hdigits, rfl⟩

/-- What has been taken of an integer that begins with `first`: the marker of its base and its digits, if it has
any.
-/
private def IntTaken (first : Char) (base : Base) (emptyInt : Bool) (c c' : Cursor) : Prop :=
  ∃ u ds, c.rest = u ++ c'.rest ∧ first :: u = base.marker ++ ds ∧ emptyInt = !ds.any (· != '_') ∧
    ∀ d ∈ ds, d = '_' ∨ isHexadecimalDigit d

omit [UniLexer] in
private theorem prefixed_taken {m : Char} {base : Base} (hmarker : base.marker = ['0', m]) {isDigit : Char → Bool}
    (hdigit : ∀ c, isDigit c → isHexadecimalDigit c) {c c' : Cursor} (hm : c.first = m) (hne : m ≠ eofChar)
    {emptyInt : Bool} (hempty : emptyInt = !(eatDigits isDigit false c.bump.rest).1)
    (h : c' = c.bump.skipTo (eatDigits isDigit false c.bump.rest).2) : IntTaken '0' base emptyInt c c' := by
  obtain ⟨ds, hds, hany, hdigits⟩ := eatDigits_taken isDigit false c.bump.rest
  have hrest : c.rest = m :: c.bump.rest := Cursor.rest_of_first hm hne
  refine ⟨m :: ds, ds, ?_, by rw [hmarker]; rfl, by rw [hempty, hany, Bool.false_or],
    fun d hd => (hdigits d hd).imp id (hdigit d)⟩
  rw [hrest, hds, h]
  rfl

private theorem number_eq_int {first : Char} (hfirst : isDecimalDigit first) {base : Base} {emptyInt : Bool}
    {c c' : Cursor} (h : number c first = (.int base emptyInt, c')) : IntTaken first base emptyInt c c' := by
  have hhex : ∀ d, isDecimalDigit d → isHexadecimalDigit d := fun d hd => by simp [isHexadecimalDigit, hd]
  have hne : (first != '_') = true := by
    rw [bne_iff_ne]
    rintro rfl
    exact absurd hfirst (by decide)
  have hdecimal (h : numberTail .decimal (eatDecimalDigits c).2 = (.int base emptyInt, c')) :
      IntTaken first base emptyInt c c' := by
    obtain ⟨rfl, rfl, rfl⟩ := numberTail_eq_int h
    obtain ⟨u, hu, -, hdigits⟩ := eatDigits_taken isDecimalDigit false c.rest
    refine ⟨u, first :: u, hu, rfl, by simp [hne], fun d hd => ?_⟩
    rcases List.mem_cons.1 hd with rfl | hd
    · exact Or.inr (hhex d hfirst)
    · exact (hdigits d hd).imp id (hhex d)
  -- one digit, with nothing taken after it
  have halone : IntTaken first .decimal false c c :=
    ⟨[], [first], rfl, rfl, by simp [hne], fun d hd => Or.inr (List.mem_singleton.1 hd ▸ hhex first hfirst)⟩
  unfold number at h
  split at h
  · rename_i hzero
    subst hzero
    split at h
    · rename_i hm
      obtain ⟨rfl, hempty, hc'⟩ := prefixedNumber_eq_int h
      exact prefixed_taken rfl hhex hm (by decide) hempty hc'
    split at h
    · rename_i hm
      obtain ⟨rfl, hempty, hc'⟩ := prefixedNumber_eq_int h
      exact prefixed_taken rfl hhex hm (by decide) hempty hc'
    split at h
    · rename_i hm
      obtain ⟨rfl, hempty, hc'⟩ := prefixedNumber_eq_int h
      exact prefixed_taken rfl (fun d hd => hd) hm (by decide) hempty hc'
    split at h
    · exact hdecimal h
    split at h
    · obtain ⟨rfl, rfl, rfl⟩ := numberTail_eq_int h
      exact halone
    · cases h
      exact halone
  · exact hdecimal h

private theorem identifierOrUnknownPrefix_ne_literal (c : Cursor) (kind : LiteralKind) (suffixStart : Nat) :
    (identifierOrUnknownPrefix c).1 ≠ .literal kind suffixStart := by
  unfold identifierOrUnknownPrefix
  dsimp only
  split
  · nofun
  split <;> nofun

/-- The readers that make literals. -/
theorem parse_eq_literal {c c' : Cursor} {prevPos : Nat} {first : Char} {kind : LiteralKind} {suffixStart : Nat}
    (h : parse c prevPos first = (some (.literal kind suffixStart), c')) :
    (first = 'r' ∧ (c.first = '#' ∨ c.first = '"') ∧ rawLiteral 1 .rawStr c = (.literal kind suffixStart, c')) ∨
    (first = 'b' ∧ byteString c = (.literal kind suffixStart, c')) ∨
    (isDecimalDigit first ∧ ∃ c₁, number c first = (kind, c₁) ∧ suffixStart = c₁.posWithinToken ∧
      c' = eatLiteralSuffix c₁) ∨
    (first = '\'' ∧ char c = (.literal kind suffixStart, c')) ∨
    (first = '"' ∧ quotedLiteral doubleQuotedString .str c = (.literal kind suffixStart, c')) := by
  have hread {r : TokenKind × Cursor} (h : (some r.1, r.2) = (some (TokenKind.literal kind suffixStart), c')) :
      r = (.literal kind suffixStart, c') :=
    Prod.ext (Option.some.inj (Prod.mk.inj h).1) (Prod.mk.inj h).2
  have hname {c : Cursor} (h : (some (identifierOrUnknownPrefix c).1, (identifierOrUnknownPrefix c).2) =
      (some (TokenKind.literal kind suffixStart), c')) : False :=
    identifierOrUnknownPrefix_ne_literal c kind suffixStart (congrArg Prod.fst (hread h))
  unfold parse at h
  dsimp only at h
  split at h
  · split at h
    · cases h
    split at h <;> cases h
  split at h
  · rename_i hr
    split at h
    · cases h
    split at h
    · rename_i hnext
      exact .inl ⟨hr, hnext, hread h⟩
    · exact (hname h).elim
  split at h
  · rename_i hb
    exact .inr (.inl ⟨hb, hread h⟩)
  split at h
  · exact (hname h).elim
  split at h
  · rename_i hdigit
    obtain ⟨hkind, hc'⟩ := Prod.mk.inj h
    obtain ⟨hkind, hstart⟩ := TokenKind.literal.inj (Option.some.inj hkind)
    exact .inr (.inr (.inl ⟨hdigit, (number c first).2, Prod.ext hkind rfl, hstart.symm, hc'.symm⟩))
  split at h
  · cases h
  split at h
  · rename_i hquote
    exact .inr (.inr (.inr (.inl ⟨hquote, hread h⟩)))
  split at h
  · rename_i hquote
    exact .inr (.inr (.inr (.inr ⟨hquote, hread h⟩)))
  split at h
  · cases h
  split at h <;> cases h

/-- What `byteString` reads, when it is a literal. -/
theorem byteString_eq_literal {c c' : Cursor} {kind : LiteralKind} {suffixStart : Nat}
    (h : byteString c = (.literal kind suffixStart, c')) :
    (c.first = '\'' ∧ quotedLiteral singleQuotedString .byte c.bump = (.literal kind suffixStart, c')) ∨
    (c.first = '"' ∧ quotedLiteral doubleQuotedString .byteStr c.bump = (.literal kind suffixStart, c')) ∨
    (c.first = 'r' ∧ (c.second = '"' ∨ c.second = '#') ∧
      rawLiteral 2 .rawByteStr c.bump = (.literal kind suffixStart, c')) := by
  unfold byteString at h
  split at h
  · rename_i hquote
    exact .inl ⟨hquote, h⟩
  split at h
  · rename_i hquote
    exact .inr (.inl ⟨hquote, h⟩)
  split at h
  · rename_i hr
    exact .inr (.inr ⟨hr.1, hr.2, h⟩)
  · exact absurd (congrArg Prod.fst h) (identifierOrUnknownPrefix_ne_literal c kind suffixStart)

/-- Only a number is an integer. -/
theorem parse_eq_int {c c' : Cursor} {prevPos : Nat} {first : Char} {base : Base} {emptyInt : Bool}
    {suffixStart : Nat} (h : parse c prevPos first = (some (.literal (.int base emptyInt) suffixStart), c')) :
    isDecimalDigit first ∧ ∃ c₁, number c first = (.int base emptyInt, c₁) ∧
      suffixStart = c₁.posWithinToken ∧ c' = eatLiteralSuffix c₁ := by
  rcases parse_eq_literal h with ⟨-, -, h⟩ | ⟨-, h⟩ | h | ⟨-, h⟩ | ⟨-, h⟩
  · cases h
  · rcases byteString_eq_literal h with ⟨-, h⟩ | ⟨-, h⟩ | ⟨-, -, h⟩ <;> cases h
  · exact h
  · cases h
  · cases h

/-- The text of an integer token: the marker of its base, its digits, and the suffix. -/
theorem scan_int {src : List Char} {tk : TokenInfo} (htk : tk ∈ scan src) {base : Base} {emptyInt : Bool}
    {suffixStart : Nat} (hkind : tk.kind = .literal (.int base emptyInt) suffixStart) :
    ∃ digits suffix, textOf src tk.span = some (base.marker ++ digits ++ suffix) ∧
      suffixStart = byteLen (base.marker ++ digits) ∧ emptyInt = !digits.any (· != '_') ∧
        ∀ d ∈ digits, d = '_' ∨ isHexadecimalDigit d := by
  obtain ⟨c, first, u, c', heaten, hrest, hparse, htext⟩ := scan_parse htk (by simp [hkind]) (by simp [hkind])
  rw [hkind] at hparse
  obtain ⟨hdigit, c₁, hnumber, hstart, hc'⟩ := parse_eq_int hparse
  obtain ⟨v, ds, hv, hds, hempty, hdigits⟩ := number_eq_int hdigit hnumber
  have hforward₁ := number_forward c first
  rw [hnumber] at hforward₁
  have hforward₂ : c₁.Forward c' := hc' ▸ eatIdentifier_forward c₁
  obtain ⟨suffix, hsuffix⟩ := hforward₂.exists_taken
  have hpos₁ : c₁.posWithinToken = byteLen (first :: v) := by
    rw [hforward₁.posWithinToken hv, Cursor.posWithinToken_first heaten, byteLen_cons]
  have hu : u = v ++ suffix := by
    rw [hrest, hsuffix, ← List.append_assoc] at hv
    exact List.append_cancel_right hv
  refine ⟨ds, suffix, ?_, by rw [hstart, hpos₁, hds], hempty, hdigits⟩
  rw [htext, hu, ← hds, List.cons_append]

omit [UniLexer] in
/-- Editing keeps the text of a token, and its kind unless it becomes a keyword. -/
theorem edit_eq_some {src : List Char} {tk tk' : TokenInfo} (h : edit src tk = some tk') :
    tk'.span = tk.span ∧ (tk' = tk ∨ (∃ k, tk'.kind = .keyword k) ∨ ∃ k, tk'.kind = .statementKeyword k) := by
  obtain ⟨kind, span⟩ := tk
  unfold edit at h
  by_cases hident : kind = .identifier
  · -- an identifier stays one or becomes a keyword
    subst hident
    dsimp only at h
    rw [if_pos rfl] at h
    cases hkeyword : Keyword.tryFrom (String.ofList ((textOf src span).getD [])) with
    | some k =>
      rw [hkeyword] at h
      cases h
      exact ⟨rfl, .inr (.inl ⟨k, rfl⟩)⟩
    | none =>
      cases hstatement : StatementKeyword.tryFrom (String.ofList ((textOf src span).getD [])) with
      | some k =>
        rw [hkeyword, hstatement] at h
        cases h
        exact ⟨rfl, .inr (.inr ⟨k, rfl⟩)⟩
      | none =>
        rw [hkeyword, hstatement] at h
        cases h
        exact ⟨rfl, .inl rfl⟩
  · have hsame : tk' = ⟨kind, span⟩ := by
      simp only [if_neg hident] at h
      cases kind <;> first | exact (Option.some.inj h).symm | cases h
    exact ⟨congrArg TokenInfo.span hsame, .inl hsame⟩

/-- Editing makes no tokens but keywords. -/
theorem mem_scan_of_mem_lex {src : List Char} {tk : TokenInfo} (htk : tk ∈ lex src)
    (hkeyword : ∀ k, tk.kind ≠ .keyword k) (hstatement : ∀ k, tk.kind ≠ .statementKeyword k) : tk ∈ scan src := by
  obtain ⟨tk₀, hmem, hedit⟩ := List.mem_filterMap.1 htk
  obtain ⟨-, rfl | ⟨k, hk⟩ | ⟨k, hk⟩⟩ := edit_eq_some hedit
  · exact hmem
  · exact absurd hk (hkeyword k)
  · exact absurd hk (hstatement k)

/-- Every token covers a part of its source. -/
theorem lex_text {src : List Char} {tk : TokenInfo} (htk : tk ∈ lex src) :
    ∃ first u, textOf src tk.span = some (first :: u) := by
  obtain ⟨tk₀, hmem, hedit⟩ := List.mem_filterMap.1 htk
  obtain ⟨first, u, htext, -⟩ := scan_text hmem
  exact ⟨first, u, (edit_eq_some hedit).1 ▸ htext⟩

end Readers

end PuralinguaIR
