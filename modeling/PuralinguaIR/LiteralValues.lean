import Mathlib.Logic.Function.Iterate
import PuralinguaIR.LexRoundTrip
import PuralinguaIR.LiteralTexts
import PuralinguaIR.Words

/-!
# Values of literals

The values of char, string, byte and byte string tokens are cut out of their texts between the quotes. For a raw
string this is its content, whatever stands behind it (`StringToken.getValue_rawStr`); the readers of bytes
begin at the opening quote instead (`LoadableContent.parse_bytes_ne`).
-/

namespace PuralinguaIR

open Text Effect Effect.Prog Reading

section Values

variable [UniParser]

/-- The text of a quoted literal between the byte 1 and the byte before the suffix, if it can be unescaped. -/
def unescapedText (tk : TokenInfo) (terminated : Bool) (suffixStart : Nat) : Parser (Option (List Char)) := do
  assert terminated
  let s ← sliceOrPanic (← tokenText tk) 1 (← subOrPanic suffixStart 1)
  pure (toUnescaped s)

def CharToken.getValue (tk : TokenInfo) : Parser (Option Char) :=
  match tk.kind with
  | .literal (.char terminated) suffixStart => do
    pure ((← unescapedText tk terminated suffixStart).bind List.head?)
  | _ => pure none

def StringToken.getValue (tk : TokenInfo) : Parser (Option String) :=
  match tk.kind with
  | .literal (.str terminated) suffixStart => do
    pure ((← unescapedText tk terminated suffixStart).map String.ofList)
  | .literal (.rawStr nHashes) suffixStart => do
    let n := (nHashes.getD 0).toNat
    let stop ← subOrPanic suffixStart (1 + n)
    let s ← sliceOrPanic (← tokenText tk) (2 + n) stop
    pure (some (String.ofList s))
  | _ => pure none

def ByteToken.getValue (tk : TokenInfo) : Parser (Option UInt8) :=
  match tk.kind with
  | .literal (.byte terminated) suffixStart => do
    pure ((← unescapedText tk terminated suffixStart).bind fun s => (utf8Bytes s).head?)
  | _ => pure none

def ByteStringToken.getValue (tk : TokenInfo) : Parser (Option (List UInt8)) :=
  match tk.kind with
  | .literal (.byteStr terminated) suffixStart => do
    pure ((← unescapedText tk terminated suffixStart).map utf8Bytes)
  | .literal (.rawByteStr nHashes) suffixStart => do
    let n := (nHashes.getD 0).toNat
    let stop ← subOrPanic suffixStart (1 + n)
    let s ← sliceBytesOrPanic (utf8Bytes (← tokenText tk)) (2 + n) stop
    pure (some s)
  | _ => pure none

end Values

/-! ### Hyphens -/

/-- What has been written before a literal, after one more hyphen. -/
def negate (isNegative : Option Bool) : Option Bool := some (!isNegative.getD false)

/-- An odd number of hyphens is a sign. -/
theorem negate_iterate (k : Nat) : negate^[k] none = some true ↔ k % 2 = 1 := by
  have hstep (k : Nat) : negate^[k + 1] none = some (decide (k % 2 = 0)) := by
    induction k with
    | zero => rfl
    | succ k ih =>
      rw [Function.iterate_succ_apply', ih]
      have : (k + 1) % 2 = 0 ↔ ¬k % 2 = 0 := by omega
      simp only [negate, Option.getD_some, this, decide_not]
  cases k with
  | zero => simp
  | succ k =>
    rw [hstep]
    simp only [Option.some.injEq, decide_eq_true_eq]
    omega

section Hyphens

variable [UniParser]

namespace LoadableContent

private theorem parseDepth_hyphens {hyphens more : List TokenInfo} {tk : TokenInfo}
    (hhyphens : ∀ h ∈ hyphens, h.kind = .specialChar .hyphen) {kind : LiteralKind} {suffixStart : Nat}
    (hkind : tk.kind = .literal kind suffixStart) (tyGenerics methodGenerics : List Identifier) {depth : Nat}
    (hdepth : hyphens.length < depth) {st : ParseStream} (hrest : st.rest = hyphens ++ tk :: more)
    (isNegative : Option Bool) : parseDepth tyGenerics methodGenerics depth isNegative st =
      ofLiteral tk kind suffixStart (negate^[hyphens.length] isNegative) (st.skip (hyphens.length + 1)) := by
  induction hyphens generalizing depth st isNegative with
  | nil =>
    obtain ⟨depth, rfl⟩ := Nat.exists_eq_succ_of_ne_zero (Nat.ne_of_gt hdepth)
    refine (bind_of_ok (consume_run hrest)).trans ?_
    simp only [hkind]
    rfl
  | cons h hyphens ih =>
    obtain ⟨depth, rfl⟩ := Nat.exists_eq_succ_of_ne_zero (Nat.ne_of_gt (Nat.zero_lt_of_lt hdepth))
    refine (bind_of_ok (consume_run hrest)).trans ?_
    simp only [hhyphens h List.mem_cons_self]
    have hrest' : (st.skip 1).rest = hyphens ++ tk :: more := TokenStream.rest_skip_of_cons hrest
    have hhyphens' : ∀ h ∈ hyphens, h.kind = .specialChar .hyphen := fun h' hh =>
      hhyphens h' (List.mem_cons_of_mem h hh)
    refine (ih hhyphens' (Nat.lt_of_succ_lt_succ hdepth) hrest' _).trans ?_
    rw [TokenStream.skip_skip, List.length_cons, Nat.add_comm 1, Function.iterate_succ_apply]
    rfl

/-- Hyphens before a literal are counted. -/
theorem parse_hyphens {hyphens more : List TokenInfo} {tk : TokenInfo}
    (hhyphens : ∀ h ∈ hyphens, h.kind = .specialChar .hyphen) {kind : LiteralKind} {suffixStart : Nat}
    (hkind : tk.kind = .literal kind suffixStart) (tyGenerics methodGenerics : List Identifier) {st : ParseStream}
    (hrest : st.rest = hyphens ++ tk :: more) : parse none tyGenerics methodGenerics st =
      ofLiteral tk kind suffixStart (negate^[hyphens.length] none) (st.skip (hyphens.length + 1)) := by
  have hdepth : hyphens.length < st.rest.length + 1 := by
    rw [hrest, List.length_append]
    omega
  exact parseDepth_hyphens hhyphens hkind tyGenerics methodGenerics hdepth hrest none

variable [UniLexer]

/-- A literal at the beginning of a source is loaded as what its token stands for. -/
theorem parse_literal {src : List Char} {kind : LiteralKind} {suffixStart : Nat} {span : Span}
    {more : List TokenInfo}
    (hlex : lex src = ⟨.literal kind suffixStart, span⟩ :: more) (tyGenerics methodGenerics : List Identifier) :
    parse none tyGenerics methodGenerics ⟨src, lex src, 0⟩ =
      ofLiteral ⟨.literal kind suffixStart, span⟩ kind suffixStart none ⟨src, lex src, 1⟩ := by
  have hrest : (⟨src, lex src, 0⟩ : ParseStream).rest = _ := hlex
  exact parse_hyphens (List.forall_mem_nil _) rfl tyGenerics methodGenerics hrest

end LoadableContent

end Hyphens

/-! ### Raw strings -/

theorem byteLen_hashed (n : Nat) (content : List Char) :
    byteLen (hashed n content) = byteLen content + 2 + 2 * n := by
  have hquote : '"'.utf8Size = 1 := rfl
  simp only [hashed, byteLen_append, byteLen_cons, byteLen_hashes, hquote]
  omega

theorem subOrPanic_hashed (w : List Char) (n : Nat) (content : List Char) (st : ParseStream) :
    subOrPanic (byteLen (w ++ hashed n content)) (1 + n) st =
      (.ok (byteLen (w ++ hashed n content) - (1 + n)), st) := by
  refine subOrPanic_run ?_
  rw [byteLen_append, byteLen_hashed]
  omega

/-- The content of a raw string stands between its hashes. -/
theorem sliceOrPanic_hashed (n : Nat) (content suffix : List Char) (st : ParseStream) :
    sliceOrPanic ('r' :: hashed n content ++ suffix) (2 + n) (byteLen ('r' :: hashed n content) - (1 + n)) st =
      (.ok content, st) := by
  have hsize : 'r'.utf8Size = 1 ∧ '"'.utf8Size = 1 := ⟨rfl, rfl⟩
  refine sliceOrPanic_run (a := 'r' :: List.replicate n '#' ++ ['"'])
    (c := '"' :: List.replicate n '#' ++ suffix) ?_ ?_ ?_
  · simp [hashed]
  · simp only [byteLen_append, byteLen_cons, byteLen_nil, byteLen_hashes, hsize]
    omega
  · simp only [byteLen_hashed, byteLen_append, byteLen_cons, byteLen_nil, byteLen_hashes, hsize]
    omega

theorem RawText.byteLen_text (s : RawText) : byteLen s.text = byteLen s.content + 2 + 2 * s.nHashes.toNat :=
  byteLen_hashed _ _

section RawStrings

variable [UniParser] {s : RawText} {span : Span} {suffix : List Char} {st : ParseStream}

theorem StringToken.getValue_run (htext : textOf st.source span = some ('r' :: s.text ++ suffix)) :
    getValue ⟨.literal (.rawStr (some s.nHashes)) (byteLen ('r' :: s.text)), span⟩ st =
      (.ok (some (String.ofList s.content)), st) := by
  refine bind_step (subOrPanic_hashed ['r'] _ s.content st) ?_
  refine bind_step (tokenText_run htext) ?_
  exact bind_step (sliceOrPanic_hashed _ s.content suffix st) rfl

theorem LoadableContent.ofLiteral_rawStr {kind : TokenKind}
    (htext : textOf st.source span = some ('r' :: s.text ++ suffix)) :
    ofLiteral ⟨kind, span⟩ (.rawStr (some s.nHashes)) (byteLen ('r' :: s.text)) none st =
      (.ok (.string (String.ofList s.content)), st) := by
  refine bind_step (a := ()) rfl ?_
  refine bind_step (subOrPanic_hashed ['r'] _ s.content st) ?_
  refine bind_step (tokenText_run htext) ?_
  exact bind_step (sliceOrPanic_hashed _ s.content suffix st) rfl

/-- The token of a raw string is a name. -/
theorem nameToken_rawStr {src : List Char} (htext : textOf src span = some ('r' :: s.text ++ suffix)) :
    NameToken src (String.ofList s.content)
      ⟨.literal (.rawStr (some s.nHashes)) (byteLen ('r' :: s.text)), span⟩ := by
  have hlen : byteLen ('r' :: s.text) = byteLen (String.ofList s.content).toList + 3 + 2 * s.nHashes.toNat := by
    rw [String.toList_ofList, byteLen_cons, s.byteLen_text]
    have hletter : 'r'.utf8Size = 1 := rfl
    omega
  rw [hlen]
  have htext' : textOf src span = some ('r' :: (List.replicate s.nHashes.toNat '#' ++ ['"']) ++
      (String.ofList s.content).toList ++ '"' :: (List.replicate s.nHashes.toNat '#' ++ suffix)) := by
    rw [htext, String.toList_ofList]
    simp [RawText.text, RawText.hashes]
  exact NameToken.rawStr s.nHashes htext'

variable [UniLexer]

omit [UniParser] in
/-- A raw string at the beginning of a source is its first token, whatever follows; a suffix may belong to it. -/
theorem lex_rawStr (s : RawText) (t : List Char) : ∃ suffix rest more, t = suffix ++ rest ∧
    lex ('r' :: s.text ++ t) = ⟨.literal (.rawStr (some s.nHashes)) (byteLen ('r' :: s.text)),
      ⟨0, byteLen ('r' :: s.text ++ suffix)⟩⟩ :: more := by
  let c : Cursor := ⟨'r' :: s.text ++ t, 0, ['r'], s.text ++ t⟩
  have hparse : parse c 0 'r' = _ := parse_rawStr s rfl rfl 0
  have hsuffix := eatIdentifier_forward (c.skipTo t)
  obtain ⟨suffix, ht⟩ := hsuffix.exists_taken
  have hpos : (eatLiteralSuffix (c.skipTo t)).posWithinToken = byteLen ('r' :: s.text ++ suffix) := by
    have hforward : c.Forward (eatLiteralSuffix (c.skipTo t)) :=
      (Cursor.Forward.skipTo ⟨s.text, rfl⟩).trans hsuffix
    have htaken : c.rest = (s.text ++ suffix) ++ (eatLiteralSuffix (c.skipTo t)).rest := by
      rw [List.append_assoc]
      exact congrArg (s.text ++ ·) ht
    rw [hforward.posWithinToken htaken, Cursor.posWithinToken_first rfl, List.cons_append, byteLen_cons]
  have hscan : scanToken ('r' :: s.text ++ t) 0 'r' (s.text ++ t) =
      (⟨.literal (.rawStr (some s.nHashes)) (byteLen ('r' :: s.text)), ⟨0, byteLen ('r' :: s.text ++ suffix)⟩⟩,
        (eatLiteralSuffix (c.skipTo t)).rest) := by
    unfold scanToken
    rw [if_neg (by decide), hparse]
    simp only [hpos, Nat.zero_add, Option.getD_some]
  obtain ⟨more, hfirst⟩ : ∃ more, scan ('r' :: s.text ++ t) =
      (scanToken ('r' :: s.text ++ t) 0 'r' (s.text ++ t)).1 :: more := ⟨_, rfl⟩
  refine ⟨suffix, (eatLiteralSuffix (c.skipTo t)).rest, more.filterMap (edit ('r' :: s.text ++ t)), ht, ?_⟩
  rw [lex, hfirst, hscan]
  exact List.filterMap_cons_some (edit_literal _ _ _ _)

/-- A raw string is read as its content by all three readers, whatever follows it. -/
theorem StringToken.getValue_rawStr (s : RawText) (t : List Char) (tyGenerics methodGenerics : List Identifier) :
    let src := 'r' :: s.text ++ t
    let st : ParseStream := ⟨src, lex src, 0⟩
    ∃ stop, let tk : TokenInfo := ⟨.literal (.rawStr (some s.nHashes)) (byteLen ('r' :: s.text)), ⟨0, stop⟩⟩
      (lex src).head? = some tk ∧
        (getValue tk st).1 = .ok (some (String.ofList s.content)) ∧
        (LoadableContent.parse none tyGenerics methodGenerics st).1 = .ok (.string (String.ofList s.content)) ∧
        (Identifier.parse st).1 = .ok ⟨String.ofList s.content⟩ := by
  intro src st
  obtain ⟨suffix, rest, more, ht, hlex⟩ := lex_rawStr s t
  have hlex : lex src = _ := hlex
  have hsrc : src = ('r' :: s.text ++ suffix) ++ rest := by
    rw [List.append_assoc, ← ht]
  have htext : textOf src ⟨0, byteLen ('r' :: s.text ++ suffix)⟩ = some ('r' :: s.text ++ suffix) :=
    hsrc ▸ textOf_prefix _ rest
  have hrest : st.rest = _ := hlex
  refine ⟨byteLen ('r' :: s.text ++ suffix), by rw [hlex]; rfl, ?_, ?_, ?_⟩
  · rw [getValue_run htext]
  · rw [LoadableContent.parse_literal hlex, LoadableContent.ofLiteral_rawStr htext]
  · have hname : NameToken st.source (Identifier.mk (String.ofList s.content)).var _ := nameToken_rawStr htext
    rw [Identifier.parse_run hrest hname]

end RawStrings

/-! ### Bytes -/

@[simp] theorem utf8Bytes_append (u v : List Char) : utf8Bytes (u ++ v) = utf8Bytes u ++ utf8Bytes v :=
  List.flatMap_append

theorem utf8Bytes_cons {c : Char} (h : isAscii c) (cs : List Char) :
    utf8Bytes (c :: cs) = UInt8.ofNat c.toNat :: utf8Bytes cs := by
  have hlt : c.toNat < 128 := of_decide_eq_true h
  have hencode : String.utf8EncodeChar c = [UInt8.ofNat c.toNat] := if_pos (Nat.le_of_lt_succ hlt)
  rw [utf8Bytes, List.flatMap_cons, hencode]
  rfl

theorem length_utf8Bytes (cs : List Char) : (utf8Bytes cs).length = byteLen cs := by
  induction cs with
  | nil => rfl
  | cons c cs ih =>
    rw [utf8Bytes, List.flatMap_cons, List.length_append, String.length_utf8EncodeChar, byteLen_cons]
    exact congrArg (c.utf8Size + ·) ih

theorem sliceBytesOrPanic_run {cs a b c : List Char} {start stop : Nat} {st : ParseStream} (h : cs = a ++ b ++ c)
    (hstart : start = byteLen a) (hstop : stop = byteLen a + byteLen b) :
    sliceBytesOrPanic (utf8Bytes cs) start stop st = (.ok (utf8Bytes b), st) := by
  subst h hstart hstop
  have hbound : byteLen a ≤ byteLen a + byteLen b ∧ byteLen a + byteLen b ≤ (utf8Bytes (a ++ b ++ c)).length := by
    rw [length_utf8Bytes, byteLen_append, byteLen_append]
    omega
  have hdrop : ((utf8Bytes (a ++ b ++ c)).take (byteLen a + byteLen b)).drop (byteLen a) = utf8Bytes b := by
    rw [utf8Bytes_append, utf8Bytes_append, ← length_utf8Bytes, ← length_utf8Bytes, ← List.length_append,
      List.take_left, List.drop_left]
  rw [sliceBytesOrPanic, if_pos hbound, hdrop]
  rfl

/-! ### Bytes read from their quote -/

section Bytes

variable [UniParser] {kind : TokenKind} {span : Span} {st : ParseStream}

section Quoted

variable {x q : Char} {body : List Char}

omit [UniParser] in
theorem subOrPanic_quoted (hx : x.utf8Size = 1) (st : ParseStream) :
    subOrPanic (byteLen (x :: body ++ [q])) 1 st = (.ok (byteLen (x :: body ++ [q]) - 1), st) := by
  refine subOrPanic_run ?_
  rw [List.cons_append, byteLen_cons, hx]
  exact Nat.le_add_right 1 _

omit [UniParser] in
theorem sliceOrPanic_quoted (hx : x.utf8Size = 1) (hq : q.utf8Size = 1) (suffix : List Char) (st : ParseStream) :
    sliceOrPanic (x :: body ++ [q] ++ suffix) 1 (byteLen (x :: body ++ [q]) - 1) st = (.ok body, st) := by
  refine sliceOrPanic_run (a := [x]) (c := q :: suffix) ?_ ?_ ?_
  · simp
  · rw [byteLen_cons, hx]
    rfl
  · simp only [byteLen_append, byteLen_cons, byteLen_nil, hx, hq]
    omega

/-- A quoted literal is read from the character behind its first one, quote or not. -/
theorem unescapedText_run (x q : Char) (body suffix : List Char) (hx : x.utf8Size = 1) (hq : q.utf8Size = 1)
    (htext : textOf st.source span = some (x :: body ++ [q] ++ suffix)) :
    unescapedText ⟨kind, span⟩ true (byteLen (x :: body ++ [q])) st = (.ok (toUnescaped body), st) := by
  refine bind_step (a := ()) rfl ?_
  refine bind_step (tokenText_run htext) ?_
  refine bind_step (subOrPanic_quoted hx st) ?_
  exact bind_step (sliceOrPanic_quoted hx hq suffix st) rfl

theorem LoadableContent.quotedText_run (x q : Char) (body suffix : List Char) (hx : x.utf8Size = 1)
    (hq : q.utf8Size = 1) (htext : textOf st.source span = some (x :: body ++ [q] ++ suffix)) :
    quotedText ⟨kind, span⟩ Bool.true (byteLen (x :: body ++ [q])) none st =
      okOr .unescape (toUnescaped body) st := by
  refine bind_step (a := ()) rfl ?_
  refine bind_step (a := ()) rfl ?_
  refine bind_step (tokenText_run htext) ?_
  refine bind_step (subOrPanic_quoted hx st) ?_
  exact bind_step (sliceOrPanic_quoted hx hq suffix st) rfl

theorem unescapedText_plain (x q : Char) (body : List Char) (hx : x.utf8Size = 1) (hq : q.utf8Size = 1)
    (hbody : '\\' ∉ body) (htext : textOf st.source span = some (x :: body ++ [q])) :
    unescapedText ⟨kind, span⟩ true (byteLen (x :: body ++ [q])) st = (.ok (some body), st) := by
  rw [unescapedText_run x q body [] hx hq (by rwa [List.append_nil]), UniParser.toUnescaped_plain body hbody]

theorem LoadableContent.quotedText_plain (x q : Char) (body : List Char) (hx : x.utf8Size = 1)
    (hq : q.utf8Size = 1) (hbody : '\\' ∉ body) (htext : textOf st.source span = some (x :: body ++ [q])) :
    quotedText ⟨kind, span⟩ Bool.true (byteLen (x :: body ++ [q])) none st = (.ok body, st) := by
  rw [quotedText_run x q body [] hx hq (by rwa [List.append_nil]), UniParser.toUnescaped_plain body hbody]
  rfl

end Quoted

/-- The value of a byte literal is its opening quote. -/
theorem ByteToken.getValue_run {c : Char} (hc : c ≠ '\\')
    (htext : textOf st.source span = some ['b', '\'', c, '\'']) :
    getValue ⟨.literal (.byte true) (byteLen ['b', '\'', c, '\'']), span⟩ st = (.ok (some 39), st) := by
  have hbody : '\\' ∉ ['\'', c] := by
    simpa using hc.symm
  refine bind_step (unescapedText_plain 'b' '\'' ['\'', c] rfl rfl hbody htext) ?_
  rw [Option.bind_some]
  rfl

theorem LoadableContent.ofLiteral_byte {c : Char} (hc : c ≠ '\\')
    (htext : textOf st.source span = some ['b', '\'', c, '\'']) :
    ofLiteral ⟨kind, span⟩ (.byte Bool.true) (byteLen ['b', '\'', c, '\'']) none st = (.ok (.byte 39), st) := by
  have hbody : '\\' ∉ ['\'', c] := by
    simpa using hc.symm
  exact bind_step (quotedText_plain 'b' '\'' ['\'', c] rfl rfl hbody htext) rfl

/-- The value of a byte string begins with its opening quote. -/
theorem ByteStringToken.getValue_run {s : List Char} (hs : '\\' ∉ s)
    (htext : textOf st.source span = some ('b' :: '"' :: s ++ ['"'])) :
    getValue ⟨.literal (.byteStr true) (byteLen ('b' :: '"' :: s ++ ['"'])), span⟩ st =
      (.ok (some (utf8Bytes ('"' :: s))), st) := by
  have hbody : '\\' ∉ '"' :: s := by
    simpa using hs
  exact bind_step (unescapedText_plain 'b' '"' ('"' :: s) rfl rfl hbody htext) rfl

theorem LoadableContent.ofLiteral_byteStr {s : List Char} (hs : '\\' ∉ s)
    (htext : textOf st.source span = some ('b' :: '"' :: s ++ ['"'])) :
    ofLiteral ⟨kind, span⟩ (.byteStr Bool.true) (byteLen ('b' :: '"' :: s ++ ['"'])) none st =
      (.ok (.byteString (utf8Bytes ('"' :: s))), st) := by
  have hbody : '\\' ∉ '"' :: s := by
    simpa using hs
  exact bind_step (quotedText_plain 'b' '"' ('"' :: s) rfl rfl hbody htext) rfl

omit [UniParser] in
theorem sliceBytesOrPanic_hashed (n : Nat) (content suffix : List Char) (st : ParseStream) :
    sliceBytesOrPanic (utf8Bytes ('b' :: 'r' :: hashed n content ++ suffix)) (2 + n)
      (byteLen ('b' :: 'r' :: hashed n content) - (1 + n)) st = (.ok (utf8Bytes ('"' :: content)), st) := by
  have hsize : 'b'.utf8Size = 1 ∧ 'r'.utf8Size = 1 ∧ '"'.utf8Size = 1 := ⟨rfl, rfl, rfl⟩
  refine sliceBytesOrPanic_run (a := 'b' :: 'r' :: List.replicate n '#')
    (c := '"' :: List.replicate n '#' ++ suffix) ?_ ?_ ?_
  · simp [hashed]
  · simp only [byteLen_cons, byteLen_hashes, hsize]
    omega
  · simp only [byteLen_hashed, byteLen_cons, byteLen_hashes, hsize]
    omega

omit [UniParser] in
private theorem sliceBytesOrPanic_raw (s : RawText) (st : ParseStream) :
    sliceBytesOrPanic (utf8Bytes ('b' :: 'r' :: s.text)) (2 + s.nHashes.toNat)
      (byteLen ('b' :: 'r' :: s.text) - (1 + s.nHashes.toNat)) st = (.ok (utf8Bytes ('"' :: s.content)), st) := by
  have hslice := sliceBytesOrPanic_hashed s.nHashes.toNat s.content [] st
  rwa [List.append_nil] at hslice

/-- The value of a raw byte string begins with its opening quote, too. -/
theorem ByteStringToken.getValue_raw {s : RawText} (htext : textOf st.source span = some ('b' :: 'r' :: s.text)) :
    getValue ⟨.literal (.rawByteStr (some s.nHashes)) (byteLen ('b' :: 'r' :: s.text)), span⟩ st =
      (.ok (some (utf8Bytes ('"' :: s.content))), st) := by
  refine bind_step (subOrPanic_hashed ['b', 'r'] _ s.content st) ?_
  refine bind_step (tokenText_run htext) ?_
  exact bind_step (sliceBytesOrPanic_raw s st) rfl

theorem LoadableContent.ofLiteral_rawByteStr {s : RawText}
    (htext : textOf st.source span = some ('b' :: 'r' :: s.text)) :
    ofLiteral ⟨kind, span⟩ (.rawByteStr (some s.nHashes)) (byteLen ('b' :: 'r' :: s.text)) none st =
      (.ok (.byteString (utf8Bytes ('"' :: s.content))), st) := by
  refine bind_step (a := ()) rfl ?_
  refine bind_step (subOrPanic_hashed ['b', 'r'] _ s.content st) ?_
  refine bind_step (tokenText_run htext) ?_
  exact bind_step (sliceBytesOrPanic_raw s st) rfl

omit [UniParser] in
theorem isEscaped_of_plain {s : List Char} (hescape : '\\' ∉ s) (hquote : '"' ∉ s) : isEscaped s := by
  induction s with
  | nil => rfl
  | cons c cs ih =>
    obtain ⟨hc, hcs⟩ := not_or.1 fun h => hescape (List.mem_cons.2 h)
    obtain ⟨hc', hcs'⟩ := not_or.1 fun h => hquote (List.mem_cons.2 h)
    rw [isEscaped.eq_3 _ _ fun _ _ heq _ => hc heq.symm, ih hcs hcs', Bool.and_true, Bool.and_eq_true, bne_iff_ne,
      bne_iff_ne]
    exact ⟨Ne.symm hc, Ne.symm hc'⟩

variable [UniLexer]

/-- No byte literal, byte string or raw byte string is read as its content. -/
theorem LoadableContent.parse_bytes_ne (tyGenerics methodGenerics : List Identifier) :
    (∀ c : Char, isAscii c → c ≠ '\\' → c ≠ '\'' →
      let src := ['b', '\'', c, '\'']
      let tk : TokenInfo := ⟨.literal (.byte Bool.true) (byteLen src), ⟨0, byteLen src⟩⟩
      lex src = [tk] ∧ (ByteToken.getValue tk ⟨src, lex src, 0⟩).1 ≠ .ok (some (UInt8.ofNat c.toNat)) ∧
        (parse none tyGenerics methodGenerics ⟨src, lex src, 0⟩).1 ≠ .ok (.byte (UInt8.ofNat c.toNat))) ∧
    (∀ s : List Char, '\\' ∉ s → '"' ∉ s →
      let src := 'b' :: '"' :: s ++ ['"']
      let tk : TokenInfo := ⟨.literal (.byteStr Bool.true) (byteLen src), ⟨0, byteLen src⟩⟩
      lex src = [tk] ∧ (ByteStringToken.getValue tk ⟨src, lex src, 0⟩).1 ≠ .ok (some (utf8Bytes s)) ∧
        (parse none tyGenerics methodGenerics ⟨src, lex src, 0⟩).1 ≠ .ok (.byteString (utf8Bytes s))) ∧
    ∀ s : RawText,
      let src := 'b' :: 'r' :: s.text
      let tk : TokenInfo := ⟨.literal (.rawByteStr (some s.nHashes)) (byteLen src), ⟨0, byteLen src⟩⟩
      lex src = [tk] ∧ (ByteStringToken.getValue tk ⟨src, lex src, 0⟩).1 ≠ .ok (some (utf8Bytes s.content)) ∧
        (parse none tyGenerics methodGenerics ⟨src, lex src, 0⟩).1 ≠ .ok (.byteString (utf8Bytes s.content)) := by
  have hne {c : Char} (hascii : isAscii c) (hquote : c ≠ '\'') : 39 ≠ UInt8.ofNat c.toNat := fun h => by
    have hlt : c.toNat < 128 := of_decide_eq_true hascii
    have hmod : 39 = c.toNat % 256 := (congrArg UInt8.toNat h).trans UInt8.toNat_ofNat'
    have hcode : c.toNat = '\''.toNat := by
      rw [Nat.mod_eq_of_lt (by omega)] at hmod
      exact hmod.symm
    exact hquote (Char.toNat_inj.1 hcode)
  have hlonger (s : List Char) : utf8Bytes ('"' :: s) ≠ utf8Bytes s := by
    rw [utf8Bytes_cons (by decide)]
    exact List.cons_ne_self _ _
  refine ⟨fun c hascii hescape hquote => ?_, fun s hescape hquote => ?_, fun s => ?_⟩
  · intro src tk
    have hlex : lex src = [tk] := lex_literal (lexesTo_byte hescape)
    refine ⟨hlex, ?_, ?_⟩
    · rw [ByteToken.getValue_run hescape (textOf_self src)]
      intro h
      exact hne hascii hquote (Option.some.inj (Outcome.ok.inj h))
    · rw [parse_literal hlex, ofLiteral_byte hescape (textOf_self src)]
      intro h
      exact hne hascii hquote (byte.inj (Outcome.ok.inj h))
  · intro src tk
    have hlex : lex src = [tk] := lex_literal (lexesTo_byteStr ⟨s, isEscaped_of_plain hescape hquote⟩)
    refine ⟨hlex, ?_, ?_⟩
    · rw [ByteStringToken.getValue_run hescape (textOf_self src)]
      intro h
      exact hlonger s (Option.some.inj (Outcome.ok.inj h))
    · rw [parse_literal hlex, ofLiteral_byteStr hescape (textOf_self src)]
      intro h
      exact hlonger s (byteString.inj (Outcome.ok.inj h))
  · intro src tk
    have hlex : lex src = [tk] := lex_literal (lexesTo_rawByteStr s)
    refine ⟨hlex, ?_, ?_⟩
    · rw [ByteStringToken.getValue_raw (textOf_self src)]
      intro h
      exact hlonger s.content (Option.some.inj (Outcome.ok.inj h))
    · rw [parse_literal hlex, ofLiteral_rawByteStr (textOf_self src)]
      intro h
      exact hlonger s.content (byteString.inj (Outcome.ok.inj h))

omit [UniParser] [UniLexer] in
theorem LoadableContent.parse_bytes_ne_letter :
    let src := ['b', '\'', 'a', '\'']
    let src' := ['b', '"', 'a', '"']
    (@ByteToken.getValue plainParser ⟨.literal (.byte Bool.true) 4, ⟨0, 4⟩⟩ ⟨src, @lex asciiLexer src, 0⟩).1 ≠
      .ok (some 97) ∧
    (@parse plainParser none [] [] ⟨src', @lex asciiLexer src', 0⟩).1 ≠ .ok (.byteString [97]) := by
  obtain ⟨hbyte, hbytes, -⟩ := @parse_bytes_ne plainParser asciiLexer [] []
  exact ⟨(hbyte 'a' (by decide) (by decide) (by decide)).2.1, (hbytes ['a'] (by decide) (by decide)).2.2⟩

omit [UniParser] [UniLexer] in
/-- `b'a'` is read as the byte of a quote. -/
theorem LoadableContent.parse_bytes_quote :
    let src := ['b', '\'', 'a', '\'']
    let tk : TokenInfo := ⟨.literal (.byte Bool.true) 4, ⟨0, 4⟩⟩
    @lex asciiLexer src = [tk] ∧
      (@ByteToken.getValue plainParser tk ⟨src, @lex asciiLexer src, 0⟩).1 = .ok (some 39) ∧
      (@parse plainParser none [] [] ⟨src, @lex asciiLexer src, 0⟩).1 = .ok (.byte 39) ∧
      utf8Bytes ['a'] = [97] := by
  decide +kernel

end Bytes

end PuralinguaIR
