import PuralinguaIR.IntegerLoads
import PuralinguaIR.Moves

/-!
# Operands that break a run

The parsers of names, numbers and references break at two kinds of tokens only: at a name that is a raw string
cut short (`BadName`), and at an integer whose digits are no number of the type that is read (`BadInteger`). For
each parser an inductive relation says which operands it comes to and where; the parser breaks exactly when one
of them is bad (`typeReference_breaks`, `MethodReference.parse_breaks`).
-/

namespace PuralinguaIR

open Text Effect Effect.Prog Reading

section Operands

variable [UniLexer]

/-! ### Lexed streams -/

/-- A stream over the tokens of its source. -/
def Lexed (st : ParseStream) : Prop := st.tokens = lex st.source

namespace Lexed

theorem new (src : List Char) : Lexed (.new src) := rfl

theorem forward {st st' : ParseStream} (h : Lexed st) (hf : Forward st st') : Lexed st' := by
  rw [Lexed, hf.tokens, hf.source, h]

omit [UniLexer] in
theorem mem {st : ParseStream} {tk : TokenInfo} (hc : st.current = some tk) : tk ∈ st.tokens :=
  List.mem_of_getElem? hc

theorem mem_lex {st : ParseStream} {tk : TokenInfo} (h : Lexed st) (hc : st.current = some tk) :
    tk ∈ lex st.source :=
  h ▸ mem hc

end Lexed

/-! ### Raw strings cut short -/

/-- From the text, two bytes in front and one at the end cannot be cut off. -/
def isCutShort (text : List Char) : Bool := text.length == 2 || text.getLast?.any fun c => 1 < c.utf8Size

/-- A raw string without a number of hashes that is cut short. -/
def TokenInfo.isCutShort (src : List Char) (tk : TokenInfo) : Bool :=
  match tk.kind with
  | .literal (.rawStr none) _ => (textOf src tk.span).any PuralinguaIR.isCutShort
  | _ => false

omit [UniLexer] in
private theorem splitAtByte_inside (v w : List Char) {c : Char} {n : Nat} (hlow : byteLen v < n)
    (hhigh : n < byteLen v + c.utf8Size) : splitAtByte (v ++ c :: w) n = none := by
  induction v generalizing n with
  | nil =>
    obtain ⟨n, rfl⟩ := Nat.exists_eq_succ_of_ne_zero (Nat.ne_of_gt hlow)
    rw [byteLen_nil, Nat.zero_add] at hhigh
    rw [List.nil_append, splitAtByte, if_neg (by omega)]
  | cons d v ih =>
    obtain ⟨n, rfl⟩ := Nat.exists_eq_succ_of_ne_zero (Nat.ne_of_gt (Nat.zero_lt_of_lt hlow))
    rw [byteLen_cons] at hlow hhigh
    rw [List.cons_append, splitAtByte, if_pos (by omega), ih (by omega) (by omega)]
    rfl

omit [UniLexer] in
theorem slice_eq_none_iff {x : Char} (hx : x.utf8Size = 1) (u : List Char) :
    slice ('r' :: x :: u) 2 (byteLen ('r' :: x :: u) - 1) = none ↔ isCutShort ('r' :: x :: u) := by
  have hlen : byteLen ('r' :: x :: u) = 2 + byteLen u := by
    rw [byteLen_cons, byteLen_cons, hx, ← Nat.add_assoc]
    rfl
  have hlast (v : List Char) (c : Char) : isCutShort ('r' :: x :: (v ++ [c])) ↔ 1 < c.utf8Size := by
    have hget : ('r' :: x :: (v ++ [c])).getLast? = some c := by
      rw [← List.cons_append, ← List.cons_append, List.getLast?_concat]
    simp [isCutShort, hget]
  rcases List.eq_nil_or_concat' u with rfl | ⟨v, c, rfl⟩
  · refine iff_of_true ?_ rfl
    rw [slice, hlen, if_neg (by decide)]
  rw [hlast, hlen]
  have hc := c.utf8Size_pos
  rw [byteLen_append, byteLen_cons, byteLen_nil, Nat.add_zero]
  by_cases hsize : 1 < c.utf8Size
  · refine iff_of_true ?_ hsize
    have hstart : splitAtByte ('r' :: x :: (v ++ [c])) 2 = some (['r', x], v ++ [c]) := by
      have h := splitAtByte_append ['r', x] (v ++ [c])
      rw [byteLen_cons, byteLen_cons, hx] at h
      exact h
    rw [slice, if_pos (by omega), hstart]
    exact congrArg (Option.map _) (splitAtByte_inside v [] (by omega) (by omega))
  · refine iff_of_false ?_ hsize
    have hone : c.utf8Size = 1 := by omega
    have hslice : slice ('r' :: x :: (v ++ [c])) 2 (2 + (byteLen v + c.utf8Size) - 1) = some v := by
      have htext : 'r' :: x :: (v ++ [c]) = ['r', x] ++ v ++ [c] := by simp
      refine slice_of_eq htext ?_ ?_
      · rw [byteLen_cons, byteLen_cons, hx]
        rfl
      · rw [byteLen_cons, byteLen_cons, hx, byteLen_nil, hone]
        exact Nat.add_sub_cancel _ 1
    rw [hslice]
    exact Option.some_ne_none v

/-! ### Names -/

omit [UniLexer] in
/-- The next token is a raw string cut short. -/
def BadName (st : ParseStream) : Prop := ∃ tk ∈ st.current, tk.isCutShort st.source

variable [UniParser]

omit [UniLexer] in
theorem breaks_call {α : Type} {p : Parser α} {st : ParseStream} : Breaks (call p) st ↔ Breaks p st := by
  unfold Breaks call
  rcases p st with ⟨_ | _ | _ | _, st'⟩ <;> simp

omit [UniLexer] [UniParser] in
theorem breaks_sliceOrPanic {cs : List Char} {start stop : Nat} {st : ParseStream} :
    Breaks (sliceOrPanic cs start stop) st ↔ slice cs start stop = none :=
  breaks_unwrap

omit [UniLexer] [UniParser] in
/-- The content of a raw string is cut out, unless the string is cut short. -/
theorem rawStr_slice {nHashes : Option UInt8} {main suffix : List Char}
    (hshape : (LiteralKind.rawStr nHashes).IsText main suffix) :
    ∃ stop, (∀ st, subOrPanic (byteLen main) (1 + (nHashes.getD 0).toNat) st = (.ok stop, st)) ∧
      ∀ st, Breaks (sliceOrPanic (main ++ suffix) (2 + (nHashes.getD 0).toNat) stop) st ↔
        nHashes = none ∧ isCutShort (main ++ suffix) := by
  cases nHashes with
  | some n =>
    obtain ⟨content, rfl⟩ := hshape
    refine ⟨_, subOrPanic_hashed ['r'] n.toNat content, fun st => iff_of_false ?_ (by simp)⟩
    exact not_breaks_of_ok (sliceOrPanic_hashed n.toNat content suffix st)
  | none =>
    obtain ⟨⟨x, u, hx, rfl⟩, rfl⟩ := hshape
    refine ⟨byteLen ('r' :: x :: u) - 1, fun st => subOrPanic_run ?_, fun st => ?_⟩
    · exact Nat.le_add_right_of_le (Char.utf8Size_pos _)
    · rw [List.append_nil, breaks_sliceOrPanic]
      exact (slice_eq_none_iff hx u).trans (and_iff_right rfl).symm

omit [UniLexer] [UniParser] in
theorem TokenInfo.isCutShort_rawStr {src text : List Char} {nHashes : Option UInt8} {suffixStart : Nat}
    {span : Span} (htext : textOf src span = some text) :
    (⟨.literal (.rawStr nHashes) suffixStart, span⟩ : TokenInfo).isCutShort src ↔
      nHashes = none ∧ PuralinguaIR.isCutShort text := by
  cases nHashes <;> simp [TokenInfo.isCutShort, htext]

/-- A name breaks the run exactly when it is a raw string cut short. -/
theorem Identifier.breaks_parse {st : ParseStream} (h : Lexed st) : Breaks Identifier.parse st ↔ BadName st := by
  cases hc : st.current with
  | none =>
    refine iff_of_false ?_ ?_
    · exact not_breaks_of_err (bind_step (a := none) (by rw [current, hc]) rfl)
    · rintro ⟨tk, htk, -⟩
      rw [hc] at htk
      cases htk
  | some tk =>
    have hbad : BadName st ↔ tk.isCutShort st.source := by
      rw [BadName, hc]
      simp
    have hcurrent : current st = (.ok (some tk), st) := by rw [current, hc]
    have hmem := h.mem_lex hc
    rw [hbad, Identifier.parse, breaks_bind_of_ok hcurrent]
    obtain ⟨kind, span⟩ := tk
    cases kind with
    | literal kind suffixStart =>
      obtain ⟨main, suffix, htext, rfl, hshape⟩ := scan_literal (mem_scan_of_mem_lex hmem (by simp) (by simp)) rfl
      have hadvance : advance st = (.ok (), st.skip 1) := rfl
      have hlater : textOf (st.skip 1).source span = _ := htext
      cases kind with
      | str terminated =>
        have hnot : ¬(⟨.literal (.str terminated) (byteLen main), span⟩ : TokenInfo).isCutShort st.source := by
          simp [TokenInfo.isCutShort]
        refine iff_of_false ?_ hnot
        cases terminated with
        | false => exact not_breaks_fail _ _
        | true =>
          obtain ⟨x, body, q, hx, hq, rfl⟩ := hshape
          dsimp only
          rw [breaks_bind_of_ok (tokenText_run htext), breaks_bind_of_ok (subOrPanic_quoted hx st),
            breaks_bind_of_ok (sliceOrPanic_quoted hx hq suffix st), breaks_bind_of_ok hadvance, breaks_bind]
          simp [After]
      | rawStr nHashes =>
        obtain ⟨stop, hstop, hslice⟩ := rawStr_slice hshape
        rw [TokenInfo.isCutShort_rawStr htext, ← hslice (st.skip 1)]
        dsimp only
        rw [breaks_bind_of_ok (hstop st), breaks_bind_of_ok hadvance, breaks_bind_of_ok (tokenText_run hlater),
          breaks_bind_left fun _ _ _ => not_breaks_pure _ _]
      | _ => exact iff_of_false (not_breaks_fail _ _) (by simp [TokenInfo.isCutShort])
    | identifier =>
      obtain ⟨first, u, htext⟩ := lex_text hmem
      refine iff_of_false ?_ (by simp [TokenInfo.isCutShort])
      have hlater : textOf (st.skip 1).source span = _ := htext
      dsimp only
      rw [breaks_bind_of_ok (show advance st = (.ok (), st.skip 1) from rfl),
        breaks_bind_of_ok (tokenText_run hlater)]
      exact not_breaks_pure _ _
    | rawIdentifier =>
      obtain ⟨name, htext⟩ := scan_rawIdentifier (mem_scan_of_mem_lex hmem (by simp) (by simp)) rfl
      refine iff_of_false ?_ (by simp [TokenInfo.isCutShort])
      have hlater : textOf (st.skip 1).source span = _ := htext
      have hslice : sliceOrPanic ('r' :: '#' :: name) 2 (byteLen ('r' :: '#' :: name)) (st.skip 1) =
          (.ok name, st.skip 1) :=
        sliceOrPanic_run (a := ['r', '#']) (List.append_nil _).symm rfl (byteLen_append ['r', '#'] name)
      dsimp only
      rw [breaks_bind_of_ok (show advance st = (.ok (), st.skip 1) from rfl),
        breaks_bind_of_ok (tokenText_run hlater), breaks_bind_of_ok hslice]
      exact not_breaks_pure _ _
    | _ => exact iff_of_false (not_breaks_fail _ _) (by simp [TokenInfo.isCutShort])

/-! ### Integers -/

/-- The token is an integer of the base `b` with these digits, underscores among them. -/
def IntegerText (src : List Char) (tk : TokenInfo) (b : Base) (digits : List Char) : Prop :=
  ∃ emptyInt suffix, tk.kind = .literal (.int b emptyInt) (byteLen (b.marker ++ digits)) ∧
    textOf src tk.span = some (b.marker ++ digits ++ suffix)

/-- The next token is an integer with digits that are no number below `bound`. -/
def BadInteger (bound : Nat) (st : ParseStream) : Prop :=
  ∃ tk ∈ st.current, ∃ b digits, IntegerText st.source tk b digits ∧ ¬b.Fits digits bound

omit [UniParser] in
theorem exists_integerText {src : List Char} {tk : TokenInfo} (htk : tk ∈ lex src)
    (hint : tk.kind.isLiteralOf .int) : ∃ b digits, IntegerText src tk b digits := by
  obtain ⟨kind, span⟩ := tk
  cases kind with
  | literal kind suffixStart =>
    cases kind with
    | int b emptyInt =>
      obtain ⟨digits, suffix, htext, rfl, -⟩ := scan_int (mem_scan_of_mem_lex htk (by simp) (by simp)) rfl
      exact ⟨b, digits, emptyInt, suffix, rfl, htext⟩
    | _ => cases hint
  | _ => cases hint

namespace IntegerText

variable {src : List Char} {tk : TokenInfo} {b : Base} {digits : List Char}

omit [UniLexer] [UniParser] in
theorem isLiteralOf (h : IntegerText src tk b digits) : tk.kind.isLiteralOf .int := by
  obtain ⟨emptyInt, suffix, hkind, -⟩ := h
  rw [hkind]
  rfl

omit [UniLexer] [UniParser] in
theorem not_isCutShort (h : IntegerText src tk b digits) : ¬tk.isCutShort src := by
  obtain ⟨emptyInt, suffix, hkind, -⟩ := h
  simp [TokenInfo.isCutShort, hkind]

omit [UniLexer] [UniParser] in
/-- The digits of a token are the ones up to the start of its suffix. -/
theorem unique {b' : Base} {digits' : List Char} (h : IntegerText src tk b digits)
    (h' : IntegerText src tk b' digits') : b = b' ∧ digits = digits' := by
  obtain ⟨emptyInt, suffix, hkind, htext⟩ := h
  obtain ⟨emptyInt', suffix', hkind', htext'⟩ := h'
  rw [hkind] at hkind'
  obtain ⟨hint, hstart⟩ := TokenKind.literal.inj hkind'
  obtain ⟨rfl, -⟩ := LiteralKind.int.inj hint
  rw [htext] at htext'
  have hmain := (append_inj_of_byteLen (Option.some.inj htext') hstart).1
  exact ⟨rfl, List.append_cancel_left hmain⟩

omit [UniParser] in
/-- The value is read when the digits fit 64 bits. -/
theorem getValue_run {st : ParseStream} (h : IntegerText st.source tk b digits) (htk : tk ∈ lex st.source) :
    IntegerToken.getValue tk st =
      (.ok (if b.Fits digits (2 ^ 64) then some (UInt64.ofNat (b.value digits)) else none), st) := by
  have hsame := h
  obtain ⟨emptyInt, suffix, hkind, htext⟩ := h
  have hmem := mem_scan_of_mem_lex htk (by simp [hkind]) (by simp [hkind])
  obtain ⟨digits', suffix', htext', hstart, hempty, hhex⟩ := scan_int hmem hkind
  obtain ⟨-, rfl⟩ := hsame.unique ⟨emptyInt, suffix', hstart ▸ hkind, htext'⟩
  obtain ⟨kind, span⟩ := tk
  obtain rfl : kind = _ := hkind
  cases emptyInt with
  | true =>
    have hfits : ¬b.Fits digits (2 ^ 64) := fun hfits => by
      rw [hfits.any_ne_underscore] at hempty
      cases hempty
    rw [if_neg hfits]
    rfl
  | false =>
    have hmarker : byteLen b.marker = if b = .decimal then 0 else 2 := by
      cases b <;> rfl
    have hplus : digits.head? ≠ some '+' := by
      intro hhead
      rcases hhex '+' (List.mem_of_mem_head? hhead) with heq | hdigit
      · exact absurd heq (by decide)
      · exact absurd hdigit (by decide)
    have hvalue := IntegerToken.getValue_eq htext hmarker
    rw [← byteLen_append] at hvalue
    refine hvalue.trans ?_
    by_cases hfits : b.Fits digits (2 ^ 64)
    · rw [(fromStrRadix_eq_some hplus).2 ⟨hfits, rfl⟩, if_pos hfits]
      rfl
    · rw [fromStrRadix_eq_none hplus hfits, if_neg hfits]
      rfl

end IntegerText

section Values

variable {st : ParseStream} {tk : TokenInfo} {b : Base} {digits : List Char}

/-- The value of an integer that fits 64 bits, and a panic at any other. -/
theorem integerValue_run (h : Lexed st) (hc : st.current = some tk) (htext : IntegerText st.source tk b digits) :
    integerValue st =
      (if b.Fits digits (2 ^ 64) then .ok (UInt64.ofNat (b.value digits)) else .panic, st.skip 1) := by
  have htake : IntegerToken.parse st = (.ok tk, st.skip 1) := by
    rw [IntegerToken.parse, requireF, takeIf_eq_ok]
    exact ⟨hc, htext.isLiteralOf, rfl⟩
  have hlater : IntegerText (st.skip 1).source tk b digits := htext
  have hvalue : IntegerToken.getValue tk (st.skip 1) = _ := hlater.getValue_run (h.mem_lex hc)
  rw [integerValue, bind_of_ok (call_ok htake), bind_of_ok hvalue]
  split <;> rfl

omit [UniLexer] [UniParser] in
/-- A number of 64 bits that is one of 32 bits. -/
theorem value_bind_tryU32 (b : Base) (digits : List Char) :
    (if b.Fits digits (2 ^ 64) then some (UInt64.ofNat (b.value digits)) else none).bind tryU32 =
      if b.Fits digits (2 ^ 32) then some (UInt32.ofNat (b.value digits)) else none := by
  by_cases hfits : b.Fits digits (2 ^ 64)
  · have hnat : (UInt64.ofNat (b.value digits)).toNat = b.value digits := Nat.mod_eq_of_lt hfits.value_lt
    rw [if_pos hfits, Option.bind_some, tryU32, hnat]
    by_cases hlt : b.value digits < 2 ^ 32
    · rw [if_pos hlt, if_pos ⟨hfits.ne_nil, hfits.isDigit, hlt⟩]
    · rw [if_neg hlt, if_neg fun h => hlt h.value_lt]
  · rw [if_neg hfits, if_neg fun h => hfits ⟨h.ne_nil, h.isDigit, Nat.lt_trans h.value_lt (by decide)⟩]
    rfl

/-- The same for 32 bits. -/
theorem integerIndex_run (h : Lexed st) (hc : st.current = some tk) (htext : IntegerText st.source tk b digits) :
    integerIndex st =
      (if b.Fits digits (2 ^ 32) then .ok (UInt32.ofNat (b.value digits)) else .panic, st.skip 1) := by
  have hvalue := integerValue_run h hc htext
  have hindex := value_bind_tryU32 b digits
  unfold integerIndex
  by_cases hfits : b.Fits digits (2 ^ 64)
  · rw [if_pos hfits, Option.bind_some] at hindex
    rw [if_pos hfits] at hvalue
    rw [bind_of_ok hvalue, hindex]
    split <;> rfl
  · rw [if_neg hfits] at hvalue
    rw [if_neg fun h => hfits ⟨h.ne_nil, h.isDigit, Nat.lt_trans h.value_lt (by decide)⟩, bind_run, hvalue]

omit [UniParser] in
/-- Either the next token is an integer with digits, or there is no integer. -/
theorem integer_cases (h : Lexed st) : (∃ tk b digits, st.current = some tk ∧ IntegerText st.source tk b digits) ∨
    next (·.isLiteralOf .int = false) st.rest.head? := by
  rw [← TokenStream.current_eq]
  cases hc : st.current with
  | none => exact .inr fun _ => by simp
  | some tk =>
    cases hint : tk.kind.isLiteralOf .int with
    | false =>
      refine .inr fun tk' htk' => ?_
      cases htk'
      exact hint
    | true =>
      obtain ⟨b, digits, htext⟩ := exists_integerText (h.mem_lex hc) hint
      exact .inl ⟨tk, b, digits, rfl, htext⟩

omit [UniLexer] [UniParser] in
theorem badInteger_iff (hc : st.current = some tk) (htext : IntegerText st.source tk b digits) {bound : Nat} :
    BadInteger bound st ↔ ¬b.Fits digits bound := by
  constructor
  · rintro ⟨tk', htk', b', digits', htext', hfits⟩
    obtain rfl : tk = tk' := Option.some.inj (hc.symm.trans htk')
    obtain ⟨rfl, rfl⟩ := htext.unique htext'
    exact hfits
  · exact fun hfits => ⟨tk, hc, b, digits, htext, hfits⟩

omit [UniLexer] [UniParser] in
theorem not_badInteger (h : next (·.isLiteralOf .int = false) st.rest.head?) (bound : Nat) :
    ¬BadInteger bound st := by
  rintro ⟨tk, htk, b, digits, htext, -⟩
  rw [← TokenStream.current_eq] at h
  exact absurd htext.isLiteralOf (by simp [h tk htk])

theorem integerValue_breaks (h : Lexed st) : Breaks integerValue st ↔ BadInteger (2 ^ 64) st := by
  rcases integer_cases h with ⟨tk, b, digits, hc, htext⟩ | hnone
  · rw [badInteger_iff hc htext, Breaks, integerValue_run h hc htext]
    by_cases hfits : b.Fits digits (2 ^ 64) <;> simp only [hfits, if_true, if_false] <;> simp
  · obtain ⟨e, he⟩ := integerValue_declines hnone
    exact iff_of_false (not_breaks_of_err he) (not_badInteger hnone _)

/-- An index or a name. -/
theorem breaks_indexOrName [LawfulUniParser] (h : Lexed st) {α : Type} (byIndex : UInt32 → α)
    (byName : Identifier → α) : Breaks (firstOf [byIndex <$> integerIndex, byName <$> call Identifier.parse]) st ↔
      BadInteger (2 ^ 32) st ∨ BadName st := by
  rcases integer_cases h with ⟨tk, b, digits, hc, htext⟩ | hnone
  · have hname : ¬BadName st := by
      rintro ⟨tk', htk', hcut⟩
      obtain rfl : tk = tk' := Option.some.inj (hc.symm.trans htk')
      exact htext.not_isCutShort hcut
    have hindex := integerIndex_run h hc htext
    rw [badInteger_iff hc htext, or_iff_left hname]
    by_cases hfits : b.Fits digits (2 ^ 32)
    · rw [if_pos hfits] at hindex
      have hmap : (byIndex <$> integerIndex) st = (.ok (byIndex _), st.skip 1) := map_eq_ok.2 ⟨_, hindex, rfl⟩
      exact iff_of_false (not_breaks_of_ok (UniParser.firstOf_ok hmap)) (not_not_intro hfits)
    · rw [if_neg hfits] at hindex
      refine iff_of_true (LawfulUniParser.firstOf_breaks (breaks_map.2 ?_)) hfits
      exact breaks_of_panic (congrArg Prod.fst hindex)
  · have hdeclines : Declines (byIndex <$> integerIndex) st := (integerIndex_declines hnone).map _
    rw [or_iff_right (not_badInteger hnone _), Breaks, UniParser.firstOf_declines hdeclines]
    show Breaks (firstOf [byName <$> call Identifier.parse]) st ↔ _
    rw [← Identifier.breaks_parse h]
    by_cases hbreaks : Breaks Identifier.parse st
    · exact iff_of_true (LawfulUniParser.firstOf_breaks (breaks_map.2 (breaks_call.2 hbreaks))) hbreaks
    · refine iff_of_false ?_ hbreaks
      have hcall : ¬Breaks (byName <$> call Identifier.parse) st := by rwa [breaks_map, breaks_call]
      rcases not_breaks_iff.1 hcall with ⟨a, st', ha⟩ | ⟨e, st', he⟩
      · exact not_breaks_of_ok (UniParser.firstOf_ok ha)
      · obtain ⟨e', st'', he'⟩ := LawfulUniParser.firstOf_err he
        exact not_breaks_of_err he'

end Values

/-! ### Type references -/

variable [LawfulUniParser] (tyGenerics methodGenerics : List Identifier)

/-- The assembly of a type reference stands in brackets between the two positions. -/
def AfterAssembly (st st' : ParseStream) : Prop :=
  ∃ tk st₁ name st₂ tk', require SpecialChar.bracketOpen st = (.ok tk, st₁) ∧ assemblyName st₁ = (.ok name, st₂) ∧
    require SpecialChar.bracketClose st₂ = (.ok tk', st')

/-- The places at which a type reference, nested at most `depth` deep, reads a name. -/
inductive TypeOperand : (depth : Nat) → ParseStream → ParseStream → Prop where
  | alone {depth st} : Declines (require SpecialChar.bracketOpen) st → TypeOperand (depth + 1) st st
  | assembly {depth st tk st₁} : require SpecialChar.bracketOpen st = (.ok tk, st₁) →
      Declines (require SpecialChar.exclamationMark) st₁ → TypeOperand (depth + 1) st st₁
  | type {depth st st₁} : AfterAssembly st st₁ → TypeOperand (depth + 1) st st₁
  | argument {depth st st₁ name st₂ tk st₃ st₄ st'} :
      AfterAssembly st st₁ → Identifier.parse st₁ = (.ok name, st₂) →
      require SpecialChar.lessThanSign st₂ = (.ok tk, st₃) →
      SeparatedTurn (typeReferenceDepth tyGenerics methodGenerics depth) (require SpecialChar.comma) st₃ st₄ →
      TypeOperand depth st₄ st' → TypeOperand (depth + 1) st st'

omit [UniLexer] [UniParser] [LawfulUniParser] in
theorem breaks_attempt_require {α : Type} {k : TokenKind} {f : Option TokenInfo → Parser α} {st : ParseStream} :
    Breaks (attempt (require k) >>= f) st ↔
      (∃ tk, require k st = (.ok tk, st.skip 1) ∧ Breaks (f (some tk)) (st.skip 1)) ∨
        Declines (require k) st ∧ Breaks (f none) st :=
  breaks_attempt_takeIf

omit [UniLexer] [UniParser] [LawfulUniParser] in
@[simp] theorem not_breaks_require (k : TokenKind) (st : ParseStream) : ¬Breaks (require k) st :=
  not_breaks_takeIf _ _ _

omit [LawfulUniParser] in
/-- A name with something harmless after it. -/
theorem breaks_name_bind {st : ParseStream} (h : Lexed st) {α : Type} {f : Identifier → Parser α}
    (hf : ∀ name tk, st.current = some tk → ¬Breaks (f name) (st.skip 1)) :
    Breaks (call Identifier.parse >>= f) st ↔ BadName st := by
  rw [breaks_bind, breaks_call, Identifier.breaks_parse h, or_iff_left]
  rintro ⟨name, st', hname, hbreaks⟩
  obtain ⟨rfl, tk, hc⟩ := Identifier.parse_eq_ok (call_eq_ok.1 hname)
  exact hf name tk hc hbreaks

omit [LawfulUniParser] in
private theorem assemblyName_breaks {st : ParseStream} (h : Lexed st) :
    Breaks assemblyName st ↔ Declines (require SpecialChar.exclamationMark) st ∧ BadName st := by
  rw [assemblyName, breaks_attempt_require, or_iff_right]
  · exact and_congr_right fun _ => breaks_name_bind h fun _ _ _ => not_breaks_pure _ _
  · rintro ⟨tk, htk, hbreaks⟩
    obtain ⟨hc, -, -⟩ := takeIf_eq_ok.1 htk
    obtain ⟨first, u, htext⟩ := lex_text (h.mem_lex hc)
    have hrun : tokenText tk (st.skip 1) = (.ok (first :: u), st.skip 1) := tokenText_run htext
    rw [breaks_bind_of_ok hrun] at hbreaks
    exact not_breaks_pure _ _ hbreaks

omit [UniLexer] [UniParser] [LawfulUniParser] in
/-- The token before the position is there after a name. -/
private theorem previousToken_run {st : ParseStream} {tk : TokenInfo} (hc : st.current = some tk) :
    previousToken (st.skip 1) = (.ok tk, st.skip 1) := by
  have hindex : (st.skip 1).index ≠ 0 := Nat.succ_ne_zero st.index
  have htoken : (st.skip 1).tokens[(st.skip 1).index - 1]? = some tk := hc
  rw [previousToken, if_neg hindex, htoken]
  rfl

theorem typeReferenceDepth_breaks {depth : Nat} {st : ParseStream} (h : Lexed st)
    (hdepth : st.rest.length < depth) : Breaks (typeReferenceDepth tyGenerics methodGenerics depth) st ↔
      ∃ st', TypeOperand tyGenerics methodGenerics depth st st' ∧ BadName st' := by
  induction depth generalizing st with
  | zero => omega
  | succ depth ih =>
    have hassembly {st₁ : ParseStream} (hassembly : AfterAssembly st st₁) :
        Lexed st₁ ∧ st₁.rest.length < depth := by
      obtain ⟨tk, st₂, name, st₃, tk', hopen, hname, hclose⟩ := hassembly
      have hlt := takeIf_consumes _ _ st tk _ hopen
      have hforward := (assemblyName_forward.of_run hname).trans ((require_forward _).of_run hclose)
      have hle := hforward.length_rest_le
      exact ⟨(h.forward ((require_forward _).of_run hopen)).forward hforward, by omega⟩
    -- an argument begins behind the assembly, so it is nested less deep
    have hitem {st₁ st₂ st₃ st₄ : ParseStream} {name : Identifier} {tk : TokenInfo} (h₁ : AfterAssembly st st₁)
        (hname : Identifier.parse st₁ = (.ok name, st₂))
        (hless : require SpecialChar.lessThanSign st₂ = (.ok tk, st₃))
        (hturn : SeparatedTurn (typeReferenceDepth tyGenerics methodGenerics depth) (require SpecialChar.comma) st₃
          st₄) : Breaks (typeReferenceDepth tyGenerics methodGenerics depth) st₄ ↔
            ∃ st', TypeOperand tyGenerics methodGenerics depth st₄ st' ∧ BadName st' := by
      obtain ⟨hlexed, hlt⟩ := hassembly h₁
      have hforward := (identifier_parse_forward.of_run hname).trans (((require_forward _).of_run hless).trans
        (hturn.forward (typeReferenceDepth_forward _ _ _) (require_forward _)))
      exact ih (hlexed.forward hforward) (Nat.lt_of_le_of_lt hforward.length_rest_le hlt)
    rw [typeReferenceDepth, breaks_attempt_require]
    refine (or_congr Iff.rfl (and_congr_right fun _ => breaks_name_bind h fun name tk hc => ?_)).trans ?_
    · split
      · exact not_breaks_pure _ _
      split
      · exact not_breaks_pure _ _
      · rw [breaks_bind_of_ok (previousToken_run hc)]
        exact not_breaks_fail _ _
    constructor
    · rintro (⟨tk, hopen, hbreaks⟩ | ⟨hnone, hbreaks⟩)
      · rcases breaks_bind.1 hbreaks with hbad | ⟨a, st₂, ha, hbreaks⟩
        · obtain ⟨hnone, hbad⟩ := (assemblyName_breaks (h.forward (.skip st 1))).1 hbad
          exact ⟨_, .assembly hopen hnone, hbad⟩
        rcases breaks_bind.1 hbreaks with hclose | ⟨tk', st₃, hclose, hbreaks⟩
        · exact absurd hclose (not_breaks_require _ _)
        have h₃ : AfterAssembly st st₃ := ⟨tk, _, a, st₂, tk', hopen, ha, hclose⟩
        rcases breaks_bind.1 hbreaks with hbad | ⟨name, st₄, hname, hbreaks⟩
        · exact ⟨st₃, .type h₃, (Identifier.breaks_parse (hassembly h₃).1).1 (breaks_call.1 hbad)⟩
        have hname := call_eq_ok.1 hname
        rcases breaks_attempt_require.1 hbreaks with ⟨tk'', hless, hbreaks⟩ | ⟨-, hbreaks⟩
        · rcases breaks_bind.1 hbreaks with hargs | ⟨args, st₅, -, hbreaks⟩
          · obtain ⟨st₅, hturn, hbad | ⟨ty, st₆, -, hsep⟩⟩ := (LawfulUniParser.punctuated_breaks
              (typeReferenceDepth_consumes _ _ _) (require_forward _)).1 hargs
            · obtain ⟨st', hplace, hbad⟩ := (hitem h₃ hname hless hturn).1 hbad
              exact ⟨st', .argument h₃ hname hless hturn hplace, hbad⟩
            · exact absurd hsep (not_breaks_require _ _)
          · rcases breaks_bind.1 hbreaks with hend | ⟨tk', st₆, -, hend⟩
            · exact absurd hend (not_breaks_require _ _)
            · exact absurd hend (not_breaks_pure _ _)
        · exact absurd hbreaks (not_breaks_pure _ _)
      · exact ⟨st, .alone hnone, hbreaks⟩
    · rintro ⟨st', hplace, hbad⟩
      have hskip {k : TokenKind} {st st' : ParseStream} {tk : TokenInfo} (h : require k st = (.ok tk, st')) :
          st' = st.skip 1 :=
        (takeIf_eq_ok.1 h).2.2
      cases hplace with
      | alone hnone => exact .inr ⟨hnone, hbad⟩
      | @assembly _ _ tk st₁ hopen hnone =>
        obtain rfl := hskip hopen
        exact .inl ⟨tk, hopen, breaks_bind.2 (.inl
          ((assemblyName_breaks (h.forward (.skip st 1))).2 ⟨hnone, hbad⟩))⟩
      | type h₁ =>
        have hlexed := (hassembly h₁).1
        obtain ⟨tk, st₂, a, st₃, tk', hopen, ha, hclose⟩ := h₁
        obtain rfl := hskip hopen
        refine .inl ⟨tk, hopen, (breaks_bind_of_ok ha).2 ((breaks_bind_of_ok hclose).2 ?_)⟩
        exact breaks_bind.2 (.inl (breaks_call.2 ((Identifier.breaks_parse hlexed).2 hbad)))
      | @argument _ _ st₁ name st₂ tk₂ st₃ st₄ _ h₁ hname hless hturn hplace =>
        have hitem := (hitem h₁ hname hless hturn).2 ⟨st', hplace, hbad⟩
        obtain ⟨tk, st₅, a, st₆, tk', hopen, ha, hclose⟩ := h₁
        obtain rfl := hskip hopen
        obtain rfl := hskip hless
        refine .inl ⟨tk, hopen, (breaks_bind_of_ok ha).2 ((breaks_bind_of_ok hclose).2 ?_)⟩
        refine (breaks_bind_of_ok (call_ok hname)).2 (breaks_attempt_require.2 (.inl ⟨tk₂, hless, ?_⟩))
        refine breaks_bind.2 (.inl ((LawfulUniParser.punctuated_breaks (typeReferenceDepth_consumes _ _ _)
          (require_forward _)).2 ⟨st₄, hturn, .inl hitem⟩))

theorem typeReference_breaks {st : ParseStream} (h : Lexed st) :
    Breaks (typeReference tyGenerics methodGenerics) st ↔
      ∃ st', TypeOperand tyGenerics methodGenerics (st.rest.length + 1) st st' ∧ BadName st' :=
  typeReferenceDepth_breaks tyGenerics methodGenerics h (Nat.lt_succ_self _)

/-! ### Method references -/

/-- What an operand may be: a name, an index of 32 bits or a name, a number of 64 bits. -/
inductive Operand where
  | name | reference | value
deriving DecidableEq, Repr

/-- The operand cannot be read and ends the run. -/
def Operand.Bad : Operand → ParseStream → Prop
  | name, st => BadName st
  | reference, st => BadInteger (2 ^ 32) st ∨ BadName st
  | value, st => BadInteger (2 ^ 64) st

/-- The places at which a method reference reads its operands. -/
inductive MethodOperand : ParseStream → Operand → ParseStream → Prop where
  | method {st} : MethodOperand st .reference st
  | argument {st m st₁ tk st₂ tys st₃ st'} : ItemRef.parse st = (.ok m, st₁) →
      require SpecialChar.bracketOpen st₁ = (.ok tk, st₂) →
      WhileTurn (call (typeReference tyGenerics methodGenerics)) (fun tys ty => pure (tys ++ [ty])) [] st₂ tys
        st₃ →
      TypeOperand tyGenerics methodGenerics (st₃.rest.length + 1) st₃ st' → MethodOperand st .name st'

theorem MethodReference.parse_breaks {st : ParseStream} (h : Lexed st) :
    Breaks (MethodReference.parse tyGenerics methodGenerics) st ↔
      ∃ op st', MethodOperand tyGenerics methodGenerics st op st' ∧ op.Bad st' := by
  have htypes {st₂ : ParseStream} {tys : List TypeReference} {st₃ : ParseStream} (h₂ : Lexed st₂)
      (hturn : WhileTurn (call (typeReference tyGenerics methodGenerics)) (fun tys ty => pure (tys ++ [ty])) []
        st₂ tys st₃) : Breaks (typeReference tyGenerics methodGenerics) st₃ ↔
          ∃ st', TypeOperand tyGenerics methodGenerics (st₃.rest.length + 1) st₃ st' ∧ BadName st' :=
    typeReference_breaks tyGenerics methodGenerics
      (h₂.forward (hturn.forward (call_forward (typeReference_forward _ _)) fun _ _ => Keeps.pure _))
  have hloop (st₂ : ParseStream) : Breaks (whileOk (call (typeReference tyGenerics methodGenerics))) st₂ ↔ _ :=
    breaks_foldWhileOk fun _ => (call_consumes (typeReference_consumes tyGenerics methodGenerics)).bind fun _ =>
      Keeps.pure _
  rw [MethodReference.parse, breaks_bind, breaks_call]
  constructor
  · rintro (hbad | ⟨m, st₁, hm, hbreaks⟩)
    · exact ⟨.reference, st, .method, (breaks_indexOrName h _ _).1 hbad⟩
    have hm := call_eq_ok.1 hm
    have h₁ := h.forward (itemRef_parse_forward.of_run hm)
    rcases breaks_attempt_require.1 hbreaks with ⟨tk, hopen, hbreaks⟩ | ⟨-, hbreaks⟩
    · rcases breaks_bind.1 hbreaks with hbreaks | ⟨tys, st₂, -, hbreaks⟩
      · obtain ⟨tys, st₃, hturn, hbad | ⟨ty, st₄, -, hend⟩⟩ := (hloop _).1 hbreaks
        · obtain ⟨st', hplace, hbad⟩ := (htypes (h₁.forward (.skip st₁ 1)) hturn).1 (breaks_call.1 hbad)
          exact ⟨.name, st', .argument hm hopen hturn hplace, hbad⟩
        · exact absurd hend (not_breaks_pure _ _)
      · rcases breaks_bind.1 hbreaks with hend | ⟨tk', st₃, -, hend⟩
        · exact absurd hend (not_breaks_require _ _)
        · exact absurd hend (not_breaks_pure _ _)
    · exact absurd hbreaks (not_breaks_pure _ _)
  · rintro ⟨op, st', hplace, hbad⟩
    cases hplace with
    | method => exact .inl ((breaks_indexOrName h _ _).2 hbad)
    | @argument m st₁ tk st₂ tys st₃ _ hm hopen hturn hplace =>
      obtain ⟨-, -, rfl⟩ := takeIf_eq_ok.1 hopen
      have h₂ := (h.forward (itemRef_parse_forward.of_run hm)).forward (.skip st₁ 1)
      have hbad := breaks_call.2 ((htypes h₂ hturn).2 ⟨st', hplace, hbad⟩)
      refine .inr ⟨m, st₁, call_ok hm, breaks_attempt_require.2 (.inl ⟨tk, hopen, ?_⟩)⟩
      exact breaks_bind.2 (.inl ((hloop _).2 ⟨tys, st₃, hturn, .inl hbad⟩))

end Operands

end PuralinguaIR
