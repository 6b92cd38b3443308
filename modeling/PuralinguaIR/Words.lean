import PuralinguaIR.TypeDef

/-!
# Words and the tokens that spell them

A rendering is a list of words: a token of a fixed kind, a name, the assembly of a type reference, an integer,
or a literal a `Load` statement loads. A name may be spelled by an identifier, a raw identifier, a string or a
raw string, and an integer in any base and with any suffix; `Word.spells` is that relation for the tokens of one
source.
-/

namespace PuralinguaIR

open Text Effect Effect.Prog Reading

inductive Word where
  | token (k : TokenKind)
  | name (s : String)
  | assembly (s : String)
  | int (n : Nat)
  | literal (isNegative : Option Bool) (content : LoadableContent)
deriving DecidableEq, Repr

namespace Word

abbrev sym (c : SpecialChar) : Word := token c

abbrev kw (k : Keyword) : Word := token k

abbrev ident (x : Identifier) : Word := name x.var

end Word

/-- The kinds of the tokens that name something. -/
def TokenKind.isName : TokenKind → Bool
  | identifier => true
  | rawIdentifier => true
  | literal (.str true) _ => true
  | literal (.rawStr _) _ => true
  | _ => false

section Spelling

variable [UniParser] (src : List Char)

/-- The tokens that name `s`. -/
inductive NameToken (s : String) : TokenInfo → Prop where
  | identifier {span} : textOf src span = some s.toList → NameToken s ⟨.identifier, span⟩
  | rawIdentifier {span} : textOf src span = some ('r' :: '#' :: s.toList) → NameToken s ⟨.rawIdentifier, span⟩
  | str {span body suffix} : textOf src span = some (['"'] ++ body ++ '"' :: suffix) →
      toUnescaped body = some s.toList → NameToken s ⟨.literal (.str true) (byteLen body + 2), span⟩
  | rawStr {span suffix} (n : UInt8) :
      textOf src span =
        some ('r' :: (List.replicate n.toNat '#' ++ ['"']) ++ s.toList ++
          '"' :: (List.replicate n.toNat '#' ++ suffix)) →
      NameToken s ⟨.literal (.rawStr (some n)) (byteLen s.toList + 3 + 2 * n.toNat), span⟩

/-- The tokens that denote the number `n`. -/
inductive IntToken (n : Nat) : TokenInfo → Prop where
  | mk {base span pre digits suffix} : textOf src span = some (pre ++ digits ++ suffix) →
      byteLen pre = (if base = .decimal then 0 else 2) → fromStrRadix (2 ^ 64) base.radix digits = some n →
      IntToken n ⟨.literal (.int base false) (byteLen pre + byteLen digits), span⟩

/-- The tokens a `Load` statement loads as `content`, after hyphens or after none. -/
def LiteralToken (isNegative : Option Bool) (content : LoadableContent) (tk : TokenInfo) : Prop :=
  ∃ kind suffixStart, tk.kind = .literal kind suffixStart ∧
    ∀ st : ParseStream, st.source = src →
      LoadableContent.ofLiteral tk kind suffixStart isNegative st = (.ok content, st)

/-- Whether a token of the source spells a word. -/
def Word.spells : Word → TokenInfo → Prop
  | token k, tk => tk.kind = k
  | name s, tk => NameToken src s tk
  | assembly s, tk =>
    NameToken src s tk ∨ s = "!" ∧ tk.kind = SpecialChar.exclamationMark ∧ textOf src tk.span = some ['!']
  | int n, tk => IntToken src n tk
  | literal isNegative content, tk => LiteralToken src isNegative content tk

/-- The tokens of a source as spellings of words. -/
def lexemes : Spelling (List Char) TokenInfo Word := ⟨src, Word.spells src⟩

end Spelling

/-- The kinds of the tokens that may spell a word. -/
def Word.allows : Word → TokenKind → Bool
  | token k, k' => k' == k
  | name _, k => k.isName
  | assembly _, k => k.isName || k == SpecialChar.exclamationMark
  | int _, k => k.isInt
  | literal .., .literal .. => true
  | literal .., _ => false

/-- What a parser asks of the kind of the next token, if there is one. -/
def next (p : TokenKind → Prop) : Option TokenInfo → Prop := fun t => ∀ tk, t = some tk → p tk.kind

/-- The next token is not of the given kind. -/
def nextIsNot (k : TokenKind) : Option TokenInfo → Prop := next (· ≠ k)

/-! ### Single tokens -/

theorem IntToken.isInt {src : List Char} {n : Nat} {tk : TokenInfo} (h : IntToken src n tk) : tk.kind.isInt := by
  cases h
  rfl

/-- The first of the words `ws` is spelled by tokens of the kinds `p` only. -/
def Starts (p : TokenKind → Bool) (ws : List Word) : Prop :=
  ∃ w us, ws = w :: us ∧ ∀ k, w.allows k → p k

theorem Starts.cons {p : TokenKind → Bool} {w : Word} (h : ∀ k, w.allows k → p k) (ws : List Word) :
    Starts p (w :: ws) :=
  ⟨w, ws, rfl, h⟩

theorem Starts.append {p : TokenKind → Bool} {ws : List Word} (h : Starts p ws) (us : List Word) :
    Starts p (ws ++ us) := by
  obtain ⟨w, ws, rfl, h⟩ := h
  exact ⟨w, ws ++ us, rfl, h⟩

theorem Starts.ne_nil {p : TokenKind → Bool} {ws : List Word} (h : Starts p ws) : ws ≠ [] := by
  obtain ⟨w, ws, rfl, -⟩ := h
  exact List.cons_ne_nil w ws

theorem require_declines_of_next {k : TokenKind} {st : ParseStream} (h : nextIsNot k st.rest.head?) :
    Declines (require k) st :=
  require_declines h

theorem require_run {k : TokenKind} {st : ParseStream} {tk : TokenInfo} {ts : List TokenInfo}
    (hr : st.rest = tk :: ts) (h : tk.kind = k) : require k st = (.ok tk, st.skip 1) :=
  takeIf_ok hr (beq_iff_eq.2 h)

theorem tokenText_run {tk : TokenInfo} {cs : List Char} {s : ParseStream}
    (h : textOf s.source tk.span = some cs) : tokenText tk s = (.ok cs, s) := by
  simp [tokenText, h]

theorem sliceOrPanic_run {cs a b c : List Char} {start stop : Nat} {st : ParseStream} (h : cs = a ++ b ++ c)
    (hstart : start = byteLen a) (hstop : stop = byteLen a + byteLen b) :
    sliceOrPanic cs start stop st = (.ok b, st) := by
  rw [sliceOrPanic, slice_of_eq h hstart hstop]
  rfl

theorem subOrPanic_run {stop n : Nat} {st : ParseStream} (h : n ≤ stop) :
    subOrPanic stop n st = (.ok (stop - n), st) := by
  simp [subOrPanic, h]

theorem byteLen_hashes (n : Nat) : byteLen (List.replicate n '#') = n := by
  rw [byteLen_replicate]
  exact Nat.mul_one n

private theorem name_eq (x : Identifier) (st : ParseStream) :
    (pure ⟨String.ofList x.var.toList⟩ : Parser Identifier) st = (.ok x, st) := by
  rw [String.ofList_toList]
  rfl

private theorem advance_step {α : Type} {f : Unit → Parser α} {st : ParseStream}
    {r : Outcome ParseError α × ParseStream} (h : f () (st.skip 1) = r) : (advance >>= f) st = r := h

theorem IntegerToken.parse_declines {st : ParseStream} (h : next (·.isLiteralOf .int = false) st.rest.head?) :
    Declines IntegerToken.parse st :=
  requireF_declines h

theorem TokenKind.not_int_of_name {k : TokenKind} (h : k.isName) : k.isLiteralOf .int = false := by
  cases k with
  | literal kind suffixStart => cases kind <;> first | rfl | cases h
  | _ => rfl

theorem tryU32_ofNat (n : UInt32) : tryU32 (UInt64.ofNat n.toNat) = some n := by
  have h := n.toNat_lt
  have h' : (UInt64.ofNat n.toNat).toNat = n.toNat := by
    rw [UInt64.toNat_ofNat']
    exact Nat.mod_eq_of_lt (by omega)
  rw [tryU32, h', if_pos h, UInt32.ofNat_toNat]

section Rules

variable [UniParser] {src : List Char} {α β : Type} {φ ψ : Option TokenInfo → Prop}

theorem NameToken.isName {s : String} {tk : TokenInfo} (h : NameToken src s tk) : tk.kind.isName := by
  cases h <;> rfl

theorem Word.allows_of_spells {w : Word} {tk : TokenInfo} (h : w.spells src tk) : w.allows tk.kind := by
  cases w with
  | token k => exact beq_iff_eq.2 h
  | name s => exact NameToken.isName h
  | assembly s =>
    rcases h with h | ⟨-, h, -⟩
    · simp [allows, h.isName]
    · simp [allows, h]
  | int n => exact IntToken.isInt h
  | literal isNegative content =>
    obtain ⟨kind, suffixStart, h, -⟩ := h
    rw [h]
    rfl

theorem Word.leads {p : TokenKind → Prop} {w : Word} (h : ∀ k, w.allows k → p k) (ws : List Word) :
    Leads (lexemes src) (next p) (w :: ws) ψ := by
  intro tk htk tk' he
  cases he
  exact h _ (Word.allows_of_spells htk)

theorem Word.leads_isNot {w : Word} {k : TokenKind} (h : w.allows k = false) (ws : List Word) :
    Leads (lexemes src) (nextIsNot k) (w :: ws) ψ := by
  refine Word.leads ?_ ws
  rintro k' hk' rfl
  rw [h] at hk'
  cases hk'

theorem Starts.leads {p : TokenKind → Bool} {q : TokenKind → Prop} {ws : List Word} (h : Starts p ws)
    (hpq : ∀ k, p k → q k) : Leads (lexemes src) (next q) ws ψ := by
  obtain ⟨w, ws, rfl, h⟩ := h
  exact Word.leads (fun k hk => hpq k (h k hk)) ws

theorem Starts.leads_isNot {p : TokenKind → Bool} {k : TokenKind} {ws : List Word} (h : Starts p ws)
    (hk : p k = false) : Leads (lexemes src) (nextIsNot k) ws ψ := by
  refine h.leads ?_
  rintro k' hk' rfl
  rw [hk] at hk'
  cases hk'

/-- A parser of one kind of token refuses what begins with other kinds. -/
theorem Starts.leads_declines {p : TokenKind → Bool} {k : TokenKind} {ws : List Word} (h : Starts p ws)
    (hk : p k = false) :
    Leads (lexemes src) (fun t => ∀ st : ParseStream, st.rest.head? = t → Declines (require k) st) ws ψ := by
  obtain ⟨w, ws, rfl, h⟩ := h
  rintro tk htk st hst
  refine require_declines_of_next ?_
  rw [hst]
  rintro _ ⟨⟩ rfl
  rw [h _ (Word.allows_of_spells htk)] at hk
  cases hk

/-! ### Tokens of a fixed kind -/

/-- A token of a fixed kind whose value is not used. -/
theorem Reads.require {k : TokenKind} {p : Parser β} {us : List Word} {b : β} (h : Reads (lexemes src) ψ p us b) :
    Reads (lexemes src) ψ (PuralinguaIR.require k >>= fun _ => p) (.token k :: us) b :=
  Reads.one (g := id) (fun _ _ _ => require_run) fun _ _ => h

theorem takes_require (k : TokenKind) : Takes (lexemes src) ψ (require k) [.token k] := by
  intro st ts us _ hr hw _
  cases hw with
  | cons ht hnil =>
    cases hnil
    exact ⟨_, require_run hr ht⟩

/-- An optional token that is there. -/
theorem Reads.attempt_require {k : TokenKind} {f : Option TokenInfo → Parser β} {us : List Word} {b : β}
    (h : ∀ tk, (Word.token k).spells src tk → Reads (lexemes src) ψ (f (some tk)) us b) :
    Reads (lexemes src) ψ (Prog.attempt (PuralinguaIR.require k) >>= f) (.token k :: us) b :=
  Reads.one (g := some) (fun _ _ _ hr ht => attempt_of_ok (require_run hr ht)) h

/-- An optional token that is not there. -/
theorem Reads.skip_require {k : TokenKind} {f : Option TokenInfo → Parser β} {us : List Word} {b : β}
    (hl : Leads (lexemes src) (nextIsNot k) us ψ) (h : Reads (lexemes src) ψ (f none) us b) :
    Reads (lexemes src) ψ (Prog.attempt (PuralinguaIR.require k) >>= f) us b :=
  (Reads.attempt_none (φ := nextIsNot k) fun _ => require_declines_of_next).bind (w := []) hl h

theorem Reads.call_require {k : TokenKind} {p : Parser β} {us : List Word} {b : β}
    (h : Reads (lexemes src) ψ p us b) :
    Reads (lexemes src) ψ (PuralinguaIR.call (PuralinguaIR.require k) >>= fun _ => p) (.token k :: us) b :=
  Reads.one (g := id) (fun _ _ _ hr ht => call_ok (require_run hr ht)) fun _ _ => h

/-! ### Names -/

/-- A name is read from any of its tokens. -/
theorem Identifier.parse_run {st : ParseStream} {x : Identifier} {tk : TokenInfo} {ts : List TokenInfo}
    (hr : st.rest = tk :: ts) (h : NameToken st.source x.var tk) : Identifier.parse st = (.ok x, st.skip 1) := by
  refine bind_step (current_run hr) ?_
  cases h with
  | identifier h =>
    refine advance_step ?_
    refine bind_step (tokenText_run h) ?_
    exact name_eq x _
  | rawIdentifier h =>
    refine advance_step ?_
    refine bind_step (tokenText_run h) ?_
    refine bind_step (sliceOrPanic_run (a := ['r', '#']) (b := x.var.toList) (c := []) (by simp) rfl ?_) ?_
    · exact byteLen_append ['r', '#'] x.var.toList
    exact name_eq x _
  | @str span body suffix h hbody =>
    refine bind_step (tokenText_run h) ?_
    refine bind_step (subOrPanic_run (by omega)) ?_
    refine bind_step (sliceOrPanic_run (b := body) rfl rfl ?_) ?_
    · have : byteLen ['"'] = 1 := rfl
      omega
    refine advance_step ?_
    rw [hbody]
    exact name_eq x _
  | @rawStr span suffix n h =>
    have hsize : Char.utf8Size 'r' = 1 ∧ Char.utf8Size '"' = 1 := ⟨rfl, rfl⟩
    refine bind_step (subOrPanic_run (by rw [Option.getD_some]; omega)) ?_
    refine advance_step ?_
    refine bind_step (tokenText_run h) ?_
    refine bind_step (sliceOrPanic_run (b := x.var.toList) rfl ?_ ?_) ?_
    · simp only [Option.getD_some, byteLen_append, byteLen_cons, byteLen_hashes, byteLen_nil]
      omega
    · simp only [Option.getD_some, byteLen_append, byteLen_cons, byteLen_hashes, byteLen_nil]
      omega
    exact name_eq x _

/-- Where no name begins, nothing is taken. -/
theorem Identifier.parse_declines {st : ParseStream} (h : next (·.isName = false) st.rest.head?) :
    Declines Identifier.parse st := by
  rcases hr : st.rest with _ | ⟨⟨kind, span⟩, ts⟩
  · exact ⟨.unexpectedEOF, by simp [Identifier.parse, bind_run, PuralinguaIR.current, TokenStream.current_eq, hr]⟩
  · have htk : kind.isName = false := h ⟨kind, span⟩ (by rw [hr]; rfl)
    refine ⟨.unexpect ⟨kind, span⟩, (bind_of_ok (current_run hr)).trans ?_⟩
    cases kind with
    | literal kind suffixStart =>
      cases kind with
      | str terminated =>
        cases terminated with
        | true => cases htk
        | false => rfl
      | rawStr nHashes => cases htk
      | _ => rfl
    | identifier => cases htk
    | rawIdentifier => cases htk
    | _ => rfl

theorem Identifier.parse_reads (x : Identifier) :
    Reads (lexemes src) anything (call Identifier.parse) [.ident x] x := by
  intro st ts us hs hr hw _
  cases hw with
  | cons ht hnil =>
    cases hnil
    exact call_ok (Identifier.parse_run hr (hs ▸ ht))

/-! ### Integers -/

omit [UniParser] in
theorem IntegerToken.parse_run {st : ParseStream} {n : Nat} {tk : TokenInfo} {ts : List TokenInfo}
    (hr : st.rest = tk :: ts) (h : IntToken src n tk) : IntegerToken.parse st = (.ok tk, st.skip 1) := by
  have hk : tk.kind.isLiteralOf .int := by
    cases h
    rfl
  unfold IntegerToken.parse requireF
  exact takeIf_ok hr hk

omit [UniParser] in
/-- The value of an integer token is read from its digits, behind the marker of the base. -/
theorem IntegerToken.getValue_eq {s : ParseStream} {base : Base} {span : Span} {pre digits suffix : List Char}
    (h : textOf s.source span = some (pre ++ digits ++ suffix))
    (hpre : byteLen pre = if base = .decimal then 0 else 2) :
    IntegerToken.getValue ⟨.literal (.int base false) (byteLen pre + byteLen digits), span⟩ s =
      (.ok ((fromStrRadix (2 ^ 64) base.radix digits).map UInt64.ofNat), s) := by
  refine bind_step (tokenText_run h) ?_
  refine bind_step (sliceOrPanic_run (a := []) (b := pre ++ digits) rfl rfl (by simp)) ?_
  by_cases hb : base = .decimal
  · obtain rfl : pre = [] := byteLen_eq_zero.1 (by rw [hpre, if_pos hb])
    rw [if_pos hb, pure_bind, List.nil_append]
    rfl
  · rw [if_neg hb] at hpre
    rw [if_neg hb]
    exact bind_step (sliceOrPanic_run (b := digits) (List.append_nil _).symm hpre.symm (by simp)) rfl

omit [UniParser] in
theorem IntegerToken.getValue_run {s : ParseStream} {n : Nat} {tk : TokenInfo} (h : IntToken s.source n tk) :
    IntegerToken.getValue tk s = (.ok (some (UInt64.ofNat n)), s) := by
  cases h with
  | mk h hpre hn =>
    rw [IntegerToken.getValue_eq h hpre, hn]
    rfl

theorem integerValue_reads (n : UInt64) : Reads (lexemes src) anything integerValue [.int n.toNat] n := by
  intro st ts us hs hr hw _
  cases hw with
  | cons ht hnil =>
    cases hnil
    obtain rfl : st.source = src := hs
    refine bind_step (call_ok (IntegerToken.parse_run hr ht)) ?_
    refine bind_step (IntegerToken.getValue_run (s := st.skip 1) ht) ?_
    rw [UInt64.ofNat_toNat]
    rfl

theorem integerValue_declines {st : ParseStream} (h : next (·.isLiteralOf .int = false) st.rest.head?) :
    Declines integerValue st :=
  (call_declines (IntegerToken.parse_declines h)).bind _

theorem integerIndex_reads (n : UInt32) : Reads (lexemes src) anything integerIndex [.int n.toNat] n := by
  have h : Reads (lexemes src) anything integerValue _ _ := integerValue_reads (UInt64.ofNat n.toNat)
  have h' : (UInt64.ofNat n.toNat).toNat = n.toNat := by
    rw [UInt64.toNat_ofNat']
    have := n.toNat_lt
    exact Nat.mod_eq_of_lt (by omega)
  rw [h'] at h
  refine h.last ?_
  rw [tryU32_ofNat]
  exact Reads.pure n

theorem integerIndex_declines {st : ParseStream} (h : next (·.isLiteralOf .int = false) st.rest.head?) :
    Declines integerIndex st :=
  (integerValue_declines h).bind _

/-- A parser of integers refuses a name. -/
theorem leads_name {p : Parser α} (hp : ∀ st : ParseStream, next (·.isLiteralOf .int = false) st.rest.head? →
      Declines p st) (x : Identifier) :
    Leads (lexemes src) (fun t => ∀ st : ParseStream, st.rest.head? = t → Declines p st) [.ident x] φ := by
  intro tk htk st hst
  refine hp st ?_
  rw [hst]
  rintro _ ⟨⟩
  exact TokenKind.not_int_of_name (NameToken.isName htk)

end Rules

end PuralinguaIR
