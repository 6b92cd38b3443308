import PuralinguaIR.Lexer
import PuralinguaIR.Reading

/-!
# The token stream of the parser

The parser takes tokens from the lexed source one after the other. `require` and `expect` take the next token
when it is of the given kind and otherwise report an error and leave the position; the parts of the parsing
library whose code is elsewhere are collected in `UniParser`, each with the behaviour the parser relies on: a
failed call may put the position back, the alternatives of a derived parser are tried in order, and `punctuated`
follows the runs of a separated list.
-/

namespace PuralinguaIR

open Text Effect Effect.Prog Reading

inductive ParseError where
  | unexpect (tk : TokenInfo)
  | unexpectedEOF
  | expectLiteral (kind : LiteralKindType)
  | expectAllLiterals
  | unescape
  | parseInt
  | custom (message : String)
  | noMatch
deriving DecidableEq, Repr

abbrev ParseStream := TokenStream (List Char) TokenInfo

abbrev Parser (α : Type) := Reader (List Char) TokenInfo ParseError α

/-- The parsing library. -/
class UniParser where
  /-- The position after a failed call that began at one position and gave up at another. -/
  rewind : Nat → Nat → Nat
  rewind_self : ∀ i, rewind i i = i
  /-- The alternatives of a derived parser. -/
  firstOf : {α : Type} → List (Parser α) → Parser α
  firstOf_ok : ∀ {α : Type} {p : Parser α} {ps st st' a}, p st = (.ok a, st') → firstOf (p :: ps) st = (.ok a, st')
  firstOf_panic : ∀ {α : Type} {p : Parser α} {ps st st'}, p st = (.panic, st') →
    (firstOf (p :: ps) st).1 = .panic
  firstOf_declines : ∀ {α : Type} {p : Parser α} {ps st}, Declines p st → firstOf (p :: ps) st = firstOf ps st
  firstOf_nil : ∀ {α : Type} st, Declines (firstOf ([] : List (Parser α))) st
  /-- A list of items with separators; `atLeastOne` refuses the empty list. -/
  punctuated : {α β : Type} → (atLeastOne : Bool) → Parser α → Parser β → Parser (List α)
  punctuated_run : ∀ {α β : Type} {item : Parser α} {sep : Parser β} {atLeastOne : Bool} {st as st'},
    SeparatedRun item sep st as st' → as.length ≤ st.rest.length → (atLeastOne = true → as ≠ []) →
      punctuated atLeastOne item sep st = (.ok as, st')
  /-- The text a literal with escapes stands for. -/
  toUnescaped : List Char → Option (List Char)
  toUnescaped_plain : ∀ cs, '\\' ∉ cs → toUnescaped cs = some cs
  /-- The size of `usize` in bytes. -/
  sizeOfUsize : Nat

export UniParser (rewind firstOf punctuated toUnescaped sizeOfUsize)

instance : Coe SpecialChar TokenKind := ⟨.specialChar⟩

instance : Coe Keyword TokenKind := ⟨.keyword⟩

/-! ### Taking tokens -/

def require (k : TokenKind) : Parser TokenInfo := takeIf (·.kind == k) fun _ => .noMatch

def expect (k : TokenKind) : Parser TokenInfo := require k

def requireF (p : TokenInfo → Bool) : Parser TokenInfo := takeIf p fun _ => .noMatch

/-- Take the next token, whatever it is. -/
def consume : Parser (Option TokenInfo) := fun st =>
  match st.current with
  | some tk => (.ok (some tk), st.skip 1)
  | none => (.ok none, st)

def current : Parser (Option TokenInfo) := fun st => (.ok st.current, st)

def advance : Parser Unit := modify (·.skip 1)

/-- The text of a token; a span outside the source is a panic. -/
def tokenText (tk : TokenInfo) : Parser (List Char) := fun st => unwrap (textOf st.source tk.span) st

/-- Call a parser; when it fails, the position may be put back. -/
def call [UniParser] {α : Type} (p : Parser α) : Parser α := fun st =>
  match p st with
  | (.err e, st') => (.err e, { st' with index := rewind st.index st'.index })
  | r => r

/-- The part of `cs` from the byte `start` to the byte `stop`, which a panic ends when it is no part of it. -/
def sliceOrPanic (cs : List Char) (start stop : Nat) : Parser (List Char) := unwrap (slice cs start stop)

/-- `stop - n` in machine arithmetic: a negative position is a panic, at the subtraction or at the slice. -/
def subOrPanic (stop n : Nat) : Parser Nat := if n ≤ stop then pure (stop - n) else panic

section Rules

variable {α β ω : Type} {st st' : ParseStream} {a : α} {L : Spelling (List Char) TokenInfo ω}
  {φ ψ : Option TokenInfo → Prop}

theorem require_declines {k : TokenKind} (h : ∀ tk, st.rest.head? = some tk → tk.kind ≠ k) :
    Declines (require k) st :=
  takeIf_declines fun tk htk => by simpa using h tk htk

theorem requireF_declines {p : TokenInfo → Bool} (h : ∀ tk, st.rest.head? = some tk → p tk = false) :
    Declines (requireF p) st :=
  takeIf_declines h

theorem current_run {tk : TokenInfo} {ts : List TokenInfo} (h : st.rest = tk :: ts) :
    current st = (.ok (some tk), st) := by
  simp [current, TokenStream.current_eq, h]

theorem consume_run {tk : TokenInfo} {ts : List TokenInfo} (h : st.rest = tk :: ts) :
    consume st = (.ok (some tk), st.skip 1) := by
  simp [consume, TokenStream.current_eq, h]

/-- Looking at the next token without taking it. -/
theorem Reads.current {f : Option TokenInfo → Parser β} {w : ω} {us : List ω} {b : β}
    (hf : ∀ tk, L.spells w tk → Reads L ψ (f (some tk)) (w :: us) b) :
    Reads L ψ (PuralinguaIR.current >>= f) (w :: us) b := by
  intro st ts rest hs hr hws ha
  cases hws with
  | cons ht hws =>
    rw [bind_of_ok (current_run hr)]
    exact hf _ ht st _ rest hs hr (List.Forall₂.cons ht hws) ha

theorem Reads.consume {f : Option TokenInfo → Parser β} {w : ω} {us : List ω} {b : β}
    (hf : ∀ tk, L.spells w tk → Reads L ψ (f (some tk)) us b) :
    Reads L ψ (PuralinguaIR.consume >>= f) (w :: us) b :=
  Reads.one (g := some) (fun _ _ _ hr _ => consume_run hr) hf

variable [UniParser]

theorem call_ok {p : Parser α} (h : p st = (.ok a, st')) : call p st = (.ok a, st') := by
  simp [call, h]

theorem call_eq_ok {p : Parser α} : call p st = (.ok a, st') ↔ p st = (.ok a, st') := by
  refine ⟨fun h => ?_, call_ok⟩
  unfold call at h
  split at h
  · cases h
  · exact h

theorem call_declines {p : Parser α} (h : Declines p st) : Declines (call p) st := by
  obtain ⟨e, h⟩ := h
  exact ⟨e, by simp [call, h, UniParser.rewind_self]⟩

theorem Reads.call {p : Parser α} {ws : List ω} (h : Reads L φ p ws a) :
    Reads L φ (PuralinguaIR.call p) ws a :=
  fun st ts us hs hr hw hf => call_ok (h st ts us hs hr hw hf)

theorem Reads.firstOf {p : Parser α} {ps : List (Parser α)} {ws : List ω} (h : Reads L φ p ws a) :
    Reads L φ (firstOf (p :: ps)) ws a :=
  fun st ts us hs hr hw hf => UniParser.firstOf_ok (h st ts us hs hr hw hf)

/-- An alternative that refuses the first token is passed over. -/
theorem Reads.firstOf_skip {p : Parser α} {ps : List (Parser α)} {ws : List ω}
    (hp : Leads L (fun t => ∀ st : ParseStream, st.rest.head? = t → Declines p st) ws φ)
    (h : Reads L φ (PuralinguaIR.firstOf ps) ws a) : Reads L φ (PuralinguaIR.firstOf (p :: ps)) ws a := by
  intro st ts us hs hr hw hf
  have hd : Declines p st := hp.head hw hf st (hr ▸ rfl)
  rw [UniParser.firstOf_declines hd]
  exact h st ts us hs hr hw hf

/-- A list with separators, read up to a token at which neither a part nor a separator begins. -/
theorem Reads.punctuated {item : Parser α} {sep : Parser β} {s : ω} {words : α → List ω}
    {trailing atLeastOne : Bool}
    {xs : List α} (hitem : ∀ x ∈ xs, Reads L φ item (words x) x) (hne : ∀ x ∈ xs, words x ≠ [])
    (hsep : ∀ (st : ParseStream) t ts, st.rest = t :: ts → L.spells s t → ∃ b, sep st = (.ok b, st.skip 1))
    (hnext : ∀ t, L.spells s t → φ (some t)) (hlast : ∀ t, ψ t → φ t)
    (hend : ∀ st : ParseStream, ψ st.rest.head? → Declines item st ∧ Declines sep st)
    (hone : atLeastOne = true → xs ≠ []) :
    Reads L ψ (PuralinguaIR.punctuated atLeastOne item sep) (separated s words trailing xs) xs := by
  intro st ts us hs hr hw ha
  have hlen := length_le_separated s trailing hne
  rw [hw.length_eq] at hlen ⊢
  refine UniParser.punctuated_run (SeparatedRun.of_reads hitem hsep hnext hlast hend hs hr hw ha) ?_ hone
  rw [hr, List.length_append]
  omega

end Rules

/-! ### A parsing library -/

/-- The first alternative that does not fail, each tried at the same position. -/
def tryInOrder {α : Type} : List (Parser α) → Parser α
  | [] => fail .noMatch
  | p :: ps => fun st =>
    match p st with
    | (.err _, st') => tryInOrder ps { st' with index := st.index }
    | r => r

/-- A list with separators that takes at most the given number of turns. -/
def separatedTurns {α β : Type} (item : Parser α) (sep : Parser β) : (turns : Nat) → Parser (List α)
  | 0 => diverge
  | turns + 1 => do
    match ← attempt item with
    | none => pure []
    | some a =>
      match ← attempt sep with
      | none => pure [a]
      | some _ => do pure (a :: (← separatedTurns item sep turns))

def separatedList {α β : Type} (atLeastOne : Bool) (item : Parser α) (sep : Parser β) : Parser (List α) := do
  let as ← withTurns (separatedTurns item sep)
  if atLeastOne && as.isEmpty then fail .noMatch else pure as

private theorem separatedTurns_run {α β : Type} {item : Parser α} {sep : Parser β} {st st' : ParseStream}
    {as : List α} (h : SeparatedRun item sep st as st') {n : Nat} (hn : as.length < n) :
    separatedTurns item sep n st = (.ok as, st') := by
  induction h generalizing n with
  | none hi =>
    obtain ⟨n, rfl⟩ : ∃ m, n = m + 1 := ⟨n - 1, by omega⟩
    exact bind_step hi.attempt rfl
  | last hi hs =>
    obtain ⟨n, rfl⟩ : ∃ m, n = m + 1 := ⟨n - 1, by omega⟩
    exact bind_step (attempt_of_ok hi) (bind_step hs.attempt rfl)
  | more hi hs _ ih =>
    obtain ⟨n, rfl⟩ : ∃ m, n = m + 1 := ⟨n - 1, by omega⟩
    exact bind_step (attempt_of_ok hi) (bind_step (attempt_of_ok hs) (bind_step (ih (by simpa using hn)) rfl))

/-- The parsing library with texts that hold no escapes and a `usize` of eight bytes; a failed call puts the
position back to where it began. -/
@[reducible] def plainParser : UniParser where
  rewind start _ := start
  rewind_self _ := rfl
  firstOf := tryInOrder
  firstOf_ok h := by simp [tryInOrder, h]
  firstOf_panic h := by simp [tryInOrder, h]
  firstOf_declines h := by
    obtain ⟨e, h⟩ := h
    simp [tryInOrder, h]
  firstOf_nil st := ⟨.noMatch, rfl⟩
  punctuated := separatedList
  punctuated_run {_ _ _ _ _ _ as _} h hlen hone := by
    refine bind_step (separatedTurns_run h (Nat.lt_succ_of_le hlen)) ?_
    rw [if_neg]
    · rfl
    · cases as <;> simp_all
  toUnescaped cs := if '\\' ∈ cs then none else some cs
  toUnescaped_plain cs h := if_neg h
  sizeOfUsize := 8

end PuralinguaIR
