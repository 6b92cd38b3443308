import Mathlib.Data.List.Infix
import PuralinguaIR.IntegerLoads

/-!
# Spellings

The tokens that spell a word, and for every word that can be written a plain one among them: an identifier if
the name is one, the fewest hashes for any other name, decimal digits. Words that are written by tokens which
spell them, with gaps, are a source whose tokens spell them (`spells_printTokens`), and so are words that are
written plainly (`plainText_spelled`).
-/

namespace PuralinguaIR

open Text Effect Effect.Prog Reading

/-! ### Spellings -/

section Spellings

variable [UniLexer] [UniParser]

/-- The printed tokens that spell a word. -/
inductive Word.SpelledBy : Word → PrintedToken → Prop where
  | keyword (k : Keyword) : SpelledBy (kw k) (.keyword k)
  | statementKeyword (k : StatementKeyword) : SpelledBy (token (.statementKeyword k)) (.statementKeyword k)
  | specialChar {c : SpecialChar} (ne : c ≠ .underscore) : SpelledBy (sym c) (.specialChar c ne)
  | identifier {x : IdentText} (isFree : x.IsFree) : SpelledBy (name (String.ofList x.text)) (.identifier x isFree)
  | rawIdentifier (x : IdentText) : SpelledBy (name (String.ofList x.text)) (.rawIdentifier x)
  | str {s : StrText} {x : String} : toUnescaped s.body = some x.toList → SpelledBy (name x) (.str s)
  | rawStr (s : RawText) : SpelledBy (name (String.ofList s.content)) (.rawStr s)
  | assembly {x : String} {t : PrintedToken} : SpelledBy (name x) t → SpelledBy (assembly x) t
  | self : SpelledBy (assembly "!") (.specialChar .exclamationMark nofun)
  | int {n : Nat} {t : IntText} (suffix : Option IntSuffix) :
      fromStrRadix (2 ^ 64) t.base.radix t.digits = some n → SpelledBy (int n) (.int t suffix)
  | literal {isNegative : Option Bool} {content : LoadableContent} {t : PrintedToken} :
      (∀ src span, textOf src span = some t.text → LiteralToken src isNegative content ⟨t.kind, span⟩) →
      SpelledBy (literal isNegative content) t

omit [UniLexer] [UniParser] in
private theorem byteLen_marker (b : Base) : byteLen b.marker = if b = .decimal then 0 else 2 := by
  cases b <;> rfl

private theorem nameToken_str {src : List Char} {span : Span} {s : StrText} {x : String}
    (hs : toUnescaped s.body = some x.toList) (htext : textOf src span = some s.text) :
    NameToken src x ⟨(PrintedToken.str s).kind, span⟩ := by
  have hlen : byteLen (PrintedToken.str s).text = byteLen s.body + 2 := by
    have hquote : Char.utf8Size '"' = 1 := rfl
    simp only [PrintedToken.text, StrText.text, List.cons_append, byteLen_cons, byteLen_append, byteLen_nil]
    omega
  rw [PrintedToken.kind, hlen]
  have hbody : textOf src span = some (['"'] ++ s.body ++ '"' :: []) := htext
  exact NameToken.str hbody hs

/-- Where the text of a token that spells a word stands, the token of the source spells it. -/
theorem Word.SpelledBy.spells {w : Word} {t : PrintedToken} (h : w.SpelledBy t) {src : List Char} {span : Span}
    (htext : textOf src span = some t.text) : w.spells src ⟨t.kind, span⟩ := by
  induction h with
  | keyword k => rfl
  | statementKeyword k => rfl
  | specialChar ne => rfl
  | @identifier x isFree => exact NameToken.identifier (by rw [String.toList_ofList]; exact htext)
  | rawIdentifier x => exact NameToken.rawIdentifier (by rw [String.toList_ofList]; exact htext)
  | str hs => exact nameToken_str hs htext
  | rawStr s =>
    rw [← List.append_nil (PrintedToken.text _)] at htext
    exact nameToken_rawStr htext
  | assembly _ ih => exact Or.inl (ih htext)
  | self => exact Or.inr ⟨rfl, rfl, htext⟩
  | @int n t suffix hn =>
    have hkind : byteLen t.text = byteLen t.base.marker + byteLen t.digits := byteLen_append _ _
    rw [PrintedToken.kind, hkind]
    exact IntToken.mk htext (byteLen_marker t.base) hn
  | literal h => exact h src span htext

/-- A printed rendering is a source whose tokens spell its words. -/
theorem spells_printTokens {ws : List Word} {ts : List (PrintedToken × Gap)}
    (h : List.Forall₂ Word.SpelledBy ws (ts.map Prod.fst)) :
    List.Forall₂ (Word.spells (printTokens ts)) ws (lex (printTokens ts)) := by
  have hsrc : printTokens ts = [] ++ (printTokens ts ++ []) := by simp
  have htexts := printedInfos_texts ts hsrc
  rw [lex_printed]
  change List.Forall₂ _ ts (printedInfos 0 ts) at htexts
  clear hsrc
  generalize printedInfos 0 ts = infos at htexts ⊢
  generalize printTokens ts = src at htexts ⊢
  induction ts generalizing ws infos with
  | nil =>
    cases htexts
    cases h
    exact .nil
  | cons p ts ih =>
    cases htexts with
    | @cons _ tk _ infos htk htexts =>
      cases h with
      | cons hw h =>
        refine .cons ?_ (ih h infos htexts)
        obtain ⟨kind, span⟩ := tk
        obtain ⟨rfl, htext⟩ := htk
        exact hw.spells htext

/-- The source has a token for each word. -/
theorem length_lex_of_spelledBy {ws : List Word} {ts : List (PrintedToken × Gap)}
    (h : List.Forall₂ Word.SpelledBy ws (ts.map Prod.fst)) : (lex (printTokens ts)).length = ws.length :=
  (spells_printTokens h).length_eq.symm

omit [UniParser] in
/-- No printed token is invalid. -/
theorem printedInfos_valid (pos : Nat) (ts : List (PrintedToken × Gap)) :
    (printedInfos pos ts).find? (·.kind.isInvalid) = none := by
  induction ts generalizing pos with
  | nil => rfl
  | cons p ts ih =>
    obtain ⟨t, gap⟩ := p
    have hkind : t.kind.isInvalid = false := by cases t <;> rfl
    rw [printedInfos, List.find?_cons_of_neg (by simp [hkind])]
    exact ih _

omit [UniParser] in
theorem printTokens_valid (ts : List (PrintedToken × Gap)) :
    (lex (printTokens ts)).find? (·.kind.isInvalid) = none := by
  rw [lex_printed]
  exact printedInfos_valid 0 ts

end Spellings

/-! ### Plain spellings -/

section Numbers

/-- The decimal digits of a number. -/
def IntText.decimal (n : Nat) : IntText :=
  .ofDigits .decimal (Nat.toDigits 10 n) Nat.toDigits_ne_nil (Base.decimal.value_toDigits n).1

theorem IntText.decimal_fits {n bound : Nat} (h : n < bound) : Base.decimal.Fits (decimal n).digits bound := by
  obtain ⟨hdigits, hvalue⟩ := Base.decimal.value_toDigits n
  exact ⟨Nat.toDigits_ne_nil, hdigits, hvalue.symm ▸ h⟩

theorem IntText.value_decimal (n : Nat) : Base.decimal.value (decimal n).digits = n :=
  (Base.decimal.value_toDigits n).2

theorem IntType.content_of_intValue {content : LoadableContent} {t : IntType} {v : Int}
    (h : content.intValue = some (t, v)) : t.content v = content := by
  cases content with
  | u8 x | u16 x | u32 x | u64 x | i8 x | i16 x | i32 x | i64 x =>
    obtain ⟨rfl, rfl⟩ := Prod.mk.inj (Option.some.inj h)
    simp [IntType.content]
  | _ => cases h

end Numbers

section Plain

variable [UniLexer]

/-- The raw string with the fewest hashes, if not too many are needed. -/
def RawText.ofText? (cs : List Char) : Option RawText :=
  (List.range (2 ^ 8)).findSome? fun n =>
    if h : ¬ '"' :: List.replicate (UInt8.ofNat n).toNat '#' <:+: cs then some ⟨.ofNat n, cs, h⟩ else none

/-- The identifier, if the text is one. -/
def IdentText.ofText? : List Char → Option IdentText
  | [] => none
  | c :: cs =>
    if h : isRustIdStart c ∧ cs.all isXidContinue then some ⟨c, cs, h.1, List.all_eq_true.1 h.2⟩ else none

theorem IdentText.isFree_of_tryFrom {x : IdentText} (h : Keyword.tryFrom (String.ofList x.text) = none)
    (h' : StatementKeyword.tryFrom (String.ofList x.text) = none) : x.IsFree := by
  constructor
  · intro k hk
    rw [← hk, Keyword.tryFrom_asStr] at h
    cases h
  · intro k hk
    rw [← hk, StatementKeyword.tryFrom_asStr] at h'
    cases h'

namespace PrintedToken

/-- A raw string. -/
def rawStr? (s : String) : Option PrintedToken := (RawText.ofText? s.toList).map rawStr

/-- A name, as an identifier if it is one. -/
def name? (s : String) : Option PrintedToken :=
  match IdentText.ofText? s.toList with
  | some x =>
    if h : Keyword.tryFrom (String.ofList x.text) = none ∧
      StatementKeyword.tryFrom (String.ofList x.text) = none then some (identifier x (x.isFree_of_tryFrom h.1 h.2))
    else rawStr? s
  | none => rawStr? s

/-- What is loaded, behind a hyphen or not. There is no text of a byte or a byte string, and of the least number
of a signed type. -/
def literal? (isNegative : Option Bool) : LoadableContent → Option PrintedToken
  | .string s => if isNegative = none then rawStr? s else none
  | .char c => if h : isNegative = none ∧ c ≠ '\\' then some (.char c h.2) else none
  | content =>
    content.intValue.bind fun x =>
      if x.2.natAbs < x.1.bound ∧
          (if x.1.signed ∧ isNegative = some true then -(x.2.natAbs : Int) else x.2.natAbs) = x.2 then
        some (int (.decimal x.2.natAbs) (some x.1.suffix))
      else none

end PrintedToken

/-- A plain token that spells the word, if there is one. -/
def Word.plain : Word → Option PrintedToken
  | token (.keyword k) => some (.keyword k)
  | token (.statementKeyword k) => some (.statementKeyword k)
  | token (.specialChar c) => if h : c ≠ .underscore then some (.specialChar c h) else none
  | token _ => none
  | name s => PrintedToken.name? s
  | assembly s => if s = "!" then some (.specialChar .exclamationMark nofun) else PrintedToken.name? s
  | int n => if n < 2 ^ 64 then some (.int (.decimal n) none) else none
  | literal isNegative content => PrintedToken.literal? isNegative content

/-- Words written plainly, with a space between any two. -/
def plainText (ws : List Word) : Option (List (PrintedToken × Gap)) := ws.mapM fun w => w.plain.map (·, .space)

omit [UniLexer] in
theorem RawText.content_of_ofText? {cs : List Char} {s : RawText} (h : ofText? cs = some s) : s.content = cs := by
  obtain ⟨n, -, hn⟩ := List.exists_of_findSome?_eq_some h
  split at hn
  · cases hn
    rfl
  · cases hn

theorem IdentText.text_of_ofText? {cs : List Char} {x : IdentText} (h : ofText? cs = some x) : x.text = cs := by
  cases cs with
  | nil => cases h
  | cons c cs =>
    simp only [ofText?, Option.dite_none_right_eq_some, Option.some.injEq] at h
    obtain ⟨-, rfl⟩ := h
    rfl

variable [UniParser]

/-! ### Plain spellings are spellings -/

namespace PrintedToken

theorem rawStr?_spells {s : String} {t : PrintedToken} (h : rawStr? s = some t) : (Word.name s).SpelledBy t := by
  obtain ⟨x, hx, rfl⟩ := Option.map_eq_some_iff.1 h
  have hspelled := Word.SpelledBy.rawStr x
  rwa [x.content_of_ofText? hx, String.ofList_toList] at hspelled

theorem name?_spells {s : String} {t : PrintedToken} (h : name? s = some t) : (Word.name s).SpelledBy t := by
  unfold name? at h
  split at h
  · rename_i x hx
    split at h
    · rename_i hfree
      obtain rfl := Option.some.inj h
      have hname : String.ofList x.text = s := by rw [x.text_of_ofText? hx, String.ofList_toList]
      exact hname ▸ .identifier (x.isFree_of_tryFrom hfree.1 hfree.2)
    · exact rawStr?_spells h
  · exact rawStr?_spells h

private theorem string_spells {s : String} {t : PrintedToken} (h : rawStr? s = some t) :
    (Word.literal none (.string s)).SpelledBy t := by
  obtain ⟨x, hx, rfl⟩ := Option.map_eq_some_iff.1 h
  refine .literal fun src span htext => ⟨_, _, rfl, ?_⟩
  rintro st rfl
  rw [← List.append_nil (text _)] at htext
  have hrun : LoadableContent.ofLiteral ⟨(PrintedToken.rawStr x).kind, span⟩ (.rawStr (some x.nHashes))
      (byteLen ('r' :: x.text)) none st = (.ok (.string (String.ofList x.content)), st) :=
    LoadableContent.ofLiteral_rawStr htext
  rwa [x.content_of_ofText? hx, String.ofList_toList] at hrun

private theorem char_spells {c : Char} (hc : c ≠ '\\') : (Word.literal none (.char c)).SpelledBy (.char c hc) := by
  refine .literal fun src span htext => ⟨_, _, rfl, ?_⟩
  rintro st rfl
  have hbody : '\\' ∉ [c] := fun h => hc (List.mem_singleton.1 h).symm
  exact bind_step (LoadableContent.quotedText_plain '\'' '\'' [c] rfl rfl hbody htext) rfl

private theorem int_spells {isNegative : Option Bool} {content : LoadableContent} {t : IntType} {v : Int}
    (hcontent : content.intValue = some (t, v)) (hbound : v.natAbs < t.bound)
    (hsign : (if t.signed ∧ isNegative = some true then -(v.natAbs : Int) else v.natAbs) = v) :
    (Word.literal isNegative content).SpelledBy (.int (.decimal v.natAbs) (some t.suffix)) := by
  refine .literal fun src span htext => ⟨_, _, rfl, ?_⟩
  rintro st rfl
  obtain ⟨hread, -⟩ := t.read_run (b := .decimal) (IntText.decimal v.natAbs).areHexadecimal isNegative st
  have hvalue := hread (IntText.decimal_fits hbound)
  rw [IntText.value_decimal, hsign, t.content_of_intValue hcontent] at hvalue
  have hsuffix : String.ofList ((some t.suffix).map (·.asStr.toList) |>.getD []) = t.suffix.asStr :=
    String.ofList_toList
  refine (LoadableContent.ofLiteral_int htext isNegative).trans ?_
  rw [hsuffix, LoadableContent.ofDigits_suffix, t.type?_suffix]
  exact hvalue

theorem literal?_spells {isNegative : Option Bool} {content : LoadableContent} {t : PrintedToken}
    (h : literal? isNegative content = some t) : (Word.literal isNegative content).SpelledBy t := by
  unfold literal? at h
  split at h
  · split at h
    · subst isNegative
      exact string_spells h
    · cases h
  · simp only [Option.dite_none_right_eq_some, Option.some.injEq] at h
    obtain ⟨⟨rfl, hc⟩, rfl⟩ := h
    exact char_spells hc
  · obtain ⟨⟨ty, v⟩, hvalue, ht⟩ := Option.bind_eq_some_iff.1 h
    simp only [Option.ite_none_right_eq_some, Option.some.injEq] at ht
    obtain ⟨⟨hbound, hsign⟩, rfl⟩ := ht
    exact int_spells hvalue hbound hsign

end PrintedToken

theorem Word.spelledBy_of_plain {w : Word} {t : PrintedToken} (h : w.plain = some t) : w.SpelledBy t := by
  cases w with
  | token k =>
    cases k with
    | keyword k =>
      obtain rfl := Option.some.inj h
      exact .keyword k
    | statementKeyword k =>
      obtain rfl := Option.some.inj h
      exact .statementKeyword k
    | specialChar c =>
      simp only [plain, Option.dite_none_right_eq_some, Option.some.injEq] at h
      obtain ⟨hc, rfl⟩ := h
      exact .specialChar hc
    | _ => cases h
  | name s => exact PrintedToken.name?_spells h
  | assembly s =>
    by_cases hself : s = "!"
    · subst s
      obtain rfl := Option.some.inj h
      exact .self
    · rw [plain, if_neg hself] at h
      exact .assembly (PrintedToken.name?_spells h)
  | int n =>
    simp only [plain, Option.ite_none_right_eq_some, Option.some.injEq] at h
    obtain ⟨hn, rfl⟩ := h
    refine .int none ((fromStrRadix_eq_some (IntText.decimal n).head_ne_plus).2 ⟨IntText.decimal_fits hn, ?_⟩)
    exact (IntText.value_decimal n).symm
  | literal isNegative content => exact PrintedToken.literal?_spells h

omit [UniParser] in
/-- Words can be written plainly if each of them can. -/
theorem exists_plainText {ws : List Word} (h : ∀ w ∈ ws, w.plain.isSome) : ∃ ts, plainText ws = some ts := by
  induction ws with
  | nil => exact ⟨[], rfl⟩
  | cons w ws ih =>
    obtain ⟨t, ht⟩ := Option.isSome_iff_exists.1 (h w List.mem_cons_self)
    obtain ⟨ts, hts⟩ := ih fun x hx => h x (List.mem_cons_of_mem w hx)
    refine ⟨(t, .space) :: ts, ?_⟩
    rw [plainText] at hts
    rw [plainText, List.mapM_cons, ht, hts]
    rfl

/-- Words that are written plainly are spelled by what is written. -/
theorem plainText_spelled {ws : List Word} {ts : List (PrintedToken × Gap)} (h : plainText ws = some ts) :
    List.Forall₂ Word.SpelledBy ws (ts.map Prod.fst) := by
  induction ws generalizing ts with
  | nil =>
    obtain rfl : [] = ts := Option.some.inj h
    exact .nil
  | cons w ws ih =>
    rw [plainText, List.mapM_cons] at h
    obtain ⟨p, hp, h⟩ := Option.bind_eq_some_iff.1 h
    obtain ⟨ps, hps, h⟩ := Option.bind_eq_some_iff.1 h
    obtain rfl := Option.some.inj h
    obtain ⟨t, ht, rfl⟩ := Option.map_eq_some_iff.1 hp
    exact .cons (Word.spelledBy_of_plain ht) (ih hps)

end Plain

end PuralinguaIR
