import PuralinguaIR.Lexing
import PuralinguaIR.Tiling

/-!
# Texts of literals

The text of a literal token is its main part, which ends at the start of the suffix, and the suffix
(`scan_literal`). A quoted literal with an end stands between two quotes, a raw one between two quotes with as
many hashes as the token says; a raw literal without a number of hashes has a letter and at least one more
character.
-/

namespace PuralinguaIR

open Text

/-- A content between two quotes with `n` hashes around them. -/
def hashed (n : Nat) (content : List Char) : List Char :=
  List.replicate n '#' ++ '"' :: content ++ '"' :: List.replicate n '#'

/-- The main parts and suffixes of the literals of a kind. -/
def LiteralKind.IsText (kind : LiteralKind) (main suffix : List Char) : Prop :=
  match kind with
  | .char true | .byte true | .str true | .byteStr true =>
    ∃ x body q, x.utf8Size = 1 ∧ q.utf8Size = 1 ∧ main = x :: body ++ [q]
  | .rawStr (some n) => ∃ content, main = 'r' :: hashed n.toNat content
  | .rawByteStr (some n) => ∃ content, main = 'b' :: 'r' :: hashed n.toNat content
  | .rawStr none => (∃ x u, x.utf8Size = 1 ∧ main = 'r' :: x :: u) ∧ suffix = []
  | .rawByteStr none => ∃ x u, main = 'b' :: 'r' :: x :: u
  | _ => True

/-! ### Quoted literals -/

theorem singleQuotedLoop_true {cs rest : List Char} (h : singleQuotedLoop cs = (true, rest)) :
    ∃ body, cs = body ++ '\'' :: rest := by
  fun_induction singleQuotedLoop cs with
  | case1 => cases h
  | case2 cs =>
    cases h
    exact ⟨[], rfl⟩
  | case3 cs => cases h
  | case4 cs _ => cases h
  | case5 cs _ ih =>
    obtain ⟨body, rfl⟩ := ih h
    exact ⟨'\n' :: body, rfl⟩
  | case6 => cases h
  | case7 c cs ih =>
    obtain ⟨body, rfl⟩ := ih h
    exact ⟨'\\' :: c :: body, rfl⟩
  | case8 c cs _ _ _ _ _ ih =>
    obtain ⟨body, rfl⟩ := ih h
    exact ⟨c :: body, rfl⟩

theorem doubleQuotedLoop_true {cs rest : List Char} (h : doubleQuotedLoop cs = (true, rest)) :
    ∃ body, cs = body ++ '"' :: rest := by
  fun_induction doubleQuotedLoop cs with
  | case1 => cases h
  | case2 cs =>
    cases h
    exact ⟨[], rfl⟩
  | case3 cs ih =>
    obtain ⟨body, rfl⟩ := ih h
    exact ⟨'\\' :: '\\' :: body, rfl⟩
  | case4 cs ih =>
    obtain ⟨body, rfl⟩ := ih h
    exact ⟨'\\' :: '"' :: body, rfl⟩
  | case5 c cs _ _ _ ih =>
    obtain ⟨body, rfl⟩ := ih h
    exact ⟨c :: body, rfl⟩

theorem singleQuotedString_true {c c' : Cursor} (h : singleQuotedString c = (true, c')) :
    ∃ body, c.rest = body ++ '\'' :: c'.rest := by
  unfold singleQuotedString at h
  split at h
  · rename_i hquote
    obtain rfl : c.bump.bump = c' := (Prod.mk.inj h).2
    have hsecond : c.rest.tail.headD eofChar = '\'' := hquote.1
    match hrest : c.rest with
    | [] | [x] =>
      rw [hrest] at hsecond
      exact absurd (show eofChar = '\'' from hsecond) (by decide)
    | x :: y :: rest =>
      rw [hrest] at hsecond
      obtain rfl : y = '\'' := hsecond
      rw [c.bump_eq hrest, Cursor.bump_eq _ rfl]
      exact ⟨[x], rfl⟩
  · generalize hloop : singleQuotedLoop c.rest = r at h
    obtain ⟨terminated, rest⟩ := r
    obtain ⟨rfl, rfl⟩ := Prod.mk.inj h
    exact singleQuotedLoop_true hloop

theorem doubleQuotedString_true {c c' : Cursor} (h : doubleQuotedString c = (true, c')) :
    ∃ body, c.rest = body ++ '"' :: c'.rest := by
  unfold doubleQuotedString at h
  generalize hloop : doubleQuotedLoop c.rest = r at h
  obtain ⟨terminated, rest⟩ := r
  obtain ⟨rfl, rfl⟩ := Prod.mk.inj h
  exact doubleQuotedLoop_true hloop

/-! ### Raw literals -/

theorem eatHashes_taken (limit : Nat) (cs : List Char) :
    cs = List.replicate (eatHashes limit cs).1 '#' ++ (eatHashes limit cs).2 := by
  fun_induction eatHashes limit cs with
  | case1 limit cs n rest' heq ih =>
    rw [heq] at ih
    rw [List.replicate_succ, List.cons_append]
    exact congrArg ('#' :: ·) ih
  | case2 limit cs _ => rfl

/-- The search ends behind a quote with all the hashes. -/
theorem rawStringLoop_ok {prefixLen startPos n fuel maxHashes m : Nat} {offset : Option Nat} {c c' : Cursor}
    (h : rawStringLoop prefixLen startPos n fuel maxHashes offset c = (.ok m, c')) :
    m = n ∧ ∃ content, c.rest = content ++ '"' :: (List.replicate n '#' ++ c'.rest) := by
  induction fuel generalizing maxHashes offset c with
  | zero => cases h
  | succ fuel ih =>
    rcases quote_cases n c.rest with hquote | ⟨before, after, hrest, hbefore⟩ |
      ⟨before, k, after, hrest, hbefore, hk, hend⟩
    · rw [rawStringLoop_eof hquote] at h
      cases h
    · rw [rawStringLoop_ends hbefore hrest] at h
      obtain ⟨hm, rfl⟩ := Prod.mk.inj h
      exact ⟨(Except.ok.inj hm).symm, before, hrest⟩
    · have hnext {maxHashes : Nat} {offset : Option Nat}
          (h : rawStringLoop prefixLen startPos n fuel maxHashes offset (c.skipTo after) = (.ok m, c')) :
          m = n ∧ ∃ content, c.rest = content ++ '"' :: (List.replicate n '#' ++ c'.rest) := by
        obtain ⟨hm, content, hcontent⟩ := ih h
        obtain rfl : after = content ++ '"' :: (List.replicate n '#' ++ c'.rest) := hcontent
        exact ⟨hm, before ++ '"' :: (List.replicate k '#' ++ content), by simp [hrest]⟩
      rw [rawStringLoop_goesOn hbefore hrest hk hend] at h
      split at h
      · exact hnext h
      · exact hnext h

theorem rawStringUnvalidated_ok {c c' : Cursor} {prefixLen n : Nat}
    (h : rawStringUnvalidated c prefixLen = (.ok n, c')) : ∃ content, c.rest = hashed n content ++ c'.rest := by
  unfold rawStringUnvalidated at h
  have hhashes := eatHashes_taken c.rest.length c.rest
  generalize eatHashes c.rest.length c.rest = r at h hhashes
  obtain ⟨k, rest'⟩ := r
  dsimp only at h hhashes
  split at h
  · rename_i hquote
    obtain ⟨after, rfl⟩ := List.head?_eq_some_iff.1 hquote
    rw [Cursor.bump_eq _ rfl] at h
    obtain ⟨rfl, content, hcontent⟩ := rawStringLoop_ok h
    have hcontent : after = _ := hcontent
    refine ⟨content, ?_⟩
    rw [hhashes, hcontent]
    simp [hashed]
  · cases h

/-- A raw literal has a first character besides its letters. -/
theorem rawStringUnvalidated_length_lt {c : Cursor} (h : c.rest ≠ []) (prefixLen : Nat) :
    (rawStringUnvalidated c prefixLen).2.rest.length < c.rest.length := by
  have hhashes := (eatHashes_suffix c.rest.length c.rest).length_le
  unfold rawStringUnvalidated
  generalize eatHashes c.rest.length c.rest = r at hhashes
  obtain ⟨k, rest'⟩ := r
  dsimp only at hhashes ⊢
  have hpos := List.length_pos_iff.2 h
  have hbump : (c.skipTo rest').bump.rest.length < c.rest.length := by
    show rest'.tail.length < c.rest.length
    rw [List.length_tail]
    omega
  split
  · exact Nat.lt_of_le_of_lt (rawStringLoop_forward _).rest_suffix.length_le hbump
  · exact hbump

section Readers

variable [UniLexer] {c c' : Cursor} {kind : LiteralKind} {suffixStart : Nat}

/-- The cursor has taken the rest of a literal of the given kind, whose text begins with `before`. -/
def LiteralTaken (before : List Char) (c c' : Cursor) (kind : LiteralKind) (suffixStart : Nat) : Prop :=
  ∃ main suffix, c.rest = main ++ suffix ++ c'.rest ∧ suffixStart = c.posWithinToken + byteLen main ∧
    kind.IsText (before ++ main) suffix

omit [UniLexer] in
/-- One more character belongs to the beginning. -/
theorem LiteralTaken.bump {before : List Char} {x : Char} (hfirst : c.first = x) (hx : x ≠ eofChar)
    (h : LiteralTaken (before ++ [x]) c.bump c' kind suffixStart) : LiteralTaken before c c' kind suffixStart := by
  obtain ⟨main, suffix, hrest, hstart, htext⟩ := h
  have hcons := Cursor.rest_of_first hfirst hx
  have hpos := (Cursor.Forward.bump c).posWithinToken (u := [x]) hcons
  refine ⟨x :: main, suffix, ?_, ?_, ?_⟩
  · rw [hcons, hrest]
    rfl
  · rw [hstart, hpos, byteLen_cons, byteLen_cons, byteLen_nil, Nat.add_zero, Nat.add_assoc]
  · rwa [List.append_assoc] at htext

theorem quotedLiteral_taken {body : Cursor → Bool × Cursor} (makeKind : Bool → LiteralKind) {before : List Char}
    {q : Char} (hforward : ∀ c : Cursor, c.Forward (body c).2)
    (hbody : ∀ c c' : Cursor, body c = (true, c') → ∃ v, c.rest = v ++ q :: c'.rest)
    (htrue : ∀ v suffix, (makeKind true).IsText (before ++ (v ++ [q])) suffix)
    (hfalse : ∀ main suffix, (makeKind false).IsText main suffix)
    (h : quotedLiteral body makeKind c = (.literal kind suffixStart, c')) :
    LiteralTaken before c c' kind suffixStart := by
  unfold quotedLiteral at h
  have hforward := hforward c
  generalize hrun : body c = r at h hforward
  obtain ⟨terminated, c₁⟩ := r
  obtain ⟨hkind, hc'⟩ := Prod.mk.inj h
  obtain ⟨rfl, rfl⟩ := TokenKind.literal.inj hkind
  cases terminated with
  | false =>
    obtain rfl : c₁ = c' := hc'
    obtain ⟨v, hv⟩ := hforward.exists_taken
    exact ⟨v, [], by rw [hv, List.append_nil], hforward.posWithinToken hv, hfalse _ _⟩
  | true =>
    obtain ⟨v, hv⟩ := hbody c c₁ hrun
    have hsuffix : c₁.Forward c' := hc' ▸ eatIdentifier_forward c₁
    obtain ⟨suffix, hsuffix⟩ := hsuffix.exists_taken
    refine ⟨v ++ [q], suffix, ?_, hforward.posWithinToken (by rw [hv]; simp), htrue v suffix⟩
    rw [hv, hsuffix]
    simp

theorem rawLiteral_taken {prefixLen : Nat} (makeKind : Option UInt8 → LiteralKind) {before : List Char} {x : Char}
    {rest : List Char} (hrest : c.rest = x :: rest)
    (hsome : ∀ n content suffix, (makeKind (some n)).IsText (before ++ hashed n.toNat content) suffix)
    (hnone : ∀ u, (makeKind none).IsText (before ++ x :: u) [])
    (h : rawLiteral prefixLen makeKind c = (.literal kind suffixStart, c')) :
    LiteralTaken before c c' kind suffixStart := by
  unfold rawLiteral rawDoubleQuotedString at h
  have hforward := rawStringUnvalidated_forward c prefixLen
  have hlength := rawStringUnvalidated_length_lt (hrest ▸ List.cons_ne_nil x rest) prefixLen
  generalize hrun : rawStringUnvalidated c prefixLen = r at h hforward hlength
  obtain ⟨res, c₁⟩ := r
  -- without a number of hashes the literal ends where the search ends
  have hbroken : LiteralTaken before c c₁ (makeKind none) c₁.posWithinToken := by
    obtain ⟨u, hu⟩ := hforward.exists_taken
    cases u with
    | nil =>
      rw [hu] at hlength
      exact absurd hlength (Nat.lt_irrefl _)
    | cons y u =>
      obtain rfl : x = y := (List.cons.inj (hrest.symm.trans hu)).1
      exact ⟨x :: u, [], by rw [hu, List.append_nil], hforward.posWithinToken hu, hnone u⟩
  cases res with
  | error e =>
    obtain ⟨hkind, rfl⟩ := Prod.mk.inj h
    obtain ⟨rfl, rfl⟩ := TokenKind.literal.inj hkind
    exact hbroken
  | ok n =>
    dsimp only at h
    by_cases hn : n < 256
    · rw [if_pos hn] at h
      obtain ⟨hkind, hc'⟩ := Prod.mk.inj h
      obtain ⟨rfl, rfl⟩ := TokenKind.literal.inj hkind
      obtain ⟨content, hcontent⟩ := rawStringUnvalidated_ok hrun
      have hsuffix : c₁.Forward c' := hc' ▸ eatIdentifier_forward c₁
      obtain ⟨suffix, hsuffix⟩ := hsuffix.exists_taken
      have hnat : n = (UInt8.ofNat n).toNat := (Nat.mod_eq_of_lt hn).symm
      refine ⟨hashed n content, suffix, ?_, hforward.posWithinToken hcontent, ?_⟩
      · rw [hcontent, hsuffix, List.append_assoc]
      · have htext := hsome (UInt8.ofNat n) content suffix
        rwa [← hnat] at htext
    · rw [if_neg hn] at h
      obtain ⟨hkind, rfl⟩ := Prod.mk.inj h
      obtain ⟨rfl, rfl⟩ := TokenKind.literal.inj hkind
      exact hbroken

/-! ### Literals -/

theorem byteString_taken (h : byteString c = (.literal kind suffixStart, c')) :
    LiteralTaken ['b'] c c' kind suffixStart := by
  rcases byteString_eq_literal h with ⟨hfirst, h⟩ | ⟨hfirst, h⟩ | ⟨hfirst, hsecond, h⟩
  · refine LiteralTaken.bump hfirst (by decide) ?_
    exact quotedLiteral_taken .byte singleQuotedString_forward (fun _ _ => singleQuotedString_true)
      (fun v _ => ⟨'b', '\'' :: v, '\'', rfl, rfl, rfl⟩) (fun _ _ => trivial) h
  · refine LiteralTaken.bump hfirst (by decide) ?_
    exact quotedLiteral_taken .byteStr doubleQuotedString_forward (fun _ _ => doubleQuotedString_true)
      (fun v _ => ⟨'b', '"' :: v, '"', rfl, rfl, rfl⟩) (fun _ _ => trivial) h
  · refine LiteralTaken.bump hfirst (by decide) ?_
    have hsecond : c.bump.first ≠ eofChar := by
      show c.second ≠ eofChar
      rcases hsecond with h | h <;> rw [h] <;> decide
    exact rawLiteral_taken .rawByteStr (Cursor.rest_of_first rfl hsecond) (fun _ content _ => ⟨content, rfl⟩)
      (fun u => ⟨_, u, rfl⟩) h

/-- Nothing is asked of the text of a number. -/
private theorem numberTail_isText (base : Base) (c : Cursor) (main suffix : List Char) :
    (numberTail base c).1.IsText main suffix := by
  unfold numberTail
  dsimp only
  split
  · split
    · split <;> exact trivial
    · exact trivial
  split <;> exact trivial

private theorem prefixedNumber_isText (base : Base) (eat : Cursor → Bool × Cursor) (c : Cursor)
    (main suffix : List Char) : (prefixedNumber base eat c).1.IsText main suffix := by
  unfold prefixedNumber
  dsimp only
  split
  · exact numberTail_isText _ _ _ _
  · exact trivial

theorem number_isText (c : Cursor) (first : Char) (main suffix : List Char) :
    (number c first).1.IsText main suffix := by
  unfold number
  split
  · split
    · exact prefixedNumber_isText _ _ _ _ _
    split
    · exact prefixedNumber_isText _ _ _ _ _
    split
    · exact prefixedNumber_isText _ _ _ _ _
    split
    · exact numberTail_isText _ _ _ _
    split
    · exact numberTail_isText _ _ _ _
    · exact trivial
  · exact numberTail_isText _ _ _ _

/-- The reader of numbers makes no kind that says anything about its text. -/
theorem number_kind_ne {kind : LiteralKind} {first : Char} {c c₁ : Cursor} (hkind : ¬ kind.IsText [] []) :
    number c first ≠ (kind, c₁) := by
  intro h
  have htext := number_isText c first [] []
  rw [h] at htext
  exact hkind htext

theorem parse_taken {prevPos : Nat} {first : Char}
    (h : parse c prevPos first = (some (.literal kind suffixStart), c')) :
    LiteralTaken [first] c c' kind suffixStart := by
  rcases parse_eq_literal h with
    ⟨rfl, hnext, hread⟩ | ⟨rfl, hread⟩ | ⟨-, c₁, hnumber, hstart, hc'⟩ | ⟨rfl, hread⟩ | ⟨rfl, hread⟩
  · have hfirst : c.first ≠ eofChar ∧ c.first.utf8Size = 1 := by
      rcases hnext with h | h <;> rw [h] <;> decide
    exact rawLiteral_taken .rawStr (Cursor.rest_of_first rfl hfirst.1) (fun _ content _ => ⟨content, rfl⟩)
      (fun u => ⟨⟨_, u, hfirst.2, rfl⟩, rfl⟩) hread
  · exact byteString_taken hread
  · have hforward := number_forward c first
    rw [hnumber] at hforward
    obtain ⟨v, hv⟩ := hforward.exists_taken
    have hsuffix : c₁.Forward c' := hc' ▸ eatIdentifier_forward c₁
    obtain ⟨suffix, hsuffix⟩ := hsuffix.exists_taken
    refine ⟨v, suffix, by rw [hv, hsuffix, List.append_assoc], hstart.trans (hforward.posWithinToken hv), ?_⟩
    have htext := number_isText c first ([first] ++ v) suffix
    rwa [hnumber] at htext
  · exact quotedLiteral_taken .char singleQuotedString_forward (fun _ _ => singleQuotedString_true)
      (fun v _ => ⟨'\'', v, '\'', rfl, rfl, rfl⟩) (fun _ _ => trivial) hread
  · exact quotedLiteral_taken .str doubleQuotedString_forward (fun _ _ => doubleQuotedString_true)
      (fun v _ => ⟨'"', v, '"', rfl, rfl, rfl⟩) (fun _ _ => trivial) hread

/-- The text of a literal token is its main part, up to the start of the suffix, and the suffix. -/
theorem scan_literal {src : List Char} {tk : TokenInfo} (htk : tk ∈ scan src)
    (hkind : tk.kind = .literal kind suffixStart) : ∃ main suffix, textOf src tk.span = some (main ++ suffix) ∧
      suffixStart = byteLen main ∧ kind.IsText main suffix := by
  obtain ⟨c, first, u, c', heaten, hrest, hparse, htext⟩ := scan_parse htk (by simp [hkind]) (by simp [hkind])
  rw [hkind] at hparse
  obtain ⟨main, suffix, hmain, hstart, hshape⟩ := parse_taken hparse
  rw [hrest] at hmain
  obtain rfl : u = main ++ suffix := List.append_cancel_right hmain
  exact ⟨first :: main, suffix, htext, by rw [hstart, Cursor.posWithinToken_first heaten, byteLen_cons], hshape⟩

/-! ### Raw identifiers -/

private theorem identifierOrUnknownPrefix_ne_raw (c : Cursor) :
    (identifierOrUnknownPrefix c).1 ≠ .rawIdentifier := by
  unfold identifierOrUnknownPrefix
  dsimp only
  split
  · nofun
  split <;> nofun

private theorem byteString_ne_raw (c : Cursor) : (byteString c).1 ≠ .rawIdentifier := by
  unfold byteString
  split
  · nofun
  split
  · nofun
  split
  · nofun
  · exact identifierOrUnknownPrefix_ne_raw c

theorem parse_eq_rawIdentifier {prevPos : Nat} {first : Char}
    (h : parse c prevPos first = (some .rawIdentifier, c')) :
    first = 'r' ∧ c.first = '#' ∧ c' = eatIdentifier c.bump := by
  have hkind {r : TokenKind × Cursor} (h : (some r.1, r.2) = (some TokenKind.rawIdentifier, c')) :
      r.1 = .rawIdentifier :=
    Option.some.inj (Prod.mk.inj h).1
  unfold parse at h
  dsimp only at h
  split at h
  · split at h
    · cases h
    split at h <;> cases h
  split at h
  · rename_i hr
    split at h
    · rename_i hsharp
      exact ⟨hr, hsharp.1, (Prod.mk.inj h).2.symm⟩
    split at h
    · cases hkind h
    · exact absurd (hkind h) (identifierOrUnknownPrefix_ne_raw c)
  split at h
  · exact absurd (hkind h) (byteString_ne_raw c)
  split at h
  · exact absurd (hkind h) (identifierOrUnknownPrefix_ne_raw c)
  split at h
  · cases h
  split at h
  · cases h
  split at h
  · cases h
  split at h
  · cases h
  split at h
  · cases h
  split at h <;> cases h

/-- A raw identifier begins with its marker. -/
theorem scan_rawIdentifier {src : List Char} {tk : TokenInfo} (htk : tk ∈ scan src)
    (hkind : tk.kind = .rawIdentifier) : ∃ name, textOf src tk.span = some ('r' :: '#' :: name) := by
  obtain ⟨c, first, u, c', -, hrest, hparse, htext⟩ := scan_parse htk (by simp [hkind]) (by simp [hkind])
  rw [hkind] at hparse
  obtain ⟨rfl, hsharp, hc'⟩ := parse_eq_rawIdentifier hparse
  have hcons := Cursor.rest_of_first hsharp (by decide)
  have hname : c.bump.Forward c' := hc' ▸ eatIdentifier_forward c.bump
  obtain ⟨name, hname⟩ := hname.exists_taken
  rw [hrest, hname, ← List.cons_append] at hcons
  obtain rfl : u = '#' :: name := List.append_cancel_right hcons
  exact ⟨name, htext⟩

end Readers

end PuralinguaIR
