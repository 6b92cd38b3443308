import PuralinguaIR.Lexing

/-!
# Lexing printed lists of tokens

The driver reads a printed list back token by token; the gaps between the tokens become white space and
comments, which are dropped (`lex_printTokens`).
-/

namespace PuralinguaIR

open Text

/-! ### Comments -/

theorem blockCommentLoop_plain {depth : Nat} {c : Char} {cs : List Char} (hopen : c = '/' → cs.head? ≠ some '*')
    (hclose : c = '*' → cs.head? ≠ some '/') : blockCommentLoop depth (c :: cs) = blockCommentLoop depth cs := by
  rw [blockCommentLoop.eq_def]
  split
  · contradiction
  · rename_i heq
    obtain ⟨rfl, rfl⟩ := List.cons.inj heq
    exact absurd rfl (hopen rfl)
  · rename_i heq
    obtain ⟨rfl, rfl⟩ := List.cons.inj heq
    exact absurd rfl (hclose rfl)
  · rename_i heq
    rw [(List.cons.inj heq).2]

theorem Closes.ne_nil {depth : Nat} {cs : List Char} (h : Closes depth cs) : cs ≠ [] := by
  cases h <;> simp

theorem blockCommentLoop_closes {depth : Nat} {cs : List Char} (h : Closes depth cs) (rest : List Char) :
    blockCommentLoop depth (cs ++ rest) = (0, rest) := by
  induction h with
  | last => rfl
  | close _ ih => exact ih
  | «open» _ ih => exact ih
  | @char depth c cs hopen hclose hcs ih =>
    have hhead : (cs ++ rest).head? = cs.head? := by
      obtain ⟨x, xs, rfl⟩ := List.exists_cons_of_ne_nil hcs.ne_nil
      rfl
    rw [List.cons_append, blockCommentLoop_plain (by rwa [hhead]) (by rwa [hhead]), ih]

section Driver

variable [UniLexer]

/-- The driver reads the given tokens from the byte `pos`, where the source goes on with `cs`, up to the byte
`pos'`, where it goes on with `rest`. -/
inductive Scans (src : List Char) :
    (pos : Nat) → (cs : List Char) → List TokenInfo → (pos' : Nat) → (rest : List Char) → Prop where
  | nil {pos cs} : Scans src pos cs [] pos cs
  | cons {pos c cs t cs' ts pos' rest} : scanToken src pos c cs = (t, cs') → cs'.length ≤ cs.length →
      Scans src t.span.stop cs' ts pos' rest → Scans src pos (c :: cs) (t :: ts) pos' rest

namespace Scans

variable {src cs cs' rest : List Char} {pos pos' p : Nat} {ts us : List TokenInfo}

theorem trans (h : Scans src pos cs ts pos' cs') (h' : Scans src pos' cs' us p rest) :
    Scans src pos cs (ts ++ us) p rest := by
  induction h with
  | nil => exact h'
  | cons hscan hlen _ ih => exact .cons hscan hlen (ih h')

/-- However many turns the driver has, if only one for each character. -/
theorem scanFrom_eq (h : Scans src pos cs ts pos' rest) {fuel : Nat} (hfuel : cs.length ≤ fuel) :
    ∃ fuel', rest.length ≤ fuel' ∧ scanFrom src fuel pos cs = ts ++ scanFrom src fuel' pos' rest := by
  induction h generalizing fuel with
  | nil => exact ⟨fuel, hfuel, rfl⟩
  | cons hscan hlen _ ih =>
    obtain ⟨fuel, rfl⟩ : ∃ n, fuel = n + 1 := ⟨fuel - 1, by simp at hfuel; omega⟩
    simp only [List.length_cons, Nat.add_le_add_iff_right] at hfuel
    obtain ⟨fuel', hfuel', heq⟩ := ih (Nat.le_trans hlen hfuel)
    refine ⟨fuel', hfuel', ?_⟩
    rw [scanFrom, hscan]
    simp only [heq, List.cons_append]

theorem scan_eq (h : Scans src 0 src ts pos' []) : scan src = ts := by
  obtain ⟨fuel', -, heq⟩ := h.scanFrom_eq (Nat.le_refl _)
  have hnil : scanFrom src fuel' pos' [] = [] := by cases fuel' <;> rfl
  rw [scan, heq, hnil, List.append_nil]

/-- A text that is read as one token. -/
theorem token {before text : List Char} {kind : TokenKind} (htext : LexesTo text kind)
    (hsrc : src = before ++ (text ++ rest)) (hstop : Stop rest) :
    Scans src (byteLen before) (text ++ rest) [⟨kind, ⟨byteLen before, byteLen before + byteLen text⟩⟩]
      (byteLen before + byteLen text) rest := by
  obtain ⟨first, tail, rfl, hws, hparse⟩ := htext
  have hsource : sourceFrom src (byteLen before) = first :: tail ++ rest := by
    rw [sourceFrom, hsrc, splitAtByte_append]
  have hpos : ((⟨src, byteLen before, [first], tail ++ rest⟩ : Cursor).skipTo rest).posWithinToken =
      byteLen (first :: tail) := by
    rw [Cursor.posWithinToken_skipTo (u := tail) rfl]
    simp [Cursor.posWithinToken]
  have hscan : scanToken src (byteLen before) first (tail ++ rest) =
      (⟨kind, ⟨byteLen before, byteLen before + byteLen (first :: tail)⟩⟩, rest) := by
    unfold scanToken
    rw [if_neg (by simp [hws]), hparse ⟨src, byteLen before, [first], tail ++ rest⟩ rest hstop rfl rfl hsource]
    simp only [hpos, Option.getD_some, Cursor.skipTo_rest]
  exact .cons hscan (by simp) .nil

theorem space : Scans src pos (' ' :: rest) [⟨.whiteSpace, ⟨pos, pos + 1⟩⟩] (pos + 1) rest :=
  .cons rfl (Nat.le_refl _) .nil

end Scans

private theorem parse_blockComment {c : Cursor} {body rest : List Char} {depth : Nat}
    (hbody : blockCommentLoop 1 (body ++ rest) = (depth, rest)) (p : Nat) (h : c.rest = '*' :: (body ++ rest)) :
    ∃ style, parse c p '/' = (some (.comment (.block style (depth == 0))), c.skipTo rest) := by
  have hfirst : c.first = '*' := Cursor.first_of_rest h
  have hskip := c.skipTo_skipTo (u := ['*']) h
  unfold parse blockComment
  rw [if_pos rfl, if_neg (by rw [hfirst]; decide), if_pos hfirst, c.bump_eq h]
  simp only [Cursor.skipTo_rest, hbody, hskip]
  exact ⟨_, rfl⟩

/-- A block comment, which may have no end. -/
theorem Scans.comment (src : List Char) (pos : Nat) {body rest : List Char} {depth : Nat}
    (hbody : blockCommentLoop 1 (body ++ rest) = (depth, rest)) :
    ∃ style, Scans src pos ('/' :: '*' :: body ++ rest)
      [⟨.comment (.block style (depth == 0)), ⟨pos, pos + byteLen ('/' :: '*' :: body)⟩⟩]
      (pos + byteLen ('/' :: '*' :: body)) rest := by
  obtain ⟨style, hparse⟩ := parse_blockComment (c := ⟨src, pos, ['/'], '*' :: (body ++ rest)⟩) hbody pos rfl
  have hpos : ((⟨src, pos, ['/'], '*' :: (body ++ rest)⟩ : Cursor).skipTo rest).posWithinToken =
      byteLen ('/' :: '*' :: body) := by
    rw [Cursor.posWithinToken_skipTo (u := '*' :: body) rfl]
    rfl
  have hscan : scanToken src pos '/' ('*' :: (body ++ rest)) =
      (⟨.comment (.block style (depth == 0)), ⟨pos, pos + byteLen ('/' :: '*' :: body)⟩⟩, rest) := by
    unfold scanToken
    rw [if_neg (by decide), hparse]
    simp only [hpos, Option.getD_some, Cursor.skipTo_rest]
  exact ⟨style, .cons hscan (by simp; omega) .nil⟩

/-- A gap leaves nothing. -/
theorem Scans.gap (src : List Char) (pos : Nat) (g : Gap) (rest : List Char) :
    ∃ ts, Scans src pos (g.text ++ rest) ts (pos + byteLen g.text) rest ∧ ts.filterMap (edit src) = [] := by
  cases g with
  | space => exact ⟨_, Scans.space, rfl⟩
  | comment body closes =>
    obtain ⟨style, hcomment⟩ := Scans.comment src (pos + 1) (blockCommentLoop_closes closes (' ' :: rest))
    have htext : (Gap.comment body closes).text ++ rest = ' ' :: ('/' :: '*' :: body ++ ' ' :: rest) := by
      simp [Gap.text]
    have hlen : pos + byteLen (Gap.comment body closes).text = pos + 1 + byteLen ('/' :: '*' :: body) + 1 := by
      have : byteLen (Gap.comment body closes).text = 1 + byteLen ('/' :: '*' :: body) + 1 := by
        rw [Gap.text, byteLen_append, byteLen_cons]
        rfl
      omega
    rw [htext, hlen]
    exact ⟨_, (Scans.space.trans hcomment).trans Scans.space, rfl⟩

omit [UniLexer] in
theorem Gap.stop (g : Gap) (rest : List Char) : Stop (g.text ++ rest) := by
  cases g with
  | space => exact .space _
  | comment body closes => exact .space _

/-! ### Editing -/

omit [UniLexer] in
private theorem keyword_tryFrom_none {s : String} (h : ∀ k : Keyword, k.asStr ≠ s) : Keyword.tryFrom s = none :=
  List.find?_eq_none.2 fun k _ => by simpa using h k

omit [UniLexer] in
private theorem statementKeyword_tryFrom_none {s : String} (h : ∀ k : StatementKeyword, k.asStr ≠ s) :
    StatementKeyword.tryFrom s = none :=
  List.find?_eq_none.2 fun k _ => by simpa using h k

omit [UniLexer] in
/-- Only identifiers are edited, and only white space and comments are dropped. -/
private theorem edit_of_ne {kind : TokenKind} (span : Span) (src : List Char) (hident : kind ≠ .identifier)
    (hspace : kind ≠ .whiteSpace) (hcomment : ∀ c, kind ≠ .comment c) :
    edit src ⟨kind, span⟩ = some ⟨kind, span⟩ := by
  unfold edit
  simp only [if_neg hident]

private theorem exists_identText {c : Char} {cs : List Char} (hascii : isAscii c) (hc : c.isAlpha || c == '_')
    (hcs : cs.all fun d => isAscii d && (d.isAlphanum || d == '_')) : ∃ x : IdentText, x.text = c :: cs := by
  refine ⟨⟨c, cs, ?_, fun d hd => ?_⟩, rfl⟩
  · rwa [UniLexer.isRustIdStart_ascii _ hascii]
  · obtain ⟨hascii, hd⟩ := Bool.and_eq_true_iff.1 (List.all_eq_true.1 hcs d hd)
    rwa [UniLexer.isXidContinue_ascii _ hascii]

theorem Keyword.exists_identText (k : Keyword) : ∃ x : IdentText, x.text = k.asStr.toList := by
  cases k <;> exact PuralinguaIR.exists_identText (by decide) (by decide) (by decide)

theorem StatementKeyword.exists_identText (k : StatementKeyword) : ∃ x : IdentText, x.text = k.asStr.toList := by
  cases k <;> exact PuralinguaIR.exists_identText (by decide) (by decide) (by decide)

omit [UniLexer] in
theorem edit_literal (src : List Char) (kind : LiteralKind) (suffixStart : Nat) (span : Span) :
    edit src ⟨.literal kind suffixStart, span⟩ = some ⟨.literal kind suffixStart, span⟩ :=
  edit_of_ne span src nofun nofun nofun

/-- A source that is the text of one literal. -/
theorem lex_literal {text : List Char} {kind : LiteralKind} {suffixStart : Nat}
    (h : LexesTo text (.literal kind suffixStart)) :
    lex text = [⟨.literal kind suffixStart, ⟨0, byteLen text⟩⟩] := by
  have hsrc : text = [] ++ (text ++ []) := by simp
  have hscan := Scans.token h hsrc .eof
  rw [List.append_nil, byteLen_nil, Nat.zero_add] at hscan
  rw [lex, hscan.scan_eq]
  exact List.filterMap_cons_some (edit_literal text kind suffixStart _)

/-- A printed token is read as one token, which is edited to its kind. -/
theorem PrintedToken.lexesTo (t : PrintedToken) : ∃ kind, LexesTo t.text kind ∧
    ∀ src span, textOf src span = some t.text → edit src ⟨kind, span⟩ = some ⟨t.kind, span⟩ := by
  cases t with
  | keyword k =>
    obtain ⟨x, hx⟩ := k.exists_identText
    have hident : LexesTo k.asStr.toList .identifier := hx ▸ lexesTo_identifier x
    refine ⟨.identifier, hident, fun src span htext => ?_⟩
    simp [edit, htext, PrintedToken.text, PrintedToken.kind, Keyword.tryFrom_asStr]
  | statementKeyword k =>
    obtain ⟨x, hx⟩ := k.exists_identText
    have hident : LexesTo k.asStr.toList .identifier := hx ▸ lexesTo_identifier x
    refine ⟨.identifier, hident, fun src span htext => ?_⟩
    simp [edit, htext, PrintedToken.text, PrintedToken.kind, Keyword.tryFrom_statementKeyword,
      StatementKeyword.tryFrom_asStr]
  | identifier x isFree =>
    refine ⟨.identifier, lexesTo_identifier x, fun src span htext => ?_⟩
    simp [edit, htext, PrintedToken.text, PrintedToken.kind, keyword_tryFrom_none isFree.1,
      statementKeyword_tryFrom_none isFree.2]
  | rawIdentifier x => exact ⟨_, lexesTo_rawIdentifier x, fun src span _ => edit_of_ne span src nofun nofun nofun⟩
  | specialChar c ne => exact ⟨_, lexesTo_specialChar ne, fun src span _ => edit_of_ne span src nofun nofun nofun⟩
  | int n suffix => exact ⟨_, lexesTo_int n suffix, fun src span _ => edit_of_ne span src nofun nofun nofun⟩
  | str s => exact ⟨_, lexesTo_str s, fun src span _ => edit_of_ne span src nofun nofun nofun⟩
  | rawStr s => exact ⟨_, lexesTo_rawStr s, fun src span _ => edit_of_ne span src nofun nofun nofun⟩
  | byteStr s => exact ⟨_, lexesTo_byteStr s, fun src span _ => edit_of_ne span src nofun nofun nofun⟩
  | rawByteStr s => exact ⟨_, lexesTo_rawByteStr s, fun src span _ => edit_of_ne span src nofun nofun nofun⟩
  | char c ne => exact ⟨_, lexesTo_char ne, fun src span _ => edit_of_ne span src nofun nofun nofun⟩

theorem Scans.printed {src before rest : List Char} (t : PrintedToken) (hsrc : src = before ++ (t.text ++ rest))
    (hstop : Stop rest) : ∃ tk, edit src tk = some ⟨t.kind, ⟨byteLen before, byteLen before + byteLen t.text⟩⟩ ∧
      Scans src (byteLen before) (t.text ++ rest) [tk] (byteLen before + byteLen t.text) rest := by
  obtain ⟨kind, htext, hedit⟩ := t.lexesTo
  have hslice : textOf src ⟨byteLen before, byteLen before + byteLen t.text⟩ = some t.text :=
    slice_of_eq (by rw [hsrc, List.append_assoc]) rfl rfl
  exact ⟨_, hedit _ _ hslice, Scans.token htext hsrc hstop⟩

/-! ### Lists of tokens -/

private theorem printTokens_cons (t : PrintedToken) (gap : Gap) (p : PrintedToken × Gap)
    (ts : List (PrintedToken × Gap)) :
    printTokens ((t, gap) :: p :: ts) = t.text ++ (gap.text ++ printTokens (p :: ts)) := by
  rw [printTokens, List.append_assoc]
  exact fun h => nomatch h

/-- A printed list is read back, whatever follows it. -/
theorem Scans.printTokens (ts : List (PrintedToken × Gap)) {src before rest : List Char}
    (hsrc : src = before ++ (PuralinguaIR.printTokens ts ++ rest)) (hstop : Stop rest) :
    ∃ tks, Scans src (byteLen before) (PuralinguaIR.printTokens ts ++ rest) tks
        (byteLen before + byteLen (PuralinguaIR.printTokens ts)) rest ∧
      tks.filterMap (edit src) = printedInfos (byteLen before) ts := by
  induction ts generalizing before with
  | nil => exact ⟨[], .nil, rfl⟩
  | cons p ts ih =>
    obtain ⟨t, gap⟩ := p
    cases ts with
    | nil =>
      obtain ⟨tk, hedit, hscan⟩ := Scans.printed t hsrc hstop
      exact ⟨[tk], hscan, by simp [hedit, printedInfos]⟩
    | cons p ts =>
      rw [printTokens_cons, List.append_assoc, List.append_assoc] at hsrc ⊢
      have hsrc' : src = (before ++ t.text ++ gap.text) ++ (PuralinguaIR.printTokens (p :: ts) ++ rest) := by
        simp [hsrc]
      -- one token, the gap after it, and the other tokens
      obtain ⟨tk, hedit, htoken⟩ := Scans.printed t hsrc (gap.stop _)
      obtain ⟨gs, hgap, hnone⟩ :=
        Scans.gap src (byteLen before + byteLen t.text) gap (PuralinguaIR.printTokens (p :: ts) ++ rest)
      obtain ⟨tks, hscan, htks⟩ := ih hsrc'
      rw [byteLen_append, byteLen_append] at hscan htks
      refine ⟨tk :: (gs ++ tks), ?_, ?_⟩
      · have := htoken.trans (hgap.trans hscan)
        simpa [Nat.add_assoc] using this
      · rw [List.filterMap_cons_some hedit, List.filterMap_append, hnone, List.nil_append, htks]
        rfl

theorem printedInfos_texts (ts : List (PrintedToken × Gap)) {src before rest : List Char}
    (hsrc : src = before ++ (printTokens ts ++ rest)) :
    List.Forall₂ (fun p tk => tk.kind = p.1.kind ∧ textOf src tk.span = some p.1.text) ts
      (printedInfos (byteLen before) ts) := by
  induction ts generalizing before with
  | nil => exact .nil
  | cons p ts ih =>
    obtain ⟨t, gap⟩ := p
    cases ts with
    | nil => exact .cons ⟨rfl, slice_of_eq (by rw [hsrc, printTokens, List.append_assoc]) rfl rfl⟩ .nil
    | cons p ts =>
      rw [printTokens_cons, List.append_assoc, List.append_assoc] at hsrc
      have hsrc' : src = (before ++ t.text ++ gap.text) ++ (printTokens (p :: ts) ++ rest) := by simp [hsrc]
      have hrest := ih hsrc'
      rw [byteLen_append, byteLen_append] at hrest
      exact .cons ⟨rfl, slice_of_eq (by rw [hsrc, List.append_assoc]) rfl rfl⟩ hrest

theorem lex_printed (ts : List (PrintedToken × Gap)) : lex (printTokens ts) = printedInfos 0 ts := by
  have hsrc : printTokens ts = [] ++ (printTokens ts ++ []) := by simp
  obtain ⟨tks, hscan, htks⟩ := Scans.printTokens ts hsrc .eof
  rw [List.append_nil] at hscan
  rw [lex, hscan.scan_eq, htks]
  rfl

/-- Lexing a printed list of tokens gives back the list: the same kinds, at the bytes where the texts stand. -/
theorem lex_printTokens (ts : List (PrintedToken × Gap)) :
    lex (printTokens ts) = printedInfos 0 ts ∧
      List.Forall₂ (fun p tk => tk.kind = p.1.kind ∧ textOf (printTokens ts) tk.span = some p.1.text) ts
        (lex (printTokens ts)) := by
  have hsrc : printTokens ts = [] ++ (printTokens ts ++ []) := by simp
  exact ⟨lex_printed ts, lex_printed ts ▸ printedInfos_texts ts hsrc⟩

end Driver

end PuralinguaIR
