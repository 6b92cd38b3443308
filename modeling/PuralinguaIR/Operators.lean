import PuralinguaIR.Sorting
import PuralinguaIR.Tiling

/-!
# Special characters

Some special characters begin others. `parsePrefix` takes the first one in descending order of the texts that
begins the source; this is the longest one (`SpecialChar.parsePrefix_eq_some`), and the token is exactly its
text (`parse_maximal_munch`).
-/

namespace PuralinguaIR

open Text

namespace SpecialChar

/-- The special character that is found begins the text, and is longer than every other one that does. -/
theorem parsePrefix_eq_some {cs : List Char} {s : SpecialChar} (h : parsePrefix cs = some s) :
    s.asStr.toList <+: cs ∧
      ∀ s' : SpecialChar, s'.asStr.toList <+: cs → s' = s ∨ s'.asStr.toList.length < s.asStr.toList.length := by
  have hsorted : variantsOrderedRev.Pairwise fun a b => b.asStr.toList < a.asStr.toList :=
    variantsOrderedRev_sorted.imp fun hlt => String.lt_iff.1 hlt
  obtain ⟨hs, hlongest⟩ := Sorting.longest_of_find? hsorted h
  exact ⟨hs, fun s' => hlongest s' (mem_variantsOrderedRev s')⟩

theorem parsePrefix_eq_none {cs : List Char} (h : parsePrefix cs = none) (s : SpecialChar) :
    ¬s.asStr.toList <+: cs := by
  have hs := List.find?_eq_none.1 h s (mem_variantsOrderedRev s)
  rwa [List.isPrefixOf_iff_prefix] at hs

/-- The text of a special character begins with a character of one byte that is no white space. -/
theorem exists_first (s : SpecialChar) : ∃ first tail, s.asStr.toList = first :: tail ∧ first.utf8Size = 1 ∧
    isWhiteSpaceChar first = false := by
  cases s <;> exact ⟨_, _, rfl, by decide, by decide⟩

end SpecialChar

theorem sourceFrom_append (before cs : List Char) : sourceFrom (before ++ cs) (byteLen before) = cs := by
  rw [sourceFrom, splitAtByte_append]

/-- The driver has taken the first character of a special character; the rest is taken by its bytes. -/
theorem Cursor.bumpBytes_specialChar {c : Cursor} {s : SpecialChar} {first : Char} {after : List Char}
    (heaten : c.eaten = [first]) (h : first :: c.rest = s.asStr.toList ++ after) :
    c.bumpBytes (byteLen s.asStr.toList - 1) = { c with eaten := s.asStr.toList, rest := after } := by
  obtain ⟨first', tail, htext, hsize, -⟩ := s.exists_first
  rw [htext] at h ⊢
  obtain ⟨rfl, hrest⟩ := List.cons.inj h
  have hlen : byteLen (first :: tail) - 1 = byteLen tail := by
    rw [byteLen_cons, hsize, Nat.add_sub_cancel_left]
  have hsplit : splitAtByte c.rest (byteLen tail) = some (tail, after) := hrest ▸ splitAtByte_append tail after
  have hskip : c.bumpBytes (byteLen tail) = c.skipTo after := by rw [Cursor.bumpBytes, hsplit]
  rw [hlen, hskip, c.skipTo_append hrest, heaten]
  rfl

section Lexer

variable [UniLexer]

/-- No earlier arm of `parse` takes a token that begins with `first`, where the source goes on with `rest`. -/
structure AtSpecialChar (first : Char) (rest : List Char) : Prop where
  ne_solidus : first ≠ '/'
  ne_r : first ≠ 'r'
  ne_b : first ≠ 'b'
  not_idStart : isRustIdStart first = false
  not_digit : isDecimalDigit first = false
  not_guarded : ¬(first = '#' ∧ (rest.headD eofChar = '"' ∨ rest.headD eofChar = '#'))
  ne_quote : first ≠ '\''
  ne_doubleQuote : first ≠ '"'

theorem AtSpecialChar.parse {c : Cursor} {prevPos : Nat} {first : Char} (h : AtSpecialChar first c.rest)
    {s : SpecialChar} (hs : SpecialChar.parsePrefix (sourceFrom c.originalSource prevPos) = some s) :
    parse c prevPos first = (some (.specialChar s), c.bumpBytes (byteLen s.asStr.toList - 1)) := by
  have hguarded : ¬(first = '#' ∧ (c.first = '"' ∨ c.first = '#')) := h.not_guarded
  unfold PuralinguaIR.parse
  rw [if_neg h.ne_solidus, if_neg h.ne_r, if_neg h.ne_b, if_neg (by simp [h.not_idStart]),
    if_neg (by simp [h.not_digit]), if_neg hguarded, if_neg h.ne_quote, if_neg h.ne_doubleQuote, hs]

/-- Where the lexer comes to the special characters, it finds none exactly if none begins the source there, and
else the longest one that does. The token is the text of this one, and the next token begins right after it. -/
theorem parse_maximal_munch (before : List Char) {first : Char} {rest : List Char} (h : AtSpecialChar first rest) :
    let src := before ++ first :: rest
    let c : Cursor := ⟨src, byteLen before, [first], rest⟩
    (SpecialChar.parsePrefix (sourceFrom src (byteLen before)) = none ∧
        ∀ s : SpecialChar, ¬s.asStr.toList <+: first :: rest) ∨
      ∃ s after, SpecialChar.parsePrefix (sourceFrom src (byteLen before)) = some s ∧
        first :: rest = s.asStr.toList ++ after ∧
        (∀ s' : SpecialChar, s'.asStr.toList <+: first :: rest →
          s' = s ∨ s'.asStr.toList.length < s.asStr.toList.length) ∧
        parse c (byteLen before) first = (some (.specialChar s),
          { c with eaten := s.asStr.toList, rest := after }) ∧
        ∀ fuel, scanFrom src (fuel + 1) (byteLen before) (first :: rest) =
          ⟨.specialChar s, ⟨byteLen before, byteLen (before ++ s.asStr.toList)⟩⟩ ::
            scanFrom src fuel (byteLen (before ++ s.asStr.toList)) after := by
  intro src c
  have hsource : sourceFrom src (byteLen before) = first :: rest := sourceFrom_append before (first :: rest)
  rw [hsource]
  cases hfind : SpecialChar.parsePrefix (first :: rest) with
  | none => exact .inl ⟨rfl, SpecialChar.parsePrefix_eq_none hfind⟩
  | some s =>
    obtain ⟨⟨after, hafter⟩, hlongest⟩ := SpecialChar.parsePrefix_eq_some hfind
    have hparse : parse c (byteLen before) first =
        (some (.specialChar s), { c with eaten := s.asStr.toList, rest := after }) := by
      rw [h.parse (hsource.symm ▸ hfind), Cursor.bumpBytes_specialChar rfl hafter.symm]
    have hspace : isWhiteSpaceChar first = false := by
      obtain ⟨first', tail, htext, -, hspace⟩ := s.exists_first
      rw [htext] at hafter
      exact (List.cons.inj hafter).1 ▸ hspace
    refine .inr ⟨s, after, rfl, hafter.symm, hlongest, hparse, fun fuel => ?_⟩
    rw [scanFrom, scanToken, hspace, if_neg Bool.false_ne_true, hparse, byteLen_append]
    rfl

end Lexer

/-- An arrow behind a hyphen is two hyphens and a greater-than sign. -/
theorem parse_maximal_munch_hyphens :
    SpecialChar.parsePrefix ['-', '-', '>'] = some .doubledHyphen ∧
      (∀ s : SpecialChar, s.asStr.toList <+: ['-', '-', '>'] → s = .doubledHyphen ∨ s.asStr.toList.length < 2) ∧
      ∀ fuel, @scanFrom asciiLexer ['-', '-', '>'] (fuel + 1) 0 ['-', '-', '>'] =
        ⟨.specialChar .doubledHyphen, ⟨0, 2⟩⟩ :: @scanFrom asciiLexer ['-', '-', '>'] fuel 2 ['>'] := by
  let _ := asciiLexer
  have h : AtSpecialChar '-' ['-', '>'] :=
    ⟨by decide, by decide, by decide, by decide, by decide, by decide, by decide, by decide⟩
  rcases parse_maximal_munch [] h with ⟨hnone, -⟩ | ⟨s, after, hs, hafter, hlongest, -, hscan⟩
  · cases hnone
  · cases hs
    cases hafter
    exact ⟨rfl, hlongest, hscan⟩

end PuralinguaIR
