import PuralinguaIR.Members

/-!
# Exception tables

The words of an exception table with the handler clauses of each entry in an order of its own are parsed as the
entries (`parseExceptionTable_words`).
-/

namespace PuralinguaIR

open Text Effect Effect.Prog Reading

/-! ### Reading tables back -/

/-- An entry and the order in which its handler clauses are written. -/
structure WrittenEntry where
  entry : ExceptionTableEntry
  clauses : List HandlerClause
  clauses_perm : clauses.Perm entry.clauses

def WrittenEntry.words (e : WrittenEntry) : List Word := e.entry.wordsWith e.clauses

/-- The words of a table, which may have no entries. -/
def tableWords (entries : List WrittenEntry) : List Word :=
  .kw .exceptionTable :: .sym .braceOpen :: (entries.flatMap WrittenEntry.words ++ [.sym .braceClose])

section Reading

variable [UniParser] {tyGenerics methodGenerics : List Identifier}

theorem tableWords_reads {src : List Char} {entries : List WrittenEntry}
    (hscope : ∀ e ∈ entries, e.entry.inScope tyGenerics methodGenerics) :
    Reads (lexemes src) anything (parseExceptionTable tyGenerics methodGenerics) (tableWords entries)
      (entries.map WrittenEntry.entry) :=
  Reads.attempt_require fun _ _ => Reads.require <| collectValues_reads
    (fun e he => parseExceptionTableEntry_reads (hscope e he) e.clauses_perm)
    (fun e _ => entry_starts e.entry e.clauses) rfl

/-- A table is read back whatever follows it, and whatever the orders of its handler clauses. -/
theorem parseExceptionTable_words {entries : List WrittenEntry}
    (hscope : ∀ e ∈ entries, e.entry.inScope tyGenerics methodGenerics) {st : ParseStream}
    {ts rest : List TokenInfo}
    (hr : st.rest = ts ++ rest) (hts : List.Forall₂ (Word.spells st.source) (tableWords entries) ts) :
    parseExceptionTable tyGenerics methodGenerics st =
        (.ok (entries.map WrittenEntry.entry), st.skip ts.length) ∧
      (st.skip ts.length).rest = rest := by
  have h := tableWords_reads hscope st ts rest rfl hr hts trivial
  rw [hts.length_eq] at h
  exact ⟨h, TokenStream.rest_skip_of_append hr⟩

omit [UniParser] in
private theorem intToken_digit {src : List Char} (d : Char) {span : Span} (n : Nat)
    (htext : textOf src span = some [d]) (hd : d.utf8Size = 1) (hn : fromStrRadix (2 ^ 64) 10 [d] = some n) :
    IntToken src n ⟨.literal (.int .decimal false) 1, span⟩ := by
  have h := @IntToken.mk src n .decimal span [] [d] [] htext rfl hn
  rwa [byteLen_cons, hd] at h

/-- An entry whose catch and fault ranges are written the fault range first. -/
def faultFirst : WrittenEntry where
  entry := ⟨0, ⟨true, 5⟩, .common "!" "E" none [], none, (⟨false, 1⟩, ⟨false, 2⟩), none,
    some (⟨false, 7⟩, ⟨false, 9⟩)⟩
  clauses := [(.fault, (⟨false, 7⟩, ⟨false, 9⟩)), (.catch, (⟨false, 1⟩, ⟨false, 2⟩))]
  clauses_perm := .swap _ _ _

def faultFirstSource : List Char :=
  "exception_table\x7b0..try_rel 5[!]E=>\x7bExceptionFault 7..9 ExceptionCatch 1..2\x7d\x7d;".toList

def faultFirstTokens : List TokenInfo :=
  [⟨.keyword .exceptionTable, ⟨0, 15⟩⟩, ⟨.specialChar .braceOpen, ⟨15, 16⟩⟩,
    ⟨.literal (.int .decimal false) 1, ⟨16, 17⟩⟩, ⟨.specialChar .doubledDot, ⟨17, 19⟩⟩,
    ⟨.keyword .tryRel, ⟨19, 26⟩⟩, ⟨.literal (.int .decimal false) 1, ⟨27, 28⟩⟩,
    ⟨.specialChar .bracketOpen, ⟨28, 29⟩⟩, ⟨.specialChar .exclamationMark, ⟨29, 30⟩⟩,
    ⟨.specialChar .bracketClose, ⟨30, 31⟩⟩, ⟨.identifier, ⟨31, 32⟩⟩, ⟨.specialChar .arrow, ⟨32, 34⟩⟩,
    ⟨.specialChar .braceOpen, ⟨34, 35⟩⟩, ⟨.keyword .exceptionFault, ⟨35, 49⟩⟩,
    ⟨.literal (.int .decimal false) 1, ⟨50, 51⟩⟩, ⟨.specialChar .doubledDot, ⟨51, 53⟩⟩,
    ⟨.literal (.int .decimal false) 1, ⟨53, 54⟩⟩, ⟨.keyword .exceptionCatch, ⟨55, 69⟩⟩,
    ⟨.literal (.int .decimal false) 1, ⟨70, 71⟩⟩, ⟨.specialChar .doubledDot, ⟨71, 73⟩⟩,
    ⟨.literal (.int .decimal false) 1, ⟨73, 74⟩⟩, ⟨.specialChar .braceClose, ⟨74, 75⟩⟩,
    ⟨.specialChar .braceClose, ⟨75, 76⟩⟩]

omit [UniParser] in
private theorem tableWords_faultFirst :
    tableWords [faultFirst] =
      [.kw .exceptionTable, .sym .braceOpen, .int 0, .sym .doubledDot, .kw .tryRel, .int 5, .sym .bracketOpen,
        .assembly "!", .sym .bracketClose, .name "E", .sym .arrow, .sym .braceOpen, .kw .exceptionFault, .int 7,
        .sym .doubledDot, .int 9, .kw .exceptionCatch, .int 1, .sym .doubledDot, .int 2, .sym .braceClose,
        .sym .braceClose] := by
  decide

omit [UniParser] in
private theorem faultFirst_spelled :
    List.Forall₂ (@Word.spells plainParser faultFirstSource) (tableWords [faultFirst]) faultFirstTokens := by
  let _ := plainParser
  have hname : NameToken faultFirstSource "E" ⟨.identifier, ⟨31, 32⟩⟩ := .identifier (by decide)
  rw [tableWords_faultFirst]
  exact .cons rfl <| .cons rfl <| .cons (intToken_digit '0' 0 (by decide) rfl rfl) <| .cons rfl <| .cons rfl <|
    .cons (intToken_digit '5' 5 (by decide) rfl rfl) <| .cons rfl <| .cons (.inr ⟨rfl, rfl, by decide⟩) <|
    .cons rfl <| .cons hname <| .cons rfl <| .cons rfl <| .cons rfl <|
    .cons (intToken_digit '7' 7 (by decide) rfl rfl) <| .cons rfl <|
    .cons (intToken_digit '9' 9 (by decide) rfl rfl) <| .cons rfl <|
    .cons (intToken_digit '1' 1 (by decide) rfl rfl) <| .cons rfl <|
    .cons (intToken_digit '2' 2 (by decide) rfl rfl) <| .cons rfl <| .cons rfl .nil

omit [UniParser] in
/-- A table in which the clause of the fault handler is written before that of the catch handler. -/
theorem parseExceptionTable_words_fault :
    (@parseExceptionTable plainParser [] [] (@ParseStream.new asciiLexer faultFirstSource)).1 =
      .ok [faultFirst.entry] := by
  have hlex : @lex asciiLexer faultFirstSource = faultFirstTokens ++ [⟨.specialChar .semicolon, ⟨76, 77⟩⟩] := by
    decide +kernel
  have h := @parseExceptionTable_words plainParser [] [] [faultFirst] (by simp [faultFirst]; decide)
    (@ParseStream.new asciiLexer faultFirstSource) faultFirstTokens _ hlex faultFirst_spelled
  exact congrArg Prod.fst h.1

end Reading

end PuralinguaIR
