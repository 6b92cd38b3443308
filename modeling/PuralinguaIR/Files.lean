import PuralinguaIR.Parsed

/-!
# Files written as text

A rendering of definitions, each word written as a token that spells it and any two tokens with a gap between
them, is a source that holds exactly these definitions (`File.parse_printTokens`). What the parser accepts is well
formed, so every file it accepts can be written anew, in any spelling and layout, and is read back the same
(`File.parse_rewritten`).
-/

namespace PuralinguaIR

open Text Effect Effect.Prog Reading

/-! ### Definitions -/

/-- A definition with the order in which its members are written. -/
structure Written where
  definition : TypeDef
  members : List Member
  /-- Whether lists end with a comma. -/
  trailing : Bool
  hasMembers : definition.HasMembers members

/-- The words of a definition as the parser takes them; those of a struct have a closing brace after the
attributes. -/
def Written.words (w : Written) : List Word :=
  match w.definition with
  | .struct d =>
    headerWords .struct d.attr d.index ++ .sym .braceClose :: .ident d.name ::
      (genericWords d.generics d.isGenericInfinite ++ bodyWords w.trailing w.members)
  | d => d.words w.trailing w.members

section Parsing

variable [UniParser] {src : List Char} {lastIndex : UInt32}

theorem StructDef.parse_reads {d : StructDef} (hd : (TypeDef.struct d).WellFormed) {members : List Member}
    (hmem : (TypeDef.struct d).HasMembers members) (trailing : Bool) :
    Reads (lexemes src) anything StructDef.parse (headerWords .struct d.attr d.index ++ .sym .braceClose ::
      .ident d.name :: (genericWords d.generics d.isGenericInfinite ++ bodyWords trailing members)) d := by
  refine header_reads hd.attr (Reads.call_require ?_)
  refine Reads.then (Identifier.parse_reads d.name) ?_
  refine Reads.bind (ParseGenericResult.parse_reads d.generics d.isGenericInfinite) (Word.leads_isNot rfl _) ?_
  refine parseBounds_reads (Word.leads_isNot rfl _) ?_
  exact (parseMembers_reads hmem.1 hmem.2 hd.methods fun f hf => ⟨rfl, hd.fields f hf⟩).last (Reads.pure _)

/-- The kinds of token a definition begins with. -/
def TokenKind.startsDefinition (k : TokenKind) : Bool :=
  k == Keyword.class || k == Keyword.struct || k == Keyword.interface

omit [UniParser] in
theorem Written.words_starts (w : Written) : Starts TokenKind.startsDefinition w.words := by
  obtain ⟨d, members, trailing, hmem⟩ := w
  cases d <;> exact Starts.cons (fun k hk => by simp_all [Word.allows, TokenKind.startsDefinition]) _

/-- A definition is read back from its words. -/
theorem Written.parse_reads (w : Written) (hd : w.definition.WellFormed) :
    Reads (lexemes src) anything TypeDef.parse w.words w.definition := by
  obtain ⟨d, members, trailing, hmem⟩ := w
  cases d with
  | «class» d =>
    refine Reads.current fun tk htk => ?_
    dsimp only
    rw [show tk.kind = Keyword.class from htk]
    exact (Reads.call (ClassDef.parse_reads hd hmem trailing)).last (Reads.pure _)
  | struct d =>
    refine Reads.current fun tk htk => ?_
    dsimp only
    rw [show tk.kind = Keyword.struct from htk]
    exact (Reads.call (StructDef.parse_reads hd hmem trailing)).last (Reads.pure _)
  | interface d =>
    refine Reads.current fun tk htk => ?_
    dsimp only
    rw [show tk.kind = Keyword.interface from htk]
    exact (Reads.call (InterfaceDef.parse_reads hd hmem trailing)).last (Reads.pure _)

/-! ### Files -/

/-- The definition of a file, behind those of the files before. -/
def Written.placed (lastIndex : UInt32) (w : Written) : TypeDef :=
  w.definition.setIndex (w.definition.index + lastIndex)

private theorem parseType_reads {w : Written} (hd : w.definition.WellFormed)
    (hindex : w.definition.index.toNat + lastIndex.toNat < 2 ^ 32) (types : List TypeDef) :
    Reads (lexemes src) anything (File.parseType lastIndex types) w.words (types ++ [w.placed lastIndex]) := by
  refine (w.parse_reads hd).last ?_
  rw [if_pos hindex]
  exact Reads.pure _

omit [UniParser] in
private theorem isEof_declines {st : ParseStream} {tk : TokenInfo} (h : st.rest.head? = some tk) :
    Declines isEof st := by
  refine ⟨.unexpect tk, ?_⟩
  have hcurrent : current st = (.ok (some tk), st) := by
    rw [current, TokenStream.current_eq, h]
  exact bind_step hcurrent rfl

private theorem isEof_takes : Takes (lexemes src) (· = none) isEof [] := by
  intro st ts us _ hr hw ha
  cases hw
  refine ⟨(), ?_⟩
  have hcurrent : current st = (.ok none, st) := by
    rw [current, TokenStream.current_eq, hr, List.nil_append, ha]
  exact bind_step hcurrent rfl

omit [UniParser] in
private theorem foldl_placed (types : List TypeDef) (ws : List Written) :
    ws.foldl (fun types w => types ++ [w.placed lastIndex]) types = types ++ ws.map (·.placed lastIndex) := by
  induction ws generalizing types with
  | nil => simp
  | cons w ws ih => simp [ih]

/-- The definitions of a file are read back from their words. -/
theorem File.parseTypes_reads {ws : List Written} (hd : ∀ w ∈ ws, w.definition.WellFormed)
    (hindex : ∀ w ∈ ws, w.definition.index.toNat + lastIndex.toNat < 2 ^ 32) :
    Reads (lexemes src) (· = none) (File.parseTypes lastIndex) (ws.flatMap Written.words)
      ⟨ws.map (·.placed lastIndex)⟩ := by
  have hlast : Leads (lexemes src) anything [] (· = none) := fun _ _ => trivial
  have h := Reads.foldUntilOk (L := lexemes src) (p := isEof) (q := File.parseType lastIndex) (W := Written.words)
    (g := fun types w => types ++ [w.placed lastIndex]) (φ := anything) (ψ := (· = none)) (X := ws)
    (fun _ ws => ∀ w ∈ ws, w.definition.WellFormed ∧ w.definition.index.toNat + lastIndex.toNat < 2 ^ 32)
    ?_ (fun _ _ => Leads.anything _) (fun w _ => w.words_starts.ne_nil) ?_ hlast isEof_takes []
    fun w hw => ⟨hd w hw, hindex w hw⟩
  · rw [foldl_placed, List.nil_append, List.append_nil] at h
    exact h.last (Reads.pure _)
  · intro types w ws hws
    have hw := hws w (by simp)
    exact ⟨parseType_reads hw.1 hw.2 types, fun x hx => hws x (by simp [hx])⟩
  · intro w _
    obtain ⟨x, xs, hx, -⟩ := w.words_starts
    rw [hx]
    exact fun tk _ st hst => isEof_declines hst

variable [UniLexer]

/-- A source whose tokens spell definitions holds these definitions. -/
theorem File.parse_of_spells {source : List Char} {ws : List Written} (hd : ∀ w ∈ ws, w.definition.WellFormed)
    (hindex : ∀ w ∈ ws, w.definition.index.toNat + lastIndex.toNat < 2 ^ 32)
    (hvalid : (lex source).find? (·.kind.isInvalid) = none)
    (hts : List.Forall₂ (Word.spells source) (ws.flatMap Written.words) (lex source)) :
    File.parse source lastIndex = .ok ⟨ws.map (·.placed lastIndex)⟩ := by
  have hrest : (ParseStream.new source).rest = lex source ++ [] := (List.append_nil _).symm
  have hrun := File.parseTypes_reads hd hindex (ParseStream.new source) _ [] rfl hrest hts rfl
  unfold File.parse
  rw [hvalid]
  exact congrArg Prod.fst hrun

omit [UniParser] in
/-- Definitions can be written plainly if each of their words can. -/
theorem exists_plainFile {ws : List Written} (h : ∀ w ∈ ws, ∀ x ∈ w.words, x.plain.isSome) :
    ∃ ts, plainText (ws.flatMap Written.words) = some ts := by
  refine exists_plainText fun x hx => ?_
  obtain ⟨w, hw, hx⟩ := List.mem_flatMap.1 hx
  exact h w hw x hx

omit [UniParser] in
/-- The text of definitions whose words are written plainly. -/
def plainSource (ws : List Written) : String :=
  String.ofList (((plainText (ws.flatMap Written.words)).map printTokens).getD [])

/-- Definitions written as text are read back: the source in which each word is written as a token that spells it,
with a gap between any two tokens, holds exactly these definitions, their indices moved up. -/
theorem File.parse_printTokens {ws : List Written} {ts : List (PrintedToken × Gap)}
    (hd : ∀ w ∈ ws, w.definition.WellFormed)
    (hindex : ∀ w ∈ ws, w.definition.index.toNat + lastIndex.toNat < 2 ^ 32)
    (hts : List.Forall₂ Word.SpelledBy (ws.flatMap Written.words) (ts.map Prod.fst)) :
    File.parse (printTokens ts) lastIndex = .ok ⟨ws.map (·.placed lastIndex)⟩ :=
  File.parse_of_spells hd hindex (printTokens_valid ts) (spells_printTokens hts)

/-- A file the parser accepts can be written anew: any text of its definitions, with their members in any order
that keeps the methods and the fields in sequence, is read back as the same file. -/
theorem File.parse_rewritten [LawfulUniParser] [SoundUniParser] {source : List Char} {f : File}
    (hlen : (lex source).length ≤ 2 ^ 32) (h : File.parse source lastIndex = .ok f) {ws : List Written}
    (hws : ws.map (·.definition) = f.types.map fun d => d.setIndex (d.index - lastIndex))
    {ts : List (PrintedToken × Gap)}
    (hts : List.Forall₂ Word.SpelledBy (ws.flatMap Written.words) (ts.map Prod.fst)) :
    File.parse (printTokens ts) lastIndex = .ok f := by
  have hwf := ((File.parseTypes_wellFormed lastIndex).of_run (s := ParseStream.new source) hlen
    (run_of_fst (File.parse_eq_ok h))).2
  have hmem : ∀ w ∈ ws, ∃ d ∈ f.types, d.setIndex (d.index - lastIndex) = w.definition := by
    intro w hw
    have : w.definition ∈ ws.map (·.definition) := List.mem_map_of_mem hw
    rw [hws] at this
    exact List.mem_map.1 this
  have hback : ∀ d ∈ f.types, (d.index - lastIndex).toNat + lastIndex.toNat = d.index.toNat := by
    intro d hd
    have hle := UInt32.le_iff_toNat_le.1 (hwf d hd).2
    rw [UInt32.toNat_sub_of_le _ _ (hwf d hd).2]
    omega
  have hfile : ws.map (·.placed lastIndex) = f.types := by
    have hplaced : ws.map (·.placed lastIndex) =
        (ws.map (·.definition)).map fun d => d.setIndex (d.index + lastIndex) := by
      rw [List.map_map]
      rfl
    rw [hplaced, hws, List.map_map]
    refine List.map_id'' (fun d => ?_) _
    cases d <;> simp [TypeDef.setIndex, TypeDef.index]
  have hparse : File.parse (printTokens ts) lastIndex = .ok ⟨ws.map (·.placed lastIndex)⟩ :=
    File.parse_of_spells ?_ ?_ (printTokens_valid ts) (spells_printTokens hts)
  · rw [hparse, hfile]
  · intro w hw
    obtain ⟨d, hd, hdef⟩ := hmem w hw
    rw [← hdef]
    exact (hwf d hd).1.setIndex _
  · intro w hw
    obtain ⟨d, hd, hdef⟩ := hmem w hw
    rw [← hdef, TypeDef.index_setIndex, hback d hd]
    exact d.index.toNat_lt

end Parsing

/-! ### A file of three definitions -/

/-- A struct whose fields are written in the opposite order. -/
def pairStruct : StructDef where
  attr := ⟨.public, .struct false false⟩
  index := 1
  name := ⟨"Pair"⟩
  generics := []
  isGenericInfinite := false
  methods := [{ drawMethod with
    name := ⟨"label"⟩
    attr := { Method.defaultAttr with localVariableTypes := [.common "A" "Pair" none [], shapeType] }
    locals := [⟨"p"⟩, ⟨"s"⟩]
    statements := [.load .this ⟨"p"⟩, .load (.field ⟨"p"⟩ (.byName ⟨"second"⟩)) ⟨"s"⟩,
      .load (.string "a \"pair\"") ⟨"s"⟩, .throw ⟨"s"⟩] }]
  fields := [⟨⟨.private, false⟩, 1, ⟨"second"⟩, shapeType⟩, ⟨⟨.private, false⟩, 0, ⟨"first"⟩, shapeType⟩]

def pairMembers : List Member := pairStruct.fields.map .inr ++ pairStruct.methods.map .inl

def writtenQueue : Written := ⟨.class queueClass, queueMembers, false, by decide⟩

def writtenPair : Written := ⟨.struct pairStruct, pairMembers, false, by decide⟩

def writtenShape : Written := ⟨.interface shapeInterface, [.inl drawMethod], false, by decide⟩

theorem written_wellFormed :
    ∀ w ∈ [writtenQueue, writtenPair, writtenShape], w.definition.WellFormed := by
  decide

theorem written_index : ∀ w ∈ [writtenQueue, writtenPair, writtenShape],
    w.definition.index.toNat + (3 : UInt32).toNat < 2 ^ 32 := by
  decide

/-- Each of the definitions can be written. -/
theorem written_plain : ∀ w ∈ [writtenQueue, writtenPair, writtenShape], ∀ x ∈ w.words,
    (@Word.plain asciiLexer x).isSome := by
  decide +kernel

/-- The three definitions behind three other types. -/
def threeTypes : File :=
  ⟨[.class { queueClass with index := 5 }, .struct { pairStruct with index := 4 },
    .interface { shapeInterface with index := 3 }]⟩

/-- `parse_printTokens` at the three definitions, each word written plainly. -/
theorem File.parse_printTokens_three :
    let _ := plainParser
    let _ := asciiLexer
    ∃ ts, plainText ([writtenQueue, writtenPair, writtenShape].flatMap Written.words) = some ts ∧
      File.parse (printTokens ts) 3 = .ok threeTypes := by
  intro _ _
  obtain ⟨ts, hts⟩ := exists_plainFile written_plain
  exact ⟨ts, hts, File.parse_printTokens written_wellFormed written_index (plainText_spelled hts)⟩

/-- The class with its methods in front of its fields, and with commas at the end of lists. -/
def rewrittenQueue : Written :=
  ⟨.class queueClass, queueClass.methods.map .inl ++ queueClass.fields.map .inr, true, by decide⟩

theorem rewritten_plain :
    ∀ w ∈ [rewrittenQueue, writtenPair, writtenShape], ∀ x ∈ w.words, (@Word.plain asciiLexer x).isSome := by
  decide +kernel

/-- `/*x*/` -/
def shortComment : Gap := .comment ['x', '*', '/'] (.char nofun nofun .last)

/-- `parse_rewritten` at the three definitions: the class is written with its members in another order, and
comments stand between the words. -/
theorem File.parse_rewritten_three :
    let _ := plainParser
    let _ := asciiLexer
    ∃ ts ts', plainText ([writtenQueue, writtenPair, writtenShape].flatMap Written.words) = some ts ∧
      plainText ([rewrittenQueue, writtenPair, writtenShape].flatMap Written.words) = some ts' ∧
      File.parse (printTokens ts) 3 = .ok threeTypes ∧
      File.parse (printTokens (ts'.map fun p => (p.1, shortComment))) 3 = .ok threeTypes := by
  intro _ _
  have hlawful := plainParser_lawful
  have hsound := plainParser_sound
  obtain ⟨ts, hts⟩ := exists_plainFile written_plain
  obtain ⟨ts', hts'⟩ := exists_plainFile rewritten_plain
  have hlen : (lex (printTokens ts)).length ≤ 2 ^ 32 := by
    rw [length_lex_of_spelledBy (plainText_spelled hts)]
    decide +kernel
  have hparse : File.parse (printTokens ts) 3 = .ok threeTypes :=
    File.parse_of_spells written_wellFormed written_index (printTokens_valid ts)
      (spells_printTokens (plainText_spelled hts))
  have hdefinitions : [rewrittenQueue, writtenPair, writtenShape].map (·.definition) =
      threeTypes.types.map fun d => d.setIndex (d.index - 3) := rfl
  refine ⟨ts, ts', hts, hts', hparse, File.parse_rewritten hlen hparse hdefinitions ?_⟩
  rw [List.map_map]
  exact plainText_spelled hts'

end PuralinguaIR
