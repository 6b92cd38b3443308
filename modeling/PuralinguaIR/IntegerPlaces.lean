import PuralinguaIR.EndlessHandlers
import PuralinguaIR.Ensures

/-!
# Where numbers are read

Of each parser that reads a number it is said what it reads before the number and how it goes on behind it
(`IntegerPlace.before`, `IntegerPlace.rest`). A number of its type is what the parser goes on with. An integer
in the header of a method or a field that is no such number is reported; at all other places it ends the run, in
the header of a type unless it has no digits at all (`IntegerPlace.answers_iff`).
-/

namespace PuralinguaIR

open Text Effect Effect.Prog Reading

section Parsers

variable [UniParser]

/-! ### What is left behind a number -/

/-- A class behind the number of its main method. -/
def ClassDef.parseBehindMain (attr : TypeAttr) (index : UInt32) (main : Option UInt32) : Parser ClassDef := do
  let name ← call Identifier.parse
  let ⟨generics, isGenericInfinite⟩ ← call ParseGenericResult.parse
  let parent ← do
    match ← attempt (expect SpecialChar.colon) with
    | some _ => some <$> call (typeReference generics [])
    | none => pure none
  parseBounds
  let (methods, fields) ← parseMembers generics true
  pure { attr, index, main, name, generics, isGenericInfinite, parent, methods, fields }

/-- A class behind its index. -/
def ClassDef.parseBehindIndex (attr : TypeAttr) (index : UInt32) : Parser ClassDef := do
  let _ ← call (require SpecialChar.bracketClose)
  let main ← do
    match ← attempt (expect Keyword.main) with
    | some _ => do
      let _ ← expect SpecialChar.parenthesisOpen
      let id ← integerIndex
      let _ ← expect SpecialChar.parenthesisClose
      pure (some id)
    | none => pure none
  parseBehindMain attr index main

def StructDef.parseBehindIndex (attr : TypeAttr) (index : UInt32) : Parser StructDef := do
  let _ ← call (require SpecialChar.braceClose)
  let name ← call Identifier.parse
  let ⟨generics, isGenericInfinite⟩ ← call ParseGenericResult.parse
  parseBounds
  let (methods, fields) ← parseMembers generics true
  pure { attr, index, name, generics, isGenericInfinite, methods, fields }

def InterfaceDef.parseBehindIndex (attr : TypeAttr) (index : UInt32) : Parser InterfaceDef := do
  let _ ← call (require SpecialChar.bracketClose)
  let name ← call Identifier.parse
  let ⟨generics, isGenericInfinite⟩ ← call ParseGenericResult.parse
  let requiredInterfaces ← do
    match ← attempt (expect SpecialChar.colon) with
    | some _ => call (punctuated true (call (typeReference generics [])) (require SpecialChar.comma))
    | none => pure []
  parseBounds
  let (methods, _) ← parseMembers generics false
  pure { attr, index, name, generics, isGenericInfinite, requiredInterfaces, methods }

/-- A definition from its keyword on, which goes on with `rest` behind the index. -/
def parseDefinition {α : Type} (kw : Keyword) (type : TypeSpecificAttrType) (rest : TypeAttr → UInt32 → Parser α) :
    Parser α := do
  let _ ← call (require kw)
  let _ ← call (require SpecialChar.bracketOpen)
  let (attr, index) ← attrAndIndex type
  rest attr index

theorem ClassDef.parse_eq_definition : ClassDef.parse = parseDefinition .class .class parseBehindIndex := rfl

theorem StructDef.parse_eq_definition : StructDef.parse = parseDefinition .struct .struct parseBehindIndex := rfl

theorem InterfaceDef.parse_eq_definition : InterfaceDef.parse =
    parseDefinition .interface .interface parseBehindIndex := rfl

section Entries

variable (tyGenerics methodGenerics : List Identifier)

/-- An entry of an exception table behind its first number. -/
def parseBehindBegin (tryBegin : UInt64) : Parser ExceptionTableEntry := do
  let _ ← expect SpecialChar.doubledDot
  let tryEnd ← parseLoc
  let exceptionType ← typeReference tyGenerics methodGenerics
  let filter ← do
    match ← attempt (expect Keyword.where) with
    | some _ => some <$> parseMethodIn tyGenerics methodGenerics
    | none => pure none
  let _ ← expect SpecialChar.arrow
  let _ ← expect SpecialChar.braceOpen
  let h ← withTurns fun turns => foldUntilOk (expect SpecialChar.braceClose) parseHandler turns ⟨none, none, none⟩
  match h.catch with
  | some «catch» =>
    pure { tryBegin, tryEnd, exceptionType, filter, «catch», «finally» := h.finally, fault := h.fault }
  | none => fail (.custom "No catch in an exception table")

theorem parseExceptionTableEntry_eq_behind :
    parseExceptionTableEntry tyGenerics methodGenerics =
      integerValue >>= parseBehindBegin tyGenerics methodGenerics := rfl

/-- The loop over the entries of an exception table, with the entries that have been read. -/
def parseEntries (entries : List ExceptionTableEntry) : Parser (List ExceptionTableEntry) :=
  withTurns fun turns =>
    foldUntilOk (expect SpecialChar.braceClose)
      (fun entries => do pure (entries ++ [← parseExceptionTableEntry tyGenerics methodGenerics])) turns entries

/-- The first entries of an exception table. -/
def parseFirst : Nat → Parser (List ExceptionTableEntry)
  | 0 => pure []
  | n + 1 => do
    let entries ← parseFirst n
    pure (entries ++ [← parseExceptionTableEntry tyGenerics methodGenerics])

end Entries

end Parsers

/-! ### Places -/

/-- The keyword with which a definition begins. -/
def TypeSpecificAttrType.keyword : TypeSpecificAttrType → Keyword
  | «class» => .class
  | struct => .struct
  | interface => .interface

inductive IntegerPlace where
  | typeIndex (type : TypeSpecificAttrType)
  | methodIndex | fieldIndex
  | main | method | field | arrayLen
  | argument (tyGenerics methodGenerics : List Identifier)
  | jumpOffset (tyGenerics methodGenerics : List Identifier)
  /-- The first number of an entry, behind so many others. -/
  | tryBegin (tyGenerics methodGenerics : List Identifier) (entries : Nat)
  | location
deriving DecidableEq, Repr

/-- The number of an operand that may be a name. -/
def ItemRef.number : ItemRef → Option Nat
  | byIndex index => some index.toNat
  | byName _ => none

def FieldReference.number : FieldReference → Option Nat
  | byIndex index => some index.toNat
  | byName _ => none

def ArrayLen.number : ArrayLen → Option Nat
  | static len => some len.toNat
  | dynamic _ => none

def LoadableContent.number : LoadableContent → Option Nat
  | arg id => some id.toNat
  | _ => none

def Statement.number : Statement → Option Nat
  | jump _ _ val => some val.toNat
  | _ => none

namespace IntegerPlace

/-- What the parser of a place reads. -/
def Result : IntegerPlace → Type
  | typeIndex .class => ClassDef
  | typeIndex .struct => StructDef
  | typeIndex .interface => InterfaceDef
  | methodIndex => MethodAttr TypeReference × CallConvention × UInt32
  | fieldIndex => FieldAttr × UInt32
  | main => ClassDef
  | method => ItemRef
  | field => FieldReference
  | arrayLen => ArrayLen
  | argument .. => LoadableContent
  | jumpOffset .. => Statement
  | tryBegin .. => List ExceptionTableEntry
  | location => ExceptionLoc

/-- What it has read when it comes to the number. -/
def Before : IntegerPlace → Type
  | typeIndex _ => TypeAttr × Option TokenInfo
  | methodIndex => MethodAttrState × Option TokenInfo
  | fieldIndex => FieldAttr × Option TokenInfo
  | main => TypeAttr × UInt32
  | jumpOffset .. => JumpCondition × JumpTargetType
  | tryBegin .. => List ExceptionTableEntry
  | location => Bool
  | _ => Unit

/-- The numbers of the type that is read lie below this one. -/
def bound : IntegerPlace → Nat
  | arrayLen => 2 ^ 64
  | argument .. => 2 ^ 64
  | jumpOffset .. => 2 ^ 64
  | tryBegin .. => 2 ^ 64
  | location => 2 ^ 64
  | _ => 2 ^ 32

/-- The integers whose value is checked, though it is no number of the type: those in the header of a member,
and those without digits, which no header of a type takes. -/
def isChecked : IntegerPlace → TokenInfo → Bool
  | typeIndex _, tk => !tk.kind.isInt
  | methodIndex, _ => true
  | fieldIndex, _ => true
  | _, _ => false

/-- The number at the place of what has been read. -/
def number : (place : IntegerPlace) → place.Result → Option Nat
  | typeIndex .class, d => some (ClassDef.index d).toNat
  | typeIndex .struct, d => some (StructDef.index d).toNat
  | typeIndex .interface, d => some (InterfaceDef.index d).toNat
  | methodIndex, header => some header.2.2.toNat
  | fieldIndex, header => some header.2.toNat
  | main, d => (ClassDef.main d).map UInt32.toNat
  | method, r => ItemRef.number r
  | field, r => FieldReference.number r
  | arrayLen, len => ArrayLen.number len
  | argument .., content => LoadableContent.number content
  | jumpOffset .., s => Statement.number s
  | tryBegin _ _ n, entries =>
    let entries : List ExceptionTableEntry := entries
    entries[n]?.map fun e => e.tryBegin.toNat
  | location, loc => some (ExceptionLoc.loc loc).toNat

section Reading

variable [UniParser]

/-- The parser that reads the number. -/
def parser : (place : IntegerPlace) → Parser place.Result
  | typeIndex .class => ClassDef.parse
  | typeIndex .struct => StructDef.parse
  | typeIndex .interface => InterfaceDef.parse
  | methodIndex => Method.parseAttr
  | fieldIndex => Field.parseAttr
  | main => ClassDef.parse
  | method => ItemRef.parse
  | field => FieldReference.parse
  | arrayLen => ArrayLen.parse
  | argument tyGenerics methodGenerics => LoadableContent.parse none tyGenerics methodGenerics
  | jumpOffset tyGenerics methodGenerics => Statement.parse tyGenerics methodGenerics
  | tryBegin tyGenerics methodGenerics _ => parseExceptionTable tyGenerics methodGenerics
  | location => parseLoc

/-- Its part before the number; the loop over the attributes of a header takes the number as well. -/
def before : (place : IntegerPlace) → Parser place.Before
  | typeIndex type => do
    let _ ← call (require type.keyword)
    let _ ← call (require SpecialChar.bracketOpen)
    attrLoop type.isModifier TypeAttr.set ⟨.private, type.empty⟩
  | methodIndex => attrLoop Keyword.isMethodModifier Method.setAttr ⟨Method.defaultAttr, .platformDefault, false⟩
  | fieldIndex => attrLoop Keyword.isFieldModifier Field.setAttr ⟨.private, false⟩
  | main => do
    let _ ← call (require Keyword.class)
    let _ ← call (require SpecialChar.bracketOpen)
    let header ← attrAndIndex .class
    let _ ← call (require SpecialChar.bracketClose)
    let _ ← expect Keyword.main
    let _ ← expect SpecialChar.parenthesisOpen
    pure header
  | method => pure ()
  | field => pure ()
  | arrayLen => pure ()
  | argument .. => do
    let _ ← require Keyword.loadArg
    let _ ← require SpecialChar.parenthesisOpen
    pure ()
  | jumpOffset .. => do
    let _ ← require (.statementKeyword .jump)
    let condition ← call JumpCondition.parse
    let ty ← call JumpTargetType.parse
    pure (condition, ty)
  | tryBegin tyGenerics methodGenerics n => do
    let _ ← expect Keyword.exceptionTable
    let _ ← expect SpecialChar.braceOpen
    parseFirst tyGenerics methodGenerics n
  | location => Option.isSome <$> attempt (expect Keyword.tryRel)

/-- Its part behind the number. -/
def rest : (place : IntegerPlace) → place.Before → Nat → Parser place.Result
  | typeIndex .class, header, n => ClassDef.parseBehindIndex header.1 (UInt32.ofNat n)
  | typeIndex .struct, header, n => StructDef.parseBehindIndex header.1 (UInt32.ofNat n)
  | typeIndex .interface, header, n => InterfaceDef.parseBehindIndex header.1 (UInt32.ofNat n)
  | methodIndex, (s, _), n =>
    let attr := if s.isOverride then { s.attr with overrides := some (UInt32.ofNat n) } else s.attr
    pure (attr, s.callConvention, UInt32.ofNat n)
  | fieldIndex, (attr, _), n => pure (attr, UInt32.ofNat n)
  | main, header, n => do
    let _ ← expect SpecialChar.parenthesisClose
    ClassDef.parseBehindMain header.1 header.2 (some (UInt32.ofNat n))
  | method, _, n => pure (ItemRef.byIndex (UInt32.ofNat n))
  | field, _, n => pure (FieldReference.byIndex (UInt32.ofNat n))
  | arrayLen, _, n => pure (ArrayLen.static (UInt64.ofNat n))
  | argument .., _, n => do
    let _ ← require SpecialChar.parenthesisClose
    pure (LoadableContent.arg (UInt64.ofNat n))
  | jumpOffset .., operands, n => do
    let _ ← require SpecialChar.semicolon
    pure (Statement.jump operands.1 operands.2 (UInt64.ofNat n))
  | tryBegin tyGenerics methodGenerics _, entries, n => do
    let entry ← parseBehindBegin tyGenerics methodGenerics (UInt64.ofNat n)
    parseEntries tyGenerics methodGenerics (List.append entries [entry])
  | location, isRel, n => pure (ExceptionLoc.mk isRel (UInt64.ofNat n))

/-- The loop over attributes has kept the token as the index, or ends in front of it without an index. -/
def IsIndex {β : Type} (x : β × Option TokenInfo) (st : ParseStream) (tk : TokenInfo) (behind : ParseStream) :
    Prop :=
  (x.2 = some tk ∨ x.2 = none ∧ st.current = some tk) ∧ behind = st

/-- Where the part before the number ends, the token is the number, and the part behind it begins at `behind`. -/
def IsNumber : (place : IntegerPlace) → place.Before → ParseStream → TokenInfo → ParseStream → Prop
  | typeIndex _, x, st, tk, behind => IsIndex x st tk behind
  | methodIndex, x, st, tk, behind => IsIndex x st tk behind
  | fieldIndex, x, st, tk, behind => IsIndex x st tk behind
  | _, _, st, tk, behind => st.current = some tk ∧ behind = st.skip 1

/-- The parser of the place, which starts at `st`, comes to the token as its number. -/
def At (place : IntegerPlace) (st : ParseStream) (tk : TokenInfo) (x : place.Before) (behind : ParseStream) :
    Prop :=
  ∃ st', place.before st = (.ok x, st') ∧ place.IsNumber x st' tk behind

/-- The parser goes on with the number that the digits denote, and this number is in what it reads; or it
reports an error when they denote none of the type. -/
def Answers (place : IntegerPlace) (st : ParseStream) (x : place.Before) (behind : ParseStream) (b : Base)
    (digits : List Char) : Prop :=
  if b.Fits digits place.bound then
    place.parser st = place.rest x (b.value digits) behind ∧
      ∀ a st', place.parser st = (.ok a, st') → place.number a = some (b.value digits)
  else ∃ e, (place.parser st).1 = .err e

/-! ### Runs up to a number -/

section Runs

variable {α : Type} {st st' : ParseStream}

/-- What is parsed satisfies `P`, wherever the parser starts. -/
private abbrev Gives (p : Parser α) (P : α → Prop) : Prop := Ensures (fun _ => True) p P

omit [UniParser] in
private theorem Gives.of_run {p : Parser α} {P : α → Prop} (hp : Gives p P) {a : α} (h : p st = (.ok a, st')) :
    P a :=
  (Ensures.of_run hp trivial h).2

private theorem classDef_behindMain (attr : TypeAttr) (index : UInt32) (main : Option UInt32) :
    Gives (ClassDef.parseBehindMain attr index main) fun d => d.index = index ∧ d.main = main := by
  refine .skip fun name => .skip fun g => .skip fun o => ?_
  have htail (parent : Option TypeReference) : Gives (do
      parseBounds
      let (methods, fields) ← parseMembers g.generics true
      pure { attr, index, main, name, generics := g.generics, isGenericInfinite := g.isGenericInfinite, parent,
             methods, fields } : Parser ClassDef) fun d => d.index = index ∧ d.main = main :=
    .skip fun _ => .skip fun _ => .pure ⟨rfl, rfl⟩
  cases o with
  | none => exact .skip htail
  | some tk => exact .skip htail

private theorem classDef_behindIndex (attr : TypeAttr) (index : UInt32) :
    Gives (ClassDef.parseBehindIndex attr index) fun d => d.index = index := by
  have htail (main : Option UInt32) : Gives (ClassDef.parseBehindMain attr index main) fun d => d.index = index :=
    (classDef_behindMain attr index main).mono fun _ hd => hd.1
  refine .skip fun _ => .skip fun o => ?_
  cases o with
  | none => exact .skip htail
  | some tk => exact .skip fun _ => .skip fun _ => .skip fun _ => .skip htail

private theorem structDef_behindIndex (attr : TypeAttr) (index : UInt32) :
    Gives (StructDef.parseBehindIndex attr index) fun d => d.index = index :=
  .skip fun _ => .skip fun _ => .skip fun _ => .skip fun _ => .skip fun _ => .pure rfl

private theorem interfaceDef_behindIndex (attr : TypeAttr) (index : UInt32) :
    Gives (InterfaceDef.parseBehindIndex attr index) fun d => d.index = index := by
  refine .skip fun _ => .skip fun name => .skip fun g => .skip fun o => ?_
  have htail (requiredInterfaces : List TypeReference) : Gives (do
      parseBounds
      let (methods, _) ← parseMembers g.generics false
      pure { attr, index, name, generics := g.generics, isGenericInfinite := g.isGenericInfinite,
             requiredInterfaces, methods } : Parser InterfaceDef) fun d => d.index = index :=
    .skip fun _ => .skip fun _ => .pure rfl
  cases o with
  | none => exact .skip htail
  | some tk => exact .skip htail

variable {tyGenerics methodGenerics : List Identifier}

private theorem behindBegin_entry (tryBegin : UInt64) :
    Gives (parseBehindBegin tyGenerics methodGenerics tryBegin) fun e => e.tryBegin = tryBegin := by
  refine .skip fun _ => .skip fun tryEnd => .skip fun ty => .skip fun o => ?_
  have htail (filter : Option (TypeReference × MethodReference)) : Gives (do
      let _ ← expect SpecialChar.arrow
      let _ ← expect SpecialChar.braceOpen
      let h ← withTurns fun turns =>
        foldUntilOk (expect SpecialChar.braceClose) parseHandler turns ⟨none, none, none⟩
      match h.catch with
      | some «catch» =>
        pure { tryBegin, tryEnd, exceptionType := ty, filter, «catch», «finally» := h.finally, fault := h.fault }
      | none => fail (.custom "No catch in an exception table") : Parser ExceptionTableEntry)
        fun e => e.tryBegin = tryBegin := by
    refine .skip fun _ => .skip fun _ => .skip fun h => ?_
    cases h.catch with
    | none => exact .fail _
    | some «catch» => exact .pure rfl
  cases o with
  | none => exact .skip htail
  | some tk => exact .skip htail

/-- The entries that have been read are the first of the table. -/
private theorem parseEntries_appends (entries : List ExceptionTableEntry) :
    Gives (parseEntries tyGenerics methodGenerics entries) fun all => entries <+: all := by
  have hend : Gives (expect SpecialChar.braceClose) fun _ => True := fun _ _ => ⟨trivial, fun _ _ => trivial⟩
  refine withTurns_ensures fun turns => foldUntilOk_ensures hend (fun es hes => ?_) turns
    (List.prefix_refl entries)
  exact .skip fun e => .pure (hes.trans (List.prefix_append _ _))

private theorem parseFirst_length {n : Nat} {entries : List ExceptionTableEntry}
    (h : parseFirst tyGenerics methodGenerics n st = (.ok entries, st')) : entries.length = n := by
  induction n generalizing entries st' with
  | zero =>
    cases h
    rfl
  | succ n ih =>
    obtain ⟨es, s₁, hes, h⟩ := bind_eq_ok.1 h
    obtain ⟨e, s₂, -, h⟩ := bind_eq_ok.1 h
    cases h
    rw [List.length_append, ih hes]
    rfl

/-- An entry stays at its place behind the first ones. -/
private theorem entry_stays {n : Nat} {entries all : List ExceptionTableEntry} {e : ExceptionTableEntry}
    {s s' : ParseStream} (hfirst : parseFirst tyGenerics methodGenerics n st = (.ok entries, st'))
    (h : parseEntries tyGenerics methodGenerics (entries ++ [e]) s = (.ok all, s')) : all[n]? = some e := by
  obtain ⟨more, rfl⟩ := Gives.of_run (parseEntries_appends _) h
  obtain rfl := parseFirst_length hfirst
  rw [List.getElem?_append_left (by simp)]
  exact List.getElem?_concat_length

variable [LawfulUniParser]

/-- At an integer an entry begins. -/
private theorem parseEntries_turn {tk : TokenInfo} (hc : st.current = some tk) (hint : tk.kind.isLiteralOf .int)
    (entries : List ExceptionTableEntry) : parseEntries tyGenerics methodGenerics entries st =
      (parseExceptionTableEntry tyGenerics methodGenerics >>= fun e =>
        parseEntries tyGenerics methodGenerics (entries ++ [e])) st := by
  have hdecl : Declines (expect SpecialChar.braceClose) st := by
    refine takeIf_declines fun t ht => ?_
    rw [← TokenStream.current_eq, hc] at ht
    obtain rfl : tk = t := Option.some.inj ht
    refine Bool.eq_false_iff.2 fun heq => ?_
    rw [show tk.kind = _ from eq_of_beq heq] at hint
    cases hint
  have hconsumes (entries : List ExceptionTableEntry) : Consumes (do
      pure (entries ++ [← parseExceptionTableEntry tyGenerics methodGenerics]) :
          Parser (List ExceptionTableEntry)) :=
    parseExceptionTableEntry_consumes.bind fun _ => Keeps.pure _
  refine (withTurns_foldUntilOk_turn (expect_forward _) hconsumes hdecl entries).trans ?_
  rw [bind_assoc]
  rfl

omit [LawfulUniParser] in
/-- An entry that is read begins with an integer. -/
private theorem parseExceptionTableEntry_current {e : ExceptionTableEntry}
    (h : parseExceptionTableEntry tyGenerics methodGenerics st = (.ok e, st')) :
    ∃ tk, st.current = some tk ∧ tk.kind.isLiteralOf .int := by
  obtain ⟨tryBegin, s₁, hbegin, -⟩ := bind_eq_ok.1 h
  obtain ⟨tk, s₂, htk, -⟩ := bind_eq_ok.1 hbegin
  obtain ⟨hc, hint, -⟩ := takeIf_eq_ok.1 (call_eq_ok.1 htk)
  exact ⟨tk, hc, hint⟩

/-- The loop comes to the place behind the first entries. -/
private theorem parseEntries_first {n : Nat} {entries : List ExceptionTableEntry}
    (h : parseFirst tyGenerics methodGenerics n st = (.ok entries, st')) :
    parseEntries tyGenerics methodGenerics [] st = parseEntries tyGenerics methodGenerics entries st' := by
  induction n generalizing entries st' with
  | zero =>
    cases h
    rfl
  | succ n ih =>
    obtain ⟨es, s₁, hes, h⟩ := bind_eq_ok.1 h
    obtain ⟨e, s₂, he, h⟩ := bind_eq_ok.1 h
    cases h
    obtain ⟨tk, hc, hint⟩ := parseExceptionTableEntry_current he
    rw [ih hes, parseEntries_turn hc hint, bind_of_ok he]

private theorem parseFirst_forward (n : Nat) : Keeps Forward (parseFirst tyGenerics methodGenerics n) := by
  induction n with
  | zero => exact Keeps.pure _
  | succ n ih => exact ih.bind fun _ => (parseExceptionTableEntry_forward _ _).bind fun _ => Keeps.pure _

theorem before_forward (place : IntegerPlace) : Keeps Forward place.before := by
  cases place with
  | typeIndex type =>
    refine Keeps.bind (call_forward (require_forward _)) fun _ => ?_
    exact Keeps.bind (call_forward (require_forward _)) fun _ => attrLoop_forward _ _ _
  | methodIndex => exact attrLoop_forward _ _ _
  | fieldIndex => exact attrLoop_forward _ _ _
  | main =>
    refine Keeps.bind (call_forward (require_forward _)) fun _ =>
      Keeps.bind (call_forward (require_forward _)) fun _ => ?_
    refine Keeps.bind (attrAndIndex_forward _) fun _ => Keeps.bind (call_forward (require_forward _)) fun _ => ?_
    exact Keeps.bind (expect_forward _) fun _ => Keeps.bind (expect_forward _) fun _ => Keeps.pure _
  | method => exact Keeps.pure _
  | field => exact Keeps.pure _
  | arrayLen => exact Keeps.pure _
  | argument tyGenerics methodGenerics =>
    exact Keeps.bind (require_forward _) fun _ => Keeps.bind (require_forward _) fun _ => Keeps.pure _
  | jumpOffset tyGenerics methodGenerics =>
    refine Keeps.bind (require_forward _) fun _ =>
      Keeps.bind (call_forward jumpCondition_parse_forward) fun _ => ?_
    exact Keeps.bind (call_forward jumpTargetType_parse_forward) fun _ => Keeps.pure _
  | tryBegin tyGenerics methodGenerics n =>
    exact Keeps.bind (expect_forward _) fun _ => Keeps.bind (expect_forward _) fun _ => parseFirst_forward n
  | location => exact (attempt_forward (expect_forward _)).map _

end Runs

/-! ### Numbers that are gone on with -/

omit [UniParser] in
private theorem toNat_index {n : Nat} (h : n < 2 ^ 32) : (UInt32.ofNat n).toNat = n := Nat.mod_eq_of_lt h

omit [UniParser] in
private theorem toNat_value {n : Nat} (h : n < 2 ^ 64) : (UInt64.ofNat n).toNat = n := Nat.mod_eq_of_lt h

/-- What a parser reads holds the number that it goes on with. -/
theorem At.number_eq {place : IntegerPlace} {st behind : ParseStream} {tk : TokenInfo} {x : place.Before}
    (hat : place.At st tk x behind) {n : Nat} (hn : n < place.bound) {s s' : ParseStream} {a : place.Result}
    (h : place.rest x n s = (.ok a, s')) : place.number a = some n := by
  cases place with
  | typeIndex type =>
    cases type with
    | «class» =>
      exact congrArg some ((congrArg UInt32.toNat ((classDef_behindIndex _ _).of_run h)).trans (toNat_index hn))
    | struct =>
      exact congrArg some ((congrArg UInt32.toNat ((structDef_behindIndex _ _).of_run h)).trans (toNat_index hn))
    | interface => exact congrArg some ((congrArg UInt32.toNat ((interfaceDef_behindIndex _ _).of_run h)).trans
      (toNat_index hn))
  | methodIndex =>
    cases h
    exact congrArg some (toNat_index hn)
  | fieldIndex =>
    cases h
    exact congrArg some (toNat_index hn)
  | main =>
    obtain ⟨_, s₁, -, h⟩ := bind_eq_ok.1 h
    exact (congrArg (Option.map UInt32.toNat) ((classDef_behindMain _ _ _).of_run h).2).trans
      (congrArg some (toNat_index hn))
  | method =>
    cases h
    exact congrArg some (toNat_index hn)
  | field =>
    cases h
    exact congrArg some (toNat_index hn)
  | arrayLen =>
    cases h
    exact congrArg some (toNat_value hn)
  | argument tyGenerics methodGenerics =>
    obtain ⟨_, s₁, -, h⟩ := bind_eq_ok.1 h
    cases h
    exact congrArg some (toNat_value hn)
  | jumpOffset tyGenerics methodGenerics =>
    obtain ⟨_, s₁, -, h⟩ := bind_eq_ok.1 h
    cases h
    exact congrArg some (toNat_value hn)
  | tryBegin tyGenerics methodGenerics k =>
    obtain ⟨st', hbefore, -⟩ := hat
    obtain ⟨_, _, -, hbefore⟩ := bind_eq_ok.1 hbefore
    obtain ⟨_, _, -, hbefore⟩ := bind_eq_ok.1 hbefore
    obtain ⟨e, s₁, he, h⟩ := bind_eq_ok.1 h
    have hbegin : e.tryBegin = UInt64.ofNat n := (behindBegin_entry _).of_run he
    refine (congrArg (Option.map fun e : ExceptionTableEntry => e.tryBegin.toNat) (entry_stays hbefore h)).trans ?_
    rw [Option.map_some, hbegin, toNat_value hn]
  | location =>
    cases h
    exact congrArg some (toNat_value hn)

/-! ### What each place does -/

variable [LawfulUniParser] [UniLexer]

/-- The parser goes on with the number, or ends the run when the digits denote none of the type. -/
private def Unwraps {α : Type} (p : Parser α) (st : ParseStream) (rest : Nat → Parser α) (behind : ParseStream)
    (bound : Nat) (b : Base) (digits : List Char) : Prop :=
  if b.Fits digits bound then p st = rest (b.value digits) behind else Breaks p st

section Places

variable {α : Type} {st st' : ParseStream} {tk : TokenInfo} {b : Base} {digits : List Char}

omit [LawfulUniParser] [UniLexer] in
private theorem Unwraps.answers {place : IntegerPlace} {behind : ParseStream} {x : place.Before}
    (hat : place.At st tk x behind)
    (h : Unwraps place.parser st (place.rest x) behind place.bound b digits) :
    place.Answers st x behind b digits ↔ b.Fits digits place.bound := by
  unfold Unwraps at h
  unfold Answers
  by_cases hfits : b.Fits digits place.bound
  · rw [if_pos hfits] at h ⊢
    refine iff_of_true ⟨h, fun a s hrun => ?_⟩ hfits
    exact hat.number_eq hfits.value_lt (h.symm.trans hrun)
  · rw [if_neg hfits] at h ⊢
    refine iff_of_false ?_ hfits
    rintro ⟨e, he⟩
    exact not_breaks_of_err (run_of_fst he) h

omit [LawfulUniParser] in
/-- A number of 64 bits is unwrapped. -/
private theorem unwraps_value (h : Lexed st') (hc : st'.current = some tk)
    (htext : IntegerText st'.source tk b digits)
    {p : Parser α} {k : UInt64 → Parser α} (hp : p st = (integerValue >>= k) st') :
    Unwraps p st (fun n => k (UInt64.ofNat n)) (st'.skip 1) (2 ^ 64) b digits := by
  have hvalue := integerValue_run h hc htext
  unfold Unwraps
  by_cases hfits : b.Fits digits (2 ^ 64)
  · rw [if_pos hfits] at hvalue ⊢
    rw [hp, bind_of_ok hvalue]
  · rw [if_neg hfits] at hvalue ⊢
    have hbreaks : Breaks (integerValue >>= k) st' :=
      breaks_bind.2 (.inl (breaks_of_panic (congrArg Prod.fst hvalue)))
    unfold Breaks at hbreaks ⊢
    rwa [hp]

omit [LawfulUniParser] in
/-- A number of 32 bits is unwrapped. -/
private theorem unwraps_index (h : Lexed st') (hc : st'.current = some tk)
    (htext : IntegerText st'.source tk b digits)
    {p : Parser α} {k : UInt32 → Parser α} (hp : p st = (integerIndex >>= k) st') :
    Unwraps p st (fun n => k (UInt32.ofNat n)) (st'.skip 1) (2 ^ 32) b digits := by
  have hvalue := integerIndex_run h hc htext
  unfold Unwraps
  by_cases hfits : b.Fits digits (2 ^ 32)
  · rw [if_pos hfits] at hvalue ⊢
    rw [hp, bind_of_ok hvalue]
  · rw [if_neg hfits] at hvalue ⊢
    have hbreaks : Breaks (integerIndex >>= k) st' :=
      breaks_bind.2 (.inl (breaks_of_panic (congrArg Prod.fst hvalue)))
    unfold Breaks at hbreaks ⊢
    rwa [hp]

omit [UniLexer] in
/-- A number is the first alternative of an operand. -/
private theorem unwraps_firstOf {β : Type} {p : Parser β} {g : β → α} {ps : List (Parser α)} {make : Nat → β}
    {bound : Nat} (hp : p st = (if b.Fits digits bound then .ok (make (b.value digits)) else .panic, st.skip 1)) :
    Unwraps (firstOf (g <$> p :: ps)) st (fun n => pure (g (make n))) (st.skip 1) bound b digits := by
  unfold Unwraps
  by_cases hfits : b.Fits digits bound
  · rw [if_pos hfits] at hp ⊢
    exact UniParser.firstOf_ok (map_eq_ok.2 ⟨_, hp, rfl⟩)
  · rw [if_neg hfits] at hp ⊢
    exact LawfulUniParser.firstOf_breaks (breaks_map.2 (breaks_of_panic (congrArg Prod.fst hp)))

/-! ### Indexes in headers -/

omit [UniParser] [LawfulUniParser] in
/-- An integer without digits is no number. -/
private theorem not_fits_of_empty (htk : tk ∈ lex st.source) (htext : IntegerText st.source tk b digits)
    (hempty : tk.kind.isInt = false) (bound : Nat) : ¬b.Fits digits bound := by
  have hsame := htext
  obtain ⟨emptyInt, suffix, hkind, -⟩ := htext
  obtain ⟨digits', suffix', htext', hstart, hnone, -⟩ :=
    scan_int (mem_scan_of_mem_lex htk (by simp [hkind]) (by simp [hkind])) hkind
  obtain ⟨-, rfl⟩ := hsame.unique ⟨emptyInt, suffix', hstart ▸ hkind, htext'⟩
  intro hfits
  rw [hfits.any_ne_underscore] at hnone
  rw [hkind, hnone] at hempty
  cases hempty

omit [UniParser] [LawfulUniParser] [UniLexer] in
/-- The loop keeps no integer without digits, and stops at none with digits. -/
private theorem isIndex_cases {β : Type} {isModifier : Keyword → Bool} {set : Keyword → β → Option β} {init : β}
    {x : β × Option TokenInfo} {behind : ParseStream} (hloop : attrLoop isModifier set init st = (.ok x, st'))
    (hindex : IsIndex x st' tk behind) :
    tk.kind.isInt ∧ x.2 = some tk ∨ tk.kind.isInt = false ∧ x.2 = none := by
  obtain ⟨result, index⟩ := x
  rcases hindex with ⟨rfl | ⟨rfl, hc⟩, -⟩
  · refine .inl ⟨?_, rfl⟩
    have hint : ∀ tk' ∈ some tk, tk'.kind.isInt := by
      refine foldWhileOk_invariant (I := fun b : β × Option TokenInfo => ∀ tk' ∈ b.2, tk'.kind.isInt)
        ?_ (by simp) hloop
      rintro ⟨b, tk₀⟩ tk₁ s ⟨c, tk₂⟩ s' hb hstep
      by_cases hint : tk₁.kind.isInt
      · simp only [hint, if_true] at hstep
        cases hstep
        simpa using hint
      · obtain ⟨kind, span⟩ := tk₁
        simp only [hint] at hstep
        cases kind with
        | keyword kw =>
          obtain ⟨c', s₂, -, hc⟩ := bind_eq_ok.1 hstep
          cases hc
          exact hb
        | _ => cases hstep
    exact hint tk rfl
  · refine .inr ⟨?_, rfl⟩
    obtain ⟨st'', e, -, he⟩ := foldWhileOk_stops hloop
    obtain ⟨rfl, hnone⟩ := takeIf_eq_err he
    exact (Bool.or_eq_false_iff.1 (hnone tk hc)).2

omit [UniParser] [LawfulUniParser] in
/-- The index of a member is a number of 32 bits or missing. -/
private theorem indexValue_run (htk : tk ∈ lex st.source) (htext : IntegerText st.source tk b digits) :
    indexValue (some tk) st =
      (.ok (if b.Fits digits (2 ^ 32) then some (UInt32.ofNat (b.value digits)) else none), st) := by
  rw [indexValue, bind_of_ok (htext.getValue_run htk), value_bind_tryU32]
  rfl

omit [UniParser] [LawfulUniParser] [UniLexer] in
private theorem unwrap_tryU32 (o : Option UInt64) (f : UInt32 → Parser α) :
    (do
      let n ← unwrap o
      let i ← unwrap (tryU32 n)
      f i) = unwrap (o.bind tryU32) >>= f := by
  cases o <;> rfl

/-- The index in the header of a definition ends the run when it is no number, unless it has no digits. -/
private theorem definition_unwraps {type : TypeSpecificAttrType} {x : TypeAttr × Option TokenInfo}
    {behind : ParseStream} (htk : tk ∈ lex st.source) (hat : (typeIndex type).At st tk x behind)
    (htext : IntegerText st.source tk b digits) (k : TypeAttr → UInt32 → Parser α) :
    tk.kind.isInt ∧ Unwraps (parseDefinition type.keyword type k) st (fun n => k x.1 (UInt32.ofNat n)) behind
        (2 ^ 32) b digits ∨
      tk.kind.isInt = false ∧ ∃ e, (parseDefinition type.keyword type k st).1 = .err e := by
  obtain ⟨st', hbefore, hindex⟩ := hat
  have hforward : Forward st st' := (before_forward (typeIndex type)).of_run hbefore
  obtain ⟨_, s₁, hkw, hbefore⟩ := bind_eq_ok.1 hbefore
  obtain ⟨_, s₂, hopen, hloop⟩ := bind_eq_ok.1 hbefore
  have hparse : parseDefinition type.keyword type k st =
      (attrAndIndex type >>= fun header => k header.1 header.2) s₂ := by
    rw [parseDefinition, bind_of_ok hkw, bind_of_ok hopen]
  unfold Unwraps
  unfold Breaks
  rw [hparse]
  obtain ⟨attr, index⟩ := x
  rcases isIndex_cases hloop hindex with ⟨hint, rfl⟩ | ⟨hint, rfl⟩
  · refine .inl ⟨hint, ?_⟩
    obtain rfl : behind = st' := hindex.2
    have hheader : TypeAttrAndIndex.parse type s₂ = (.ok ⟨attr, tk⟩, behind) := bind_step hloop rfl
    rw [← hforward.source] at htk htext
    have hrun : attrAndIndex type s₂ =
        (if b.Fits digits (2 ^ 32) then .ok (attr, UInt32.ofNat (b.value digits)) else .panic, behind) := by
      rw [attrAndIndex, bind_of_ok (call_ok hheader)]
      dsimp only
      rw [bind_of_ok (htext.getValue_run htk), unwrap_tryU32, value_bind_tryU32]
      split <;> rfl
    by_cases hfits : b.Fits digits (2 ^ 32)
    · rw [if_pos hfits] at hrun ⊢
      rw [bind_of_ok hrun]
    · rw [if_neg hfits] at hrun ⊢
      exact breaks_bind.2 (.inl (breaks_of_panic (congrArg Prod.fst hrun)))
  · refine .inr ⟨hint, ?_⟩
    have hheader : TypeAttrAndIndex.parse type s₂ = (.err (.expectLiteral .int), st') := bind_step hloop rfl
    obtain ⟨e, s₃, hcall⟩ : ∃ e s₃, call (TypeAttrAndIndex.parse type) s₂ = (.err e, s₃) := by
      simp [call, hheader]
    exact ⟨e, congrArg Prod.fst (bind_of_err (bind_of_err hcall))⟩

private theorem typeIndex_answers_iff {type : TypeSpecificAttrType} {x : (typeIndex type).Before}
    {behind : ParseStream} (htk : tk ∈ lex st.source) (hat : (typeIndex type).At st tk x behind)
    (htext : IntegerText st.source tk b digits) :
    (typeIndex type).Answers st x behind b digits ↔ (typeIndex type).isChecked tk ∨ b.Fits digits (2 ^ 32) := by
  -- each of the three parsers reads its definition up to the index in the same way
  have hcases (h : tk.kind.isInt ∧
        Unwraps (typeIndex type).parser st ((typeIndex type).rest x) behind (2 ^ 32) b digits ∨
      tk.kind.isInt = false ∧ ∃ e, ((typeIndex type).parser st).1 = .err e) :
      (typeIndex type).Answers st x behind b digits ↔ (typeIndex type).isChecked tk ∨ b.Fits digits (2 ^ 32) := by
    rcases h with ⟨hint, hunwraps⟩ | ⟨hint, herr⟩
    · rw [or_iff_right (by simp [isChecked, hint])]
      exact hunwraps.answers hat
    · refine iff_of_true ?_ (.inl (by simp [isChecked, hint]))
      rw [Answers, if_neg (not_fits_of_empty htk htext hint _)]
      exact herr
  cases type with
  | «class» => exact hcases (definition_unwraps htk hat htext ClassDef.parseBehindIndex)
  | struct => exact hcases (definition_unwraps htk hat htext StructDef.parseBehindIndex)
  | interface => exact hcases (definition_unwraps htk hat htext InterfaceDef.parseBehindIndex)

omit [LawfulUniParser] in
/-- The attributes of a member with its index. -/
private theorem member_answers {place : IntegerPlace} (hbound : place.bound = 2 ^ 32) {x : place.Before}
    {behind : ParseStream} (hat : place.At st tk x behind) {β : Type} {isModifier : Keyword → Bool}
    {set : Keyword → β → Option β} {init : β} {y : β × Option TokenInfo}
    (hloop : attrLoop isModifier set init st = (.ok y, st')) (hindex : IsIndex y st' tk behind)
    {f : β → UInt32 → place.Result}
    (hread : place.parser = (do
      let (result, index) ← attrLoop isModifier set init
      match ← indexValue index with
      | some index => pure (f result index)
      | none => fail (.expectLiteral .int)))
    (hrest : ∀ n, place.rest x n = pure (f y.1 (UInt32.ofNat n))) (htk : tk ∈ lex st.source)
    (htext : IntegerText st.source tk b digits) : place.Answers st x behind b digits := by
  have hforward : Forward st st' := (attrLoop_forward _ _ _).of_run hloop
  have hparse : place.parser st = (do
      match ← indexValue y.2 with
      | some index => pure (f y.1 index)
      | none => fail (.expectLiteral .int)) st' := by
    rw [hread, bind_of_ok hloop]
  obtain rfl : behind = st' := hindex.2
  unfold Answers
  rcases isIndex_cases hloop hindex with ⟨-, hy⟩ | ⟨hint, hy⟩
  · rw [← hforward.source] at htk htext
    rw [hy, bind_of_ok (indexValue_run htk htext)] at hparse
    rw [hbound]
    by_cases hfits : b.Fits digits (2 ^ 32)
    · rw [if_pos hfits] at hparse ⊢
      have hrun : place.parser st = place.rest x (b.value digits) behind := by
        rw [hparse, hrest]
      refine ⟨hrun, fun a s ha => ?_⟩
      exact hat.number_eq (hbound ▸ hfits.value_lt) (hrun.symm.trans ha)
    · rw [if_neg hfits] at hparse ⊢
      exact ⟨_, congrArg Prod.fst hparse⟩
  · rw [if_neg (not_fits_of_empty htk htext hint _)]
    rw [hy] at hparse
    exact ⟨_, congrArg Prod.fst hparse⟩

omit [LawfulUniParser] in
private theorem methodIndex_answers {x : methodIndex.Before} {behind : ParseStream} (htk : tk ∈ lex st.source)
    (hat : methodIndex.At st tk x behind) (htext : IntegerText st.source tk b digits) :
    methodIndex.Answers st x behind b digits := by
  have hplace := hat
  obtain ⟨st', hloop, hindex⟩ := hat
  refine member_answers rfl hplace hloop hindex (f := fun s index =>
    (if s.isOverride then { s.attr with overrides := some index } else s.attr, s.callConvention, index)) ?_
    (fun n => rfl) htk htext
  refine bind_congr fun header => bind_congr fun index => ?_
  cases index <;> rfl

omit [LawfulUniParser] in
private theorem fieldIndex_answers {x : fieldIndex.Before} {behind : ParseStream} (htk : tk ∈ lex st.source)
    (hat : fieldIndex.At st tk x behind) (htext : IntegerText st.source tk b digits) :
    fieldIndex.Answers st x behind b digits := by
  have hplace := hat
  obtain ⟨st', hloop, hindex⟩ := hat
  refine member_answers rfl hplace hloop hindex (f := Prod.mk) ?_ (fun n => rfl) htk htext
  refine bind_congr fun header => bind_congr fun index => ?_
  cases index <;> rfl

/-! ### Numbers in the middle of a parser -/

omit [UniLexer] [LawfulUniParser] in
private theorem main_parse {x : TypeAttr × UInt32} (h : main.before st = (.ok x, st')) :
    ClassDef.parse st = (integerIndex >>= fun id => do
      let _ ← expect SpecialChar.parenthesisClose
      ClassDef.parseBehindMain x.1 x.2 (some id)) st' := by
  obtain ⟨_, s₁, hkw, h⟩ := bind_eq_ok.1 h
  obtain ⟨_, s₂, hopen, h⟩ := bind_eq_ok.1 h
  obtain ⟨header, s₃, hheader, h⟩ := bind_eq_ok.1 h
  obtain ⟨_, s₄, hclose, h⟩ := bind_eq_ok.1 h
  obtain ⟨_, s₅, hmain, h⟩ := bind_eq_ok.1 h
  obtain ⟨_, s₆, hparen, h⟩ := bind_eq_ok.1 h
  cases h
  rw [ClassDef.parse_eq_definition, parseDefinition, bind_of_ok hkw, bind_of_ok hopen, bind_of_ok hheader]
  show ClassDef.parseBehindIndex x.1 x.2 s₃ = _
  rw [ClassDef.parseBehindIndex, bind_of_ok hclose, bind_of_ok (attempt_of_ok hmain)]
  exact bind_of_ok hparen

variable {tyGenerics methodGenerics : List Identifier}

omit [UniLexer] [LawfulUniParser] in
private theorem argument_parse {x : Unit} (h : (argument tyGenerics methodGenerics).before st = (.ok x, st')) :
    LoadableContent.parse none tyGenerics methodGenerics st = (integerValue >>= fun id => do
      let _ ← require SpecialChar.parenthesisClose
      pure (LoadableContent.arg id)) st' := by
  obtain ⟨kw, s₁, hkw, h⟩ := bind_eq_ok.1 h
  obtain ⟨_, s₂, hparen, h⟩ := bind_eq_ok.1 h
  cases h
  obtain ⟨hc, hkind, rfl⟩ := takeIf_eq_ok.1 hkw
  have hkind : kw.kind = .keyword .loadArg := eq_of_beq hkind
  have hconsume : consume st = (.ok (some kw), st.skip 1) := by
    rw [consume, hc]
  show LoadableContent.parseDepth tyGenerics methodGenerics (st.rest.length + 1) none st = _
  rw [LoadableContent.parseDepth, bind_of_ok hconsume]
  simp only [hkind]
  exact bind_of_ok hparen

omit [UniLexer] [LawfulUniParser] in
private theorem jumpOffset_parse {x : JumpCondition × JumpTargetType}
    (h : (jumpOffset tyGenerics methodGenerics).before st = (.ok x, st')) :
    Statement.parse tyGenerics methodGenerics st = (integerValue >>= fun val => do
      let _ ← require SpecialChar.semicolon
      pure (Statement.jump x.1 x.2 val)) st' := by
  obtain ⟨kw, s₁, hkw, h⟩ := bind_eq_ok.1 h
  obtain ⟨condition, s₂, hcondition, h⟩ := bind_eq_ok.1 h
  obtain ⟨ty, s₃, hty, h⟩ := bind_eq_ok.1 h
  cases h
  obtain ⟨hc, hkind, rfl⟩ := takeIf_eq_ok.1 hkw
  have hkind : kw.kind = .statementKeyword .jump := eq_of_beq hkind
  have htake : requireF (·.kind.statementKeyword?.isSome) st = (.ok kw, st.skip 1) := by
    rw [requireF, takeIf_eq_ok]
    exact ⟨hc, by rw [hkind]; rfl, rfl⟩
  rw [Statement.parse, bind_of_ok htake]
  simp only [hkind, TokenKind.statementKeyword?]
  rw [Statement.parseOperands, bind_of_ok hcondition, bind_of_ok hty]

omit [UniLexer] in
private theorem tryBegin_parse {n : Nat} {entries : List ExceptionTableEntry}
    (h : (tryBegin tyGenerics methodGenerics n).before st = (.ok entries, st')) (hc : st'.current = some tk)
    (hint : tk.kind.isLiteralOf .int) :
    parseExceptionTable tyGenerics methodGenerics st = (integerValue >>= fun val => do
      let entry ← parseBehindBegin tyGenerics methodGenerics val
      parseEntries tyGenerics methodGenerics (entries ++ [entry])) st' := by
  obtain ⟨_, s₁, hkw, h⟩ := bind_eq_ok.1 h
  obtain ⟨_, s₂, hopen, h⟩ := bind_eq_ok.1 h
  rw [parseExceptionTable, bind_of_ok (attempt_of_ok hkw)]
  show (expect SpecialChar.braceOpen >>= fun _ => parseEntries tyGenerics methodGenerics []) s₁ = _
  rw [bind_of_ok hopen, parseEntries_first h, parseEntries_turn hc hint, parseExceptionTableEntry_eq_behind,
    bind_assoc]

omit [UniLexer] [LawfulUniParser] in
private theorem location_parse {isRel : Bool} (h : location.before st = (.ok isRel, st')) :
    parseLoc st = (integerValue >>= fun loc => pure ⟨isRel, loc⟩) st' := by
  obtain ⟨o, ho, rfl⟩ := map_eq_ok.1 h
  rw [parseLoc, bind_of_ok ho]

end Places

/-- At every place of every parser, an integer is answered exactly when the place checks it or its digits are a
number of the type. -/
theorem answers_iff (place : IntegerPlace) {st behind : ParseStream} {tk : TokenInfo} {x : place.Before} {b : Base}
    {digits : List Char} (h : Lexed st) (htk : tk ∈ lex st.source) (hat : place.At st tk x behind)
    (htext : IntegerText st.source tk b digits) :
    place.Answers st x behind b digits ↔ place.isChecked tk ∨ b.Fits digits place.bound := by
  have hunwraps (hchecked : place.isChecked tk = false)
      (hunwraps : Unwraps place.parser st (place.rest x) behind place.bound b digits) :
      place.Answers st x behind b digits ↔ place.isChecked tk ∨ b.Fits digits place.bound := by
    rw [hchecked, hunwraps.answers hat]
    simp
  have hplace := hat
  obtain ⟨st', hbefore, hnumber⟩ := hat
  have hforward : Forward st st' := (before_forward place).of_run hbefore
  have hlexed : Lexed st' := h.forward hforward
  have htext' : IntegerText st'.source tk b digits := hforward.source ▸ htext
  cases place with
  | typeIndex type => exact typeIndex_answers_iff htk hplace htext
  | methodIndex => exact iff_of_true (methodIndex_answers htk hplace htext) (.inl rfl)
  | fieldIndex => exact iff_of_true (fieldIndex_answers htk hplace htext) (.inl rfl)
  | main =>
    obtain ⟨hc, rfl⟩ := hnumber
    exact hunwraps rfl (unwraps_index hlexed hc htext' (main_parse hbefore))
  | method =>
    obtain ⟨hc, rfl⟩ := hnumber
    cases hbefore
    exact hunwraps rfl (unwraps_firstOf (integerIndex_run h hc htext))
  | field =>
    obtain ⟨hc, rfl⟩ := hnumber
    cases hbefore
    exact hunwraps rfl (unwraps_firstOf (integerIndex_run h hc htext))
  | arrayLen =>
    obtain ⟨hc, rfl⟩ := hnumber
    cases hbefore
    exact hunwraps rfl (unwraps_firstOf (integerValue_run h hc htext))
  | argument tyGenerics methodGenerics =>
    obtain ⟨hc, rfl⟩ := hnumber
    exact hunwraps rfl (unwraps_value hlexed hc htext' (argument_parse hbefore))
  | jumpOffset tyGenerics methodGenerics =>
    obtain ⟨hc, rfl⟩ := hnumber
    exact hunwraps rfl (unwraps_value hlexed hc htext' (jumpOffset_parse hbefore))
  | tryBegin tyGenerics methodGenerics n =>
    obtain ⟨hc, rfl⟩ := hnumber
    exact hunwraps rfl (unwraps_value hlexed hc htext' (tryBegin_parse hbefore hc htext.isLiteralOf))
  | location =>
    obtain ⟨hc, rfl⟩ := hnumber
    exact hunwraps rfl (unwraps_value hlexed hc htext' (location_parse hbefore))

end Reading

/-! ### Sources with an integer -/

/-- An index with an underscore, the number of a main method that leaves 32 bits and an argument with a digit of no
binary number end the run, while the index of a method is reported. -/
theorem integer_panics :
    let _ := asciiLexer
    let _ := plainParser
    File.parse "class[1_0]A\x7b\x7d".toList 0 = .panic ∧
      File.parse "class[0]__MAIN(4294967296)A\x7b\x7d".toList 0 = .panic ∧
        (LoadableContent.parse none [] [] (ParseStream.new "__arg(0b2)".toList)).1 = .panic ∧
          File.parse "class[0]A\x7bmethod[1_0]m()->[!]A\x7b\x7d\x7d".toList 0 = .err (.expectLiteral .int) := by
  decide +kernel

private def firstEntry : ExceptionTableEntry :=
  ⟨0, ⟨false, 1⟩, .common "!" "E" none [], none, (⟨false, 1⟩, ⟨false, 2⟩), none, none⟩

/-- An exception table whose second entry begins with the given text. -/
private def twoEntries (second : String) : List Char :=
  ("exception_table\x7b0..1[!]E=>\x7bExceptionCatch 1..2\x7d" ++ second ++
    "..11[!]E=>\x7bExceptionCatch 1..2\x7d\x7d").toList

private def streamOf (second : String) : ParseStream := @ParseStream.new asciiLexer (twoEntries second)

/-- The run up to the second entry. -/
private def runFirst (second : String) : Outcome ParseError (List ExceptionTableEntry) × ParseStream :=
  @before plainParser (tryBegin [] [] 1) (streamOf second)

/-- `IntegerPlace.answers_iff` at the second entry of an exception table, without and with an underscore in its
first number. -/
theorem answers_iff_underscore :
    let _ := plainParser
    (tryBegin [] [] 1).Answers (streamOf "10") [firstEntry] ((runFirst "10").2.skip 1) .decimal ['1', '0'] ∧
      ¬(tryBegin [] [] 1).Answers (streamOf "1_0") [firstEntry] ((runFirst "1_0").2.skip 1) .decimal
        ['1', '_', '0'] := by
  intro _
  have _ := plainParser_lawful
  have hanswers (second : String) (tk : TokenInfo) (digits : List Char)
      (hfirst : (runFirst second).1 = .ok [firstEntry])
      (htk : tk ∈ @lex asciiLexer (twoEntries second)) (hc : (runFirst second).2.current = some tk)
      (hkind : tk.kind = .literal (.int .decimal false) (byteLen digits))
      (htext : textOf (twoEntries second) tk.span = some digits) :
      (tryBegin [] [] 1).Answers (streamOf second) [firstEntry] ((runFirst second).2.skip 1) .decimal digits ↔
        Base.decimal.Fits digits (2 ^ 64) := by
    have hlexed : @Lexed asciiLexer (streamOf second) := @Lexed.new asciiLexer (twoEntries second)
    have hinteger : IntegerText (twoEntries second) tk .decimal digits :=
      ⟨false, [], hkind, by simpa [Base.marker] using htext⟩
    have hat : (tryBegin [] [] 1).At (streamOf second) tk [firstEntry] ((runFirst second).2.skip 1) :=
      ⟨(runFirst second).2, run_of_fst hfirst, hc, rfl⟩
    have h := @answers_iff _ _ asciiLexer (tryBegin [] [] 1) _ _ tk _ .decimal digits hlexed htk hat hinteger
    simpa [isChecked, bound] using h
  constructor
  · have htk : (runFirst "10").2.current = some ⟨.literal (.int .decimal false) 2, ⟨47, 49⟩⟩ := by decide +kernel
    exact (hanswers "10" _ _ (by decide +kernel) (by decide +kernel) htk rfl (by decide +kernel)).2 (by decide)
  · have htk : (runFirst "1_0").2.current = some ⟨.literal (.int .decimal false) 3, ⟨47, 50⟩⟩ := by decide +kernel
    refine fun h => absurd ((hanswers "1_0" _ ['1', '_', '0'] ?_ ?_ htk rfl ?_).1 h) (by decide)
    all_goals decide +kernel

end IntegerPlace

end PuralinguaIR
