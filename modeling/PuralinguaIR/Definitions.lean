import PuralinguaIR.Members
import PuralinguaIR.Spellings

/-!
# Renderings of type definitions

The words of a class, a struct and an interface in the one header syntax. The parsers of classes and interfaces
give back what was written; the parser of structs asks for a brace where the header has the bracket that closes
the attributes (`StructDef.parse_declines_header`), so a definition is read back if and only if it is no struct.
-/

namespace PuralinguaIR

open Text Effect Effect.Prog Reading

/-! ### Words of definitions -/

/-- The members of a body in the order in which they are written. -/
abbrev Member := Method ⊕ Field

def TypeSpecificAttr.type : TypeSpecificAttr → TypeSpecificAttrType
  | .class _ _ => .class
  | struct _ _ => .struct
  | interface => .interface

def TypeSpecificAttr.modifiers : TypeSpecificAttr → List Keyword
  | .class static isPartial => flag .static static ++ flag .partial_ isPartial
  | struct ref isPartial => flag .ref ref ++ flag .partial_ isPartial
  | interface => []

def TypeAttr.modifiers (attr : TypeAttr) : List Keyword := attr.vis.keyword :: attr.specific.modifiers

/-- The words of a definition before the bracket that closes its attributes. -/
def headerWords (kw : Keyword) (attr : TypeAttr) (index : UInt32) : List Word :=
  .kw kw :: .sym .bracketOpen :: attrWords attr.modifiers index

def Member.words (trailing : Bool) : Member → List Word
  | .inl m => m.words trailing
  | .inr f => f.words

def bodyWords (trailing : Bool) (members : List Member) : List Word :=
  .sym .braceOpen :: (members.flatMap (Member.words trailing) ++ [.sym .braceClose])

def mainWords (id : UInt32) : List Word := [.sym .parenthesisOpen, .int id.toNat, .sym .parenthesisClose]

def requiredWords (trailing : Bool) (requiredInterfaces : List TypeReference) : List Word :=
  if requiredInterfaces = [] then []
  else .sym .colon :: separated (.sym .comma) TypeReference.words trailing requiredInterfaces

/-- The words of a definition with the members of its body in the order given. -/
def TypeDef.words (trailing : Bool) (members : List Member) : TypeDef → List Word
  | .class d =>
    headerWords .class d.attr d.index ++ .sym .bracketClose ::
      (optionalWords Keyword.main mainWords d.main ++ .ident d.name ::
      (genericWords d.generics d.isGenericInfinite ++
        (optionalWords SpecialChar.colon TypeReference.words d.parent ++
      bodyWords trailing members)))
  | .struct d =>
    headerWords .struct d.attr d.index ++ .sym .bracketClose :: .ident d.name ::
      (genericWords d.generics d.isGenericInfinite ++ bodyWords trailing members)
  | .interface d =>
    headerWords .interface d.attr d.index ++ .sym .bracketClose :: .ident d.name ::
      (genericWords d.generics d.isGenericInfinite ++ (requiredWords trailing d.requiredInterfaces ++
      bodyWords trailing members))

/-! ### Well-formed definitions -/

namespace TypeDef

def type : TypeDef → TypeSpecificAttrType
  | .class _ => .class
  | struct _ => .struct
  | interface _ => .interface

def attr : TypeDef → TypeAttr
  | .class d => d.attr
  | struct d => d.attr
  | interface d => d.attr

def generics : TypeDef → List Identifier
  | .class d => d.generics
  | struct d => d.generics
  | interface d => d.generics

/-- The types that the header of a definition mentions. -/
def headerTypes : TypeDef → List TypeReference
  | .class d => d.parent.toList
  | struct _ => []
  | interface d => d.requiredInterfaces

/-- The definitions the parser can build: the flags are those of the kind of type, and the type references of
the header and of the members are in scope. -/
structure WellFormed (d : TypeDef) : Prop where
  attr : d.attr.specific.type = d.type
  headerTypes : ∀ r ∈ d.headerTypes, r.inScope d.generics []
  methods : ∀ m ∈ d.methods, m.WellFormed d.generics
  fields : ∀ f ∈ d.fields, f.inScope d.generics

end TypeDef

instance instDecidableTypeDefWellFormed (d : TypeDef) : Decidable d.WellFormed :=
  decidable_of_iff (d.attr.specific.type = d.type ∧ (∀ r ∈ d.headerTypes, r.inScope d.generics []) ∧
      (∀ m ∈ d.methods, m.WellFormed d.generics) ∧ ∀ f ∈ d.fields, f.inScope d.generics)
    ⟨fun h => ⟨h.1, h.2.1, h.2.2.1, h.2.2.2⟩, fun h => ⟨h.attr, h.headerTypes, h.methods, h.fields⟩⟩

/-- `members` are the methods and fields of a definition, each kind in its order. -/
def TypeDef.HasMembers (d : TypeDef) (members : List Member) : Prop :=
  members.filterMap Sum.getLeft? = d.methods ∧ members.filterMap Sum.getRight? = d.fields

instance instDecidableHasMembers (d : TypeDef) (members : List Member) : Decidable (d.HasMembers members) :=
  inferInstanceAs (Decidable (_ ∧ _))

/-! ### Headers -/

private theorem TypeAttr.modifiers_set (attr : TypeAttr) :
    attr.modifiers.foldlM (fun b k => TypeAttr.set k b) ⟨.private, attr.specific.type.empty⟩ = some attr := by
  obtain ⟨vis, specific⟩ := attr
  cases vis <;> rcases specific with ⟨_ | _, _ | _⟩ | ⟨_ | _, _ | _⟩ | _ <;> rfl

private theorem TypeAttr.modifiers_mem (attr : TypeAttr) :
    ∀ k ∈ attr.modifiers, attr.specific.type.isModifier k := by
  obtain ⟨vis, specific⟩ := attr
  cases vis <;> rcases specific with ⟨_ | _, _ | _⟩ | ⟨_ | _, _ | _⟩ | _ <;> decide

section Parsing

variable [UniParser] {src : List Char} {α : Type} {ψ : Option TokenInfo → Prop}
  {tyGenerics : List Identifier}

/-- The attributes of a definition, up to a special character. -/
private theorem attrAndIndex_reads (attr : TypeAttr) (index : UInt32) (close : SpecialChar) :
    Reads (lexemes src) (next (· = close)) (attrAndIndex attr.specific.type)
      (attrWords attr.modifiers index) (attr, index) := by
  intro st ts us hs hr hw ha
  obtain ⟨tk, htk, hloop⟩ :=
    attrLoop_run attr.modifiers_mem attr.modifiers_set hs hr hw (next_specialChar _ ha)
  obtain rfl : st.source = src := hs
  rw [hw.length_eq]
  have hv := IntegerToken.getValue_run (s := st.skip ts.length) htk
  refine bind_step (call_ok (bind_step hloop rfl)) (bind_step hv (bind_step rfl ?_))
  exact bind_step (unwrap_eq_ok.2 ⟨tryU32_ofNat index, rfl⟩) rfl

/-! ### Bodies -/

private theorem bodyEnd_takes : Takes (lexemes src) ψ bodyEnd [.sym .braceClose] := by
  intro st ts us hs hr hw ha
  obtain ⟨tk, h⟩ := takes_require (ψ := ψ) SpecialChar.braceClose st ts us hs hr hw ha
  exact ⟨(), bind_step (attempt_of_ok h) rfl⟩

omit [UniParser] in
private theorem bodyEnd_declines {st : ParseStream} {tk : TokenInfo} (h : st.rest.head? = some tk)
    (hk : tk.kind ≠ SpecialChar.braceClose) : Declines bodyEnd st := by
  have hd : Declines (require SpecialChar.braceClose) st := require_declines fun tk' htk' => by
    rw [h] at htk'
    cases htk'
    exact hk
  obtain ⟨ts, hr⟩ : ∃ ts, st.rest = tk :: ts := by
    cases hr : st.rest with
    | nil => simp [hr] at h
    | cons t ts => exact ⟨ts, by simpa [hr] using h⟩
  exact ⟨.unexpect tk, bind_step hd.attempt (bind_step (current_run hr) rfl)⟩

/-- The kinds of token a member begins with. -/
private def startsMember (k : TokenKind) : Bool := k == Keyword.method || k == Keyword.field

omit [UniParser] in
private theorem member_starts (trailing : Bool) (m : Member) : Starts startsMember (m.words trailing) := by
  cases m with
  | inl m => exact Starts.cons (fun k hk => Bool.or_eq_true_iff.2 (.inl hk)) _
  | inr f => exact Starts.cons (fun k hk => Bool.or_eq_true_iff.2 (.inr hk)) _

/-- The methods and fields with one more member. -/
private def addMember (b : List Method × List Field) : Member → List Method × List Field
  | .inl m => (b.1 ++ [m], b.2)
  | .inr f => (b.1, b.2 ++ [f])

omit [UniParser] in
private theorem foldl_addMember (b : List Method × List Field) (members : List Member) :
    members.foldl addMember b =
      (b.1 ++ members.filterMap Sum.getLeft?, b.2 ++ members.filterMap Sum.getRight?) := by
  induction members generalizing b with
  | nil => simp
  | cons m members ih => cases m <;> simp [ih, addMember, List.filterMap_cons]

private theorem parseMember_reads {trailing withFields : Bool} {m : Member}
    (hm : ∀ x, m = .inl x → x.WellFormed tyGenerics)
    (hf : ∀ x, m = .inr x → withFields = true ∧ x.inScope tyGenerics) (b : List Method × List Field) :
    Reads (lexemes src) anything (parseMember tyGenerics withFields b) (m.words trailing) (addMember b m) := by
  cases m with
  | inl m =>
    refine Reads.current fun tk htk => ?_
    dsimp only
    rw [show tk.kind = _ from htk]
    exact (Reads.call (Method.parse_reads (hm m rfl) trailing)).last (Reads.pure _)
  | inr f =>
    obtain ⟨rfl, hscope⟩ := hf f rfl
    refine Reads.current fun tk htk => ?_
    dsimp only
    rw [show tk.kind = _ from htk]
    exact (Reads.call (Field.parse_reads hscope)).last (Reads.pure _)

theorem parseMembers_reads {trailing withFields : Bool} {members : List Member} {methods : List Method}
    {fields : List Field} (hmethods : members.filterMap Sum.getLeft? = methods)
    (hfields : members.filterMap Sum.getRight? = fields) (hm : ∀ m ∈ methods, m.WellFormed tyGenerics)
    (hf : ∀ f ∈ fields, withFields = true ∧ f.inScope tyGenerics) :
    Reads (lexemes src) anything (parseMembers tyGenerics withFields) (bodyWords trailing members)
      (methods, fields) := by
  have h := Reads.foldUntilOk (L := lexemes src) (p := bodyEnd) (q := parseMember tyGenerics withFields)
    (W := Member.words trailing) (g := addMember) (φ := anything) (ψ := anything) (X := members)
    (fun _ ms => ∀ m ∈ ms, (∀ x, m = .inl x → x.WellFormed tyGenerics) ∧
      (∀ x, m = .inr x → withFields = true ∧ x.inScope tyGenerics)) ?_ (fun _ _ => Leads.anything _)
    (fun m _ => (member_starts trailing m).ne_nil) ?_ (Leads.anything _) bodyEnd_takes ([], []) ?_
  · rw [foldl_addMember, hmethods, hfields] at h
    exact Reads.require h
  · intro b m ms hms
    have hm := hms m (by simp)
    exact ⟨parseMember_reads hm.1 hm.2 b, fun x hx => hms x (by simp [hx])⟩
  · intro m _
    obtain ⟨w, us, hw, hk⟩ := member_starts trailing m
    rw [hw]
    intro tk htk st hst
    refine bodyEnd_declines hst fun he => ?_
    have := hk _ (Word.allows_of_spells htk)
    rw [he] at this
    cases this
  · subst hmethods hfields
    refine fun m hmem => ⟨fun x hx => hm x ?_, fun x hx => hf x ?_⟩
    · exact List.mem_filterMap.2 ⟨m, hmem, by rw [hx]; rfl⟩
    · exact List.mem_filterMap.2 ⟨m, hmem, by rw [hx]; rfl⟩

/-! ### The three kinds of definition -/

theorem parseBounds_reads {us : List Word} {p : Parser α} {a : α}
    (hl : Leads (lexemes src) (nextIsNot Keyword.where) us ψ) (h : Reads (lexemes src) ψ p us a) :
    Reads (lexemes src) ψ (parseBounds >>= fun _ => p) us a :=
  Reads.bind (φ := nextIsNot Keyword.where) (w := []) (a := ())
    (Reads.skip_require (fun _ h => h) (Reads.pure _)) hl h

/-- The header of a definition up to the special character that closes its attributes. -/
theorem header_reads {kw : Keyword} {type : TypeSpecificAttrType} {attr : TypeAttr} {index : UInt32}
    {close : SpecialChar} {us : List Word} {a : α} {f : TypeAttr × UInt32 → Parser α}
    (htype : attr.specific.type = type)
    (h : Reads (lexemes src) ψ (f (attr, index)) (.sym close :: us) a) :
    Reads (lexemes src) ψ (do
      let _ ← call (require kw)
      let _ ← call (require SpecialChar.bracketOpen)
      let x ← attrAndIndex type
      f x) (headerWords kw attr index ++ .sym close :: us) a := by
  subst htype
  exact Reads.call_require (Reads.call_require
    (Reads.bind (attrAndIndex_reads attr index close) (leads_specialChar _) h))

private theorem main_reads {main : Option UInt32} {us : List Word} {f : Option UInt32 → Parser α} {a : α}
    (hk : Leads (lexemes src) (nextIsNot Keyword.main) us ψ) (h : Reads (lexemes src) ψ (f main) us a) :
    Reads (lexemes src) ψ (do
      let main ← do
        match ← Prog.attempt (expect Keyword.main) with
        | some _ => do
          let _ ← expect SpecialChar.parenthesisOpen
          let id ← integerIndex
          let _ ← expect SpecialChar.parenthesisClose
          pure (some id)
        | none => pure none
      f main) (optionalWords Keyword.main mainWords main ++ us) a := by
  cases main with
  | none => exact Reads.skip_require hk h
  | some id =>
    refine Reads.attempt_require fun _ _ => Reads.require ?_
    refine Reads.then (u := .sym .parenthesisClose :: us) (integerIndex_reads id) ?_
    exact Reads.require h

theorem ClassDef.parse_reads {d : ClassDef} (hd : (TypeDef.class d).WellFormed) {members : List Member}
    (hmem : (TypeDef.class d).HasMembers members) (trailing : Bool) :
    Reads (lexemes src) anything ClassDef.parse ((TypeDef.class d).words trailing members) d := by
  refine header_reads hd.attr (Reads.call_require ?_)
  refine main_reads (Word.leads_isNot (w := .ident d.name) rfl _) ?_
  refine Reads.then (Identifier.parse_reads d.name) ?_
  refine Reads.bind (ParseGenericResult.parse_reads d.generics d.isGenericInfinite) ?_ ?_
  · cases d.parent <;> exact Word.leads_isNot rfl _
  refine optional_reads (φ := nextIsNot SpecialChar.lessThanSign) (fun r hr => ?_) (Word.leads_isNot rfl _)
    (Word.leads_isNot rfl _) (parseBounds_reads (Word.leads_isNot rfl _) ?_)
  · have hscope : r.inScope d.generics [] := hd.headerTypes r (by simp [TypeDef.headerTypes, hr])
    exact (callTypeReference_reads hscope).last (Reads.pure _)
  exact (parseMembers_reads hmem.1 hmem.2 hd.methods fun f hf => ⟨rfl, hd.fields f hf⟩).last (Reads.pure _)

private theorem required_reads {generics : List Identifier} {trailing : Bool} {rs : List TypeReference}
    (h : ∀ r ∈ rs, r.inScope generics []) {us : List Word} {f : List TypeReference → Parser α} {a : α}
    (hl : Leads (lexemes src) (next (· = SpecialChar.braceOpen)) us ψ)
    (hf : Reads (lexemes src) ψ (f rs) us a) :
    Reads (lexemes src) ψ (do
      let x ← do
        match ← Prog.attempt (expect SpecialChar.colon) with
        | some _ => call (punctuated true (call (typeReference generics [])) (require SpecialChar.comma))
        | none => pure []
      f x) (requiredWords trailing rs ++ us) a := by
  rw [requiredWords]
  split
  · rename_i hrs
    rw [hrs] at hf
    refine Reads.skip_require (hl.mono fun t h tk htk hk => ?_) hf
    rw [h tk htk] at hk
    cases hk
  · rename_i hrs
    refine Reads.attempt_require fun _ _ => Reads.bind (Reads.call (commaList_reads
      (fun r hr => callTypeReference_reads (h r hr)) (fun r _ => r.words_starts.ne_nil) (by decide)
      (fun st h => call_declines (typeReference_declines fun tk htk => ?_)) fun _ => hrs)) hl hf
    rw [h tk htk]
    simp [TokenKind.isName]

theorem InterfaceDef.parse_reads {d : InterfaceDef} (hd : (TypeDef.interface d).WellFormed)
    {members : List Member} (hmem : (TypeDef.interface d).HasMembers members) (trailing : Bool) :
    Reads (lexemes src) anything InterfaceDef.parse ((TypeDef.interface d).words trailing members) d := by
  refine header_reads hd.attr (Reads.call_require ?_)
  refine Reads.then (Identifier.parse_reads d.name) ?_
  refine Reads.bind (ParseGenericResult.parse_reads d.generics d.isGenericInfinite) ?_ ?_
  · rw [requiredWords]
    split <;> exact Word.leads_isNot rfl _
  refine required_reads hd.headerTypes (Word.leads (fun _ hk => beq_iff_eq.1 hk) _)
    (parseBounds_reads (Word.leads_isNot rfl _) ?_)
  exact (parseMembers_reads hmem.1 hmem.2 hd.methods fun f hf => absurd hf List.not_mem_nil).last (Reads.pure _)

/-- The parser of structs gives up at the bracket that closes the attributes. -/
private theorem StructDef.parse_err {attr : TypeAttr} {index : UInt32} (htype : attr.specific.type = .struct)
    {st : ParseStream} {us : List Word} {ts rest : List TokenInfo} (hs : st.source = src)
    (hr : st.rest = ts ++ rest)
    (hw : List.Forall₂ (Word.spells src) (headerWords .struct attr index ++ .sym .bracketClose :: us) ts) :
    ∃ e st', StructDef.parse st = (.err e, st') := by
  have hheader : Reads (lexemes src) (next (· = SpecialChar.bracketClose))
      (call (require Keyword.struct) >>= fun _ =>
      call (require SpecialChar.bracketOpen) >>= fun _ => attrAndIndex .struct) (headerWords .struct attr index)
      (attr, index) :=
    Reads.call_require (Reads.call_require (htype ▸ attrAndIndex_reads attr index .bracketClose))
  obtain ⟨f, hf⟩ : ∃ f : TypeAttr × UInt32 → TokenInfo → Parser StructDef, StructDef.parse =
      (call (require Keyword.struct) >>= fun _ => call (require SpecialChar.bracketOpen) >>= fun _ =>
        attrAndIndex .struct) >>= fun x => call (require SpecialChar.braceClose) >>= f x :=
    ⟨_, by simp only [bind_assoc]; rfl⟩
  obtain ⟨ts₁, ts₂, hw₁, hw₂, rfl⟩ := forall₂_append_left hw
  rw [List.append_assoc] at hr
  cases hw₂ with
  | @cons _ tk _ ts₂ htk _ =>
    have hk : tk.kind = SpecialChar.bracketClose := htk
    have hrun := hheader st ts₁ _ hs hr hw₁ (by rintro _ ⟨⟩; exact hk)
    obtain ⟨e, he⟩ : Declines (call (require SpecialChar.braceClose))
        (st.skip (headerWords .struct attr index).length) := by
      refine call_declines (require_declines fun tk' htk' hk' => ?_)
      rw [hw₁.length_eq, TokenStream.rest_skip_of_append hr] at htk'
      cases htk'
      rw [hk] at hk'
      cases hk'
    exact ⟨e, _, by rw [hf, bind_of_ok hrun, bind_of_err he]⟩

end Parsing

section AnyKind

variable [UniParser]

/-- The definition after its first keyword has been looked at. -/
private theorem TypeDef.parse_step {st : ParseStream} {tk : TokenInfo} {ts : List TokenInfo}
    (hr : st.rest = tk :: ts) {r : Outcome ParseError TypeDef × ParseStream} (h : (match tk.kind with
      | .keyword .class => TypeDef.class <$> call ClassDef.parse
      | .keyword .struct => TypeDef.struct <$> call StructDef.parse
      | .keyword .interface => TypeDef.interface <$> call InterfaceDef.parse
      | _ => fail (.unexpect tk) : Parser TypeDef) st = r) : TypeDef.parse st = r :=
  bind_step (current_run hr) h

/-- The words of a definition in the one header syntax are parsed as this definition, with its members in the
order written and the stream left after the closing brace, if and only if it is no struct. -/
theorem TypeDef.parse_words_iff {d : TypeDef} (hd : d.WellFormed) {members : List Member}
    (hmem : d.HasMembers members) {trailing : Bool} {st : ParseStream} {ts rest : List TokenInfo}
    (hr : st.rest = ts ++ rest) (hts : List.Forall₂ (Word.spells st.source) (d.words trailing members) ts) :
    TypeDef.parse st = (.ok d, st.skip ts.length) ∧ (st.skip ts.length).rest = rest ↔ d.type ≠ .struct := by
  have hrest := TokenStream.rest_skip_of_append hr
  cases d with
  | «class» d =>
    refine ⟨fun _ h => (by cases h), fun _ => ⟨?_, hrest⟩⟩
    have hparse := ClassDef.parse_reads hd hmem trailing st ts rest rfl hr hts trivial
    rw [hts.length_eq] at hparse
    cases hts with
    | @cons _ tk _ ts htk _ =>
      refine TypeDef.parse_step hr ?_
      rw [show tk.kind = Keyword.class from htk]
      exact map_eq_ok.2 ⟨d, call_ok hparse, rfl⟩
  | interface d =>
    refine ⟨fun _ h => (by cases h), fun _ => ⟨?_, hrest⟩⟩
    have hparse := InterfaceDef.parse_reads hd hmem trailing st ts rest rfl hr hts trivial
    rw [hts.length_eq] at hparse
    cases hts with
    | @cons _ tk _ ts htk _ =>
      refine TypeDef.parse_step hr ?_
      rw [show tk.kind = Keyword.interface from htk]
      exact map_eq_ok.2 ⟨d, call_ok hparse, rfl⟩
  | struct d =>
    refine ⟨fun h => absurd h.1 ?_, fun h => absurd rfl h⟩
    obtain ⟨e, st', he⟩ := StructDef.parse_err hd.attr rfl hr hts
    cases hts with
    | @cons _ tk _ ts htk _ =>
      intro hok
      rw [TypeDef.parse_step hr rfl, show tk.kind = Keyword.struct from htk] at hok
      obtain ⟨d', hd', -⟩ := map_eq_ok.1 hok
      rw [call, he] at hd'
      cases hd'

end AnyKind

/-! ### A class and an interface -/

def shapeType : TypeReference := .common "A" "Shape" none []

def itemType : TypeReference := .typeGeneric (some "T") 0

/-- `method[private 0]draw()->[A]Shape{}` -/
def drawMethod : Method :=
  ⟨Method.defaultAttr, .platformDefault, 0, ⟨"draw"⟩, [], false, [], shapeType, none, [], [], []⟩

def shapeInterface : InterfaceDef := ⟨⟨.public, .interface⟩, 0, ⟨"Shape"⟩, [], false, [], [drawMethod]⟩

/-- A method with a generic name, parameters, local variables and statements, for the method of an interface. -/
def pushMethod : Method where
  attr := { Method.defaultAttr with vis := .public, localVariableTypes := [itemType, shapeType] }
  callConv := .platformDefault
  index := 0
  name := ⟨"push"⟩
  generics := [⟨"U"⟩]
  isGenericInfinite := false
  args := [⟨⟨true⟩, itemType⟩, ⟨⟨false⟩, .methodGeneric (some "U") 0⟩]
  returnType := itemType
  impl := some (shapeType, ⟨.byName ⟨"draw"⟩, []⟩)
  locals := [⟨"x"⟩, ⟨"y"⟩]
  exceptionTable := []
  statements := [.load (.i8 (-5)) ⟨"x"⟩, .setThisField ⟨"x"⟩ (.byName ⟨"last item"⟩),
    .instanceCall ⟨"y"⟩ ⟨.byName ⟨"draw"⟩, []⟩ [] ⟨"y"⟩, .returnVal ⟨"x"⟩]

def runMethod : Method := { drawMethod with index := 1, name := ⟨"run"⟩, statements := [.nop] }

def frontField : Field := ⟨⟨.public, true⟩, 0, ⟨"front"⟩, itemType⟩

def lastField : Field := ⟨⟨.private, false⟩, 1, ⟨"last item"⟩, shapeType⟩

/-- A class with a generic name, a main method and a parent, whose members are not in the order of their
numbers. -/
def queueClass : ClassDef where
  attr := ⟨.public, .class false true⟩
  index := 2
  main := some 1
  name := ⟨"Queue"⟩
  generics := [⟨"T"⟩]
  isGenericInfinite := false
  parent := some (.common "A" "Base" none [itemType])
  methods := [runMethod, pushMethod]
  fields := [lastField, frontField]

def queueMembers : List Member := [.inr lastField, .inl runMethod, .inr frontField, .inl pushMethod]

/-- The class in one of its texts, and an interface. -/
def queueSource : List Char :=
  ["class [ public partial 2 ] __MAIN ( 1 ) ", "Queue [ T ] : [ A ] Base < T > \x7b ",
    "field [ private 1 ] r\"last item\" ", ": [ A ] Shape ; ",
    "method [ private 1 ] run ( ) ", "-> [ A ] Shape \x7b Nop ; \x7d ",
    "field [ public static 0 ] front : T ; ",
    "method [ public 0 ] push [ U ] ", "( [ ref ] T , [ ] U ) -> T ", "impl draw in [ A ] Shape \x7b ",
    "locals ( x : T y : [ A ] Shape ) ", "Load - 5i8 -> x ; ", "SetThisField x -> r\"last item\" ; ",
    "InstanceCall y draw ( ) -> y ; ", "ReturnVal x ; \x7d \x7d ",
    "interface [ public 0 ] Shape \x7b ", "method [ private 0 ] draw ( ) ",
    "-> [ A ] Shape \x7b \x7d \x7d"].flatMap String.toList

/-- `parse_words_iff` at the class, behind which the interface stands. -/
theorem TypeDef.parse_words_queue :
    let _ := plainParser
    let st := @ParseStream.new asciiLexer queueSource
    ∃ n, TypeDef.parse st = (.ok (.class queueClass), st.skip n) ∧
      (st.skip n).rest.head?.map (·.kind) = some (.keyword .interface) := by
  intro _ st
  let _ := asciiLexer
  have hplain : (plainText ((TypeDef.class queueClass).words false queueMembers ++
      (TypeDef.interface shapeInterface).words false [.inl drawMethod])).map printTokens = some queueSource := by
    decide +kernel
  obtain ⟨ts, hts, hsource⟩ := Option.map_eq_some_iff.1 hplain
  have hspells := spells_printTokens (plainText_spelled hts)
  rw [hsource] at hspells
  obtain ⟨ts₁, ts₂, hqueue, hshape, hlex⟩ := forall₂_append_left hspells
  have hr : st.rest = ts₁ ++ ts₂ := (ParseStream.rest_new queueSource).trans hlex
  have hd : (TypeDef.class queueClass).WellFormed := by decide
  have hmem : (TypeDef.class queueClass).HasMembers queueMembers := by decide
  obtain ⟨hparse, hrest⟩ := (TypeDef.parse_words_iff hd hmem hr hqueue).2 nofun
  refine ⟨ts₁.length, hparse, ?_⟩
  rw [hrest]
  cases hshape with
  | cons htk _ => exact congrArg some htk

/-- A struct in the header syntax of the other definitions is refused. -/
theorem TypeDef.parse_words_struct :
    let _ := plainParser
    let src := "struct[public 0]P\x7b\x7d".toList
    let d : TypeDef := .struct ⟨⟨.public, .struct false false⟩, 0, ⟨"P"⟩, [], false, [], []⟩
    d.WellFormed ∧ d.HasMembers [] ∧ List.Forall₂ (Word.spells src) (d.words false []) (@lex asciiLexer src) ∧
      (TypeDef.parse (@ParseStream.new asciiLexer src)).1 ≠ .ok d := by
  intro _ src d
  have hlex : @lex asciiLexer src =
      [⟨.keyword .struct, ⟨0, 6⟩⟩, ⟨.specialChar .bracketOpen, ⟨6, 7⟩⟩, ⟨.keyword .public, ⟨7, 13⟩⟩,
        ⟨.literal (.int .decimal false) 1, ⟨14, 15⟩⟩, ⟨.specialChar .bracketClose, ⟨15, 16⟩⟩,
        ⟨.identifier, ⟨16, 17⟩⟩, ⟨.specialChar .braceOpen, ⟨17, 18⟩⟩,
          ⟨.specialChar .braceClose, ⟨18, 19⟩⟩] := by decide
  refine ⟨⟨rfl, by simp [d, TypeDef.headerTypes], by simp [d, TypeDef.methods], by simp [d, TypeDef.fields]⟩,
    ⟨rfl, rfl⟩, ?_, by decide⟩
  rw [hlex]
  refine .cons rfl (.cons rfl (.cons rfl (.cons ?_ (.cons rfl (.cons (.identifier (by decide)) (.cons rfl
    (.cons rfl .nil)))))))
  exact @IntToken.mk _ _ .decimal _ [] ['0'] [] (by decide) rfl (by decide)

end PuralinguaIR
