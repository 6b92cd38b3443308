import Mathlib.Data.List.Nodup
import PuralinguaIR.Rendering

/-!
# Renderings of methods and fields

The words of the members of a type definition: attributes with an index, generic names, parameters, local
variables, exception tables and statements. `Method.parse_reads` and `Field.parse_reads` read a member back
from its words.
-/

namespace PuralinguaIR

open Text Effect Effect.Prog Reading

/-! ### Words of attributes -/

def Visibility.keyword : Visibility → Keyword
  | «public» => .public
  | «private» => .private
  | assemblyOnly => .internal

/-- The keyword of a flag that is set. -/
def flag (k : Keyword) (isSet : Bool) : List Keyword := if isSet then [k] else []

/-- The words of modifiers and an index. -/
def attrWords (modifiers : List Keyword) (index : UInt32) : List Word :=
  modifiers.map .kw ++ [.int index.toNat]

def FieldAttr.modifiers (attr : FieldAttr) : List Keyword := attr.vis.keyword :: flag .static attr.static

def CallConvention.modifiers : CallConvention → List Keyword
  | platformDefault => []
  | cDecl => [.callConventionC]
  | cDeclWithVararg => [.callConventionCWithVararg]
  | fastcall => [.callConventionFASTCALL]
  | stdcall => [.callConventionSTDCALL]
  | systemV => [.callConventionSystemV]
  | win64 => [.callConventionWIN64]

def MethodAttr.modifiers {T : Type} (attr : MethodAttr T) (callConv : CallConvention) : List Keyword :=
  attr.vis.keyword :: (flag .static attr.static ++ (flag .hideWhenCapturing attr.hideWhenCapturing ++
    (flag .override attr.overrides.isSome ++ callConv.modifiers)))

/-! ### Words of members -/

/-- The words of generic names, `+` after them when there may be more. -/
def genericWords (generics : List Identifier) (isGenericInfinite : Bool) : List Word :=
  if generics = [] ∧ isGenericInfinite = false then []
  else .sym .bracketOpen :: (generics.map .ident ++
    ((if isGenericInfinite then [.sym .plus] else []) ++ [.sym .bracketClose]))

def Field.words (f : Field) : List Word :=
  .kw .field :: .sym .bracketOpen :: (attrWords f.attr.modifiers f.index ++
    .sym .bracketClose :: .ident f.name :: .sym .colon :: (f.ty.words ++ [.sym .semicolon]))

def Parameter.words (p : Parameter) : List Word :=
  .sym .bracketOpen :: ((flag .ref p.attr.byRef).map .kw ++ .sym .bracketClose :: p.ty.words)

/-- The words of an optional part that a token of the kind `k` begins. -/
def optionalWords {β : Type} (k : TokenKind) (words : β → List Word) : Option β → List Word
  | some x => .token k :: words x
  | none => []

/-- The words of a method and its type. -/
def methodInWords (m : TypeReference × MethodReference) : List Word :=
  m.2.words ++ .kw .in :: m.1.words

/-- The words of a local variable with its type. -/
def localWords (x : Identifier × TypeReference) : List Word := .ident x.1 :: .sym .colon :: x.2.words

def localsWords (locals : List (Identifier × TypeReference)) : List Word :=
  if locals = [] then []
  else .kw .locals :: .sym .parenthesisOpen :: (locals.flatMap localWords ++ [.sym .parenthesisClose])

def ExceptionLoc.words (l : ExceptionLoc) : List Word := (flag .tryRel l.isRel).map .kw ++ [.int l.loc.toNat]

inductive HandlerKind where
  | «catch» | «finally» | fault
deriving DecidableEq, Repr

def HandlerKind.keyword : HandlerKind → Keyword
  | «catch» => .exceptionCatch
  | «finally» => .exceptionFinally
  | fault => .exceptionFault

/-- A handler clause: its kind and its range. -/
abbrev HandlerClause := HandlerKind × ExceptionLoc × ExceptionLoc

def HandlerClause.words (c : HandlerClause) : List Word :=
  .kw c.1.keyword :: (c.2.1.words ++ .sym .doubledDot :: c.2.2.words)

/-- The handler clauses of an entry in the order of its fields. -/
def ExceptionTableEntry.clauses (e : ExceptionTableEntry) : List HandlerClause :=
  (.catch, e.catch) :: ((e.finally.map fun r => (.finally, r)).toList ++ (e.fault.map fun r => (.fault, r)).toList)

/-- The words of an entry with its handler clauses in the order given. -/
def ExceptionTableEntry.wordsWith (clauses : List HandlerClause) (e : ExceptionTableEntry) : List Word :=
  .int e.tryBegin.toNat :: .sym .doubledDot :: (e.tryEnd.words ++ (e.exceptionType.words ++
    (optionalWords Keyword.where methodInWords e.filter ++
    .sym .arrow :: .sym .braceOpen :: (clauses.flatMap HandlerClause.words ++ [.sym .braceClose]))))

def exceptionTableWords (entries : List ExceptionTableEntry) : List Word :=
  if entries = [] then []
  else .kw .exceptionTable :: .sym .braceOpen ::
    (entries.flatMap (fun e => e.wordsWith e.clauses) ++ [.sym .braceClose])

/-- The words of a method; the lists of arguments of its statements end with a comma if `trailing`. -/
def Method.words (trailing : Bool) (m : Method) : List Word :=
  .kw .method :: .sym .bracketOpen :: (attrWords (m.attr.modifiers m.callConv) m.index ++
    .sym .bracketClose :: .ident m.name :: (genericWords m.generics m.isGenericInfinite ++
    .sym .parenthesisOpen :: (separated (.sym .comma) Parameter.words trailing m.args ++
    .sym .parenthesisClose :: .sym .thinArrow :: (m.returnType.words ++
    (optionalWords Keyword.impl methodInWords m.impl ++
    .sym .braceOpen :: (localsWords (m.locals.zip m.attr.localVariableTypes) ++
    (exceptionTableWords m.exceptionTable ++
    (m.statements.flatMap (Statement.words trailing) ++ [.sym .braceClose]))))))))

/-! ### Well-formed members -/

def Field.inScope (tyGenerics : List Identifier) (f : Field) : Bool := f.ty.inScope tyGenerics []

/-- Whether both parts of a method of a type are in scope. -/
def methodInScope (tyGenerics methodGenerics : List Identifier) (m : TypeReference × MethodReference) : Bool :=
  m.1.inScope tyGenerics methodGenerics && m.2.inScope tyGenerics methodGenerics

def ExceptionTableEntry.inScope (tyGenerics methodGenerics : List Identifier) (e : ExceptionTableEntry) : Bool :=
  e.exceptionType.inScope tyGenerics methodGenerics && e.filter.all (methodInScope tyGenerics methodGenerics)

/-- The methods the parser builds: a method overrides the slot of its own index or none, every local variable
has a type, and the type references are in scope. -/
structure Method.WellFormed (tyGenerics : List Identifier) (m : Method) : Prop where
  overrides : m.attr.overrides = none ∨ m.attr.overrides = some m.index
  locals : m.locals.length = m.attr.localVariableTypes.length
  types : m.attr.localVariableTypes.all (·.inScope tyGenerics m.generics)
  args : m.args.all (·.ty.inScope tyGenerics m.generics)
  returnType : m.returnType.inScope tyGenerics m.generics
  impl : m.impl.all (methodInScope tyGenerics m.generics)
  exceptionTable : m.exceptionTable.all (·.inScope tyGenerics m.generics)
  statements : m.statements.all (·.inScope tyGenerics m.generics)

theorem Method.wellFormed_iff {tyGenerics : List Identifier} {m : Method} :
    m.WellFormed tyGenerics ↔ (m.attr.overrides = none ∨ m.attr.overrides = some m.index) ∧
      m.locals.length = m.attr.localVariableTypes.length ∧
      m.attr.localVariableTypes.all (·.inScope tyGenerics m.generics) ∧
      m.args.all (·.ty.inScope tyGenerics m.generics) ∧ m.returnType.inScope tyGenerics m.generics ∧
      m.impl.all (methodInScope tyGenerics m.generics) ∧
      m.exceptionTable.all (·.inScope tyGenerics m.generics) ∧
      m.statements.all (·.inScope tyGenerics m.generics) := by
  constructor
  · rintro ⟨h₁, h₂, h₃, h₄, h₅, h₆, h₇, h₈⟩
    exact ⟨h₁, h₂, h₃, h₄, h₅, h₆, h₇, h₈⟩
  · rintro ⟨h₁, h₂, h₃, h₄, h₅, h₆, h₇, h₈⟩
    exact ⟨h₁, h₂, h₃, h₄, h₅, h₆, h₇, h₈⟩

instance instDecidableMethodWellFormed (tyGenerics : List Identifier) (m : Method) :
    Decidable (m.WellFormed tyGenerics) :=
  decidable_of_iff' _ Method.wellFormed_iff

/-- The handlers with one more. -/
def Handlers.add (h : Handlers) (c : HandlerClause) : Handlers :=
  match c.1 with
  | .catch => { h with «catch» := some c.2 }
  | .finally => { h with «finally» := some c.2 }
  | .fault => { h with fault := some c.2 }

/-- Whether no handler of a kind has been met. -/
def Handlers.isFree (h : Handlers) : HandlerKind → Bool
  | .catch => h.catch.isNone
  | .finally => h.finally.isNone
  | .fault => h.fault.isNone

private theorem Handlers.isFree_add {h : Handlers} {c : HandlerClause} {k : HandlerKind} (hk : h.isFree k)
    (hne : k ≠ c.1) : (h.add c).isFree k := by
  obtain ⟨kind, r⟩ := c
  cases kind <;> cases k <;> first | exact hk | exact absurd rfl hne

theorem HandlerClause.words_starts (c : HandlerClause) : Starts (fun k => k == .keyword c.1.keyword) c.words :=
  Starts.cons (fun _ hk => hk) _

private theorem clauses_nodup (e : ExceptionTableEntry) : (e.clauses.map (·.1)).Nodup := by
  obtain ⟨_, _, _, _, _, _ | _, _ | _⟩ := e <;> simp [ExceptionTableEntry.clauses]

/-- The handlers of an entry, from its clauses in any order. -/
private theorem foldl_add_clauses {e : ExceptionTableEntry} {cs : List HandlerClause} (h : cs.Perm e.clauses) :
    cs.foldl Handlers.add ⟨none, none, none⟩ = ⟨some e.catch, e.finally, e.fault⟩ := by
  have hcomm : ∀ x ∈ cs, ∀ y ∈ cs, ∀ z : Handlers, (z.add x).add y = (z.add y).add x := by
    intro x hx y hy z
    by_cases hxy : x = y
    · rw [hxy]
    · have hk : x.1 ≠ y.1 := fun hk =>
        hxy (List.inj_on_of_nodup_map ((h.map (·.1)).nodup_iff.2 (clauses_nodup e)) hx hy hk)
      obtain ⟨kx, rx⟩ := x
      obtain ⟨ky, ry⟩ := y
      cases kx <;> cases ky <;> first | rfl | exact absurd rfl hk
  rw [h.foldl_eq' hcomm]
  obtain ⟨_, _, _, _, _, _ | _, _ | _⟩ := e <;> rfl

/-! ### Attributes -/

private theorem FieldAttr.modifiers_set (attr : FieldAttr) :
    attr.modifiers.foldlM (fun b k => Field.setAttr k b) ⟨.private, false⟩ = some attr := by
  obtain ⟨vis, static⟩ := attr
  cases vis <;> cases static <;> rfl

private theorem FieldAttr.modifiers_mem (attr : FieldAttr) : ∀ k ∈ attr.modifiers, k.isFieldModifier := by
  obtain ⟨vis, static⟩ := attr
  cases vis <;> cases static <;> decide

/-- The special character that closes the attributes ends their loop. -/
theorem next_specialChar {isModifier : Keyword → Bool} {close : SpecialChar} (t : Option TokenInfo)
    (h : next (· = close) t) :
    next (fun k => k.isKeyword isModifier = false ∧ k.isInt = false) t := by
  intro tk htk
  rw [h tk htk]
  exact ⟨rfl, rfl⟩

/-- The attributes of a method before its local variables are read. -/
def MethodAttr.withoutLocals {T : Type} (attr : MethodAttr T) : MethodAttr T :=
  { attr with localVariableTypes := [] }

private theorem MethodAttr.modifiers_set (attr : MethodAttr TypeReference) (callConv : CallConvention) :
    (attr.modifiers callConv).foldlM (fun b k => Method.setAttr k b)
        ⟨Method.defaultAttr, .platformDefault, false⟩ =
      some ⟨{ attr.withoutLocals with overrides := none }, callConv, attr.overrides.isSome⟩ := by
  obtain ⟨vis, static, hideWhenCapturing, overrides, types⟩ := attr
  cases vis <;> cases static <;> cases hideWhenCapturing <;> cases overrides <;> cases callConv <;> rfl

private theorem MethodAttr.modifiers_mem {T : Type} (attr : MethodAttr T) (callConv : CallConvention) :
    ∀ k ∈ attr.modifiers callConv, k.isMethodModifier := by
  intro k hk
  simp only [modifiers, List.mem_cons, List.mem_append, flag] at hk
  rcases hk with rfl | hk | hk | hk | hk
  · cases attr.vis <;> rfl
  all_goals
    first
    | split at hk
      · obtain rfl : k = _ := by simpa using hk
        rfl
      · cases hk
    | cases callConv <;> simp [CallConvention.modifiers] at hk <;> subst hk <;> rfl

private theorem localsLoop_foldl (attr : MethodAttr TypeReference) (names : List Identifier)
    (xs : List (Identifier × TypeReference)) :
    xs.foldl (fun (b : MethodAttr TypeReference × List Identifier) x =>
        ({ b.1 with localVariableTypes := b.1.localVariableTypes ++ [x.2] }, b.2 ++ [x.1])) (attr, names) =
      ({ attr with localVariableTypes := attr.localVariableTypes ++ xs.map (·.2) }, names ++ xs.map (·.1)) := by
  induction xs generalizing attr names with
  | nil => simp
  | cons x xs ih => simp [ih]

section Parsing

variable [UniParser] {src : List Char} {α β : Type} {φ ψ : Option TokenInfo → Prop}
  {tyGenerics methodGenerics : List Identifier}

/-- The turns of an attribute loop over modifiers and an index. -/
private theorem attrTurns {isModifier : Keyword → Bool} {set : Keyword → β → Option β} {modifiers : List Keyword}
    {index : Nat} {result : β} (hmod : ∀ k ∈ modifiers, isModifier k) {init : β}
    (hset : modifiers.foldlM (fun b k => set k b) init = some result) {st : ParseStream} {ts us : List TokenInfo}
    (hs : st.source = src) (hr : st.rest = ts ++ us)
    (hw : List.Forall₂ (Word.spells src) (modifiers.map .kw ++ [.int index]) ts)
    (hclose : next (fun k => k.isKeyword isModifier = false ∧ k.isInt = false) us.head?) {n : Nat}
    (hn : ts.length < n) :
    ∃ tk, IntToken src index tk ∧
      foldWhileOk (requireF fun tk => tk.kind.isKeyword isModifier || tk.kind.isInt)
        (fun (x : β × Option TokenInfo) tk =>
          if tk.kind.isInt then (pure (x.1, some tk) : Parser (β × Option TokenInfo))
          else
            match tk.kind with
            | .keyword kw => do pure (← unwrap (set kw x.1), x.2)
            | _ => panic) n (init, none) st = (.ok (result, some tk), st.skip ts.length) := by
  induction modifiers generalizing st ts n init with
  | nil =>
    obtain rfl : init = result := by simpa using hset
    cases hw with
    | @cons _ tk _ _ ht hnil =>
      cases hnil
      -- two turns: one takes the index, the other stops at the bracket
      obtain ⟨n, rfl⟩ : ∃ m, n = m + 2 := ⟨n - 2, by simp at hn; omega⟩
      have hint : tk.kind.isInt := IntToken.isInt ht
      have htk : requireF (fun tk => tk.kind.isKeyword isModifier || tk.kind.isInt) st = (.ok tk, st.skip 1) :=
        takeIf_ok hr (by simp [hint])
      have hr' : (st.skip 1).rest = us := TokenStream.rest_skip_of_cons hr
      refine ⟨tk, ht, ?_⟩
      refine (foldWhileOk_turn (b := (init, none)) (c := (init, some tk)) (t := st.skip 1) ?_).trans
        (foldWhileOk_end ?_)
      · refine bind_step htk ?_
        rw [if_pos hint]
        rfl
      · refine requireF_declines fun tk' htk' => ?_
        rw [hr'] at htk'
        have := hclose tk' htk'
        simp [this.1, this.2]
  | cons k modifiers ih =>
    rw [List.foldlM_cons] at hset
    obtain ⟨b, hb, hset⟩ := Option.bind_eq_some_iff.1 hset
    cases hw with
    | @cons _ tk _ ts ht hw =>
      obtain ⟨n, rfl⟩ : ∃ m, n = m + 1 := ⟨n - 1, by simp at hn; omega⟩
      have hk : tk.kind = .keyword k := ht
      have htk : requireF (fun tk => tk.kind.isKeyword isModifier || tk.kind.isInt) st = (.ok tk, st.skip 1) :=
        takeIf_ok hr (by simp [hk, TokenKind.isKeyword, hmod k])
      have hr' : (st.skip 1).rest = ts ++ us := TokenStream.rest_skip_of_cons hr
      have hs' : (st.skip 1).source = src := hs
      obtain ⟨tk', htk', hih⟩ := ih (fun k' hk' => hmod k' (by simp [hk'])) hset hs' hr' hw (by simpa using hn)
      refine ⟨tk', htk', ?_⟩
      rw [foldWhileOk_turn (c := (b, none)) (t := st.skip 1), hih]
      · rw [TokenStream.skip_skip, List.length_cons, Nat.add_comm]
      · refine bind_step htk ?_
        rw [hk, if_neg (by simp [TokenKind.isInt])]
        exact bind_step (unwrap_eq_ok.2 ⟨hb, rfl⟩) rfl

/-- Modifiers and an index are collected up to a token that is neither. -/
theorem attrLoop_run {isModifier : Keyword → Bool} {set : Keyword → β → Option β} {modifiers : List Keyword}
    {index : UInt32} {init result : β} (hmod : ∀ k ∈ modifiers, isModifier k)
    (hset : modifiers.foldlM (fun b k => set k b) init = some result) {st : ParseStream} {ts us : List TokenInfo}
    (hs : st.source = src) (hr : st.rest = ts ++ us)
    (hw : List.Forall₂ (Word.spells src) (attrWords modifiers index) ts)
    (hclose : next (fun k => k.isKeyword isModifier = false ∧ k.isInt = false) us.head?) :
    ∃ tk, IntToken src index.toNat tk ∧
      attrLoop isModifier set init st = (.ok (result, some tk), st.skip ts.length) := by
  refine attrTurns hmod hset hs hr hw hclose ?_
  rw [hr, List.length_append]
  omega

theorem attrLoop_reads {isModifier : Keyword → Bool} {set : Keyword → β → Option β} {modifiers : List Keyword}
    {index : UInt32} {init result : β} (hmod : ∀ k ∈ modifiers, isModifier k)
    (hset : modifiers.foldlM (fun b k => set k b) init = some result)
    (hclose : ∀ t, ψ t → next (fun k => k.isKeyword isModifier = false ∧ k.isInt = false) t)
    {f : β × Option TokenInfo → Parser α} {a : α}
    (hf : ∀ tk, (lexemes src).spells (.int index.toNat) tk → Reads (lexemes src) ψ (f (result, some tk)) [] a) :
    Reads (lexemes src) ψ (attrLoop isModifier set init >>= f) (attrWords modifiers index) a := by
  intro st ts us hs hr hw ha
  obtain ⟨tk, htk, hrun⟩ := attrLoop_run hmod hset hs hr hw (hclose _ ha)
  rw [bind_of_ok hrun, hw.length_eq]
  exact hf tk htk (st.skip ts.length) [] us hs (TokenStream.rest_skip_of_append hr) .nil ha

theorem indexValue_reads {index : UInt32} {tk : TokenInfo} (h : (lexemes src).spells (.int index.toNat) tk) :
    Reads (lexemes src) ψ (indexValue (some tk)) [] (some index) := by
  intro st ts us hs _ hw _
  obtain rfl : st.source = src := hs
  refine bind_step (IntegerToken.getValue_run h) ?_
  rw [Option.bind_some, tryU32_ofNat]
  rfl

/-! ### Fields -/

theorem leads_specialChar {c : SpecialChar} (ws : List Word) :
    Leads (lexemes src) (next (· = c)) (.sym c :: ws) ψ :=
  Word.leads (fun _ hk => beq_iff_eq.1 hk) ws

private theorem Field.parseAttr_reads (attr : FieldAttr) (index : UInt32) :
    Reads (lexemes src) (next (· = SpecialChar.bracketClose)) (call Field.parseAttr)
      (attrWords attr.modifiers index) (attr, index) := by
  refine Reads.call (attrLoop_reads attr.modifiers_mem attr.modifiers_set next_specialChar fun tk htk => ?_)
  exact (indexValue_reads htk).last (Reads.pure _)

/-- A field is read back from its words. -/
theorem Field.parse_reads {f : Field} (hf : f.inScope tyGenerics) :
    Reads (lexemes src) anything (Field.parse tyGenerics) f.words f := by
  refine Reads.consume fun tk htk => ?_
  have hk : tk.kind = Keyword.field := htk
  rw [show (some tk).any (·.kind == .keyword .field) = true by simp [hk]]
  refine Reads.then (w := []) (Reads.pure ()) (Reads.require ?_)
  refine Reads.bind (Field.parseAttr_reads f.attr f.index) (leads_specialChar _) ?_
  refine Reads.require (Reads.then (Identifier.parse_reads f.name) (Reads.require ?_))
  exact Reads.bind (callTypeReference_reads hf) (Word.leads_isNot rfl []) (Reads.require (Reads.pure _))

/-! ### Generic names and parameters -/

/-- Generic names are read back, unless a bracket follows that would begin them. -/
theorem ParseGenericResult.parse_reads (generics : List Identifier) (isGenericInfinite : Bool) :
    Reads (lexemes src) (nextIsNot SpecialChar.bracketOpen) (call ParseGenericResult.parse)
      (genericWords generics isGenericInfinite) ⟨generics, isGenericInfinite⟩ := by
  refine Reads.call ?_
  rw [genericWords]
  split
  · rename_i h
    rw [h.1, h.2]
    exact Reads.skip_require (fun _ h => h) (Reads.pure _)
  · refine Reads.attempt_require fun _ _ => ?_
    refine Reads.bind (φ := next (·.isName = false)) ?_ ?_ ?_ (w := generics.map Word.ident) (a := generics)
    · have h : Reads (lexemes src) _ _ _ _ := Reads.whileOk (p := call Identifier.parse) (φ := anything)
        (ψ := next (·.isName = false)) (W := fun x => [.ident x])
        (fun x (_ : x ∈ generics) => Identifier.parse_reads x) (fun _ _ _ _ => trivial) (by simp)
        (fun _ _ => trivial) (fun _ h => call_declines (Identifier.parse_declines h))
      rwa [← List.map_eq_flatMap] at h
    · cases isGenericInfinite <;> exact Word.leads (fun k hk => by rw [beq_iff_eq.1 hk]; rfl) _
    · cases isGenericInfinite with
      | true => exact Reads.attempt_require fun _ _ => Reads.require (Reads.pure _)
      | false => exact Reads.skip_require (Word.leads_isNot rfl []) (Reads.require (Reads.pure _))

omit [UniParser] in
private theorem Parameter.words_starts (p : Parameter) : Starts (· == SpecialChar.bracketOpen) p.words :=
  Starts.cons (fun _ hk => hk) _

private theorem parameterAttr_reads (attr : ParameterAttr) {f : ParameterAttr → Parser α} {us : List Word} {a : α}
    (hf : Reads (lexemes src) ψ (f attr) (.sym .bracketClose :: us) a) :
    Reads (lexemes src) ψ ((withTurns fun turns =>
      foldWhileOk (requireF (·.kind.isKeyword Keyword.isParameterModifier))
        (fun (_ : ParameterAttr) tk =>
          match tk.kind with
          | .keyword .ref => pure ⟨true⟩
          | _ => panic)
        turns ⟨false⟩) >>= f) ((flag .ref attr.byRef).map .kw ++ .sym .bracketClose :: us) a := by
  have hloop := Reads.foldWhileOk (L := lexemes src) (p := requireF (·.kind.isKeyword Keyword.isParameterModifier))
    (q := fun (_ : ParameterAttr) tk =>
      match tk.kind with
      | .keyword .ref => pure ⟨true⟩
      | _ => panic)
    (g := fun _ _ => ⟨true⟩) (W := fun k => [.kw k]) (X := flag .ref attr.byRef) (φ := anything)
    (ψ := next (· = SpecialChar.bracketClose)) ?_ (fun _ _ _ _ => trivial) (by simp) (fun _ _ => trivial)
      ?_ ⟨false⟩
  · rw [← List.map_eq_flatMap] at hloop
    refine Reads.bind hloop (leads_specialChar us) ?_
    obtain ⟨byRef⟩ := attr
    cases byRef <;> exact hf
  · intro k hk b
    obtain ⟨-, rfl⟩ : attr.byRef = true ∧ k = .ref := by simpa [flag] using hk
    refine Reads.token (fun tk htk => ?_) fun tk htk => ?_
    · rw [show tk.kind = _ from htk]
      rfl
    · rw [show tk.kind = _ from htk]
      exact Reads.pure _
  · intro st h
    refine requireF_declines fun tk htk => ?_
    rw [h tk htk]
    rfl

theorem Parameter.parse_reads {p : Parameter} (hp : p.ty.inScope tyGenerics methodGenerics) :
    Reads (lexemes src) (nextIsNot SpecialChar.lessThanSign) (call (Parameter.parse tyGenerics methodGenerics))
      p.words p := by
  refine Reads.call (Reads.require (parameterAttr_reads p.attr (Reads.require ?_)))
  exact (callTypeReference_reads hp).last (Reads.pure _)

/-! ### Local variables -/

private theorem parseLocals_reads (attr : MethodAttr TypeReference) {xs : List (Identifier × TypeReference)}
    (hxs : ∀ x ∈ xs, x.2.inScope tyGenerics methodGenerics) :
    Reads (lexemes src) (nextIsNot Keyword.locals) (call (parseLocals attr tyGenerics methodGenerics))
      (localsWords xs)
      ({ attr with localVariableTypes := attr.localVariableTypes ++ xs.map (·.2) }, xs.map (·.1)) := by
  refine Reads.call ?_
  rw [localsWords]
  split
  · rename_i h
    subst h
    rw [List.map_nil, List.append_nil]
    exact Reads.skip_require (fun _ h => h) (Reads.pure _)
  · refine Reads.attempt_require fun _ _ => Reads.require ?_
    have hloop := Reads.foldWhileOk (L := lexemes src) (p := call Identifier.parse)
      (q := fun (b : MethodAttr TypeReference × List Identifier) name => do
        let _ ← expect SpecialChar.colon
        let ty ← typeReference tyGenerics methodGenerics
        pure ({ b.1 with localVariableTypes := b.1.localVariableTypes ++ [ty] }, b.2 ++ [name]))
      (g := fun b x => ({ b.1 with localVariableTypes := b.1.localVariableTypes ++ [x.2] }, b.2 ++ [x.1]))
      (W := localWords) (X := xs) (φ := nextIsNot SpecialChar.lessThanSign)
      (ψ := next (· = SpecialChar.parenthesisClose)) ?_ (fun _ _ => Word.leads_isNot rfl _) (fun _ _ => by
        simp [localWords]) ?_ ?_ (attr, [])
    · rw [localsLoop_foldl, List.nil_append] at hloop
      refine Reads.bind hloop (Word.leads (fun _ hk => beq_iff_eq.1 hk) _) ?_
      exact Reads.require (Reads.pure _)
    · intro x hx b
      refine Reads.then (Identifier.parse_reads x.1) (Reads.require ?_)
      exact (typeReference_reads (hxs x hx)).last (Reads.pure _)
    · rintro t h tk rfl hk
      rw [h tk rfl] at hk
      cases hk
    · intro st h
      refine call_declines (Identifier.parse_declines fun tk htk => ?_)
      rw [h tk htk]
      rfl

/-! ### Exception tables -/

/-- A flag that is a keyword of its own. -/
private theorem attemptFlag_reads {k : Keyword} (isSet : Bool) {f : Bool → Parser α} {us : List Word} {a : α}
    (hl : Leads (lexemes src) (nextIsNot k) us ψ) (hf : Reads (lexemes src) ψ (f isSet) us a) :
    Reads (lexemes src) ψ (Prog.attempt (expect k) >>= fun o => f o.isSome) ((flag k isSet).map .kw ++ us) a := by
  cases isSet with
  | false => exact Reads.skip_require hl hf
  | true => exact Reads.attempt_require fun _ _ => hf

private theorem parseLoc_reads (l : ExceptionLoc) : Reads (lexemes src) anything parseLoc l.words l := by
  refine attemptFlag_reads (f := fun isRel => do pure (ExceptionLoc.mk isRel (← integerValue))) l.isRel
    (Word.leads_isNot (w := .int l.loc.toNat) rfl []) ?_
  exact (integerValue_reads l.loc).last (Reads.pure _)

private theorem parse2Loc_reads (r : ExceptionLoc × ExceptionLoc) :
    Reads (lexemes src) anything parse2Loc (r.1.words ++ .sym .doubledDot :: r.2.words) r :=
  Reads.then (parseLoc_reads r.1) (Reads.require ((parseLoc_reads r.2).last (Reads.pure _)))

private theorem parseMethodIn_reads {m : TypeReference × MethodReference}
    (hm : methodInScope tyGenerics methodGenerics m) :
    Reads (lexemes src) (nextIsNot SpecialChar.lessThanSign) (parseMethodIn tyGenerics methodGenerics)
      (methodInWords m) m := by
  have h := Bool.and_eq_true_iff.1 hm
  refine Reads.bind (MethodReference.parse_reads h.2) (Word.leads_isNot rfl _) (Reads.require ?_)
  exact (callTypeReference_reads h.1).last (Reads.pure _)

private theorem parseHandler_reads {h : Handlers} {c : HandlerClause} (hfree : h.isFree c.1) :
    Reads (lexemes src) anything (parseHandler h) c.words (h.add c) := by
  obtain ⟨kind, r⟩ := c
  cases kind with
  | «catch» =>
    have hfree : h.catch.isNone := hfree
    refine Reads.attempt_require fun _ _ => ?_
    dsimp only
    rw [hfree]
    exact (parse2Loc_reads r).last (Reads.pure _)
  | «finally» =>
    have hfree : h.finally.isNone := hfree
    refine Reads.skip_require (Word.leads_isNot rfl _) (Reads.attempt_require fun _ _ => ?_)
    dsimp only
    rw [hfree]
    exact (parse2Loc_reads r).last (Reads.pure _)
  | fault =>
    have hfree : h.fault.isNone := hfree
    refine Reads.skip_require (Word.leads_isNot rfl _) (Reads.skip_require (Word.leads_isNot rfl _) ?_)
    refine Reads.attempt_require fun _ _ => ?_
    dsimp only
    rw [hfree]
    exact (parse2Loc_reads r).last (Reads.pure _)

/-- Handler clauses of different kinds are collected in any order. -/
private theorem handlers_reads {h : Handlers} {cs : List HandlerClause} (hfree : ∀ c ∈ cs, h.isFree c.1)
    (hcs : (cs.map (·.1)).Nodup) :
    Reads (lexemes src) anything
      (withTurns fun turns => foldUntilOk (expect SpecialChar.braceClose) parseHandler turns h)
      (cs.flatMap HandlerClause.words ++ [.sym .braceClose]) (cs.foldl Handlers.add h) := by
  refine Reads.foldUntilOk (fun h (cs : List HandlerClause) => (∀ c ∈ cs, h.isFree c.1) ∧ (cs.map (·.1)).Nodup)
    (φ := anything) ?_ (fun _ _ => Leads.anything _) (fun c _ => c.words_starts.ne_nil)
    (fun c _ => c.words_starts.leads_declines rfl) (Leads.anything _) (takes_require _) h ⟨hfree, hcs⟩
  rintro h c cs ⟨hfree, hcs⟩
  rw [List.map_cons, List.nodup_cons] at hcs
  refine ⟨parseHandler_reads (hfree c (by simp)), fun c' hc' => ?_, hcs.2⟩
  refine Handlers.isFree_add (hfree c' (by simp [hc'])) fun he => hcs.1 ?_
  exact he ▸ List.mem_map_of_mem hc'

/-- An optional part with the token that begins it. -/
theorem optional_reads {k : TokenKind} {p : Parser (Option β)} {words : β → List Word} {o : Option β}
    (hp : ∀ x, o = some x → Reads (lexemes src) φ p (words x) (some x)) {us : List Word}
    (hl : Leads (lexemes src) φ us ψ) (hk : Leads (lexemes src) (nextIsNot k) us ψ)
    {f : Option β → Parser α} {a : α} (h : Reads (lexemes src) ψ (f o) us a) :
    Reads (lexemes src) ψ (do
      let x ← do
        match ← Prog.attempt (expect k) with
        | some _ => p
        | none => pure none
      f x) (optionalWords k words o ++ us) a := by
  cases o with
  | none => exact Reads.skip_require hk h
  | some x => exact Reads.attempt_require fun _ _ => (hp x rfl).bind hl h

/-- An entry of an exception table is read back, whatever the order of its handler clauses. -/
theorem parseExceptionTableEntry_reads {e : ExceptionTableEntry} (he : e.inScope tyGenerics methodGenerics)
    {cs : List HandlerClause} (hcs : cs.Perm e.clauses) :
    Reads (lexemes src) anything (parseExceptionTableEntry tyGenerics methodGenerics) (e.wordsWith cs) e := by
  have hsc := Bool.and_eq_true_iff.1 he
  refine Reads.then (integerValue_reads e.tryBegin) (Reads.require ?_)
  refine Reads.then (parseLoc_reads e.tryEnd) ?_
  refine Reads.bind (typeReference_reads hsc.1) ?_ (optional_reads (φ := nextIsNot SpecialChar.lessThanSign)
    (fun m hm => ?_) (Word.leads_isNot rfl _) (Word.leads_isNot rfl _) (Reads.require (Reads.require ?_)))
  · cases e.filter <;> exact Word.leads_isNot rfl _
  · rw [hm] at hsc
    exact (parseMethodIn_reads hsc.2).last (Reads.pure _)
  refine (handlers_reads ?_ ((hcs.map (·.1)).nodup_iff.2 (clauses_nodup e))).last ?_
  · rintro ⟨kind, r⟩ -
    cases kind <;> rfl
  · rw [foldl_add_clauses hcs]
    exact Reads.pure _

/-- Parts that are collected up to a token at which none of them begins. -/
theorem collectValues_reads {ξ : Type} {k : TokenKind} {item : Parser α} {words : ξ → List Word} {value : ξ → α}
    {p : TokenKind → Bool} {xs : List ξ}
    (hitem : ∀ x ∈ xs, Reads (lexemes src) anything item (words x) (value x))
    (hstart : ∀ x ∈ xs, Starts p (words x)) (hp : p k = false) :
    Reads (lexemes src) anything
      (withTurns fun turns => foldUntilOk (require k) (fun xs => do pure (xs ++ [← item])) turns [])
      (xs.flatMap words ++ [.token k]) (xs.map value) := by
  have h := Reads.foldUntilOk (L := lexemes src) (p := require k) (q := fun ys => do pure (ys ++ [← item]))
    (g := fun ys x => ys ++ [value x])
    (fun _ (ys : List ξ) => ∀ y ∈ ys, Reads (lexemes src) anything item (words y) (value y))
    (φ := anything) (ψ := anything) (X := xs) ?_ (fun _ _ => Leads.anything _)
    (fun x hx => (hstart x hx).ne_nil) (fun x hx => (hstart x hx).leads_declines hp) (Leads.anything _)
    (takes_require k) [] hitem
  · have hfold (ys : List α) (xs : List ξ) : xs.foldl (fun ys x => ys ++ [value x]) ys = ys ++ xs.map value := by
      induction xs generalizing ys with
      | nil => simp
      | cons x xs ih => simp [ih]
    rwa [hfold, List.nil_append] at h
  · intro ys x xs hxs
    exact ⟨(hxs x (by simp)).last (Reads.pure _), fun y hy => hxs y (by simp [hy])⟩

private theorem collect_reads {k : TokenKind} {item : Parser α} {words : α → List Word} {p : TokenKind → Bool}
    {xs : List α} (hitem : ∀ x ∈ xs, Reads (lexemes src) anything item (words x) x)
    (hstart : ∀ x ∈ xs, Starts p (words x)) (hp : p k = false) :
    Reads (lexemes src) anything
      (withTurns fun turns => foldUntilOk (require k) (fun xs => do pure (xs ++ [← item])) turns [])
      (xs.flatMap words ++ [.token k]) xs := by
  have h := collectValues_reads hitem hstart hp
  rwa [List.map_id'] at h

omit [UniParser] in
theorem entry_starts (e : ExceptionTableEntry) (cs : List HandlerClause) :
    Starts TokenKind.isInt (e.wordsWith cs) :=
  Starts.cons (fun _ hk => hk) _

/-- An exception table is read back. -/
theorem parseExceptionTable_reads {entries : List ExceptionTableEntry}
    (he : entries.all (·.inScope tyGenerics methodGenerics)) :
    Reads (lexemes src) (nextIsNot Keyword.exceptionTable) (call (parseExceptionTable tyGenerics methodGenerics))
      (exceptionTableWords entries) entries := by
  refine Reads.call ?_
  rw [exceptionTableWords]
  split
  · rename_i h
    rw [h]
    exact Reads.skip_require (fun _ h => h) (Reads.pure _)
  · refine Reads.attempt_require fun _ _ => Reads.require (Reads.any ?_)
    exact collect_reads (fun e h => parseExceptionTableEntry_reads (List.all_eq_true.1 he e h) (List.Perm.refl _))
      (fun e _ => entry_starts e e.clauses) rfl

/-! ### Methods -/

private theorem Method.parseAttr_reads {attr : MethodAttr TypeReference} {callConv : CallConvention}
    {index : UInt32} (h : attr.overrides = none ∨ attr.overrides = some index) :
    Reads (lexemes src) (next (· = SpecialChar.bracketClose)) (call Method.parseAttr)
      (attrWords (attr.modifiers callConv) index) (attr.withoutLocals, callConv, index) := by
  refine Reads.call (attrLoop_reads (attr.modifiers_mem callConv) (attr.modifiers_set callConv) next_specialChar
    fun tk htk => (indexValue_reads htk).last ?_)
  obtain ⟨vis, static, hideWhenCapturing, overrides, types⟩ := attr
  rcases h with rfl | rfl <;> exact Reads.pure _

private theorem args_reads {trailing : Bool} {args : List Parameter}
    (h : args.all (·.ty.inScope tyGenerics methodGenerics)) :
    Reads (lexemes src) (next (· = SpecialChar.parenthesisClose))
      (punctuated Bool.false (call (Parameter.parse tyGenerics methodGenerics)) (require SpecialChar.comma))
      (separated (.sym .comma) Parameter.words trailing args) args := by
  refine commaList_reads (fun p hp => Parameter.parse_reads (List.all_eq_true.1 h p hp))
    (fun p _ => p.words_starts.ne_nil) (by decide) (fun st h => ?_) (by simp)
  refine call_declines ((require_declines fun tk htk hk => ?_).bind _)
  rw [h tk htk] at hk
  cases hk

omit [UniParser] in
private theorem statement_starts (trailing : Bool) (s : Statement) :
    Starts (·.statementKeyword?.isSome) (s.words trailing) := by
  cases s <;> exact Starts.cons (fun k hk => by rw [beq_iff_eq.1 hk]; rfl) _

omit [UniParser] in
private theorem statements_starts (trailing : Bool) (ss : List Statement) :
    Starts (fun k => k.statementKeyword?.isSome || k == SpecialChar.braceClose)
      (ss.flatMap (Statement.words trailing) ++ [.sym .braceClose]) := by
  cases ss with
  | nil => exact Starts.cons (fun k hk => by rw [beq_iff_eq.1 hk]; rfl) _
  | cons s ss =>
    obtain ⟨w, us, hw, h⟩ := statement_starts trailing s
    exact ⟨w, us ++ (ss.flatMap (Statement.words trailing) ++ [.sym .braceClose]),
      by rw [List.flatMap_cons, hw]; simp, fun k hk => Bool.or_eq_true_iff.2 (.inl (h k hk))⟩

omit [UniParser] in
private theorem exceptionTable_starts {es : List ExceptionTableEntry} {ws : List Word} {p : TokenKind → Bool}
    (h : Starts p ws) : Starts (fun k => k == Keyword.exceptionTable || p k) (exceptionTableWords es ++ ws) := by
  rw [exceptionTableWords]
  split
  · obtain ⟨w, us, rfl, h⟩ := h
    exact ⟨w, us, rfl, fun k hk => Bool.or_eq_true_iff.2 (.inr (h k hk))⟩
  · exact Starts.cons (fun _ hk => Bool.or_eq_true_iff.2 (.inl hk)) _

omit [UniParser] in
private theorem Method.locals_eq {m : Method} (h : m.locals.length = m.attr.localVariableTypes.length) :
    ({ m.attr.withoutLocals with
        localVariableTypes :=
          m.attr.withoutLocals.localVariableTypes ++ (m.locals.zip m.attr.localVariableTypes).map (·.2) } :
        MethodAttr TypeReference) = m.attr ∧
      (m.locals.zip m.attr.localVariableTypes).map (·.1) = m.locals := by
  rw [List.map_snd_zip (Nat.le_of_eq h.symm), List.map_fst_zip (Nat.le_of_eq h)]
  exact ⟨rfl, rfl⟩

/-- A method is read back from its words. -/
theorem Method.parse_reads {m : Method} (hm : m.WellFormed tyGenerics) (trailing : Bool) :
    Reads (lexemes src) anything (Method.parse tyGenerics) (m.words trailing) m := by
  refine Reads.consume fun tk htk => ?_
  have hk : tk.kind = Keyword.method := htk
  rw [show (some tk).any (·.kind == .keyword .method) = true by simp [hk]]
  refine Reads.then (w := []) (Reads.pure ()) (Reads.require ?_)
  refine Reads.bind (Method.parseAttr_reads hm.overrides) (leads_specialChar _) (Reads.require ?_)
  refine Reads.then (Identifier.parse_reads m.name) ?_
  refine Reads.bind (ParseGenericResult.parse_reads m.generics m.isGenericInfinite) (Word.leads_isNot rfl _) ?_
  refine Reads.require ?_
  refine Reads.bind (args_reads hm.args) (Word.leads (fun _ hk => beq_iff_eq.1 hk) _) ?_
  refine Reads.require (Reads.require ?_)
  refine Reads.bind (callTypeReference_reads hm.returnType) ?_ ?_
  · cases m.impl <;> exact Word.leads_isNot rfl _
  refine optional_reads (φ := nextIsNot SpecialChar.lessThanSign) (fun x hx => ?_) (Word.leads_isNot rfl _)
    (Word.leads_isNot rfl _) ?_
  · have := hm.impl
    rw [hx] at this
    exact (parseMethodIn_reads this).last (Reads.pure _)
  refine Reads.skip_require (Word.leads_isNot rfl _) (Reads.require ?_)
  have hbody := statements_starts trailing m.statements
  refine Reads.bind (parseLocals_reads m.attr.withoutLocals fun x hx => ?_)
    ((exceptionTable_starts hbody).leads_isNot rfl) ?_
  · exact List.all_eq_true.1 hm.types x.2 (List.of_mem_zip hx).2
  obtain ⟨hattr, hlocals⟩ := Method.locals_eq hm.locals
  rw [hattr, hlocals]
  refine Reads.bind (parseExceptionTable_reads hm.exceptionTable) (hbody.leads_isNot rfl) ?_
  refine (collect_reads (fun s hs => Reads.call ?_) (fun s _ => statement_starts trailing s) rfl).last
    (Reads.pure _)
  exact Statement.parse_reads (List.all_eq_true.1 hm.statements s hs) trailing

end Parsing

end PuralinguaIR
