import PuralinguaIR.Words

/-!
# Renderings of statements

Every operand and every statement has a list of words in the order in which the parser reads it. Its type
references must be such as the parser builds them from names: `TypeReference.inScope`. Each parser reads the
words of a value as this value (`Statement.parse_reads`), whatever follows; the optional parts inside a
statement are told apart by the token after them, so the lemmas for operands name the kinds of token that must
not come next.
-/

namespace PuralinguaIR

open Text Effect Effect.Prog Reading

/-! ### Type references -/

namespace TypeReference

mutual

/-- Whether a type reference names its parameters by their positions in the lists of generic names; a method
generic is not hidden by a type generic. -/
def inScope (tyGenerics methodGenerics : List Identifier) : TypeReference → Bool
  | common _ _ index generics => index.isNone && inScopeAll tyGenerics methodGenerics generics
  | typeGeneric (some name) index => position tyGenerics ⟨name⟩ == some index.toNat
  | methodGeneric (some name) index =>
    position tyGenerics ⟨name⟩ == none && position methodGenerics ⟨name⟩ == some index.toNat
  | _ => false

def inScopeAll (tyGenerics methodGenerics : List Identifier) : List TypeReference → Bool
  | [] => true
  | r :: rs => inScope tyGenerics methodGenerics r && inScopeAll tyGenerics methodGenerics rs

end

mutual

/-- The words of a type reference. -/
def words : TypeReference → List Word
  | common assemblyName name _ generics =>
    .sym .bracketOpen :: .assembly assemblyName :: .sym .bracketClose :: .name name :: argWords generics
  | methodGeneric name _ => [.name (name.getD "")]
  | typeGeneric name _ => [.name (name.getD "")]

def argWords : List TypeReference → List Word
  | [] => []
  | g :: gs => .sym .lessThanSign :: (words g ++ moreWords gs)

def moreWords : List TypeReference → List Word
  | [] => [.sym .greaterThanSign]
  | g :: gs => .sym .comma :: (words g ++ moreWords gs)

end

variable {tyGenerics methodGenerics : List Identifier}

theorem inScopeAll_eq {rs : List TypeReference} :
    inScopeAll tyGenerics methodGenerics rs = rs.all (inScope tyGenerics methodGenerics) := by
  induction rs with
  | nil => simp [inScopeAll]
  | cons r rs ih => simp [inScopeAll, ih]

private theorem moreWords_eq (g : TypeReference) (gs : List TypeReference) :
    words g ++ moreWords gs = separated (.sym .comma) words false (g :: gs) ++ [.sym .greaterThanSign] := by
  induction gs generalizing g with
  | nil => simp [moreWords, separated]
  | cons g' gs ih => simp [moreWords, separated, ih]

theorem argWords_cons (g : TypeReference) (gs : List TypeReference) :
    argWords (g :: gs) =
      .sym .lessThanSign :: (separated (.sym .comma) words false (g :: gs) ++ [.sym .greaterThanSign]) := by
  rw [argWords, moreWords_eq]

/-- A type reference begins with a bracket or a name. -/
theorem words_starts (r : TypeReference) :
    Starts (fun k => k == SpecialChar.bracketOpen || k.isName) r.words := by
  cases r with
  | common assemblyName name index generics =>
    refine Starts.cons (w := .sym .bracketOpen) (fun k hk => ?_) _
    simp [show (k == SpecialChar.bracketOpen) = true from hk]
  | methodGeneric name index =>
    refine Starts.cons (w := .name _) (fun k hk => ?_) _
    simp [show k.isName = true from hk]
  | typeGeneric name index =>
    refine Starts.cons (w := .name _) (fun k hk => ?_) _
    simp [show k.isName = true from hk]

end TypeReference

section Operands

variable [UniParser] {src : List Char} {α β : Type} {φ ψ : Option TokenInfo → Prop}
  {tyGenerics methodGenerics : List Identifier}

/-- Where neither a bracket nor a name comes next, no type reference is read. -/
theorem typeReferenceDepth_declines {depth : Nat} {st : ParseStream}
    (h : next (fun k => k ≠ SpecialChar.bracketOpen ∧ k.isName = false) st.rest.head?) :
    Declines (typeReferenceDepth tyGenerics methodGenerics (depth + 1)) st := by
  have h₁ : Declines (require SpecialChar.bracketOpen) st := require_declines fun tk htk => (h tk htk).1
  have h₂ : Declines (call Identifier.parse) st :=
    call_declines (Identifier.parse_declines fun tk htk => (h tk htk).2)
  obtain ⟨e, h₂⟩ := h₂
  exact ⟨e, bind_step h₁.attempt (bind_of_err h₂)⟩

theorem typeReference_declines {st : ParseStream}
    (h : next (fun k => k ≠ SpecialChar.bracketOpen ∧ k.isName = false) st.rest.head?) :
    Declines (typeReference tyGenerics methodGenerics) st :=
  Declines.withTurns fun _ => typeReferenceDepth_declines h

/-- The separator of lists. -/
theorem comma_run (st : ParseStream) (tk : TokenInfo) (ts : List TokenInfo) (hr : st.rest = tk :: ts)
    (h : (lexemes src).spells (.sym .comma) tk) : ∃ b, require SpecialChar.comma st = (.ok b, st.skip 1) :=
  have hk : tk.kind = SpecialChar.comma := h
  ⟨tk, require_run hr hk⟩

/-- A list with commas up to the sign that closes it, at which no part begins. -/
theorem commaList_reads {item : Parser α} {words : α → List Word} {trailing atLeastOne : Bool} {xs : List α}
    {close : SpecialChar} (hitem : ∀ x ∈ xs, Reads (lexemes src) (nextIsNot SpecialChar.lessThanSign) item
      (words x) x)
    (hne : ∀ x ∈ xs, words x ≠ []) (hclose : close ≠ .comma ∧ close ≠ .lessThanSign)
    (hend : ∀ st : ParseStream, next (· = close) st.rest.head? → Declines item st) (hone : atLeastOne → xs ≠ []) :
    Reads (lexemes src) (next (· = close)) (punctuated atLeastOne item (require SpecialChar.comma))
      (separated (.sym .comma) words trailing xs) xs := by
  refine Reads.punctuated hitem hne comma_run ?_ ?_ (fun st h => ⟨hend st h, ?_⟩) hone
  · rintro tk h tk' ⟨⟩ hk
    rw [show tk.kind = _ from h] at hk
    cases hk
  · rintro t h tk rfl hk
    rw [h tk rfl] at hk
    exact hclose.2 (TokenKind.specialChar.inj hk)
  · refine require_declines fun tk htk hk => ?_
    rw [h tk htk] at hk
    exact hclose.1 (TokenKind.specialChar.inj hk)

private theorem assemblyName_reads (s : String) : Reads (lexemes src) anything assemblyName [.assembly s] s := by
  intro st ts us hs hr hw _
  obtain rfl : st.source = src := hs
  cases hw with
  | @cons _ tk _ _ ht hnil =>
    cases hnil
    rcases ht with ht | ⟨rfl, hk, htext⟩
    · have hd : Declines (require SpecialChar.exclamationMark) st := by
        refine require_declines fun tk' htk' hk => ?_
        obtain rfl : tk = tk' := by simpa [hr] using htk'
        have := ht.isName
        rw [hk] at this
        cases this
      exact bind_step hd.attempt (bind_step (call_ok (Identifier.parse_run (x := ⟨s⟩) hr ht)) rfl)
    · exact bind_step (attempt_of_ok (require_run hr hk)) (bind_step (tokenText_run (s := st.skip 1) htext) rfl)

private theorem typeReferenceDepth_reads (depth : Nat) (r : TypeReference)
    (hr : r.inScope tyGenerics methodGenerics) (hd : r.words.length ≤ depth) :
    Reads (lexemes src) (nextIsNot SpecialChar.lessThanSign)
      (typeReferenceDepth tyGenerics methodGenerics depth) r.words r := by
  induction depth generalizing r with
  | zero => exact absurd (List.length_eq_zero_iff.1 (by omega)) r.words_starts.ne_nil
  | succ depth ih =>
    cases r with
    | common assemblyName name index generics =>
      rw [TypeReference.inScope, Bool.and_eq_true, Option.isNone_iff_eq_none, TypeReference.inScopeAll_eq] at hr
      obtain ⟨rfl, hg⟩ := hr
      refine Reads.attempt_require fun _ _ => ?_
      refine Reads.then (assemblyName_reads assemblyName) ?_
      refine Reads.require ?_
      refine Reads.then (Identifier.parse_reads ⟨name⟩) ?_
      cases generics with
      | nil => exact Reads.skip_require (fun _ h => h) (Reads.pure _)
      | cons g gs =>
        simp only [TypeReference.words, TypeReference.argWords_cons, List.length_cons, List.length_append] at hd ⊢
        -- the words of an argument are fewer than those of the whole, so the turns that are left are enough
        have hitem : ∀ x ∈ g :: gs, Reads (lexemes src) (nextIsNot SpecialChar.lessThanSign)
            (typeReferenceDepth tyGenerics methodGenerics depth) x.words x := fun x hx =>
          ih x (List.all_eq_true.1 hg x hx) (by
            have := length_words_le_separated (.sym .comma) (W := TypeReference.words) false hx
            omega)
        obtain ⟨depth, rfl⟩ : ∃ n, depth = n + 1 := ⟨depth - 1, by omega⟩
        refine Reads.attempt_require fun _ _ => ?_
        refine Reads.bind (φ := next (· = SpecialChar.greaterThanSign)) (commaList_reads hitem
          (fun x _ => x.words_starts.ne_nil) (by decide) (fun st h => typeReferenceDepth_declines fun tk htk => ?_)
          (by simp)) ?_ ?_
        · rw [h tk htk]
          simp [TokenKind.isName]
        · exact Word.leads (fun k hk => by simpa [Word.allows] using hk) []
        · exact Reads.require (Reads.pure _)
    | typeGeneric name index =>
      cases name with
      | none => cases hr
      | some name =>
        have hp : position tyGenerics ⟨name⟩ = some index.toNat := beq_iff_eq.1 hr
        refine Reads.skip_require (Word.leads_isNot rfl []) ?_
        refine (Reads.any (Identifier.parse_reads ⟨name⟩)).last ?_
        rw [hp]
        dsimp only
        rw [UInt32.ofNat_toNat]
        exact Reads.pure _
    | methodGeneric name index =>
      cases name with
      | none => cases hr
      | some name =>
        rw [TypeReference.inScope, Bool.and_eq_true, beq_iff_eq] at hr
        have hp : position methodGenerics ⟨name⟩ = some index.toNat := beq_iff_eq.1 hr.2
        refine Reads.skip_require (Word.leads_isNot rfl []) ?_
        refine (Reads.any (Identifier.parse_reads ⟨name⟩)).last ?_
        rw [hr.1]
        dsimp only
        rw [hp]
        dsimp only
        rw [UInt32.ofNat_toNat]
        exact Reads.pure _

/-- A type reference of any depth is read back, unless generic arguments seem to follow. -/
theorem typeReference_reads {r : TypeReference} (hr : r.inScope tyGenerics methodGenerics) :
    Reads (lexemes src) (nextIsNot SpecialChar.lessThanSign) (typeReference tyGenerics methodGenerics) r.words r :=
  Reads.withTurns fun _ hn => typeReferenceDepth_reads _ r hr (Nat.le_of_lt hn)

theorem callTypeReference_reads {r : TypeReference} (hr : r.inScope tyGenerics methodGenerics) :
    Reads (lexemes src) (nextIsNot SpecialChar.lessThanSign) (call (typeReference tyGenerics methodGenerics))
      r.words r :=
  Reads.call (typeReference_reads hr)

/-! ### Items, methods and fields -/

def ItemRef.words : ItemRef → List Word
  | byIndex index => [.int index.toNat]
  | byName name => [.ident name]

def FieldReference.words : FieldReference → List Word
  | byIndex index => [.int index.toNat]
  | byName name => [.ident name]

def MethodReference.inScope (tyGenerics methodGenerics : List Identifier) (m : MethodReference) : Bool :=
  m.generics.all (·.inScope tyGenerics methodGenerics)

def MethodReference.words (m : MethodReference) : List Word :=
  m.index.words ++
    if m.generics = [] then []
    else .sym .bracketOpen :: (m.generics.flatMap TypeReference.words ++ [.sym .bracketClose])

/-- The kinds of token an item begins with. -/
def TokenKind.startsItem (k : TokenKind) : Bool := k.isInt || k.isName

omit [UniParser] in
theorem ItemRef.words_starts (x : ItemRef) : Starts TokenKind.startsItem x.words := by
  cases x with
  | byIndex index => exact Starts.cons (fun k hk => by simp_all [Word.allows, TokenKind.startsItem]) _
  | byName name => exact Starts.cons (fun k hk => by simp_all [Word.allows, TokenKind.startsItem]) _

omit [UniParser] in
theorem FieldReference.words_starts (x : FieldReference) : Starts TokenKind.startsItem x.words := by
  cases x with
  | byIndex index => exact Starts.cons (fun k hk => by simp_all [Word.allows, TokenKind.startsItem]) _
  | byName name => exact Starts.cons (fun k hk => by simp_all [Word.allows, TokenKind.startsItem]) _

omit [UniParser] in
theorem MethodReference.words_starts (m : MethodReference) : Starts TokenKind.startsItem m.words :=
  m.index.words_starts.append _

theorem ItemRef.parse_reads (x : ItemRef) : Reads (lexemes src) anything (call ItemRef.parse) x.words x := by
  cases x with
  | byIndex index => exact Reads.call (Reads.firstOf ((integerIndex_reads index).last (Reads.pure _)))
  | byName name =>
    refine Reads.call (Reads.firstOf_skip ?_ (Reads.firstOf ((Identifier.parse_reads name).last (Reads.pure _))))
    exact leads_name (fun st h => (integerIndex_declines h).map _) name

theorem FieldReference.parse_reads (x : FieldReference) :
    Reads (lexemes src) anything (call FieldReference.parse) x.words x := by
  cases x with
  | byIndex index => exact Reads.call (Reads.firstOf ((integerIndex_reads index).last (Reads.pure _)))
  | byName name =>
    refine Reads.call (Reads.firstOf_skip ?_ (Reads.firstOf ((Identifier.parse_reads name).last (Reads.pure _))))
    exact leads_name (fun st h => (integerIndex_declines h).map _) name

/-- Parts that are read one after the other until one fails. -/
theorem Reads.whileOk {p : Parser α} {W : α → List Word} {xs : List α}
    (hitem : ∀ x ∈ xs, Reads (lexemes src) φ p (W x) x)
    (hlead : ∀ x ∈ xs, Leads (lexemes src) φ (W x) ψ) (hne : ∀ x ∈ xs, W x ≠ [])
    (hlast : ∀ t, ψ t → φ t) (hend : ∀ st : ParseStream, ψ st.rest.head? → Declines p st) :
    Reads (lexemes src) ψ (PuralinguaIR.whileOk p) (xs.flatMap W) xs := by
  have h := Reads.foldWhileOk (q := fun (zs : List α) x => pure (zs ++ [x])) (g := fun zs x => zs ++ [x])
    (fun x hx zs => (hitem x hx).last (Reads.pure _)) hlead hne hlast hend []
  rw [List.foldl_append_eq_append, ← List.flatMap_def, List.flatMap_singleton', List.nil_append] at h
  exact h

theorem MethodReference.parse_reads {m : MethodReference} (hm : m.inScope tyGenerics methodGenerics) :
    Reads (lexemes src) (nextIsNot SpecialChar.bracketOpen)
      (call (MethodReference.parse tyGenerics methodGenerics)) m.words m := by
  obtain ⟨index, generics⟩ := m
  refine Reads.call (Reads.then index.parse_reads ?_)
  by_cases hg : generics = []
  · rw [if_pos hg, hg]
    exact Reads.skip_require (fun _ h => h) (Reads.pure _)
  · rw [if_neg hg]
    refine Reads.attempt_require fun _ _ => ?_
    refine Reads.bind (φ := next (· = SpecialChar.bracketClose)) (Reads.whileOk
      (fun r hr => callTypeReference_reads (List.all_eq_true.1 hm r hr))
      (fun r _ => r.words_starts.leads_isNot rfl)
      (fun r _ => r.words_starts.ne_nil) ?_ ?_) ?_ ?_
    · rintro t h tk rfl hk
      rw [h tk rfl] at hk
      cases hk
    · intro st h
      refine call_declines (typeReference_declines fun tk htk => ?_)
      rw [h tk htk]
      simp [TokenKind.isName]
    · exact Word.leads (fun k hk => by simpa [Word.allows] using hk) []
    · exact Reads.require (Reads.pure _)

/-! ### Contents of a load -/

namespace LoadableContent

/-- Whether a content is a number that is written after a hyphen. -/
def isNegative : LoadableContent → Bool
  | i8 val => val < 0
  | i16 val => val < 0
  | i32 val => val < 0
  | i64 val => val < 0
  | _ => Bool.false

def words : LoadableContent → List Word
  | true => [.kw .true]
  | false => [.kw .false]
  | this => [.kw .this]
  | arg id => [.kw .loadArg, .sym .parenthesisOpen, .int id.toNat, .sym .parenthesisClose]
  | static ty f => .kw .static :: .sym .parenthesisOpen :: (ty.words ++ (f.words ++ [.sym .parenthesisClose]))
  | field container f =>
    .kw .loadField :: .sym .parenthesisOpen :: .ident container :: (f.words ++ [.sym .parenthesisClose])
  | size ty => .kw .sizeof :: .sym .parenthesisOpen :: (ty.words ++ [.sym .parenthesisClose])
  | c => if c.isNegative then [.sym .hyphen, .literal (some Bool.true) c] else [.literal none c]

def inScope (tyGenerics methodGenerics : List Identifier) : LoadableContent → Bool
  | static ty _ => ty.inScope tyGenerics methodGenerics
  | size ty => ty.inScope tyGenerics methodGenerics
  | _ => Bool.true

end LoadableContent

/-- The token of a word of a fixed kind has this kind. -/
private theorem kind_eq {k : TokenKind} {tk : TokenInfo} (h : (lexemes src).spells (.token k) tk) :
    tk.kind = k := h

private theorem ofLiteral_reads {isNegative : Option Bool} {content : LoadableContent} {tk : TokenInfo}
    (h : (lexemes src).spells (.literal isNegative content) tk) : ∃ kind suffixStart,
      tk.kind = .literal kind suffixStart ∧
        Reads (lexemes src) ψ (LoadableContent.ofLiteral tk kind suffixStart isNegative) [] content := by
  obtain ⟨kind, suffixStart, hk, hrun⟩ := h
  refine ⟨kind, suffixStart, hk, fun st ts us hs _ hw _ => ?_⟩
  exact hrun st hs

private theorem parseDepth_literal {depth : Nat} {isNegative : Option Bool} (content : LoadableContent) :
    Reads (lexemes src) ψ (LoadableContent.parseDepth tyGenerics methodGenerics (depth + 1) isNegative)
      [.literal isNegative content] content := by
  refine Reads.consume fun tk htk => ?_
  obtain ⟨kind, suffixStart, hk, h⟩ := ofLiteral_reads htk
  dsimp only
  rw [hk]
  exact h

private theorem parseDepth_hyphen {depth : Nat} {content : LoadableContent} {us : List Word}
    (h : Reads (lexemes src) ψ (LoadableContent.parseDepth tyGenerics methodGenerics depth (some true)) us
      content) :
    Reads (lexemes src) ψ (LoadableContent.parseDepth tyGenerics methodGenerics (depth + 1) none)
      (.sym .hyphen :: us) content := by
  refine Reads.consume fun tk htk => ?_
  dsimp only
  rw [kind_eq htk]
  exact h

private theorem literal_reads {content : LoadableContent} {ws : List Word} {depth : Nat}
    (hw : ws = if content.isNegative then [.sym .hyphen, .literal (some true) content] else
      [.literal none content])
    (hd : ws.length < depth) :
    Reads (lexemes src) ψ (LoadableContent.parseDepth tyGenerics methodGenerics depth none) ws content := by
  subst hw
  split at hd
  · rename_i hn
    obtain ⟨depth, rfl⟩ : ∃ n, depth = n + 2 := ⟨depth - 2, by simp at hd; omega⟩
    rw [if_pos hn]
    exact parseDepth_hyphen (parseDepth_literal content)
  · rename_i hn
    obtain ⟨depth, rfl⟩ : ∃ n, depth = n + 1 := ⟨depth - 1, by simp at hd; omega⟩
    rw [if_neg hn]
    exact parseDepth_literal content

private theorem parseDepth_reads {content : LoadableContent} (hc : content.inScope tyGenerics methodGenerics)
    {depth : Nat} (hd : content.words.length < depth) :
    Reads (lexemes src) anything (LoadableContent.parseDepth tyGenerics methodGenerics depth none) content.words
      content := by
  cases content with
  | true | false =>
    obtain ⟨depth, rfl⟩ : ∃ n, depth = n + 1 := ⟨depth - 1, by omega⟩
    refine Reads.consume fun tk htk => ?_
    dsimp only
    rw [kind_eq htk]
    exact Reads.pure _
  | this =>
    obtain ⟨depth, rfl⟩ : ∃ n, depth = n + 1 := ⟨depth - 1, by omega⟩
    refine Reads.consume fun tk htk => ?_
    dsimp only
    rw [kind_eq htk]
    exact Reads.pure _
  | arg id =>
    obtain ⟨depth, rfl⟩ : ∃ n, depth = n + 1 := ⟨depth - 1, by omega⟩
    refine Reads.consume fun tk htk => ?_
    dsimp only
    rw [kind_eq htk]
    refine Reads.require ?_
    refine Reads.then (integerValue_reads id) ?_
    exact Reads.require (Reads.pure _)
  | static ty field =>
    obtain ⟨depth, rfl⟩ : ∃ n, depth = n + 1 := ⟨depth - 1, by omega⟩
    refine Reads.consume fun tk htk => ?_
    dsimp only
    rw [kind_eq htk]
    refine Reads.require ?_
    refine Reads.bind (callTypeReference_reads hc) ((field.words_starts.append _).leads_isNot rfl) ?_
    refine Reads.then field.parse_reads ?_
    exact Reads.require (Reads.pure _)
  | field container field =>
    obtain ⟨depth, rfl⟩ : ∃ n, depth = n + 1 := ⟨depth - 1, by omega⟩
    refine Reads.consume fun tk htk => ?_
    dsimp only
    rw [kind_eq htk]
    refine Reads.require ?_
    refine Reads.then (Identifier.parse_reads container) ?_
    refine Reads.then field.parse_reads ?_
    exact Reads.require (Reads.pure _)
  | size ty =>
    obtain ⟨depth, rfl⟩ : ∃ n, depth = n + 1 := ⟨depth - 1, by omega⟩
    refine Reads.consume fun tk htk => ?_
    dsimp only
    rw [kind_eq htk]
    refine Reads.require ?_
    refine Reads.bind (callTypeReference_reads hc) (Word.leads_isNot rfl []) ?_
    exact Reads.require (Reads.pure _)
  | _ => exact literal_reads rfl hd

theorem LoadableContent.parse_reads {content : LoadableContent} (hc : content.inScope tyGenerics methodGenerics) :
    Reads (lexemes src) anything (call (LoadableContent.parse none tyGenerics methodGenerics)) content.words
        content :=
  Reads.call (Reads.withTurns fun _ hn => parseDepth_reads hc hn)

/-! ### Parts of statements -/

def ArrayLen.words : ArrayLen → List Word
  | static len => [.int len.toNat]
  | dynamic len => [.ident len]

def CheckKind.words : CheckKind → List Word
  | allZero => [.kw .checkAllZero]

def JumpCondition.words : JumpCondition → List Word
  | ifTrue val => [.kw .if, .ident val]
  | checkSuccess kind toCheck => .kw .success :: (kind.words ++ [.ident toCheck])
  | checkFailure kind toCheck => .kw .failure :: (kind.words ++ [.ident toCheck])
  | unconditional => []

def JumpTargetType.words : JumpTargetType → List Word
  | absolute => [.kw .jumpAbsolute]
  | forward => [.kw .jumpForward]
  | backward => [.kw .jumpBackward]

/-- The words of the arguments and the result of a call; a list of arguments may end with a comma. -/
def callWords (trailing : Bool) (args : List Identifier) (result : Identifier) : List Word :=
  .sym .parenthesisOpen :: (separated (.sym .comma) (fun x => [.ident x]) trailing args ++
    [.sym .parenthesisClose, .sym .thinArrow, .ident result, .sym .semicolon])

private theorem ArrayLen.parse_reads (x : ArrayLen) :
    Reads (lexemes src) anything (call ArrayLen.parse) x.words x := by
  cases x with
  | static len => exact Reads.call (Reads.firstOf ((integerValue_reads len).last (Reads.pure _)))
  | dynamic len =>
    refine Reads.call (Reads.firstOf_skip ?_ (Reads.firstOf ((Identifier.parse_reads len).last (Reads.pure _))))
    exact leads_name (fun st h => (integerValue_declines h).map _) len

private theorem CheckKind.parse_reads (x : CheckKind) :
    Reads (lexemes src) anything (call CheckKind.parse) x.words x := by
  cases x with
  | allZero => exact Reads.call (Reads.firstOf (Reads.call_require (Reads.pure _)))

/-- An alternative that begins with a keyword is passed over at another token. -/
private theorem firstOf_skip_keyword {k : TokenKind} {f : TokenInfo → Parser α} {ps : List (Parser α)}
    {ws : List Word} {a : α} (hl : Leads (lexemes src) (nextIsNot k) ws φ)
    (h : Reads (lexemes src) φ (firstOf ps) ws a) :
    Reads (lexemes src) φ (firstOf ((call (require k) >>= f) :: ps)) ws a := by
  intro st ts us hs hr hw hf
  have hd : Declines (call (require k) >>= f) st := by
    refine (call_declines (require_declines_of_next ?_)).bind f
    rw [hr]
    exact hl.head hw hf
  rw [UniParser.firstOf_declines hd]
  exact h st ts us hs hr hw hf

/-- The kinds of token a jump condition begins with. -/
private def startsCondition (k : TokenKind) : Prop :=
  k = Keyword.if ∨ k = Keyword.success ∨ k = Keyword.failure

private theorem JumpCondition.parse_reads (x : JumpCondition) :
    Reads (lexemes src) (next fun k => ¬ startsCondition k) (call JumpCondition.parse) x.words x := by
  refine Reads.call ?_
  cases x with
  | ifTrue val =>
    refine Reads.firstOf (Reads.call_require ?_)
    exact (Reads.any (Identifier.parse_reads val)).last (Reads.pure _)
  | checkSuccess kind toCheck =>
    refine firstOf_skip_keyword (Word.leads_isNot rfl _) ?_
    refine Reads.firstOf (Reads.call_require (Reads.then kind.parse_reads ?_))
    exact (Reads.any (Identifier.parse_reads toCheck)).last (Reads.pure _)
  | checkFailure kind toCheck =>
    refine firstOf_skip_keyword (Word.leads_isNot rfl _) (firstOf_skip_keyword (Word.leads_isNot rfl _) ?_)
    refine Reads.firstOf (Reads.call_require (Reads.then kind.parse_reads ?_))
    exact (Reads.any (Identifier.parse_reads toCheck)).last (Reads.pure _)
  | unconditional =>
    refine firstOf_skip_keyword ?_ (firstOf_skip_keyword
      ?_ (firstOf_skip_keyword ?_ (Reads.firstOf (Reads.pure _))))
    · exact fun t h tk htk hk => h tk htk (.inl hk)
    · exact fun t h tk htk hk => h tk htk (.inr (.inl hk))
    · exact fun t h tk htk hk => h tk htk (.inr (.inr hk))

private theorem JumpTargetType.words_leads (x : JumpTargetType) (ws : List Word) :
    Leads (lexemes src) (next fun k => ¬ startsCondition k) (x.words ++ ws) ψ := by
  cases x <;> exact Word.leads (fun k hk h => by
    obtain rfl := beq_iff_eq.1 hk
    rcases h with h | h | h <;> cases h) ws

private theorem JumpTargetType.parse_reads (x : JumpTargetType) :
    Reads (lexemes src) anything (call JumpTargetType.parse) x.words x := by
  refine Reads.call ?_
  cases x with
  | absolute => exact Reads.firstOf (Reads.call_require (Reads.pure _))
  | forward =>
    exact firstOf_skip_keyword (Word.leads_isNot rfl _) (Reads.firstOf (Reads.call_require (Reads.pure _)))
  | backward =>
    exact firstOf_skip_keyword (Word.leads_isNot rfl _)
      (firstOf_skip_keyword (Word.leads_isNot rfl _) (Reads.firstOf (Reads.call_require (Reads.pure _))))

private theorem argsAndResult_reads (trailing : Bool) (args : List Identifier) (result : Identifier) :
    Reads (lexemes src) anything argsAndResult (callWords trailing args result) (args, result) := by
  refine Reads.require ?_
  refine Reads.bind (φ := next (· = SpecialChar.parenthesisClose)) (Reads.call (commaList_reads
    (fun x _ => (Identifier.parse_reads x).any) (by simp) (by decide)
    (fun st h => call_declines (Identifier.parse_declines fun tk htk => ?_)) (by simp))) ?_ ?_
  · rw [h tk htk]
    rfl
  · exact Word.leads (fun k hk => beq_iff_eq.1 hk) _
  · refine Reads.require (Reads.require (Reads.then (Identifier.parse_reads result) ?_))
    exact Reads.require (Reads.pure _)

/-! ### Statements -/

/-- The words of a statement. -/
def Statement.words (trailing : Bool) : Statement → List Word
  | load content var =>
    .token (.statementKeyword .load) :: (content.words ++ [.sym .thinArrow, .ident var, .sym .semicolon])
  | readPointerTo ptr size destination =>
    [.token (.statementKeyword .readPointerTo), .ident ptr, .ident size, .sym .thinArrow, .ident destination,
      .sym .semicolon]
  | writePointer source size ptr =>
    [.token (.statementKeyword .writePointer), .ident source, .ident size, .sym .thinArrow, .ident ptr,
      .sym .semicolon]
  | check kind toCheck result =>
    .token (.statementKeyword .check) ::
      (kind.words ++ [.ident toCheck, .sym .thinArrow, .ident result, .sym .semicolon])
  | newObject ty ctor args result =>
    .token (.statementKeyword .newObject) :: (ty.words ++ (ctor.words ++ callWords trailing args result))
  | newArray elementTy len result =>
    .token (.statementKeyword .newArray) ::
      (elementTy.words ++ (len.words ++ [.sym .thinArrow, .ident result, .sym .semicolon]))
  | instanceCall val method args result =>
    .token (.statementKeyword .instanceCall) :: .ident val :: (method.words ++ callWords trailing args result)
  | staticCall ty method args result =>
    .token (.statementKeyword .staticCall) :: (ty.words ++ (method.words ++ callWords trailing args result))
  | interfaceCall val interface method args result =>
    .token (.statementKeyword .interfaceCall) :: .ident val :: .kw .as ::
      (interface.words ++ (method.words ++ callWords trailing args result))
  | nonPurusCall config fPointer args result =>
    .token (.statementKeyword .nonPurusCall) :: .sym .numberSign :: .ident config :: .ident fPointer ::
      callWords trailing args result
  | setField val container field =>
    .token (.statementKeyword .setField) :: .ident val :: .sym .thinArrow :: .ident container :: .sym .period ::
      (field.words ++ [.sym .semicolon])
  | setThisField val field =>
    .token (.statementKeyword .setThisField) :: .ident val :: .sym .thinArrow :: (field.words ++ [.sym .semicolon])
  | setStaticField val ty field =>
    .token (.statementKeyword .setStaticField) :: .ident val :: .sym .thinArrow ::
      (ty.words ++ (field.words ++ [.sym .semicolon]))
  | throw val => [.token (.statementKeyword .throw), .ident val, .sym .semicolon]
  | returnVal val => [.token (.statementKeyword .returnVal), .ident val, .sym .semicolon]
  | jump condition ty val =>
    .token (.statementKeyword .jump) :: (condition.words ++ (ty.words ++ [.int val.toNat, .sym .semicolon]))
  | nop => [.token (.statementKeyword .nop), .sym .semicolon]

/-- Whether the type references of a statement are in scope. -/
def Statement.inScope (tyGenerics methodGenerics : List Identifier) : Statement → Bool
  | load content _ => content.inScope tyGenerics methodGenerics
  | newObject ty ctor _ _ => ty.inScope tyGenerics methodGenerics && ctor.inScope tyGenerics methodGenerics
  | newArray elementTy _ _ => elementTy.inScope tyGenerics methodGenerics
  | instanceCall _ method _ _ => method.inScope tyGenerics methodGenerics
  | staticCall ty method _ _ => ty.inScope tyGenerics methodGenerics && method.inScope tyGenerics methodGenerics
  | interfaceCall _ interface method _ _ =>
    interface.inScope tyGenerics methodGenerics && method.inScope tyGenerics methodGenerics
  | setStaticField _ ty _ => ty.inScope tyGenerics methodGenerics
  | _ => true

private theorem parseOperands_reads {k : StatementKeyword} {ws : List Word} {s : Statement}
    (h : Reads (lexemes src) anything (Statement.parseOperands tyGenerics methodGenerics k) ws s) :
    Reads (lexemes src) anything (Statement.parse tyGenerics methodGenerics)
      (.token (.statementKeyword k) :: ws) s := by
  refine Reads.token (fun tk htk => ?_) fun tk htk => ?_
  · rw [kind_eq htk]
    rfl
  · rw [kind_eq htk]
    exact h

/-- The end of a call, after its method reference. -/
private theorem methodCall_reads {trailing : Bool} {m : MethodReference} {args : List Identifier}
    {result : Identifier} {make : MethodReference → List Identifier → Identifier → Statement}
    (hm : m.inScope tyGenerics methodGenerics) :
    Reads (lexemes src) anything (do
        let method ← call (MethodReference.parse tyGenerics methodGenerics)
        let (args, result) ← argsAndResult
        pure (make method args result)) (m.words ++ callWords trailing args result) (make m args result) := by
  refine Reads.bind (MethodReference.parse_reads hm) (Word.leads_isNot rfl _) ?_
  exact (argsAndResult_reads trailing args result).last (Reads.pure _)

/-- Every statement is read back from its words. -/
theorem Statement.parse_reads {s : Statement} (hs : s.inScope tyGenerics methodGenerics) (trailing : Bool) :
    Reads (lexemes src) anything (Statement.parse tyGenerics methodGenerics) (s.words trailing) s := by
  cases s with
  | load content var =>
    refine parseOperands_reads (Reads.then (LoadableContent.parse_reads hs) (Reads.require ?_))
    exact Reads.then (Identifier.parse_reads var) (Reads.require (Reads.pure _))
  | readPointerTo ptr size destination =>
    refine parseOperands_reads (Reads.then (Identifier.parse_reads ptr) ?_)
    refine Reads.then (Identifier.parse_reads size) ?_
    exact Reads.require (Reads.then (Identifier.parse_reads destination) (Reads.require (Reads.pure _)))
  | writePointer source size ptr =>
    refine parseOperands_reads (Reads.then (Identifier.parse_reads source) ?_)
    refine Reads.then (Identifier.parse_reads size) ?_
    exact Reads.require (Reads.then (Identifier.parse_reads ptr) (Reads.require (Reads.pure _)))
  | check kind toCheck result =>
    refine parseOperands_reads (Reads.then kind.parse_reads (Reads.then (Identifier.parse_reads toCheck) ?_))
    exact Reads.require (Reads.then (Identifier.parse_reads result) (Reads.require (Reads.pure _)))
  | newObject ty ctor args result =>
    have h := Bool.and_eq_true_iff.1 hs
    refine parseOperands_reads (Reads.bind (callTypeReference_reads h.1) ?_ (methodCall_reads h.2))
    exact (ctor.words_starts.append _).leads_isNot rfl
  | newArray elementTy len result =>
    refine parseOperands_reads (Reads.bind (callTypeReference_reads hs) ?_ ?_)
    · cases len <;> exact Word.leads_isNot rfl _
    · refine Reads.then len.parse_reads (Reads.require ?_)
      exact Reads.then (Identifier.parse_reads result) (Reads.require (Reads.pure _))
  | instanceCall val method args result =>
    exact parseOperands_reads (Reads.then (Identifier.parse_reads val) (methodCall_reads hs))
  | staticCall ty method args result =>
    have h := Bool.and_eq_true_iff.1 hs
    refine parseOperands_reads (Reads.bind (callTypeReference_reads h.1) ?_ (methodCall_reads h.2))
    exact (method.words_starts.append _).leads_isNot rfl
  | interfaceCall val interface method args result =>
    have h := Bool.and_eq_true_iff.1 hs
    refine parseOperands_reads (Reads.then (Identifier.parse_reads val) (Reads.require ?_))
    refine Reads.bind (callTypeReference_reads h.1) ?_ (methodCall_reads h.2)
    exact (method.words_starts.append _).leads_isNot rfl
  | nonPurusCall config fPointer args result =>
    refine parseOperands_reads (Reads.require (Reads.then (Identifier.parse_reads config) ?_))
    refine Reads.then (Identifier.parse_reads fPointer) ?_
    exact (argsAndResult_reads trailing args result).last (Reads.pure _)
  | setField val container field =>
    refine parseOperands_reads (Reads.then (Identifier.parse_reads val) (Reads.require ?_))
    refine Reads.then (Identifier.parse_reads container) (Reads.require ?_)
    exact Reads.then field.parse_reads (Reads.require (Reads.pure _))
  | setThisField val field =>
    refine parseOperands_reads (Reads.then (Identifier.parse_reads val) (Reads.require ?_))
    exact Reads.then field.parse_reads (Reads.require (Reads.pure _))
  | setStaticField val ty field =>
    refine parseOperands_reads (Reads.then (Identifier.parse_reads val) (Reads.require ?_))
    refine Reads.bind (callTypeReference_reads hs) ((field.words_starts.append _).leads_isNot rfl) ?_
    exact Reads.then field.parse_reads (Reads.require (Reads.pure _))
  | throw val =>
    exact parseOperands_reads (Reads.then (Identifier.parse_reads val) (Reads.require (Reads.pure _)))
  | returnVal val =>
    exact parseOperands_reads (Reads.then (Identifier.parse_reads val) (Reads.require (Reads.pure _)))
  | jump condition ty val =>
    refine parseOperands_reads (Reads.bind condition.parse_reads (ty.words_leads _) (Reads.then ty.parse_reads ?_))
    exact Reads.then (integerValue_reads val) (Reads.require (Reads.pure _))
  | nop => exact parseOperands_reads (Reads.require (Reads.pure _))

/-- Parsing inverts the rendering of statements: the words of a statement, spelled by any tokens and followed by
any tokens, are parsed as this statement, and the stream is left after them. Hence no tokens render two
statements. -/
theorem Statement.parse_words {s : Statement} {trailing : Bool} {st : ParseStream} {ts rest : List TokenInfo}
    (hs : s.inScope tyGenerics methodGenerics) (hr : st.rest = ts ++ rest)
    (hts : List.Forall₂ (Word.spells st.source) (s.words trailing) ts) :
    Statement.parse tyGenerics methodGenerics st = (.ok s, st.skip ts.length) ∧ (st.skip ts.length).rest = rest ∧
      ∀ (s' : Statement) (trailing' : Bool), s'.inScope tyGenerics methodGenerics →
        List.Forall₂ (Word.spells st.source) (s'.words trailing') ts → s' = s := by
  have hparse := Statement.parse_reads hs trailing st ts rest rfl hr hts trivial
  rw [hts.length_eq] at hparse
  refine ⟨hparse, TokenStream.rest_skip_of_append hr, fun s' trailing' hs' hts' => ?_⟩
  -- the parser is a function, so the tokens of two statements would be parsed as both
  have hparse' := Statement.parse_reads hs' trailing' st ts rest rfl hr hts' trivial
  rw [hparse] at hparse'
  injection hparse' with h _
  injection h with h
  exact h.symm

end Operands

/-- `parse_words` at a statement with a nested type reference. -/
theorem Statement.parse_words_newArray :
    @Statement.parse plainParser [⟨"T"⟩] []
        ⟨"NewArray [!]Box<T> 3 -> r;".toList, @lex asciiLexer "NewArray [!]Box<T> 3 -> r;".toList, 0⟩ =
      (.ok (.newArray (.common "!" "Box" none [.typeGeneric (some "T") 0]) (.static 3) ⟨"r"⟩),
        ⟨"NewArray [!]Box<T> 3 -> r;".toList, @lex asciiLexer "NewArray [!]Box<T> 3 -> r;".toList, 12⟩) := by
  let _ := plainParser
  have hlex : @lex asciiLexer "NewArray [!]Box<T> 3 -> r;".toList =
      [⟨.statementKeyword .newArray, ⟨0, 8⟩⟩, ⟨.specialChar .bracketOpen, ⟨9, 10⟩⟩,
        ⟨.specialChar .exclamationMark, ⟨10, 11⟩⟩, ⟨.specialChar .bracketClose, ⟨11, 12⟩⟩, ⟨.identifier, ⟨12, 15⟩⟩,
        ⟨.specialChar .lessThanSign, ⟨15, 16⟩⟩, ⟨.identifier, ⟨16, 17⟩⟩, ⟨.specialChar .greaterThanSign, ⟨17, 18⟩⟩,
        ⟨.literal (.int .decimal false) 1, ⟨19, 20⟩⟩, ⟨.specialChar .thinArrow, ⟨21, 23⟩⟩, ⟨.identifier, ⟨24, 25⟩⟩,
        ⟨.specialChar .semicolon, ⟨25, 26⟩⟩] := by decide
  rw [hlex]
  suffices h : List.Forall₂ (Word.spells "NewArray [!]Box<T> 3 -> r;".toList) (Statement.words false
      (.newArray (.common "!" "Box" none [.typeGeneric (some "T") 0]) (.static 3) ⟨"r"⟩)) _ from
    (Statement.parse_words (by decide) (List.append_nil _).symm h).1
  refine .cons rfl (.cons rfl (.cons (.inr ⟨rfl, rfl, by decide⟩) (.cons rfl (.cons (.identifier (by decide))
    (.cons rfl (.cons (.identifier (by decide)) (.cons rfl (.cons ?_ (.cons rfl (.cons (.identifier (by decide))
    (.cons rfl .nil)))))))))))
  exact @IntToken.mk _ _ .decimal _ [] ['3'] [] (by decide) rfl (by decide)

end PuralinguaIR
