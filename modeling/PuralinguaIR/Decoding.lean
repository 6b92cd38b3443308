import PuralinguaIR.Compile

/-!
# What tokens mean

`decodeType` follows a token through the tables of an assembly to the type it means, and `TypeReference.resolve`
is the type a reference means. Compiling only extends the tables (`Assembly.Extends`), so a token keeps its
meaning, and the token a reference is compiled to means what the reference means as long as an index holds every
position of the tables (`compile_decodes`).
-/

namespace PuralinguaIR

open Effect Effect.Prog

/-! ### Growing tables -/

/-- The tables of `b` begin with those of `a`. -/
structure Assembly.Extends (a b : Assembly) : Prop where
  strings : a.strings <+: b.strings
  typeRefs : a.typeRefs <+: b.typeRefs
  typeSpecs : a.typeSpecs <+: b.typeSpecs
  methodSpecs : a.methodSpecs <+: b.methodSpecs

namespace Assembly.Extends

theorem refl (a : Assembly) : a.Extends a :=
  ⟨List.prefix_refl _, List.prefix_refl _, List.prefix_refl _, List.prefix_refl _⟩

theorem trans {a b c : Assembly} (h : a.Extends b) (h' : b.Extends c) : a.Extends c :=
  ⟨h.strings.trans h'.strings, h.typeRefs.trans h'.typeRefs, h.typeSpecs.trans h'.typeSpecs,
    h.methodSpecs.trans h'.methodSpecs⟩

end Assembly.Extends

instance : Std.Refl Assembly.Extends := ⟨Assembly.Extends.refl⟩

instance : IsTrans Assembly Assembly.Extends := ⟨fun _ _ _ => Assembly.Extends.trans⟩

theorem getElem?_of_isPrefix {α : Type} {xs ys : List α} (h : xs <+: ys) {i : Nat} {x : α} (hx : xs[i]? = some x) :
    ys[i]? = some x := by
  obtain ⟨zs, rfl⟩ := h
  obtain ⟨hi, -⟩ := List.getElem?_eq_some_iff.1 hx
  rw [List.getElem?_append_left hi, hx]

/-- Every position of the tables is an index. -/
structure Assembly.Addressable (a : Assembly) : Prop where
  typeRefs : a.typeRefs.length ≤ 2 ^ 32
  typeSpecs : a.typeSpecs.length ≤ 2 ^ 32
  methodSpecs : a.methodSpecs.length ≤ 2 ^ 32

theorem Assembly.Addressable.of_extends {a b : Assembly} (hb : b.Addressable) (h : a.Extends b) : a.Addressable :=
  ⟨Nat.le_trans h.typeRefs.length_le hb.typeRefs, Nat.le_trans h.typeSpecs.length_le hb.typeSpecs,
    Nat.le_trans h.methodSpecs.length_le hb.methodSpecs⟩

/-! ### Lists -/

private theorem last_get {α : Type} (xs : List α) (x : α) (h : (xs ++ [x]).length ≤ 2 ^ 32) :
    (xs ++ [x])[(UInt32.ofNat ((xs ++ [x]).length - 1)).toNat]? = some x := by
  rw [List.length_append, List.length_singleton] at *
  rw [UInt32.toNat_ofNat', Nat.mod_eq_of_lt (by omega), Nat.add_sub_cancel]
  exact List.getElem?_concat_length

theorem mapM_eq_some {α β : Type} {f : α → Option β} {xs : List α} {ys : List β} :
    xs.mapM f = some ys ↔ List.Forall₂ (fun x y => f x = some y) xs ys := by
  induction xs generalizing ys with
  | nil => simp [eq_comm]
  | cons x xs ih =>
    rw [List.mapM_cons]
    constructor
    · intro h
      obtain ⟨y, hy, h⟩ := Option.bind_eq_some_iff.1 h
      obtain ⟨ys', hys, h⟩ := Option.bind_eq_some_iff.1 h
      obtain rfl : y :: ys' = ys := Option.some.inj h
      exact List.Forall₂.cons hy (ih.1 hys)
    · intro h
      cases h with
      | cons hy hys =>
        rw [hy, Option.bind_eq_bind, Option.bind_some, ih.2 hys]
        rfl

/-- A common value for each pair of two lists. -/
theorem forall₂_of_exists {α β γ : Type} {R : α → γ → Prop} {S : β → γ → Prop} {xs : List α} {ys : List β}
    (h : List.Forall₂ (fun x y => ∃ z, R x z ∧ S y z) xs ys) :
    ∃ zs, List.Forall₂ R xs zs ∧ List.Forall₂ S ys zs := by
  induction h with
  | nil => exact ⟨[], .nil, .nil⟩
  | cons h _ ih =>
    obtain ⟨z, hz, hz'⟩ := h
    obtain ⟨zs, hzs, hzs'⟩ := ih
    exact ⟨z :: zs, .cons hz hzs, .cons hz' hzs'⟩

/-! ### Meanings -/

/-- A type with its identifier in the assembly that defines it. -/
inductive ResolvedType where
  | common (assemblyName : String) (id : UInt32) (generics : List ResolvedType)
  | methodGeneric (index : UInt32)
  | typeGeneric (index : UInt32)
deriving Repr

/-- A named type without arguments, applied to arguments. -/
def ResolvedType.apply : ResolvedType → List ResolvedType → Option ResolvedType
  | common assemblyName id [], generics => some (common assemblyName id generics)
  | _, _ => none

/-- A method of a type by its identifier. -/
structure ResolvedMethod where
  index : UInt32
  generics : List ResolvedType

section Meanings

variable [CompilerService]

/-- The type a token means, through at most `depth` tables. -/
def decodeType (a : Assembly) : (depth : Nat) → TypeToken → Option ResolvedType
  | 0, _ => none
  | depth + 1, token =>
    match token.ty with
    | .typeDef => some (.common CompilerService.assemblyName token.index [])
    | .typeRef => do
      let r ← a.typeRefs[token.index.toNat]?
      let assemblyName ← a.strings[r.assembly.index]?
      some (.common assemblyName r.index [])
    | .typeSpec => do
      let spec ← a.typeSpecs[token.index.toNat]?
      let ty ← decodeType a depth spec.ty
      let generics ← spec.generics.mapM (decodeType a depth)
      ty.apply generics
    | .typeGeneric => some (.typeGeneric token.index)
    | .methodGeneric => some (.methodGeneric token.index)

/-- The method a token means. -/
def decodeMethod (a : Assembly) (depth : Nat) (token : MethodToken) : Option ResolvedMethod :=
  match token.ty with
  | .method => some ⟨token.index, []⟩
  | .methodSpec => do
    let spec ← a.methodSpecs[token.index.toNat]?
    let generics ← spec.generics.mapM (decodeType a depth)
    some ⟨spec.m, generics⟩

def DecodesType (a : Assembly) (token : TypeToken) (r : ResolvedType) : Prop :=
  ∃ depth, decodeType a depth token = some r

def DecodesMethod (a : Assembly) (token : MethodToken) (r : ResolvedMethod) : Prop :=
  ∃ depth, decodeMethod a depth token = some r

mutual

/-- The type a reference means. -/
def TypeReference.resolve : TypeReference → Option ResolvedType
  | .common assemblyName name index generics => do
    let id ← TypeReference.id? (.common assemblyName name index generics)
    let generics ← TypeReference.resolveAll generics
    some (.common assemblyName id generics)
  | .methodGeneric _ index => some (.methodGeneric index)
  | .typeGeneric _ index => some (.typeGeneric index)

def TypeReference.resolveAll : List TypeReference → Option (List ResolvedType)
  | [] => some []
  | r :: rs => do
    let r ← TypeReference.resolve r
    let rs ← TypeReference.resolveAll rs
    some (r :: rs)

end

/-- The method a reference to a method of `container` means. -/
def MethodReference.resolve (container : Option TypeInformation) (isStatic : Bool) (m : MethodReference) :
    Option ResolvedMethod := do
  let index ← m.index.lookup container isStatic
  let generics ← TypeReference.resolveAll m.generics
  some ⟨index, generics⟩

theorem TypeReference.resolveAll_eq_some {rs : List TypeReference} {ts : List ResolvedType} :
    resolveAll rs = some ts ↔ List.Forall₂ (fun r t => r.resolve = some t) rs ts := by
  have h : resolveAll rs = rs.mapM resolve := by
    induction rs with
    | nil => rfl
    | cons r rs ih => rw [resolveAll, ih, List.mapM_cons]; rfl
  rw [h, mapM_eq_some]

/-! ### Decoding is stable -/

/-- A meaning that is found through the tables of `a` is found through those of `b`, however deep one looks. -/
theorem decodeType_mono {a b : Assembly} (h : a.Extends b) {n : Nat} {token : TypeToken} {r : ResolvedType}
    (hd : decodeType a n token = some r) {m : Nat} (hnm : n ≤ m) : decodeType b m token = some r := by
  induction n generalizing token r m with
  | zero => cases hd
  | succ n ih =>
    obtain ⟨m, rfl⟩ : ∃ k, m = k + 1 := ⟨m - 1, by omega⟩
    obtain ⟨ty, index⟩ := token
    cases ty with
    | typeDef => exact hd
    | typeRef =>
      obtain ⟨ref, href, hd⟩ := Option.bind_eq_some_iff.1 hd
      obtain ⟨s, hs, hd⟩ := Option.bind_eq_some_iff.1 hd
      refine Option.bind_eq_some_iff.2 ⟨ref, getElem?_of_isPrefix h.typeRefs href, ?_⟩
      exact Option.bind_eq_some_iff.2 ⟨s, getElem?_of_isPrefix h.strings hs, hd⟩
    | typeSpec =>
      obtain ⟨spec, hspec, hd⟩ := Option.bind_eq_some_iff.1 hd
      obtain ⟨t, ht, hd⟩ := Option.bind_eq_some_iff.1 hd
      obtain ⟨generics, hg, hd⟩ := Option.bind_eq_some_iff.1 hd
      have hle : n ≤ m := by omega
      refine Option.bind_eq_some_iff.2 ⟨spec, getElem?_of_isPrefix h.typeSpecs hspec, ?_⟩
      refine Option.bind_eq_some_iff.2 ⟨t, ih ht hle, Option.bind_eq_some_iff.2 ⟨generics, ?_, hd⟩⟩
      exact mapM_eq_some.2 ((mapM_eq_some.1 hg).imp fun _ _ hx => ih hx hle)
    | typeGeneric => exact hd
    | methodGeneric => exact hd

theorem decodeMethod_mono {a b : Assembly} (h : a.Extends b) {n : Nat} {token : MethodToken} {r : ResolvedMethod}
    (hd : decodeMethod a n token = some r) {m : Nat} (hnm : n ≤ m) : decodeMethod b m token = some r := by
  obtain ⟨ty, index⟩ := token
  cases ty with
  | method => exact hd
  | methodSpec =>
    obtain ⟨spec, hspec, hd⟩ := Option.bind_eq_some_iff.1 hd
    obtain ⟨generics, hg, hd⟩ := Option.bind_eq_some_iff.1 hd
    refine Option.bind_eq_some_iff.2 ⟨spec, getElem?_of_isPrefix h.methodSpecs hspec, ?_⟩
    refine Option.bind_eq_some_iff.2 ⟨generics, ?_, hd⟩
    exact mapM_eq_some.2 ((mapM_eq_some.1 hg).imp fun _ _ hx => decodeType_mono h hx hnm)

/-- A token keeps its only meaning. -/
theorem DecodesType.iff_of_extends {a b : Assembly} (h : a.Extends b) {token : TypeToken} {r : ResolvedType}
    (hd : DecodesType a token r) (r' : ResolvedType) : DecodesType b token r' ↔ r' = r := by
  obtain ⟨n, hn⟩ := hd
  constructor
  · rintro ⟨m, hm⟩
    have h₁ := decodeType_mono (Assembly.Extends.refl b) hm (Nat.le_max_right n m)
    have h₂ := decodeType_mono h hn (Nat.le_max_left n m)
    exact Option.some.inj (h₁.symm.trans h₂)
  · rintro rfl
    exact ⟨n, decodeType_mono h hn (Nat.le_refl n)⟩

theorem DecodesMethod.iff_of_extends {a b : Assembly} (h : a.Extends b) {token : MethodToken} {r : ResolvedMethod}
    (hd : DecodesMethod a token r) (r' : ResolvedMethod) : DecodesMethod b token r' ↔ r' = r := by
  obtain ⟨n, hn⟩ := hd
  constructor
  · rintro ⟨m, hm⟩
    have h₁ := decodeMethod_mono (Assembly.Extends.refl b) hm (Nat.le_max_right n m)
    have h₂ := decodeMethod_mono h hn (Nat.le_max_left n m)
    exact Option.some.inj (h₁.symm.trans h₂)
  · rintro rfl
    exact ⟨n, decodeMethod_mono h hn (Nat.le_refl n)⟩

/-- Tokens that have meanings have them all at one depth. -/
theorem exists_depth {a : Assembly} {tokens : List TypeToken} {rs : List ResolvedType}
    (h : List.Forall₂ (DecodesType a) tokens rs) : ∃ depth, tokens.mapM (decodeType a depth) = some rs := by
  induction h with
  | nil => exact ⟨0, rfl⟩
  | cons h _ ih =>
    obtain ⟨n, hn⟩ := h
    obtain ⟨m, hm⟩ := ih
    refine ⟨max n m, mapM_eq_some.2 (List.Forall₂.cons ?_ ?_)⟩
    · exact decodeType_mono (Assembly.Extends.refl a) hn (Nat.le_max_left n m)
    · exact (mapM_eq_some.1 hm).imp fun _ _ hx =>
        decodeType_mono (Assembly.Extends.refl a) hx (Nat.le_max_right n m)

end Meanings

/-! ### Compiling extends the tables -/

/-- A relation between assemblies that every new entry of a table keeps. -/
class Growing [AssemblyBuilder] (R : Assembly → Assembly → Prop) :
    Prop extends Std.Refl R, IsTrans Assembly R where
  addString : ∀ s, Keeps R (addString s)
  addTypeRef : ∀ r, Keeps R (addTypeRef r)
  pushTypeSpec : ∀ spec, Keeps R (pushTypeSpec spec)
  pushMethodSpec : ∀ spec, Keeps R (pushMethodSpec spec)

section Compiling

variable [CompilerService] [AssemblyBuilder]

omit [CompilerService] in
instance : Growing Assembly.Extends where
  addString s _ := ⟨AssemblyBuilder.addString_prefix s _, List.prefix_refl _, List.prefix_refl _,
    List.prefix_refl _⟩
  addTypeRef r _ := ⟨List.prefix_refl _, AssemblyBuilder.addTypeRef_prefix r _, List.prefix_refl _,
    List.prefix_refl _⟩
  pushTypeSpec _ _ := ⟨List.prefix_refl _, List.prefix_refl _, List.prefix_append _ _, List.prefix_refl _⟩
  pushMethodSpec _ _ := ⟨List.prefix_refl _, List.prefix_refl _, List.prefix_refl _, List.prefix_append _ _⟩

section Keeps

variable {R : Assembly → Assembly → Prop} [Growing R]

omit [CompilerService] in
@[grind ←]
theorem addString_keeps (s : String) : Keeps R (addString s) := Growing.addString s

omit [CompilerService] in
@[grind ←]
theorem addTypeRef_keeps (r : TypeRef) : Keeps R (addTypeRef r) := Growing.addTypeRef r

omit [CompilerService] in
@[grind ←]
theorem pushTypeSpec_keeps (spec : TypeSpec) : Keeps R (pushTypeSpec spec) := Growing.pushTypeSpec spec

omit [CompilerService] in
@[grind ←]
theorem pushMethodSpec_keeps (spec : MethodSpec) : Keeps R (pushMethodSpec spec) := Growing.pushMethodSpec spec

@[grind ←]
theorem compileTypeReference_keeps (r : TypeReference) : Keeps R (compileTypeReference r) := by
  induction r using TypeReference.nested_induction with
  | common assemblyName name index generics ih =>
    rw [compileTypeReference]
    refine Keeps.bind (Keeps.okOr _ _) fun id => ?_
    split
    · exact Keeps.pure _
    refine Keeps.bind (addString_keeps _) fun s => Keeps.bind (addTypeRef_keeps _) fun i => ?_
    split
    · exact Keeps.pure _
    rw [compileTypeReferences_eq]
    exact Keeps.bind (Keeps.mapM ih) fun tokens => pushTypeSpec_keeps _
  | methodGeneric name index => exact Keeps.pure _
  | typeGeneric name index => exact Keeps.pure _

omit [CompilerService] in
@[grind ←]
theorem compileFieldReference_keeps (container : Option TypeInformation) (isStatic : Bool)
    (r : FieldReference) : Keeps R (compileFieldReference container isStatic r) :=
  Keeps.okOr _ _

@[grind ←]
theorem compileMethodReference_keeps (container : Option TypeInformation) (isStatic : Bool) (m : MethodReference) :
    Keeps R (compileMethodReference container isStatic m) := by
  unfold compileMethodReference
  refine Keeps.bind (Keeps.okOr _ _) fun index => ?_
  split
  · exact Keeps.pure _
  · exact Keeps.bind (Keeps.mapM fun r _ => compileTypeReference_keeps r) fun _ => pushMethodSpec_keeps _

@[grind ←]
theorem compileField_keeps (field : Field) : Keeps R (compileField field) := by
  refine Keeps.bind (addString_keeps _) fun name => Keeps.bind (compileTypeReference_keeps _) fun ty => ?_
  exact Keeps.pure _

end Keeps

/-! ### Tokens mean what they are compiled from -/

omit [CompilerService] in
theorem addString_get {s : String} {a a' : Assembly} {ref : StringRef} (h : addString s a = (.ok ref, a')) :
    a'.strings[ref.index]? = some s := by
  cases h
  exact AssemblyBuilder.addString_get s a.strings

omit [CompilerService] in
theorem addTypeRef_get {r : TypeRef} {a a' : Assembly} {index : UInt32} (h : addTypeRef r a = (.ok index, a'))
    (ha : a'.Addressable) : a'.typeRefs[index.toNat]? = some r := by
  cases h
  exact AssemblyBuilder.addTypeRef_get r a.typeRefs ha.typeRefs

omit [CompilerService] [AssemblyBuilder] in
theorem pushTypeSpec_get {spec : TypeSpec} {a a' : Assembly} {token : TypeToken}
    (h : pushTypeSpec spec a = (.ok token, a')) (ha : a'.Addressable) :
    token.ty = .typeSpec ∧ a'.typeSpecs[token.index.toNat]? = some spec := by
  cases h
  exact ⟨rfl, last_get _ _ ha.typeSpecs⟩

omit [CompilerService] [AssemblyBuilder] in
theorem pushMethodSpec_get {spec : MethodSpec} {a a' : Assembly} {token : MethodToken}
    (h : pushMethodSpec spec a = (.ok token, a')) (ha : a'.Addressable) :
    token.ty = .methodSpec ∧ a'.methodSpecs[token.index.toNat]? = some spec := by
  cases h
  exact ⟨rfl, last_get _ _ ha.methodSpecs⟩

/-- A type of another assembly, without its generic arguments. -/
private theorem addTypeRef_decodes {assemblyName : String} {ref : StringRef} {id j : UInt32} {a a₁ a₂ : Assembly}
    (hadd : addString assemblyName a = (.ok ref, a₁)) (haddRef : addTypeRef ⟨ref, id⟩ a₁ = (.ok j, a₂))
    (ha₂ : a₂.Addressable) : DecodesType a₂ ⟨.typeRef, j⟩ (.common assemblyName id []) := by
  have hext := (addTypeRef_keeps (R := Assembly.Extends) _).of_run haddRef
  have hname : a₂.strings[ref.index]? = some assemblyName := getElem?_of_isPrefix hext.strings (addString_get hadd)
  exact ⟨1, Option.bind_eq_some_iff.2 ⟨_, addTypeRef_get haddRef ha₂,
    Option.bind_eq_some_iff.2 ⟨assemblyName, hname, rfl⟩⟩⟩

omit [AssemblyBuilder] in
/-- A type with its generic arguments means the type applied to the meanings of the arguments. -/
private theorem pushTypeSpec_decodes {ty token : TypeToken} {tokens : List TypeToken} {a a' : Assembly}
    {assemblyName : String} {id : UInt32} {ts : List ResolvedType}
    (hpush : pushTypeSpec ⟨ty, tokens⟩ a = (.ok token, a')) (ha : a'.Addressable)
    (hty : DecodesType a' ty (.common assemblyName id [])) (hts : List.Forall₂ (DecodesType a') tokens ts) :
    DecodesType a' token (.common assemblyName id ts) := by
  obtain ⟨hspec, hget⟩ := pushTypeSpec_get hpush ha
  obtain ⟨n, hn⟩ := hty
  obtain ⟨m, hm⟩ := exists_depth hts
  obtain ⟨kind, k⟩ := token
  obtain rfl : kind = .typeSpec := hspec
  refine ⟨max n m + 1, Option.bind_eq_some_iff.2 ⟨_, hget, ?_⟩⟩
  refine Option.bind_eq_some_iff.2 ⟨.common assemblyName id [], ?_, ?_⟩
  · exact decodeType_mono (Assembly.Extends.refl a') hn (Nat.le_max_left n m)
  · refine Option.bind_eq_some_iff.2 ⟨ts, mapM_eq_some.2 ?_, rfl⟩
    exact (mapM_eq_some.1 hm).imp fun _ _ hx =>
      decodeType_mono (Assembly.Extends.refl a') hx (Nat.le_max_right n m)

/-- The tokens of a list of references mean what the references mean, when this holds of each of them. -/
private theorem mapM_decodes {rs : List TypeReference} {a a' b : Assembly} {tokens : List TypeToken}
    (hr : ∀ r ∈ rs, ∀ {a a' : Assembly} {token : TypeToken}, compileTypeReference r a = (.ok token, a') →
      a'.Addressable → ∃ t, r.resolve = some t ∧ DecodesType a' token t)
    (h : rs.mapM compileTypeReference a = (.ok tokens, a')) (hb : a'.Extends b) (hadr : b.Addressable) :
    ∃ ts, TypeReference.resolveAll rs = some ts ∧ List.Forall₂ (DecodesType b) tokens ts := by
  have hm := mapM_ok (R := Assembly.Extends) (fun r _ => compileTypeReference_keeps r) h
  obtain ⟨ts, hts, hdec⟩ := forall₂_of_exists (hm.imp fun r token ⟨hmem, s₁, s₂, _, hrun, hs₂⟩ => by
    have hext := hs₂.trans hb
    obtain ⟨t, ht, hd⟩ := hr r hmem hrun (hadr.of_extends hext)
    exact ⟨t, ht, (hd.iff_of_extends hext t).2 rfl⟩)
  exact ⟨ts, TypeReference.resolveAll_eq_some.2 hts, hdec⟩

/-- The token of a type reference means what the reference means. -/
theorem compileTypeReference_decodes {r : TypeReference} {a a' : Assembly} {token : TypeToken}
    (h : compileTypeReference r a = (.ok token, a')) (ha : a'.Addressable) :
    ∃ t, r.resolve = some t ∧ DecodesType a' token t := by
  induction r using TypeReference.nested_induction generalizing a a' token with
  | common assemblyName name index generics ih =>
    rw [compileTypeReference] at h
    obtain ⟨id, s, hok, hrun⟩ := bind_eq_ok.1 h
    obtain ⟨hid, hs⟩ := okOr_eq_ok.1 hok
    rw [hs] at hrun
    have hres : ∀ ts, TypeReference.resolveAll generics = some ts →
        TypeReference.resolve (.common assemblyName name index generics) = some (.common assemblyName id ts) := by
      intro ts hts
      rw [TypeReference.resolve, hid, hts]
      rfl
    -- a type of the own assembly without arguments leaves the tables as they are
    split at hrun
    · rename_i hown
      obtain ⟨rfl, rfl⟩ : (⟨.typeDef, id⟩ : TypeToken) = token ∧ a = a' := by simpa using hrun
      obtain rfl := List.isEmpty_iff.1 hown.2
      refine ⟨_, hres [] rfl, 1, ?_⟩
      rw [hown.1]
      rfl
    obtain ⟨ref, a₁, hadd, hrun⟩ := bind_eq_ok.1 hrun
    obtain ⟨j, a₂, haddRef, hrun⟩ := bind_eq_ok.1 hrun
    split at hrun
    · rename_i hempty
      obtain ⟨rfl, rfl⟩ : (⟨.typeRef, j⟩ : TypeToken) = token ∧ a₂ = a' := by simpa using hrun
      obtain rfl := List.isEmpty_iff.1 hempty
      exact ⟨_, hres [] rfl, addTypeRef_decodes hadd haddRef ha⟩
    · -- the specs of the arguments are pushed first; they leave the meaning of the type as it is
      rw [compileTypeReferences_eq] at hrun
      obtain ⟨tokens, a₃, hmap, hpush⟩ := bind_eq_ok.1 hrun
      have hext₂ := (Keeps.mapM (R := Assembly.Extends) fun r _ => compileTypeReference_keeps r).of_run hmap
      have hext₃ := (pushTypeSpec_keeps (R := Assembly.Extends) _).of_run hpush
      have hext := hext₂.trans hext₃
      obtain ⟨ts, hts, hdec⟩ := mapM_decodes ih hmap hext₃ ha
      have href := addTypeRef_decodes hadd haddRef (ha.of_extends hext)
      exact ⟨_, hres ts hts, pushTypeSpec_decodes hpush ha ((href.iff_of_extends hext _).2 rfl) hdec⟩
  | methodGeneric name index =>
    obtain ⟨rfl, rfl⟩ : (⟨.methodGeneric, index⟩ : TypeToken) = token ∧ a = a' := by
      simpa [compileTypeReference] using h
    exact ⟨_, rfl, 1, rfl⟩
  | typeGeneric name index =>
    obtain ⟨rfl, rfl⟩ : (⟨.typeGeneric, index⟩ : TypeToken) = token ∧ a = a' := by
      simpa [compileTypeReference] using h
    exact ⟨_, rfl, 1, rfl⟩

/-- The token of a method reference means what the reference means. -/
theorem compileMethodReference_decodes {container : Option TypeInformation} {isStatic : Bool} {m : MethodReference}
    {a a' : Assembly} {token : MethodToken} (h : compileMethodReference container isStatic m a = (.ok token, a'))
    (ha : a'.Addressable) : ∃ r, m.resolve container isStatic = some r ∧ DecodesMethod a' token r := by
  obtain ⟨index, s, hok, hrun⟩ := bind_eq_ok.1 h
  obtain ⟨hindex, hs⟩ := okOr_eq_ok.1 hok
  rw [hs] at hrun
  have hres : ∀ ts, TypeReference.resolveAll m.generics = some ts →
      m.resolve container isStatic = some ⟨index, ts⟩ := by
    intro ts hts
    rw [MethodReference.resolve, hindex, hts]
    rfl
  split at hrun
  · rename_i hempty
    obtain ⟨rfl, rfl⟩ : (⟨.method, index⟩ : MethodToken) = token ∧ a = a' := by simpa using hrun
    refine ⟨_, hres [] ?_, 0, rfl⟩
    rw [List.isEmpty_iff.1 hempty]
    rfl
  · obtain ⟨tokens, a₁, hmap, hpush⟩ := bind_eq_ok.1 hrun
    have hext := (pushMethodSpec_keeps (R := Assembly.Extends) _).of_run hpush
    obtain ⟨ts, hts, hdec⟩ := mapM_decodes (fun r _ => compileTypeReference_decodes) hmap hext ha
    obtain ⟨hty, hget⟩ := pushMethodSpec_get hpush ha
    obtain ⟨n, hn⟩ := exists_depth hdec
    refine ⟨_, hres ts hts, n, ?_⟩
    obtain ⟨ty, k⟩ := token
    obtain rfl : ty = .methodSpec := hty
    exact Option.bind_eq_some_iff.2 ⟨_, hget, Option.bind_eq_some_iff.2 ⟨ts, hn, rfl⟩⟩

/-! ### Later calls -/

/-- A call of one of the compiling functions. -/
inductive Call where
  | typeReference (r : TypeReference)
  | methodReference (container : Option TypeInformation) (isStatic : Bool) (m : MethodReference)
  | field (f : Field)

/-- The assembly after a call, however it ends. -/
def Call.run : Call → Assembly → Assembly
  | typeReference r, a => (compileTypeReference r a).2
  | methodReference container isStatic m, a => (compileMethodReference container isStatic m a).2
  | field f, a => (compileField f a).2

def runCalls (calls : List Call) (a : Assembly) : Assembly := calls.foldl (fun a call => call.run a) a

theorem Call.run_extends (call : Call) (a : Assembly) : a.Extends (call.run a) := by
  cases call with
  | typeReference r => exact compileTypeReference_keeps r a
  | methodReference container isStatic m => exact compileMethodReference_keeps container isStatic m a
  | field f => exact compileField_keeps f a

theorem runCalls_extends (calls : List Call) (a : Assembly) : a.Extends (runCalls calls a) := by
  induction calls generalizing a with
  | nil => exact Assembly.Extends.refl a
  | cons call calls ih => exact (call.run_extends a).trans (ih (call.run a))

/-- Tokens decode to what was compiled, and still do after any later calls, as long as an index holds every
position of the tables. -/
theorem compile_decodes (a : Assembly) :
    (∀ r token a', compileTypeReference r a = (.ok token, a') → a'.Addressable →
      ∃ t, r.resolve = some t ∧ ∀ calls t', DecodesType (runCalls calls a') token t' ↔ t' = t) ∧
    ∀ container isStatic m token a', compileMethodReference container isStatic m a = (.ok token, a') →
      a'.Addressable →
      ∃ t, m.resolve container isStatic = some t ∧ ∀ calls t', DecodesMethod (runCalls calls a') token t' ↔
          t' = t := by
  constructor
  · intro r token a' h ha
    obtain ⟨t, ht, hd⟩ := compileTypeReference_decodes h ha
    exact ⟨t, ht, fun calls t' => hd.iff_of_extends (runCalls_extends calls a') t'⟩
  · intro container isStatic m token a' h ha
    obtain ⟨t, ht, hd⟩ := compileMethodReference_decodes h ha
    exact ⟨t, ht, fun calls t' => hd.iff_of_extends (runCalls_extends calls a') t'⟩

end Compiling

/-- `compile_decodes` at a type with a nested type argument. -/
theorem compile_decodes_nested :
    let _ := serviceOf []
    let _ := internBuilder
    let r : TypeReference :=
      .common "B" "Map" (some 1) [.common "B" "List" (some 2) [.typeGeneric none 0], .methodGeneric none 1]
    let a' : Assembly :=
      ⟨["B"], [⟨⟨0⟩, 1⟩, ⟨⟨0⟩, 2⟩],
        [⟨⟨.typeRef, 1⟩, [⟨.typeGeneric, 0⟩]⟩, ⟨⟨.typeRef, 0⟩, [⟨.typeSpec, 0⟩, ⟨.methodGeneric, 1⟩]⟩], [], []⟩
    ∃ t, r.resolve = some t ∧ ∀ calls t', DecodesType (runCalls calls a') ⟨.typeSpec, 1⟩ t' ↔ t' = t := by
  intro _ _ r a'
  exact (compile_decodes ⟨[], [], [], [], []⟩).1 r _ a' (by decide) ⟨by decide, by decide, by decide⟩

private theorem compile_full {specs : List TypeSpec} (h : specs.length = 2 ^ 32) :
    @compileTypeReference (serviceOf []) internBuilder (.common "B" "T" (some 0) [.typeGeneric none 0])
        ⟨[], [], specs, [], []⟩ =
      (.ok ⟨.typeSpec, 0⟩, ⟨["B"], [⟨⟨0⟩, 0⟩], specs ++ [⟨⟨.typeRef, 0⟩, [⟨.typeGeneric, 0⟩]⟩], [], []⟩) := by
  have hindex : UInt32.ofNat ((specs ++ [(⟨⟨.typeRef, 0⟩, [⟨.typeGeneric, 0⟩]⟩ : TypeSpec)]).length - 1) = 0 := by
    rw [List.length_append, h]
    rfl
  exact congrArg (fun i => (Outcome.ok (⟨.typeSpec, i⟩ : TypeToken), _)) hindex

private theorem decodes_first {specs : List TypeSpec} (h : specs[0]? = some ⟨⟨.typeDef, 7⟩, []⟩) :
    @DecodesType (serviceOf []) ⟨["B"], [⟨⟨0⟩, 0⟩], specs, [], []⟩ ⟨.typeSpec, 0⟩ (.common "A" 7 []) := by
  refine ⟨2, ?_⟩
  show specs[0]?.bind _ = _
  rw [h]
  rfl

/-- When the table of type specs has an entry for every index, the token of the next entry means another type. -/
theorem compile_decodes_full :
    let _ := serviceOf []
    let _ := internBuilder
    let r : TypeReference := .common "B" "T" (some 0) [.typeGeneric none 0]
    let a : Assembly := ⟨[], [], List.replicate (2 ^ 32) ⟨⟨.typeDef, 7⟩, []⟩, [], []⟩
    ∃ token a' t, compileTypeReference r a = (.ok token, a') ∧ r.resolve = some t ∧ ¬DecodesType a' token t := by
  intro _ _ r a
  refine ⟨_, _, _, compile_full List.length_replicate, rfl, fun h => ?_⟩
  have hget : (List.replicate (2 ^ 32) (⟨⟨.typeDef, 7⟩, []⟩ : TypeSpec) ++
      [⟨⟨.typeRef, 0⟩, [⟨.typeGeneric, 0⟩]⟩])[0]? = some ⟨⟨.typeDef, 7⟩, []⟩ := by
    rw [List.getElem?_append_left (by rw [List.length_replicate]; decide), List.getElem?_replicate,
      if_pos (by decide)]
  have := ((decodes_first hget).iff_of_extends (Assembly.Extends.refl _) _).1 h
  exact absurd (ResolvedType.common.inj this).1 (by decide)

end PuralinguaIR
