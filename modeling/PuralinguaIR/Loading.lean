import PuralinguaIR.AbstractInfo
import PuralinguaIR.Sorting

/-!
# Loading files

The compiler collects the types of the files it is given: `addFile` reads and parses a file, merges its types
with those loaded before and sorts everything by index. After any calls the file is the stable sort of all
types parsed (`loadFiles_file`), so neither the order of the calls nor failed calls matter
(`loadFiles_independent`).
-/

namespace PuralinguaIR

open Effect Effect.Prog Sorting

/-! ### Sorting -/

def ClassDef.sortItems (d : ClassDef) : ClassDef :=
  { d with methods := sortByKey (·.index.toNat) d.methods, fields := sortByKey (·.index.toNat) d.fields }

def StructDef.sortItems (d : StructDef) : StructDef :=
  { d with methods := sortByKey (·.index.toNat) d.methods, fields := sortByKey (·.index.toNat) d.fields }

def InterfaceDef.sortItems (d : InterfaceDef) : InterfaceDef :=
  { d with methods := sortByKey (·.index.toNat) d.methods }

def TypeDef.sortItems : TypeDef → TypeDef
  | .class d => .class d.sortItems
  | .struct d => .struct d.sortItems
  | .interface d => .interface d.sortItems

def File.merge (file other : File) : File := ⟨file.types ++ other.types⟩

def File.sort (file : File) : File := ⟨(sortByKey (·.index.toNat) file.types).map TypeDef.sortItems⟩

/-! ### The compiler -/

structure Compiler where
  file : File
  lastIndex : Option UInt32

def Compiler.new : Compiler := ⟨⟨[]⟩, none⟩

def Compiler.setLastIndex (index : UInt32) (c : Compiler) : Compiler := { c with lastIndex := some index }

/-! ### Sorting again -/

@[simp] theorem TypeDef.index_sortItems (t : TypeDef) : t.sortItems.index = t.index := by
  cases t <;> rfl

@[simp] theorem TypeDef.methods_sortItems (t : TypeDef) :
    t.sortItems.methods = sortByKey (·.index.toNat) t.methods := by
  cases t <;> rfl

theorem TypeDef.fields_sortItems (t : TypeDef) : t.sortItems.fields = sortByKey (·.index.toNat) t.fields := by
  cases t <;> rfl

theorem TypeDef.sortItems_sortItems (t : TypeDef) : t.sortItems.sortItems = t.sortItems := by
  cases t with
  | «class» d => simp only [sortItems, ClassDef.sortItems, sortByKey_sortByKey]
  | struct d => simp only [sortItems, StructDef.sortItems, sortByKey_sortByKey]
  | interface d => simp only [sortItems, InterfaceDef.sortItems, sortByKey_sortByKey]

/-- Adding types to a sorted file and sorting it again is sorting all types at once. -/
theorem File.sort_merge (types others : List TypeDef) :
    ((File.sort ⟨types⟩).merge ⟨others⟩).sort = File.sort ⟨types ++ others⟩ := by
  have hmap : ∀ ts : List TypeDef, sortByKey (·.index.toNat) (ts.map TypeDef.sortItems) =
      (sortByKey (·.index.toNat) ts).map TypeDef.sortItems :=
    sortByKey_map fun t => by rw [TypeDef.index_sortItems]
  have hidem : ∀ ts : List TypeDef, (ts.map TypeDef.sortItems).map TypeDef.sortItems =
      ts.map TypeDef.sortItems := by
    intro ts
    rw [List.map_map]
    exact List.map_congr_left fun t _ => t.sortItems_sortItems
  simp only [File.sort, File.merge, File.mk.injEq]
  rw [← hmap, List.map_append, hidem, ← List.map_append, hmap, sortByKey_append_sortByKey]

private theorem sorted_index {α : Type} {index : α → UInt32} {xs : List α}
    (h : xs.Pairwise fun a b => (index a).toNat ≤ (index b).toNat) : xs.Pairwise fun a b => index a ≤ index b :=
  h.imp fun h => UInt32.le_iff_toNat_le.2 h

section Loading

variable [UniLexer] [UniParser] [CompilerService]

/-- Why a file is not loaded. -/
inductive LoadError where
  | read (e : CompilerService.Error)
  | utf8
  | parse (e : ParseError)

/-- The text of a file. -/
def readText (path : FilePath) : Except LoadError (List Char) :=
  match readPath path with
  | .error e => .error (.read e)
  | .ok bytes =>
    match String.fromUTF8? bytes with
    | some s => .ok s.toList
    | none => .error .utf8

/-- The types of a file as they are added: `addFile` before it changes anything. -/
def parseFile (lastIndex : UInt32) (path : FilePath) : Outcome LoadError File :=
  match readText path with
  | .error e => .err e
  | .ok content =>
    match File.parse content lastIndex with
    | .ok file => .ok file
    | .err e => .err (.parse e)
    | .panic => .panic
    | .diverge => .diverge

def addFile (path : FilePath) : Prog Compiler LoadError Unit := fun c =>
  match c.lastIndex with
  | none => (.panic, c)
  | some lastIndex =>
    match parseFile lastIndex path with
    | .ok file => (.ok (), { c with file := (c.file.merge file).sort })
    | .err e => (.err e, c)
    | .panic => (.panic, c)
    | .diverge => (.diverge, c)

/-- The compiler after a sequence of calls, whatever each of them returns. -/
def loadFiles (paths : List FilePath) (c : Compiler) : Compiler := paths.foldl (fun c path => (addFile path c).2) c

/-! ### Runs -/

/-- The types a call adds: none when it fails. -/
def parsedTypes (lastIndex : UInt32) (path : FilePath) : List TypeDef :=
  match parseFile lastIndex path with
  | .ok file => file.types
  | _ => []

/-- Whether a call succeeds. -/
def loads (lastIndex : UInt32) (path : FilePath) : Bool :=
  match parseFile lastIndex path with
  | .ok _ => true
  | _ => false

/-- The compiler that has loaded `types`. -/
def loaded (lastIndex : UInt32) (types : List TypeDef) : Compiler := ⟨File.sort ⟨types⟩, some lastIndex⟩

theorem addFile_loaded (lastIndex : UInt32) (types : List TypeDef) (path : FilePath) :
    (addFile path (loaded lastIndex types)).2 = loaded lastIndex (types ++ parsedTypes lastIndex path) := by
  simp only [addFile, loaded, parsedTypes]
  cases parseFile lastIndex path with
  | ok file => simp [File.sort_merge types file.types]
  | err e => simp
  | panic => simp
  | diverge => simp

/-- A run adds the types of its successful calls. -/
theorem loadFiles_loaded (lastIndex : UInt32) (types : List TypeDef) (paths : List FilePath) :
    loadFiles paths (loaded lastIndex types) =
        loaded lastIndex (types ++ paths.flatMap (parsedTypes lastIndex)) := by
  induction paths generalizing types with
  | nil => simp [loadFiles]
  | cons path paths ih =>
    have h := ih (types ++ parsedTypes lastIndex path)
    rw [loadFiles] at h ⊢
    rw [List.foldl_cons, addFile_loaded, h, List.flatMap_cons, List.append_assoc]

theorem loadFiles_new (lastIndex : UInt32) (paths : List FilePath) :
    loadFiles paths (Compiler.new.setLastIndex lastIndex) =
      loaded lastIndex (paths.flatMap (parsedTypes lastIndex)) :=
  loadFiles_loaded lastIndex [] paths

/-- The compiler after a sequence of calls is known by the types it has loaded. -/
theorem loadFiles_eq {lastIndex : UInt32} {paths : List FilePath} {types : List TypeDef}
    (h : (loadFiles paths (Compiler.new.setLastIndex lastIndex)).file.types = types) :
    loadFiles paths (Compiler.new.setLastIndex lastIndex) = ⟨⟨types⟩, some lastIndex⟩ := by
  rw [loadFiles_new] at h ⊢
  rw [← h]
  rfl

theorem addFile_failed {path : FilePath} {c : Compiler} (h : (addFile path c).1 ≠ .ok ()) :
    (addFile path c).2 = c := by
  revert h
  unfold addFile
  split
  · exact fun _ => rfl
  · split <;> simp

private theorem flatMap_parsedTypes (lastIndex : UInt32) (paths : List FilePath) :
    paths.flatMap (parsedTypes lastIndex) = (paths.filter (loads lastIndex)).flatMap (parsedTypes lastIndex) := by
  induction paths with
  | nil => rfl
  | cons path paths ih =>
    rw [List.flatMap_cons, List.filter_cons, ih]
    split
    · rw [List.flatMap_cons]
    · rename_i h
      have : parsedTypes lastIndex path = [] := by
        unfold loads at h
        unfold parsedTypes
        split at h <;> simp_all
      rw [this, List.nil_append]

/-- What a run has loaded is sorted, and holds every type that was parsed once, with its methods and fields
sorted. -/
structure Compiler.HasLoaded (c : Compiler) (types : List TypeDef) : Prop where
  sorted : c.file.types.Pairwise fun a b => a.index ≤ b.index
  methods_sorted : ∀ t ∈ c.file.types, t.methods.Pairwise fun a b => a.index ≤ b.index
  fields_sorted : ∀ t ∈ c.file.types, t.fields.Pairwise fun a b => a.index ≤ b.index
  complete : c.file.types.Perm (types.map TypeDef.sortItems)
  methods : ∀ t ∈ types, t.sortItems.methods.Perm t.methods ∧
    ∀ k, t.sortItems.methods.filter (·.index = k) = t.methods.filter (·.index = k)
  fields : ∀ t ∈ types, t.sortItems.fields.Perm t.fields

omit [UniLexer] [UniParser] [CompilerService] in
theorem loaded_hasLoaded (lastIndex : UInt32) (types : List TypeDef) :
    (loaded lastIndex types).HasLoaded types := by
  have hperm : (loaded lastIndex types).file.types.Perm (types.map TypeDef.sortItems) :=
    (sortByKey_perm _ types).map TypeDef.sortItems
  have hmem : ∀ t ∈ (loaded lastIndex types).file.types, ∃ t', t = TypeDef.sortItems t' := fun t ht => by
    obtain ⟨t', -, rfl⟩ := List.mem_map.1 (hperm.mem_iff.1 ht)
    exact ⟨t', rfl⟩
  refine ⟨?_, fun t ht => ?_, fun t ht => ?_, hperm, fun t _ => ⟨?_, fun k => ?_⟩, fun t _ => ?_⟩
  · refine sorted_index (List.pairwise_map.2 ?_)
    simp only [TypeDef.index_sortItems]
    exact sortByKey_sorted _ types
  · obtain ⟨t, rfl⟩ := hmem t ht
    rw [TypeDef.methods_sortItems]
    exact sorted_index (sortByKey_sorted _ _)
  · obtain ⟨t, rfl⟩ := hmem t ht
    rw [TypeDef.fields_sortItems]
    exact sorted_index (sortByKey_sorted _ _)
  · rw [TypeDef.methods_sortItems]
    exact sortByKey_perm _ _
  · have h := filter_sortByKey (fun m : Method => m.index.toNat) t.methods k.toNat
    rw [TypeDef.methods_sortItems]
    simpa only [UInt32.toNat_inj] using h
  · rw [TypeDef.fields_sortItems]
    exact sortByKey_perm _ _

/-- Loading does not depend on the order of the calls, and failed calls leave no trace: after each call the file
is sorted and complete, a failing call changes nothing, and any calls whose successful ones are the same in any
order lead to the same compiler. -/
theorem Compiler.loadFiles_spec (lastIndex : UInt32) {paths : List FilePath}
    (hnodup : ((paths.flatMap (parsedTypes lastIndex)).map TypeDef.index).Nodup) :
    let new := Compiler.new.setLastIndex lastIndex
    (∀ k, (loadFiles (paths.take k) new).HasLoaded ((paths.take k).flatMap (parsedTypes lastIndex)) ∧
      ∀ path, (addFile path (loadFiles (paths.take k) new)).1 ≠ .ok () →
        (addFile path (loadFiles (paths.take k) new)).2 = loadFiles (paths.take k) new) ∧
      ∀ paths', (paths'.filter (loads lastIndex)).Perm (paths.filter (loads lastIndex)) →
        loadFiles paths' new = loadFiles paths new := by
  refine ⟨fun k => ⟨?_, fun path h => addFile_failed h⟩, fun paths' hperm => ?_⟩
  · rw [loadFiles_new]
    exact loaded_hasLoaded lastIndex _
  · -- only the parsed types count, and with distinct indices their order does not
    have hflat : (paths.flatMap (parsedTypes lastIndex)).Perm (paths'.flatMap (parsedTypes lastIndex)) := by
      rw [flatMap_parsedTypes, flatMap_parsedTypes lastIndex paths']
      exact hperm.symm.flatMap_right _
    have hkeys : ((paths.flatMap (parsedTypes lastIndex)).map fun t => t.index.toNat).Nodup := by
      have h := hnodup.map (f := UInt32.toNat) fun a b hab => UInt32.toNat_inj.1 hab
      rwa [List.map_map] at h
    rw [loadFiles_new, loadFiles_new, loaded, loaded, File.sort, File.sort, sortByKey_eq_of_perm hflat hkeys]

end Loading

/-- A service with two files that can be read. -/
@[reducible] def twoFiles : CompilerService where
  FilePath := Option Bool
  Error := Unit
  readPath
    | some true => .ok "class[1]B\x7b\x7d".toUTF8
    | some false => .ok "class[0]A\x7b method[2]m()->[!]A\x7b\x7d method[1]n()->[!]A\x7b\x7d \x7d".toUTF8
    | none => .error ()
  assemblyName := "A"
  query _ := []
  decorate _ s := s

/-- `loadFiles_spec` for the two files in the other order and after a call that fails. -/
theorem Compiler.loadFiles_spec_twoFiles :
    @loadFiles asciiLexer plainParser twoFiles [none, some true, some false] (Compiler.new.setLastIndex 4) =
      @loadFiles asciiLexer plainParser twoFiles [some false, some true] (Compiler.new.setLastIndex 4) :=
  let _ : DecidableEq (@FilePath twoFiles) := inferInstanceAs (DecidableEq (Option Bool))
  (@Compiler.loadFiles_spec asciiLexer plainParser twoFiles 4 [some false, some true] (by decide)).2
    [none, some true, some false] (by decide)

end PuralinguaIR
