import Mathlib.Data.List.Basic
import Mathlib.Data.Nat.Notation

/-!
# Maps sorted by key

A finite map as the list of its entries, sorted strictly by key. `insert` puts a value at a key, in the place
of the one that was there (`mem_insert`); inserting entries one after the other gives only these entries
(`mem_of_mem_insertAll`), under all their keys (`mem_keys_insertAll`).
-/

structure SortedMap (κ ν : Type) [LT κ] where
  entries : List (κ × ν)
  sorted : entries.Pairwise fun a b => a.1 < b.1
deriving DecidableEq, Repr

namespace SortedMap

variable {κ ν : Type} [LE κ] [LT κ] [Std.IsLinearOrder κ] [Std.LawfulOrderLT κ] [DecidableLT κ]

/-- Put an entry in its place. -/
def insertEntry (k : κ) (v : ν) : List (κ × ν) → List (κ × ν)
  | [] => [(k, v)]
  | e :: es =>
    if k < e.1 then (k, v) :: e :: es
    else if e.1 < k then e :: insertEntry k v es
    else (k, v) :: es

omit [DecidableLT κ] in
private theorem eq_of_not_lt {k k' : κ} (h : ¬k < k') (h' : ¬k' < k) : k = k' :=
  Std.le_antisymm (Std.not_lt.1 h') (Std.not_lt.1 h)

omit [LE κ] [Std.IsLinearOrder κ] [Std.LawfulOrderLT κ] in
private theorem insertEntry_lower {k lower : κ} {v : ν} {es : List (κ × ν)} (hk : lower < k)
    (hes : ∀ e ∈ es, lower < e.1) : ∀ e ∈ insertEntry k v es, lower < e.1 := by
  induction es with
  | nil =>
    intro e he
    obtain rfl := List.mem_singleton.1 he
    exact hk
  | cons e' es ih =>
    intro e he
    have htail : ∀ e ∈ es, lower < e.1 := fun e he => hes e (by simp [he])
    unfold insertEntry at he
    split at he
    · rcases List.mem_cons.1 he with rfl | he
      · exact hk
      · exact hes e he
    · split at he
      · rcases List.mem_cons.1 he with rfl | he
        · exact hes e (by simp)
        · exact ih htail e he
      · rcases List.mem_cons.1 he with rfl | he
        · exact hk
        · exact htail e he

private theorem insertEntry_sorted (k : κ) (v : ν) {es : List (κ × ν)} (h : es.Pairwise fun a b => a.1 < b.1) :
    (insertEntry k v es).Pairwise fun a b => a.1 < b.1 := by
  induction es with
  | nil => exact List.pairwise_singleton _ _
  | cons e es ih =>
    obtain ⟨he, hes⟩ := List.pairwise_cons.1 h
    unfold insertEntry
    split
    · rename_i hlt
      refine List.pairwise_cons.2 ⟨fun e' he' => ?_, h⟩
      rcases List.mem_cons.1 he' with rfl | he'
      · exact hlt
      · exact Std.lt_trans hlt (he e' he')
    · split
      · rename_i hlt
        exact List.pairwise_cons.2 ⟨insertEntry_lower hlt he, ih hes⟩
      · rename_i hnot hnot'
        obtain rfl : k = e.1 := eq_of_not_lt hnot hnot'
        exact List.pairwise_cons.2 ⟨he, hes⟩

/-- The map with the value `v` at `k`. -/
def insert (k : κ) (v : ν) (m : SortedMap κ ν) : SortedMap κ ν :=
  ⟨insertEntry k v m.entries, insertEntry_sorted k v m.sorted⟩

/-- The map without entries. -/
def empty : SortedMap κ ν := ⟨[], List.Pairwise.nil⟩

omit [Std.IsLinearOrder κ] [DecidableLT κ] in
private theorem key_ne_of_lower {k : κ} {es : List (κ × ν)} (h : ∀ e ∈ es, k < e.1) : ∀ e ∈ es, e.1 ≠ k := by
  rintro e he rfl
  exact Std.lt_irrefl (h e he)

omit [Std.IsLinearOrder κ] [DecidableLT κ] in
/-- A map with a single key has at most one entry. -/
theorem entries_of_single_key {m : SortedMap κ ν} {k : κ} (h : ∀ e ∈ m.entries, e.1 = k) :
    m.entries = [] ∨ ∃ v, m.entries = [(k, v)] := by
  obtain ⟨es, hes⟩ := m
  cases es with
  | nil => exact Or.inl rfl
  | cons e es =>
    obtain rfl : e.1 = k := h e (by simp)
    cases es with
    | nil => exact Or.inr ⟨e.2, rfl⟩
    | cons e' es =>
      have hlt : e.1 < e'.1 := (List.pairwise_cons.1 hes).1 e' (by simp)
      rw [h e' (by simp)] at hlt
      exact absurd hlt (Std.lt_irrefl)

theorem mem_insert (k : κ) (v : ν) (m : SortedMap κ ν) (e : κ × ν) :
    e ∈ (m.insert k v).entries ↔ e = (k, v) ∨ e.1 ≠ k ∧ e ∈ m.entries := by
  obtain ⟨es, h⟩ := m
  show e ∈ insertEntry k v es ↔ e = (k, v) ∨ e.1 ≠ k ∧ e ∈ es
  induction es with
  | nil => simp [insertEntry]
  | cons e' es ih =>
    obtain ⟨he, hes⟩ := List.pairwise_cons.1 h
    unfold insertEntry
    split
    · -- the new entry comes first, and no other has its key
      rename_i hlt
      have hne : ∀ x ∈ e' :: es, x.1 ≠ k := by
        refine key_ne_of_lower fun x hx => ?_
        rcases List.mem_cons.1 hx with rfl | hx
        · exact hlt
        · exact Std.lt_trans hlt (he x hx)
      rw [List.mem_cons]
      exact or_congr_right ⟨fun hx => ⟨hne e hx, hx⟩, And.right⟩
    · split
      · -- the first entry stays
        rename_i hlt
        have hne : e'.1 ≠ k := by
          rintro rfl
          exact Std.lt_irrefl hlt
        rw [List.mem_cons, ih hes, List.mem_cons]
        constructor
        · rintro (rfl | rfl | ⟨hk, hx⟩)
          · exact Or.inr ⟨hne, Or.inl rfl⟩
          · exact Or.inl rfl
          · exact Or.inr ⟨hk, Or.inr hx⟩
        · rintro (rfl | ⟨hk, rfl | hx⟩)
          · exact Or.inr (Or.inl rfl)
          · exact Or.inl rfl
          · exact Or.inr (Or.inr ⟨hk, hx⟩)
      · -- the new entry takes the place of the first
        rename_i hnot hnot'
        obtain rfl : k = e'.1 := eq_of_not_lt hnot hnot'
        rw [List.mem_cons, List.mem_cons]
        constructor
        · rintro (rfl | hx)
          · exact Or.inl rfl
          · exact Or.inr ⟨key_ne_of_lower he e hx, Or.inr hx⟩
        · rintro (rfl | ⟨hk, rfl | hx⟩)
          · exact Or.inl rfl
          · exact absurd rfl hk
          · exact Or.inr hx

/-- The map after all entries of a list are put in. -/
def insertAll (es : List (κ × ν)) (m : SortedMap κ ν) : SortedMap κ ν := es.foldl (fun m e => m.insert e.1 e.2) m

theorem mem_of_mem_insertAll {es : List (κ × ν)} {m : SortedMap κ ν} {e : κ × ν}
    (h : e ∈ (m.insertAll es).entries) : e ∈ es ∨ e ∈ m.entries := by
  induction es generalizing m with
  | nil => exact Or.inr h
  | cons x es ih =>
    rw [insertAll, List.foldl_cons] at h
    rcases ih h with he | he
    · exact Or.inl (List.mem_cons_of_mem _ he)
    · rcases (mem_insert _ _ _ _).1 he with rfl | ⟨-, he⟩
      · exact Or.inl (by simp)
      · exact Or.inr he

theorem mem_keys_insertAll {es : List (κ × ν)} {m : SortedMap κ ν} {k : κ} :
    (∃ e ∈ (m.insertAll es).entries, e.1 = k) ↔ (∃ e ∈ es, e.1 = k) ∨ ∃ e ∈ m.entries, e.1 = k := by
  induction es generalizing m with
  | nil => simp [insertAll]
  | cons e es ih =>
    have h := ih (m := m.insert e.1 e.2)
    rw [insertAll] at h ⊢
    rw [List.foldl_cons, h]
    constructor
    · rintro (⟨x, hx, rfl⟩ | ⟨x, hx, rfl⟩)
      · exact Or.inl ⟨x, by simp [hx], rfl⟩
      · rcases (mem_insert _ _ _ _).1 hx with rfl | ⟨-, hx⟩
        · exact Or.inl ⟨e, by simp, rfl⟩
        · exact Or.inr ⟨x, hx, rfl⟩
    · rintro (⟨x, hx, rfl⟩ | ⟨x, hx, rfl⟩)
      -- an insertion may replace an entry, but every key stays
      · rcases List.mem_cons.1 hx with rfl | hx
        · exact Or.inr ⟨x, (mem_insert _ _ _ _).2 (Or.inl rfl), rfl⟩
        · exact Or.inl ⟨x, hx, rfl⟩
      · by_cases hk : x.1 = e.1
        · exact Or.inr ⟨e, (mem_insert _ _ _ _).2 (Or.inl rfl), hk.symm⟩
        · exact Or.inr ⟨x, (mem_insert _ _ _ _).2 (Or.inr ⟨hk, hx⟩), rfl⟩

end SortedMap
