import Mathlib.Data.List.Sort

/-!
# Stable sorting by a key

`sortByKey key xs` sorts a list by a key and keeps elements with one key in their order. The key facts: a sorted
list is determined by its parts with one key each (`eq_of_filter_eq`), so sorting a part first changes nothing
(`sortByKey_append_sortByKey`), and with distinct keys the order of the input does not matter
(`sortByKey_eq_of_perm`). In a list that is sorted downwards by texts the first one that begins a given text is
the longest (`longest_of_find?`).
-/

namespace Sorting

variable {α β κ : Type} [LinearOrder κ]

/-- The stable sort of a list by a key. -/
def sortByKey (key : α → κ) (xs : List α) : List α := xs.insertionSort fun a b => key a ≤ key b

variable {key : α → κ} {xs ys : List α}

theorem sortByKey_perm (key : α → κ) (xs : List α) : (sortByKey key xs).Perm xs :=
  List.perm_insertionSort _ xs

theorem sortByKey_sorted (key : α → κ) (xs : List α) : (sortByKey key xs).Pairwise fun a b => key a ≤ key b := by
  have : Std.Total fun a b : α => key a ≤ key b := ⟨fun a b => le_total (key a) (key b)⟩
  have : IsTrans α fun a b : α => key a ≤ key b := ⟨fun a b c => le_trans⟩
  exact List.pairwise_insertionSort _ xs

theorem sortByKey_of_sorted (h : xs.Pairwise fun a b => key a ≤ key b) : sortByKey key xs = xs :=
  h.insertionSort_eq

theorem sortByKey_sortByKey (key : α → κ) (xs : List α) : sortByKey key (sortByKey key xs) = sortByKey key xs :=
  sortByKey_of_sorted (sortByKey_sorted key xs)

/-- The elements with one key stay in their order. -/
theorem filter_sortByKey (key : α → κ) (xs : List α) (k : κ) :
    (sortByKey key xs).filter (key · = k) = xs.filter (key · = k) := by
  have : Std.Total fun a b : α => key a ≤ key b := ⟨fun a b => le_total (key a) (key b)⟩
  have : IsTrans α fun a b : α => key a ≤ key b := ⟨fun a b c => le_trans⟩
  have hpair : (xs.filter (key · = k)).Pairwise fun a b => key a ≤ key b := by
    rw [List.pairwise_filter]
    refine List.pairwise_of_forall fun a b ha hb => ?_
    simp only [decide_eq_true_eq] at ha hb
    exact le_of_eq (ha.trans hb.symm)
  -- the sort is stable: a sublist that is sorted already stays one
  have hsub : (xs.filter (key · = k)).Sublist (sortByKey key xs) :=
    List.sublist_insertionSort hpair List.filter_sublist
  have hsub' := hsub.filter (key · = k)
  rw [List.filter_filter] at hsub'
  simp only [Bool.and_self] at hsub'
  exact (hsub'.eq_of_length ((sortByKey_perm key xs).filter _).length_eq.symm).symm

/-- A sorted list is determined by its parts with one key each. -/
theorem eq_of_filter_eq (hx : xs.Pairwise fun a b => key a ≤ key b) (hy : ys.Pairwise fun a b => key a ≤ key b)
    (h : ∀ k, xs.filter (key · = k) = ys.filter (key · = k)) : xs = ys := by
  induction xs generalizing ys with
  | nil =>
    cases ys with
    | nil => rfl
    | cons b ys => simpa using h (key b)
  | cons a xs ih =>
    cases ys with
    | nil => simpa using h (key a)
    | cons b ys =>
      rw [List.pairwise_cons] at hx hy
      -- the first elements have one key, for each of the two occurs in both lists
      have hab : key b ≤ key a := by
        have ha : a ∈ (b :: ys).filter (key · = key a) := by rw [← h (key a)]; simp
        rcases List.mem_cons.1 (List.mem_of_mem_filter ha) with rfl | ha
        · exact le_refl _
        · exact hy.1 a ha
      have hba : key a ≤ key b := by
        have hb : b ∈ (a :: xs).filter (key · = key b) := by rw [h (key b)]; simp
        rcases List.mem_cons.1 (List.mem_of_mem_filter hb) with rfl | hb
        · exact le_refl _
        · exact hx.1 b hb
      have hkey : key a = key b := le_antisymm hba hab
      have hhead := h (key a)
      rw [List.filter_cons_of_pos (by simp), List.filter_cons_of_pos (by simp [hkey])] at hhead
      injection hhead with heq htail
      subst heq
      rw [ih hx.2 hy.2 fun k => ?_]
      by_cases hk : key a = k
      · exact hk ▸ htail
      · have := h k
        rwa [List.filter_cons_of_neg (by simpa using hk), List.filter_cons_of_neg (by simpa using hk)] at this

/-- Sorting a part of a list before sorting the whole changes nothing. -/
theorem sortByKey_append_sortByKey (key : α → κ) (xs ys : List α) :
    sortByKey key (sortByKey key xs ++ ys) = sortByKey key (xs ++ ys) := by
  refine eq_of_filter_eq (sortByKey_sorted key _) (sortByKey_sorted key _) fun k => ?_
  rw [filter_sortByKey, filter_sortByKey, List.filter_append, List.filter_append, filter_sortByKey]

/-- With distinct keys the order of the input does not matter. -/
theorem sortByKey_eq_of_perm (h : xs.Perm ys) (hnodup : (xs.map key).Nodup) :
    sortByKey key xs = sortByKey key ys := by
  refine List.Perm.eq_of_pairwise (fun a b ha hb hab hba => ?_) (sortByKey_sorted key xs) (sortByKey_sorted key ys)
    ((sortByKey_perm key xs).trans (h.trans (sortByKey_perm key ys).symm))
  have ha := (sortByKey_perm key xs).mem_iff.1 ha
  have hb := h.mem_iff.2 ((sortByKey_perm key ys).mem_iff.1 hb)
  exact List.inj_on_of_nodup_map hnodup ha hb (le_antisymm hab hba)

/-- A function that keeps the key may be applied before or after sorting. -/
theorem sortByKey_map {key' : β → κ} {f : α → β} (hf : ∀ a, key' (f a) = key a) (xs : List α) :
    sortByKey key' (xs.map f) = (sortByKey key xs).map f := by
  refine (List.map_insertionSort _ _ f xs fun a _ b _ => ?_).symm
  rw [hf, hf]

/-! ### Searching -/

/-- In a list that is sorted downwards by texts, the first one that begins `s` is longer than every other one. -/
theorem longest_of_find? {γ : Type} [BEq γ] [LawfulBEq γ] [LT γ] [Std.Irrefl fun x y : γ => x < y]
    {text : α → List γ} {s : List γ} {x : α} (hsorted : xs.Pairwise fun a b => text b < text a)
    (h : xs.find? (fun a => (text a).isPrefixOf s) = some x) :
    text x <+: s ∧ ∀ y ∈ xs, text y <+: s → y = x ∨ (text y).length < (text x).length := by
  obtain ⟨hx, before, after, rfl, hbefore⟩ := List.find?_eq_some_iff_append.1 h
  have hbegins : text x <+: s := List.isPrefixOf_iff_prefix.1 hx
  refine ⟨hbegins, fun y hy hys => ?_⟩
  rcases List.mem_append.1 hy with hy | hy
  · simpa [List.isPrefixOf_iff_prefix.2 hys] using hbefore y hy
  rcases List.mem_cons.1 hy with rfl | hy
  · exact .inl rfl
  -- behind `x` stand smaller texts, and no text is smaller than a beginning of it
  have hlt : text y < text x := (List.pairwise_cons.1 (List.pairwise_append.1 hsorted).2.1).1 y hy
  refine .inr (Nat.lt_of_not_le fun hle => ?_)
  exact (List.prefix_of_prefix_length_le hbegins hys hle).le hlt

end Sorting
