import PuralinguaIR.Tiling

/-!
# Ends of strings

The loop over a string skips pairs of characters; the rule it follows counts the backslashes before a quote. A
string ends at its first quote with an even number of backslashes right before it (`doubleQuotedString_end`).
-/

namespace PuralinguaIR

/-! ### Backslashes -/

/-- The number of backslashes at the end of a text. -/
def trailingBackslashes (cs : List Char) : Nat := (cs.reverse.takeWhile (· == '\\')).length

/-- A quote behind the text is not escaped. -/
def Unescaped (before : List Char) : Prop := trailingBackslashes before % 2 = 0

instance (before : List Char) : Decidable (Unescaped before) := inferInstanceAs (Decidable (_ = _))

/-- A run of backslashes goes on at the front of a text only if the text has nothing else. -/
theorem trailingBackslashes_append (u cs : List Char) : trailingBackslashes (u ++ cs) =
    if trailingBackslashes cs = cs.length then cs.length + trailingBackslashes u else trailingBackslashes cs := by
  unfold trailingBackslashes
  rw [List.reverse_append, List.takeWhile_append, List.length_reverse]
  split
  · rw [List.length_append, List.length_reverse]
  · rfl

theorem Unescaped.append_iff {u : List Char} (hu : Unescaped u) (cs : List Char) :
    Unescaped (u ++ cs) ↔ Unescaped cs := by
  unfold Unescaped at hu ⊢
  rw [trailingBackslashes_append]
  split
  · rename_i hall
    omega
  · rfl

/-- A backslash before another character begins no run. -/
theorem unescaped_backslash_cons {c : Char} (hc : c ≠ '\\') (cs : List Char) :
    Unescaped ('\\' :: c :: cs) ↔ Unescaped (c :: cs) := by
  have hshort : trailingBackslashes (c :: cs) ≠ (c :: cs).length := by
    intro hall
    have hmem : c ∈ (c :: cs).reverse.takeWhile (· == '\\') := by
      rw [(List.takeWhile_prefix _).eq_of_length (hall.trans List.length_reverse.symm)]
      simp
    exact hc (by simpa using List.all_eq_true.1 List.all_takeWhile c hmem)
  rw [Unescaped, Unescaped, ← List.singleton_append, trailingBackslashes_append, if_neg hshort]

/-! ### Ends -/

/-- A quote that is not escaped stands between the two parts of a text. -/
structure IsEnd (cs before after : List Char) : Prop where
  split : cs = before ++ '"' :: after
  unescaped : Unescaped before

/-- The first such quote. -/
structure IsFirstEnd (cs before after : List Char) : Prop extends IsEnd cs before after where
  first : ∀ b a, IsEnd cs b a → before.length ≤ b.length

/-- The characters `u` hold no end and leave the ends behind them as they are. -/
structure Skips (u cs : List Char) : Prop where
  none : ∀ b a, u = b ++ '"' :: a → ¬Unescaped b
  unescaped : ∀ b a, cs = b ++ '"' :: a → (Unescaped (u ++ b) ↔ Unescaped b)

theorem Skips.isEnd_iff {u cs before after : List Char} (h : Skips u cs) :
    IsEnd (u ++ cs) before after ↔ ∃ b, before = u ++ b ∧ IsEnd cs b after := by
  constructor
  · rintro ⟨hsplit, hunescaped⟩
    rcases List.append_eq_append_iff.1 hsplit with ⟨b, rfl, hcs⟩ | ⟨a, rfl, ha⟩
    · exact ⟨b, rfl, hcs, (h.unescaped b after hcs).1 hunescaped⟩
    · cases a with
      | nil =>
        rw [List.append_nil] at h ⊢
        have hcs : cs = [] ++ '"' :: after := ha.symm
        refine ⟨[], (List.append_nil _).symm, hcs, ?_⟩
        exact (h.unescaped [] after hcs).1 (by rwa [List.append_nil])
      | cons q a =>
        obtain ⟨rfl, -⟩ := List.cons.inj ha
        exact absurd hunescaped (h.none before a rfl)
  · rintro ⟨b, rfl, hsplit, hunescaped⟩
    exact ⟨by rw [hsplit, List.append_assoc], (h.unescaped b after hsplit).2 hunescaped⟩

theorem IsFirstEnd.skips {u cs before after : List Char} (h : IsFirstEnd cs before after) (hu : Skips u cs) :
    IsFirstEnd (u ++ cs) (u ++ before) after where
  toIsEnd := hu.isEnd_iff.2 ⟨before, rfl, h.toIsEnd⟩
  first b a hend := by
    obtain ⟨b, rfl, hcs⟩ := hu.isEnd_iff.1 hend
    simpa using h.first b a hcs

/-! ### The loop -/

/-- What a search for the end of a string returns: what stands behind the first end, or nothing if there is
none. -/
def FindsEnd (cs : List Char) (r : Bool × List Char) : Prop :=
  (∃ before after, IsFirstEnd cs before after ∧ r = (true, after)) ∨
    (∀ before after, ¬IsEnd cs before after) ∧ r = (false, [])

theorem Skips.findsEnd {u cs : List Char} (hu : Skips u cs) {r : Bool × List Char} (h : FindsEnd cs r) :
    FindsEnd (u ++ cs) r := by
  rcases h with ⟨before, after, hfirst, hr⟩ | ⟨hnone, hr⟩
  · exact .inl ⟨u ++ before, after, hfirst.skips hu, hr⟩
  · refine .inr ⟨fun before after h => ?_, hr⟩
    obtain ⟨b, -, h⟩ := hu.isEnd_iff.1 h
    exact hnone b after h

theorem doubleQuotedLoop_findsEnd (cs : List Char) : FindsEnd cs (doubleQuotedLoop cs) := by
  fun_induction doubleQuotedLoop cs with
  | case1 =>
    refine .inr ⟨fun before after h => ?_, rfl⟩
    cases before <;> cases h.split
  | case2 cs => exact .inl ⟨[], cs, ⟨⟨rfl, rfl⟩, fun _ _ _ => Nat.zero_le _⟩, rfl⟩
  | case3 cs ih =>
    have hpair : Unescaped ['\\', '\\'] := rfl
    refine Skips.findsEnd (u := ['\\', '\\']) ⟨fun b a hsplit => ?_, fun b a _ => hpair.append_iff b⟩ ih
    have hmem : '"' ∈ ['\\', '\\'] := by simp [hsplit]
    exact absurd hmem (by decide)
  | case4 cs ih =>
    have hpair : Unescaped ['\\', '"'] := rfl
    refine Skips.findsEnd (u := ['\\', '"']) ⟨fun b a hsplit => ?_, fun b a _ => hpair.append_iff b⟩ ih
    -- the quote stands behind one backslash
    cases b with
    | nil => cases hsplit
    | cons x b =>
      obtain ⟨rfl, hsplit⟩ := List.cons.inj hsplit
      cases b with
      | nil => decide
      | cons y b => cases b <;> cases hsplit
  | case5 c cs hquote hescape hescape' ih =>
    refine Skips.findsEnd (u := [c]) ⟨fun b a hsplit => ?_, fun b a hsplit => ?_⟩ ih
    · have hmem : '"' ∈ [c] := by simp [hsplit]
      exact absurd (List.mem_singleton.1 hmem).symm hquote
    by_cases hc : c = '\\'
    · -- a backslash before neither a quote nor a backslash
      subst hc
      cases b with
      | nil => exact absurd hsplit (hescape' a rfl)
      | cons x b => exact unescaped_backslash_cons (fun hx => hescape _ rfl (hx ▸ hsplit)) b
    · have hplain : Unescaped [c] := by simp [Unescaped, trailingBackslashes, hc]
      exact hplain.append_iff b

/-! ### Strings in a source -/

/-- A string, or a byte string, is terminated exactly if some quote in the text behind its opening quote is not
escaped. It is then taken up to and including the first such quote; otherwise everything is taken. -/
theorem doubleQuotedString_end (c : Cursor) :
    ((doubleQuotedString c).1 = true ↔ ∃ before after, IsEnd c.rest before after) ∧
      ((doubleQuotedString c).1 = true → ∃ before after, IsFirstEnd c.rest before after ∧
        doubleQuotedString c = (true, { c with eaten := c.eaten ++ (before ++ ['"']), rest := after })) ∧
      ((doubleQuotedString c).1 = false →
        doubleQuotedString c = (false, { c with eaten := c.eaten ++ c.rest, rest := [] })) := by
  have hrun : doubleQuotedString c = ((doubleQuotedLoop c.rest).1, c.skipTo (doubleQuotedLoop c.rest).2) := rfl
  rcases doubleQuotedLoop_findsEnd c.rest with ⟨before, after, hfirst, hloop⟩ | ⟨hnone, hloop⟩
  · rw [hrun, hloop]
    refine ⟨iff_of_true rfl ⟨before, after, hfirst.toIsEnd⟩, fun _ => ⟨before, after, hfirst, ?_⟩, nofun⟩
    have hrest : c.rest = (before ++ ['"']) ++ after := by simp [hfirst.split]
    rw [c.skipTo_append hrest]
  · rw [hrun, hloop]
    refine ⟨iff_of_false nofun fun ⟨b, a, h⟩ => hnone b a h, nofun, fun _ => ?_⟩
    rw [c.skipTo_append (List.append_nil c.rest).symm]

end PuralinguaIR
