import PuralinguaIR.LiteralTexts

/-!
# What is wrong with a raw string

`validateRawStr` reads the text of one token again, to say why it is no raw string. It agrees with the lexer,
and the terminator it points at is the first quote with the most hashes (`validateRawStr_token`).
-/

namespace PuralinguaIR

open Text

/-! ### Checked differences -/

/-- A difference of unsigned numbers, which panics when it is negative (`none`). -/
def subChecked (a b : Nat) : Option Nat := if b ≤ a then some (a - b) else none

/-- `rawStringLoop` with its differences checked. -/
def rawStringLoopChecked (prefixLen startPos nStartHashes : Nat) :
    (fuel : Nat) → (maxHashes : Nat) → (possibleTerminatorOffset : Option Nat) → Cursor →
      Option (Except RawStrError Nat × Cursor)
  | 0, maxHashes, offset, c => some (.error (.noTerminator nStartHashes maxHashes offset), c)
  | fuel + 1, maxHashes, offset, c =>
    let c := c.eatUntil '"'
    if c.isEof then some (.error (.noTerminator nStartHashes maxHashes offset), c)
    else
      let c := c.bump
      let (nEndHashes, rest') := eatHashes nStartHashes c.rest
      let c := c.skipTo rest'
      if nEndHashes = nStartHashes then some (.ok nStartHashes, c)
      else if nEndHashes > maxHashes then do
        let offset ← subChecked (← subChecked c.posWithinToken startPos) nEndHashes
        rawStringLoopChecked prefixLen startPos nStartHashes fuel nEndHashes (some (offset + prefixLen)) c
      else rawStringLoopChecked prefixLen startPos nStartHashes fuel maxHashes offset c

/-- `rawStringUnvalidated` with its differences checked. -/
def rawStringUnvalidatedChecked (c : Cursor) (prefixLen : Nat) : Option (Except RawStrError Nat × Cursor) :=
  let startPos := c.posWithinToken
  let (nStartHashes, rest') := eatHashes c.rest.length c.rest
  let c := c.skipTo rest'
  if c.rest.head? = some '"' then
    let c := c.bump
    rawStringLoopChecked prefixLen startPos nStartHashes (c.rest.length + 1) 0 none c
  else some (.error (.invalidStarter c.first), c.bump)

private theorem subChecked_add (a b : Nat) : subChecked (a + b) a = some b := by
  rw [subChecked, if_pos (Nat.le_add_right a b), Nat.add_sub_cancel_left]

/-- The hashes at a quote stand behind the start, so that both differences are positive. -/
theorem rawStringLoopChecked_eq {prefixLen startPos n fuel maxHashes : Nat} {offset : Option Nat} {c : Cursor}
    (hstart : startPos ≤ c.posWithinToken) : rawStringLoopChecked prefixLen startPos n fuel maxHashes offset c =
      some (rawStringLoop prefixLen startPos n fuel maxHashes offset c) := by
  induction fuel generalizing maxHashes offset c with
  | zero => rfl
  | succ fuel ih =>
    have hforward : c.Forward (c.eatUntil '"').bump := (Cursor.Forward.eatUntil '"' c).trans (.bump _)
    obtain ⟨u, hu⟩ := hforward.exists_taken
    have hpos := hforward.posWithinToken hu
    rw [rawStringLoopChecked, rawStringLoop]
    dsimp only
    generalize (c.eatUntil '"').bump = c₁ at hpos ⊢
    have hhashes := eatHashes_taken n c₁.rest
    generalize (eatHashes n c₁.rest).1 = k at hhashes ⊢
    generalize (eatHashes n c₁.rest).2 = rest' at hhashes ⊢
    have hsize : byteLen (List.replicate k '#') = k := (byteLen_replicate k '#').trans (Nat.mul_one k)
    have hpos' : (c₁.skipTo rest').posWithinToken = startPos + (k + (c₁.posWithinToken - startPos)) := by
      rw [Cursor.posWithinToken_skipTo hhashes, hsize]
      omega
    have hstart' : startPos ≤ (c₁.skipTo rest').posWithinToken := by omega
    split
    · rfl
    split
    · rfl
    split
    · rw [hpos', subChecked_add, Nat.add_sub_cancel_left, Nat.add_sub_cancel_left]
      refine (congrArg (Option.bind · _) (subChecked_add k _)).trans ?_
      exact ih hstart'
    · exact ih hstart'

/-- The differences the lexer takes are never negative. -/
theorem rawStringUnvalidatedChecked_eq (c : Cursor) (prefixLen : Nat) :
    rawStringUnvalidatedChecked c prefixLen = some (rawStringUnvalidated c prefixLen) := by
  unfold rawStringUnvalidatedChecked rawStringUnvalidated
  have hsuffix := eatHashes_suffix c.rest.length c.rest
  generalize eatHashes c.rest.length c.rest = r at hsuffix ⊢
  obtain ⟨n, rest'⟩ := r
  dsimp only
  split
  · have hforward : c.Forward (c.skipTo rest').bump := (Cursor.Forward.skipTo hsuffix).trans (.bump _)
    obtain ⟨u, hu⟩ := hforward.exists_taken
    exact rawStringLoopChecked_eq (by rw [hforward.posWithinToken hu]; omega)
  · rfl

/-- `rawDoubleQuotedString` with its differences checked. -/
def rawDoubleQuotedStringChecked (c : Cursor) (prefixLen : Nat) : Option (Except RawStrError UInt8 × Cursor) := do
  match ← rawStringUnvalidatedChecked c prefixLen with
  | (.error e, c) => some (.error e, c)
  | (.ok nHashes, c) =>
    if nHashes < 256 then some (.ok (UInt8.ofNat nHashes), c) else some (.error (.tooManyDelimiters nHashes), c)

theorem rawDoubleQuotedStringChecked_eq (c : Cursor) (prefixLen : Nat) :
    rawDoubleQuotedStringChecked c prefixLen = some (rawDoubleQuotedString c prefixLen) := by
  unfold rawDoubleQuotedStringChecked rawDoubleQuotedString
  rw [rawStringUnvalidatedChecked_eq, Option.bind_eq_bind, Option.bind_some]
  generalize rawStringUnvalidated c prefixLen = r
  obtain ⟨e | n, c'⟩ := r
  · rfl
  · exact (apply_ite some _ _ _).symm

/-! ### The text of a token -/

/-- Takes the given number of characters, and panics at the end of the text. -/
def Cursor.bumpTimes : Nat → Cursor → Option Cursor
  | 0, c => some c
  | n + 1, c => if c.isEof then none else bumpTimes n c.bump

/-- Why the text of a token is no raw string; the prefix is `r` or `br`. `none` is a panic. -/
def validateRawStr (input : List Char) (prefixLen : Nat) : Option (Except RawStrError Unit) := do
  let c ← Cursor.bumpTimes prefixLen ⟨input, 0, [], input⟩
  let (res, _) ← rawDoubleQuotedStringChecked c prefixLen
  pure (res.map fun _ => ())

theorem Cursor.bumpTimes_append {c : Cursor} {u cs : List Char} (h : c.rest = u ++ cs) :
    Cursor.bumpTimes u.length c = some (c.skipTo cs) := by
  induction u generalizing c with
  | nil =>
    obtain rfl : c.rest = cs := h
    rw [c.skipTo_self]
    rfl
  | cons x u ih =>
    have hbump : c.bump = c.skipTo (u ++ cs) := c.bump_eq h
    have heof : c.isEof = false := by rw [Cursor.isEof, h]; rfl
    rw [List.length_cons, bumpTimes, heof, if_neg Bool.false_ne_true, ih (hbump ▸ rfl), hbump]
    exact congrArg some (c.skipTo_skipTo (u := [x]) h)

/-- The text is read from behind its prefix. -/
theorem validateRawStr_append (u cs : List Char) : validateRawStr (u ++ cs) u.length =
    some ((rawDoubleQuotedString ⟨u ++ cs, 0, u, cs⟩ u.length).1.map fun _ => ()) := by
  have hskip : (⟨u ++ cs, 0, [], u ++ cs⟩ : Cursor).skipTo cs = ⟨u ++ cs, 0, u, cs⟩ := Cursor.skipTo_append _ rfl
  rw [validateRawStr, Cursor.bumpTimes_append rfl, hskip, Option.bind_eq_bind, Option.bind_some,
    rawDoubleQuotedStringChecked_eq]
  rfl

/-! ### Raw strings inside a longer text -/

section Inside

variable {c c' d : Cursor} {v t : List Char} {prefixLen prefixLen' n m : Nat}

/-- The search that finds a terminator depends on nothing behind it. -/
theorem rawStringLoop_inside {startPos startPos' fuel fuel' maxHashes maxHashes' : Nat}
    {offset offset' : Option Nat}
    (h : rawStringLoop prefixLen startPos n fuel maxHashes offset c = (.ok m, c')) (hc : c.rest = v ++ c'.rest)
    (hd : d.rest = v ++ t) (hfuel : d.rest.length < fuel') :
    (rawStringLoop prefixLen' startPos' n fuel' maxHashes' offset' d).1 = .ok n := by
  induction fuel generalizing maxHashes offset maxHashes' offset' fuel' c d v with
  | zero => cases h
  | succ fuel ih =>
    obtain ⟨fuel', rfl⟩ : ∃ k, fuel' = k + 1 := ⟨fuel' - 1, by omega⟩
    rcases quote_cases n c.rest with hquote | ⟨before, after, hrest, hbefore⟩ |
      ⟨before, k, after, hrest, hbefore, hk, hend⟩
    · rw [rawStringLoop_eof hquote] at h
      cases h
    · rw [rawStringLoop_ends hbefore hrest] at h
      obtain ⟨-, rfl⟩ := Prod.mk.inj h
      obtain rfl : v = before ++ '"' :: List.replicate n '#' := by
        refine (List.append_left_inj after).1 ?_
        rw [← show c.rest = v ++ after from hc, hrest]
        simp
      have hd' : d.rest = before ++ '"' :: (List.replicate n '#' ++ t) := hd.trans (by simp)
      rw [rawStringLoop_ends hbefore hd']
    · have hnext : ∃ maxHashes offset,
          rawStringLoop prefixLen startPos n fuel maxHashes offset (c.skipTo after) = (.ok m, c') := by
        rw [rawStringLoop_goesOn hbefore hrest hk hend] at h
        split at h
        · exact ⟨_, _, h⟩
        · exact ⟨_, _, h⟩
      obtain ⟨maxHashes, offset, h⟩ := hnext
      obtain ⟨-, content, hcontent⟩ := rawStringLoop_ok h
      -- what is taken goes on with the content and its terminator
      have hafter : after = (content ++ '"' :: List.replicate n '#') ++ c'.rest :=
        (show after = _ from hcontent).trans (by simp)
      obtain rfl : v = before ++ '"' :: (List.replicate k '#' ++ (content ++ '"' :: List.replicate n '#')) := by
        refine (List.append_left_inj c'.rest).1 ?_
        rw [← hc, hrest, hafter]
        simp
      have hd' : d.rest = before ++ '"' :: (List.replicate k '#' ++
          ((content ++ '"' :: List.replicate n '#') ++ t)) :=
        hd.trans (by simp)
      have hend' : ((content ++ '"' :: List.replicate n '#') ++ t).head? ≠ some '#' := by
        rw [hafter] at hend
        cases content <;> exact hend
      have hfuel' : ((content ++ '"' :: List.replicate n '#') ++ t).length < fuel' := by
        rw [hd'] at hfuel
        simp only [List.length_append, List.length_cons] at hfuel ⊢
        omega
      rw [rawStringLoop_goesOn hbefore hd' hk hend']
      split
      · exact ih h hafter rfl hfuel'
      · exact ih h hafter rfl hfuel'

theorem rawStringUnvalidated_inside (h : rawStringUnvalidated c prefixLen = (.ok n, c'))
    (hc : c.rest = v ++ c'.rest) (hd : d.rest = v ++ t) : (rawStringUnvalidated d prefixLen').1 = .ok n := by
  obtain ⟨content, hcontent⟩ := rawStringUnvalidated_ok h
  have hrest : c.rest = List.replicate n '#' ++ '"' :: (content ++ '"' :: (List.replicate n '#' ++ c'.rest)) := by
    rw [hcontent]
    simp [hashed]
  obtain rfl : v = List.replicate n '#' ++ '"' :: (content ++ '"' :: List.replicate n '#') := by
    refine (List.append_left_inj c'.rest).1 ?_
    rw [← hc, hrest]
    simp
  have hd' : d.rest = List.replicate n '#' ++ '"' :: ((content ++ '"' :: List.replicate n '#') ++ t) :=
    hd.trans (by simp)
  rw [rawStringUnvalidated_eq hrest] at h
  rw [rawStringUnvalidated_eq hd']
  exact rawStringLoop_inside h (by simp) rfl (Nat.lt_succ_self _)

theorem rawDoubleQuotedString_inside {n : UInt8} (h : rawDoubleQuotedString c prefixLen = (.ok n, c'))
    (hc : c.rest = v ++ c'.rest) (hd : d.rest = v ++ t) : (rawDoubleQuotedString d prefixLen').1 = .ok n := by
  unfold rawDoubleQuotedString at h ⊢
  generalize hrun : rawStringUnvalidated c prefixLen = r at h
  obtain ⟨e | k, c₁⟩ := r
  · cases h
  dsimp only at h
  split at h
  · rename_i hk
    obtain ⟨hn, rfl⟩ := Prod.mk.inj h
    have hinside : (rawStringUnvalidated d prefixLen').1 = .ok k := rawStringUnvalidated_inside hrun hc hd
    generalize rawStringUnvalidated d prefixLen' = r at hinside ⊢
    obtain ⟨res, d'⟩ := r
    obtain rfl : res = .ok k := hinside
    simp only [hk, if_true]
    exact hn
  · cases h

end Inside

/-! ### The best terminator -/

/-- The number of hashes a text begins with. -/
def leadingHashes (cs : List Char) : Nat := (cs.takeWhile (· == '#')).length

theorem leadingHashes_replicate {k : Nat} {after : List Char} (hend : after.head? ≠ some '#') :
    leadingHashes (List.replicate k '#' ++ after) = k := by
  have hafter : after.takeWhile (· == '#') = [] := by
    cases after with
    | nil => rfl
    | cons c after => exact List.takeWhile_cons_of_neg (by simpa using hend)
  rw [leadingHashes, List.takeWhile_append_of_pos (by simp), hafter, List.append_nil, List.length_replicate]

/-- Of the quotes among the first `seen` characters of `body`, which begins at the byte `start`, the first one
with the most hashes has `found` of them, and `offset` is the byte behind it; there is no offset if none has a
hash. -/
structure BestSeen (body : List Char) (start seen found : Nat) (offset : Option Nat) : Prop where
  most : ∀ b a, body = b ++ '"' :: a → b.length < seen → leadingHashes a ≤ found
  isSome_iff : offset.isSome ↔ 0 < found
  first : ∀ o, offset = some o → ∃ b a, body = b ++ '"' :: a ∧ b.length < seen ∧ o = start + byteLen (b ++ ['"']) ∧
    leadingHashes a = found ∧ ∀ b' a', body = b' ++ '"' :: a' → b'.length < b.length → leadingHashes a' < found

theorem BestSeen.nil (body : List Char) (start : Nat) : BestSeen body start 0 0 none :=
  ⟨fun _ _ _ h => absurd h (Nat.not_lt_zero _), by simp, nofun⟩

section Turn

variable {body done before after : List Char} {start k found : Nat} {offset : Option Nat}

/-- The quotes up to and with the hashes of the next one are those before and the next one. -/
private theorem quote_of_lt (hbody : body = done ++ (before ++ '"' :: (List.replicate k '#' ++ after)))
    (hbefore : '"' ∉ before) {b a : List Char} (hquote : body = b ++ '"' :: a)
    (hlt : b.length < (done ++ before ++ '"' :: List.replicate k '#').length) :
    b.length < done.length ∨ b = done ++ before ∧ a = List.replicate k '#' ++ after := by
  by_cases hdone : b.length < done.length
  · exact .inl hdone
  have heq : done ++ (before ++ '"' :: (List.replicate k '#' ++ after)) = b ++ '"' :: a := hbody.symm.trans hquote
  obtain ⟨b, rfl⟩ : done <+: b :=
    List.prefix_of_prefix_length_le ⟨_, rfl⟩ ⟨'"' :: a, heq.symm⟩ (Nat.le_of_not_lt hdone)
  rw [List.append_assoc, List.append_cancel_left_eq] at heq
  have hshort : b ++ ['"'] <+: b ++ '"' :: a := ⟨a, by simp⟩
  have hlong : before ++ '"' :: List.replicate k '#' <+: b ++ '"' :: a := ⟨after, by rw [← heq]; simp⟩
  obtain ⟨x, hx⟩ : b ++ ['"'] <+: before ++ '"' :: List.replicate k '#' := by
    refine List.prefix_of_prefix_length_le hshort hlong ?_
    simp only [List.length_append, List.length_cons, List.length_nil] at hlt ⊢
    omega
  have hsplit : before ++ '"' :: List.replicate k '#' = b ++ '"' :: x := by simp [← hx]
  have hhashes : '"' ∉ List.replicate k '#' := fun hmem => absurd (List.eq_of_mem_replicate hmem) (by decide)
  obtain ⟨rfl, -, -⟩ := (List.append_cons_inj_of_notMem hbefore hhashes).1 hsplit
  exact .inr ⟨rfl, (List.cons.inj (List.append_cancel_left heq)).2.symm⟩

/-- A quote with more hashes than all before becomes the best one. -/
theorem BestSeen.better (h : BestSeen body start done.length found offset)
    (hbody : body = done ++ (before ++ '"' :: (List.replicate k '#' ++ after))) (hbefore : '"' ∉ before)
    (hend : after.head? ≠ some '#') (hk : found < k) :
    BestSeen body start (done ++ before ++ '"' :: List.replicate k '#').length k
      (some (start + byteLen (done ++ before ++ ['"']))) where
  most b a hquote hlt := by
    rcases quote_of_lt hbody hbefore hquote hlt with hseen | ⟨-, rfl⟩
    · exact Nat.le_of_lt (Nat.lt_of_le_of_lt (h.most b a hquote hseen) hk)
    · exact Nat.le_of_eq (leadingHashes_replicate hend)
  isSome_iff := iff_of_true rfl (Nat.lt_of_le_of_lt (Nat.zero_le _) hk)
  first o ho := by
    cases ho
    refine ⟨done ++ before, List.replicate k '#' ++ after, by simp [hbody], ?_, rfl, leadingHashes_replicate hend,
      fun b a hquote hlt => ?_⟩
    · simp only [List.length_append, List.length_cons]
      omega
    · have hlt' : b.length < (done ++ before ++ '"' :: List.replicate k '#').length := by
        simp only [List.length_append, List.length_cons] at hlt ⊢
        omega
      rcases quote_of_lt hbody hbefore hquote hlt' with hseen | ⟨rfl, -⟩
      · exact Nat.lt_of_le_of_lt (h.most b a hquote hseen) hk
      · exact absurd hlt (Nat.lt_irrefl _)

/-- A quote with no more hashes than some before changes nothing. -/
theorem BestSeen.worse (h : BestSeen body start done.length found offset)
    (hbody : body = done ++ (before ++ '"' :: (List.replicate k '#' ++ after))) (hbefore : '"' ∉ before)
    (hend : after.head? ≠ some '#') (hk : ¬found < k) :
    BestSeen body start (done ++ before ++ '"' :: List.replicate k '#').length found offset where
  most b a hquote hlt := by
    rcases quote_of_lt hbody hbefore hquote hlt with hseen | ⟨-, rfl⟩
    · exact h.most b a hquote hseen
    · rw [leadingHashes_replicate hend]
      exact Nat.le_of_not_lt hk
  isSome_iff := h.isSome_iff
  first o ho := by
    obtain ⟨b, a, hquote, hlt, hrest⟩ := h.first o ho
    refine ⟨b, a, hquote, Nat.lt_of_lt_of_le hlt ?_, hrest⟩
    rw [List.append_assoc, List.length_append]
    exact Nat.le_add_right _ _

end Turn

/-- The hashes found and the offset are those of the best quote of the whole body. -/
theorem rawStringLoop_best {prefixLen startPos n fuel maxHashes base expected found : Nat}
    {offset offset' : Option Nat} {body done : List Char} {c c' : Cursor}
    (h : rawStringLoop prefixLen startPos n fuel maxHashes offset c =
      (.error (.noTerminator expected found offset'), c'))
    (hbody : body = done ++ c.rest) (hpos : c.posWithinToken = base + byteLen done) (hbase : startPos ≤ base)
    (hfuel : c.rest.length < fuel) (hmax : maxHashes < n ∨ maxHashes = 0)
    (hbest : BestSeen body (base - startPos + prefixLen) done.length maxHashes offset) :
    expected = n ∧ (found < n ∨ found = 0) ∧
      BestSeen body (base - startPos + prefixLen) body.length found offset' := by
  induction fuel generalizing maxHashes offset c done with
  | zero => omega
  | succ fuel ih =>
    rcases quote_cases n c.rest with hquote | ⟨before, after, hrest, hbefore⟩ |
      ⟨before, k, after, hrest, hbefore, hk, hend⟩
    · rw [rawStringLoop_eof hquote] at h
      cases h
      refine ⟨rfl, hmax, fun b a hsplit _ => hbest.most b a hsplit ?_, hbest.isSome_iff, fun o ho => ?_⟩
      · -- a quote behind what is done would stand in the rest
        by_contra hlt
        obtain ⟨b, rfl⟩ : done <+: b :=
          List.prefix_of_prefix_length_le ⟨_, hbody.symm⟩ ⟨'"' :: a, hsplit.symm⟩ (Nat.le_of_not_lt hlt)
        rw [hbody, List.append_assoc, List.append_cancel_left_eq] at hsplit
        exact hquote (by simp [hsplit])
      · obtain ⟨b, a, hsplit, hlt, hrest⟩ := hbest.first o ho
        refine ⟨b, a, hsplit, ?_, hrest⟩
        rw [hsplit, List.length_append, List.length_cons]
        omega
    · rw [rawStringLoop_ends hbefore hrest] at h
      cases h
    · have hbody' : body = done ++ (before ++ '"' :: (List.replicate k '#' ++ after)) := hrest ▸ hbody
      have hlater : body = (done ++ before ++ '"' :: List.replicate k '#') ++ (c.skipTo after).rest := by
        rw [hbody']
        simp
      have hpos' : (c.skipTo after).posWithinToken =
          base + byteLen (done ++ before ++ '"' :: List.replicate k '#') := by
        rw [Cursor.posWithinToken_skipTo (u := before ++ '"' :: List.replicate k '#') (by simp [hrest]), hpos,
          Nat.add_assoc, ← byteLen_append, List.append_assoc]
      have hfuel' : (c.skipTo after).rest.length < fuel := by
        rw [hrest, List.length_append, List.length_cons, List.length_append] at hfuel
        rw [Cursor.skipTo_rest]
        omega
      have hoffset : (c.skipTo after).posWithinToken - startPos - k + prefixLen =
          base - startPos + prefixLen + byteLen (done ++ before ++ ['"']) := by
        have hsize : byteLen (List.replicate k '#') = k := (byteLen_replicate k '#').trans (Nat.mul_one k)
        rw [hpos', byteLen_append _ ('"' :: _), byteLen_append _ ['"'], byteLen_cons, byteLen_cons, hsize,
          byteLen_nil]
        omega
      rw [rawStringLoop_goesOn hbefore hrest hk hend, hoffset] at h
      split at h
      · rename_i hbetter
        exact ih h hlater hpos' hfuel' (.inl hk) (hbest.better hbody' hbefore hend hbetter)
      · rename_i hworse
        exact ih h hlater hpos' hfuel' hmax (hbest.worse hbody' hbefore hend hworse)

/-! ### The diagnosis of a token -/

/-- What a diagnosis without a terminator says of the text `w`: behind the prefix, the expected hashes and a
quote begins the body, whose quotes have at most the hashes found; the offset is the byte behind the first of
those with so many. -/
structure Diagnosis (w : List Char) (prefixLen expected found : Nat) (offset : Option Nat) : Prop where
  found_lt : found < expected ∨ expected = 0 ∧ found = 0
  isSome_iff : offset.isSome ↔ 0 < found
  quotes : ∃ opening body, w = opening ++ body ∧
    opening = w.take prefixLen ++ (List.replicate expected '#' ++ ['"']) ∧
    (∀ b a, body = b ++ '"' :: a → leadingHashes a ≤ found) ∧
    ∀ o, offset = some o → ∃ b a, body = b ++ '"' :: a ∧ o = byteLen (opening ++ b ++ ['"']) ∧
      leadingHashes a = found ∧ ∀ b' a', body = b' ++ '"' :: a' → b'.length < b.length → leadingHashes a' < found

/-- A search without a terminator begins behind hashes and a quote. -/
theorem rawStringUnvalidated_noTerminator {c c' : Cursor} {prefixLen expected found : Nat} {offset : Option Nat}
    (h : rawStringUnvalidated c prefixLen = (.error (.noTerminator expected found offset), c')) :
    ∃ body, c.rest = List.replicate expected '#' ++ '"' :: body ∧ (found < expected ∨ found = 0) ∧
      BestSeen body (prefixLen + expected + 1) body.length found offset := by
  have hhashes := eatHashes_taken c.rest.length c.rest
  by_cases hquote : (eatHashes c.rest.length c.rest).2.head? = some '"'
  · obtain ⟨body, hbody⟩ := List.head?_eq_some_iff.1 hquote
    rw [hbody] at hhashes
    generalize (eatHashes c.rest.length c.rest).1 = n at hhashes
    have hsize : byteLen (List.replicate n '#' ++ ['"']) = n + 1 := by
      rw [byteLen_append, byteLen_replicate]
      exact congrArg (· + 1) (Nat.mul_one n)
    have hpos : (c.skipTo body).posWithinToken = c.posWithinToken + (n + 1) + byteLen [] := by
      rw [Cursor.posWithinToken_skipTo (u := List.replicate n '#' ++ ['"']) (by simp [hhashes]), hsize]
      rfl
    rw [rawStringUnvalidated_eq hhashes] at h
    obtain ⟨rfl, hfound, hbest⟩ := rawStringLoop_best h (List.nil_append _).symm hpos (by omega)
      (Nat.lt_succ_self _) (.inr rfl) (.nil body _)
    have hstart : c.posWithinToken + (expected + 1) - c.posWithinToken + prefixLen = prefixLen + expected + 1 := by
      omega
    exact ⟨body, hhashes, hfound, hstart ▸ hbest⟩
  · unfold rawStringUnvalidated at h
    dsimp only at h
    have hquote : ¬(c.skipTo (eatHashes c.rest.length c.rest).2).rest.head? = some '"' := hquote
    rw [if_neg hquote] at h
    cases h

/-- Whatever text is diagnosed, a diagnosis without a terminator is right. -/
theorem validateRawStr_noTerminator {u cs : List Char} (hu : byteLen u = u.length) {expected found : Nat}
    {offset : Option Nat}
    (h : validateRawStr (u ++ cs) u.length = some (.error (.noTerminator expected found offset))) :
    Diagnosis (u ++ cs) u.length expected found offset := by
  rw [validateRawStr_append] at h
  have hrun : ∃ c', rawStringUnvalidated ⟨u ++ cs, 0, u, cs⟩ u.length =
      (.error (.noTerminator expected found offset), c') := by
    unfold rawDoubleQuotedString at h
    generalize rawStringUnvalidated ⟨u ++ cs, 0, u, cs⟩ u.length = r at h ⊢
    obtain ⟨e | n, c'⟩ := r
    · cases h
      exact ⟨c', rfl⟩
    · dsimp only at h
      split at h <;> cases h
  obtain ⟨c', hrun⟩ := hrun
  obtain ⟨body, hcs, hfound, hbest⟩ := rawStringUnvalidated_noTerminator hrun
  have hcs : cs = List.replicate expected '#' ++ '"' :: body := hcs
  have hopening : byteLen (u ++ (List.replicate expected '#' ++ ['"'])) = u.length + expected + 1 := by
    rw [byteLen_append, byteLen_append, byteLen_replicate, hu, Nat.add_assoc]
    exact congrArg (fun k => u.length + (k + 1)) (Nat.mul_one expected)
  refine ⟨by omega, hbest.isSome_iff, u ++ (List.replicate expected '#' ++ ['"']), body, by simp [hcs], by simp,
    ?_, ?_⟩
  · intro b a hquote
    refine hbest.most b a hquote ?_
    rw [hquote, List.length_append, List.length_cons]
    omega
  · intro o ho
    obtain ⟨b, a, hquote, -, rfl, hhashes, hfirst⟩ := hbest.first o ho
    refine ⟨b, a, hquote, ?_, hhashes, hfirst⟩
    rw [List.append_assoc, byteLen_append (u ++ (List.replicate expected '#' ++ ['"'])), hopening]

section Tokens

variable [UniLexer] {src : List Char} {tk : TokenInfo} {nHashes : Option UInt8} {suffixStart : Nat}

/-- The two kinds of raw literals, with the letters of their prefix. -/
inductive IsRaw : (Option UInt8 → LiteralKind) → List Char → Prop where
  | str : IsRaw .rawStr ['r']
  | byteStr : IsRaw .rawByteStr ['b', 'r']

omit [UniLexer] in
theorem IsRaw.not_isText_nil {makeKind : Option UInt8 → LiteralKind} {letters : List Char}
    (hraw : IsRaw makeKind letters) (nHashes : Option UInt8) : ¬ (makeKind nHashes).IsText [] [] := by
  intro h
  cases hraw with
  | str =>
    cases nHashes with
    | none =>
      obtain ⟨⟨x, u, -, h⟩, -⟩ := h
      cases h
    | some n =>
      obtain ⟨content, h⟩ := h
      cases h
  | byteStr =>
    cases nHashes with
    | none =>
      obtain ⟨x, u, h⟩ := h
      cases h
    | some n =>
      obtain ⟨content, h⟩ := h
      cases h

/-- The text of a raw literal is what its reader has taken, behind the letters. -/
theorem scan_raw {makeKind : Option UInt8 → LiteralKind} {letters : List Char} (hraw : IsRaw makeKind letters)
    (htk : tk ∈ scan src) (hkind : tk.kind = .literal (makeKind nHashes) suffixStart) :
    ∃ c c' u, textOf src tk.span = some (letters ++ u) ∧ c.rest = u ++ c'.rest ∧
      rawLiteral letters.length makeKind c = (.literal (makeKind nHashes) suffixStart, c') := by
  obtain ⟨c, first, u, c', -, hrest, hparse, htext⟩ := scan_parse htk (by simp [hkind]) (by simp [hkind])
  rw [hkind] at hparse
  have hletters := hraw.not_isText_nil nHashes
  cases hraw with
  | str =>
    rcases parse_eq_literal hparse with ⟨rfl, -, h⟩ | ⟨-, h⟩ | ⟨-, c₁, h, -⟩ | ⟨-, h⟩ | ⟨-, h⟩
    · exact ⟨c, c', u, htext, hrest, h⟩
    · rcases byteString_eq_literal h with ⟨-, h⟩ | ⟨-, h⟩ | ⟨-, -, h⟩ <;> cases h
    · exact absurd h (number_kind_ne hletters)
    · cases h
    · cases h
  | byteStr =>
    rcases parse_eq_literal hparse with ⟨-, -, h⟩ | ⟨rfl, h⟩ | ⟨-, c₁, h, -⟩ | ⟨-, h⟩ | ⟨-, h⟩
    · cases h
    · rcases byteString_eq_literal h with ⟨-, h⟩ | ⟨-, h⟩ | ⟨hfirst, -, h⟩
      · cases h
      · cases h
      -- the second letter has been taken before the reader begins
      have hforward : c.bump.Forward c' := by
        have := rawLiteral_forward 2 .rawByteStr c.bump
        rwa [h] at this
      obtain ⟨u', hu'⟩ := hforward.exists_taken
      have hletter : c.rest = 'r' :: (u' ++ c'.rest) := hu' ▸ Cursor.rest_of_first hfirst (by decide)
      obtain rfl : u = 'r' :: u' := List.append_cancel_right (hrest.symm.trans hletter)
      exact ⟨c.bump, c', u', htext, hu', h⟩
    · exact absurd h (number_kind_ne hletters)
    · cases h
    · cases h

/-- The reader of a token has found a terminator exactly if the reader of its text alone does. -/
theorem rawLiteral_ok_iff {c c' d : Cursor} {u : List Char} {prefixLen prefixLen' : Nat}
    {makeKind : Option UInt8 → LiteralKind} {kind : TokenKind} (h : rawLiteral prefixLen makeKind c = (kind, c'))
    (hc : c.rest = u ++ c'.rest) (hd : d.rest = u) :
    (∃ n, (rawDoubleQuotedString d prefixLen').1 = .ok n) ↔
        ∃ n, (rawDoubleQuotedString c prefixLen).1 = .ok n := by
  subst hd
  constructor
  · rintro ⟨n, hn⟩
    obtain ⟨v, hv⟩ := (rawDoubleQuotedString_forward d prefixLen').exists_taken
    have hc' : c.rest = v ++ ((rawDoubleQuotedString d prefixLen').2.rest ++ c'.rest) := by
      rw [hc, hv, List.append_assoc]
    exact ⟨n, rawDoubleQuotedString_inside (Prod.ext hn rfl) hv hc'⟩
  · rintro ⟨n, hn⟩
    obtain ⟨v, hv⟩ := (rawDoubleQuotedString_forward c prefixLen).exists_taken
    -- what follows the terminator in the token is its suffix
    have hsuffix : (rawDoubleQuotedString c prefixLen).2.Forward c' := by
      have hc' : (if (rawDoubleQuotedString c prefixLen).1.isOk then
          eatLiteralSuffix (rawDoubleQuotedString c prefixLen).2 else (rawDoubleQuotedString c prefixLen).2) =
              c' :=
        congrArg Prod.snd h
      rw [hn] at hc'
      exact hc' ▸ eatIdentifier_forward _
    obtain ⟨w, hw⟩ := hsuffix.exists_taken
    have hd' : d.rest = v ++ w := by
      refine (List.append_left_inj c'.rest).1 ?_
      rw [← hc, hv, hw, List.append_assoc]
    exact ⟨n, rawDoubleQuotedString_inside (Prod.ext hn rfl) hv hd'⟩

/-- The diagnosis of the text of a raw literal finds nothing wrong exactly if the lexer found its hashes; what
it says of a missing terminator is right, and neither of the two takes a negative difference. -/
theorem validateRawStr_token {makeKind : Option UInt8 → LiteralKind} {letters : List Char}
    (hraw : IsRaw makeKind letters) (htk : tk ∈ scan src)
    (hkind : tk.kind = .literal (makeKind nHashes) suffixStart) :
    ∃ w res, textOf src tk.span = some w ∧ validateRawStr w letters.length = some res ∧
      (res = .ok () ↔ nHashes.isSome) ∧
      (∀ expected found offset, res = .error (.noTerminator expected found offset) →
        Diagnosis w letters.length expected found offset) ∧
      ∀ c : Cursor, rawStringUnvalidatedChecked c letters.length =
          some (rawStringUnvalidated c letters.length) := by
  obtain ⟨c, c', u, htext, hc, hread⟩ := scan_raw hraw htk hkind
  have hvalidate := validateRawStr_append letters u
  have hsame : (∃ n, (rawDoubleQuotedString ⟨letters ++ u, 0, letters, u⟩ letters.length).1 = .ok n) ↔ _ :=
    rawLiteral_ok_iff hread hc rfl
  have hsome : nHashes.isSome ↔ ∃ n, (rawDoubleQuotedString c letters.length).1 = .ok n := by
    have hkind' : makeKind (rawDoubleQuotedString c letters.length).1.toOption = makeKind nHashes :=
      (TokenKind.literal.inj (congrArg Prod.fst hread)).1
    obtain rfl : (rawDoubleQuotedString c letters.length).1.toOption = nHashes := by
      cases hraw with
      | str => exact LiteralKind.rawStr.inj hkind'
      | byteStr => exact LiteralKind.rawByteStr.inj hkind'
    cases (rawDoubleQuotedString c letters.length).1 <;> simp [Except.toOption]
  refine ⟨letters ++ u, _, htext, hvalidate, ?_, fun expected found offset hres => ?_, fun c =>
    rawStringUnvalidatedChecked_eq c _⟩
  · rw [hsome, ← hsame]
    cases (rawDoubleQuotedString ⟨letters ++ u, 0, letters, u⟩ letters.length).1 <;> simp [Except.map]
  · have hletters : byteLen letters = letters.length := by cases hraw <;> rfl
    exact validateRawStr_noTerminator hletters (hres ▸ hvalidate)

end Tokens

/-- `r##"a"#b` might have been meant to end behind its second quote. -/
theorem validateRawStr_token_oneHash :
    let w := "r##\"a\"#b".toList
    validateRawStr w 1 = some (.error (.noTerminator 2 1 (some 6))) ∧ Diagnosis w 1 2 1 (some 6) := by
  intro w
  have htk : (⟨.literal (.rawStr none) 8, ⟨0, 8⟩⟩ : TokenInfo) ∈ @scan asciiLexer w := by decide +kernel
  obtain ⟨w', res, htext, hres, -, hdiagnosis, -⟩ := @validateRawStr_token asciiLexer _ _ _ _ _ _ .str htk rfl
  obtain rfl : w = w' := Option.some.inj ((by decide +kernel : textOf w ⟨0, 8⟩ = some w).symm.trans htext)
  have hvalidate : validateRawStr w 1 = some (.error (.noTerminator 2 1 (some 6))) := by decide +kernel
  exact ⟨hvalidate, hdiagnosis 2 1 (some 6) (Option.some.inj (hres.symm.trans hvalidate))⟩

/-- An open raw string without hashes lacks no hash: as many are expected as are found. -/
theorem validateRawStr_noHashes :
    let w := ['r', '"']
    (⟨.literal (.rawStr none) 2, ⟨0, 2⟩⟩ : TokenInfo) ∈ @scan asciiLexer w ∧ textOf w ⟨0, 2⟩ = some w ∧
      ∃ expected found, validateRawStr w 1 = some (.error (.noTerminator expected found none)) ∧
          ¬found < expected := by
  exact ⟨by decide +kernel, by decide +kernel, 0, 0, by decide +kernel, by decide⟩

end PuralinguaIR
