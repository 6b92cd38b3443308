import PuralinguaIR.LexRoundTrip
import PuralinguaIR.Tiling

/-!
# Nested comments

The grammar of block comments, and the loop that reads them with a counter: the loop finds the end of a comment
exactly where the grammar has it, at every depth (`blockComment_nested`).
-/

namespace PuralinguaIR

/-! ### The grammar -/

/-- What stands between the marks of a comment: comments, and single characters at which neither `/*` nor `*/`
starts. -/
inductive CommentBody : List Char → Prop where
  | nil : CommentBody []
  | comment {body cs} : CommentBody body → CommentBody cs → CommentBody ('/' :: '*' :: (body ++ '*' :: '/' :: cs))
  | char {c cs} : ¬['/', '*'] <+: c :: (cs ++ ['*', '/']) → ¬['*', '/'] <+: c :: (cs ++ ['*', '/']) →
      CommentBody cs → CommentBody (c :: cs)

/-- The text is one block comment. -/
def IsComment (cs : List Char) : Prop := ∃ body, CommentBody body ∧ cs = '/' :: '*' :: (body ++ ['*', '/'])

private theorem pair_prefix_iff {a b c : Char} {cs : List Char} :
    [a, b] <+: c :: cs ↔ c = a ∧ cs.head? = some b := by
  rw [List.cons_prefix_cons, eq_comm]
  refine and_congr_right fun _ => ?_
  cases cs with
  | nil => simp
  | cons d cs => simp [List.cons_prefix_cons, eq_comm]

/-- What stands behind a closing mark does not change the first character. -/
private theorem head?_mark (cs rest : List Char) :
    (cs ++ '*' :: '/' :: rest).head? = (cs ++ ['*', '/']).head? := by
  cases cs <;> rfl

/-! ### The counter -/

/-- The loop goes through the inside of a comment with its depth unchanged. -/
theorem blockCommentLoop_body {depth : Nat} (hdepth : 0 < depth) {body : List Char} (h : CommentBody body)
    (rest : List Char) :
    blockCommentLoop depth (body ++ '*' :: '/' :: rest) = blockCommentLoop depth ('*' :: '/' :: rest) := by
  induction h generalizing depth rest with
  | nil => rfl
  | @comment body cs _ _ ihbody ihcs =>
    calc blockCommentLoop depth ('/' :: '*' :: (body ++ '*' :: '/' :: cs) ++ '*' :: '/' :: rest)
      _ = blockCommentLoop (depth + 1) (body ++ '*' :: '/' :: (cs ++ '*' :: '/' :: rest)) := by
        simp [blockCommentLoop]
      _ = blockCommentLoop (depth + 1) ('*' :: '/' :: (cs ++ '*' :: '/' :: rest)) := ihbody (Nat.succ_pos _) _
      _ = blockCommentLoop depth (cs ++ '*' :: '/' :: rest) := by
        rw [blockCommentLoop, Nat.add_sub_cancel, if_neg (Nat.ne_of_gt hdepth)]
      _ = blockCommentLoop depth ('*' :: '/' :: rest) := ihcs hdepth _
  | @char c cs hopen hclose _ ih =>
    rw [pair_prefix_iff, not_and, ← head?_mark cs rest] at hopen hclose
    rw [List.cons_append, blockCommentLoop_plain hopen hclose, ih hdepth]

/-- Where the loop comes to depth 0, it has gone through the inside of the comment it began in, and then, if this
comment stands in others, through the rest of those. -/
theorem exists_body_of_blockCommentLoop {depth : Nat} {cs rest : List Char}
    (h : blockCommentLoop (depth + 1) cs = (0, rest)) :
    ∃ body cs', CommentBody body ∧ cs = body ++ '*' :: '/' :: cs' ∧ (depth = 0 → cs' = rest) ∧
      (depth ≠ 0 → blockCommentLoop depth cs' = (0, rest)) := by
  induction hn : cs.length using Nat.strongRecOn generalizing depth cs with
  | ind n ih =>
    subst hn
    match cs with
    | [] =>
      cases h
    | c :: cs =>
      by_cases hopen : ['/', '*'] <+: c :: cs
      · obtain ⟨cs, heq⟩ := hopen
        simp only [List.cons_append, List.nil_append, List.cons.injEq] at heq
        obtain ⟨rfl, rfl⟩ := heq
        have hinner : blockCommentLoop (depth + 1 + 1) cs = (0, rest) := h
        have hshort : cs.length < ('/' :: '*' :: cs).length := by
          rw [List.length_cons, List.length_cons]
          omega
        obtain ⟨inner, cs₁, hbody, rfl, -, hrest⟩ := ih cs.length hshort hinner rfl
        -- the loop goes on behind the inner comment
        obtain ⟨body, cs', hbody', rfl, hend⟩ := ih cs₁.length (by simp; omega) (hrest (Nat.succ_ne_zero _)) rfl
        exact ⟨_, cs', .comment hbody hbody', by simp, hend⟩
      by_cases hclose : ['*', '/'] <+: c :: cs
      · obtain ⟨cs, heq⟩ := hclose
        simp only [List.cons_append, List.nil_append, List.cons.injEq] at heq
        obtain ⟨rfl, rfl⟩ := heq
        refine ⟨[], cs, .nil, rfl, fun hdepth => ?_, fun hdepth => ?_⟩
        · subst hdepth
          exact (Prod.mk.inj h).2
        · rwa [blockCommentLoop, Nat.add_sub_cancel, if_neg hdepth] at h
      · have hplain : blockCommentLoop (depth + 1) (c :: cs) = blockCommentLoop (depth + 1) cs :=
          blockCommentLoop_plain (not_and.1 (pair_prefix_iff.not.1 hopen))
            (not_and.1 (pair_prefix_iff.not.1 hclose))
        obtain ⟨body, cs', hbody, rfl, hend⟩ := ih cs.length (by simp) (hplain ▸ h) rfl
        have hpair {a b : Char} (hab : ¬[a, b] <+: c :: (body ++ '*' :: '/' :: cs')) :
            ¬[a, b] <+: c :: (body ++ ['*', '/']) := by
          rwa [pair_prefix_iff, ← head?_mark body cs', ← pair_prefix_iff]
        exact ⟨c :: body, cs', .char (hpair hopen) (hpair hclose) hbody, rfl, hend⟩

/-- The loop stops early only where it closes the last comment. -/
theorem blockCommentLoop_open {depth depth' : Nat} {cs rest : List Char}
    (h : blockCommentLoop depth cs = (depth', rest)) (hdepth : depth' ≠ 0) : rest = [] := by
  fun_induction blockCommentLoop depth cs with
  | case1 => exact (Prod.mk.inj h).2.symm
  | case2 depth cs ih => exact ih h
  | case3 depth cs hzero => exact absurd (Prod.mk.inj h).1.symm hdepth
  | case4 depth cs hzero ih => exact ih h
  | case5 depth c cs _ _ ih => exact ih h

/-- The loop closes the comment it is in exactly if the text goes on with the inside of a comment and its end. -/
theorem blockCommentLoop_closes_iff {cs rest : List Char} :
    blockCommentLoop 1 cs = (0, rest) ↔ ∃ body, CommentBody body ∧ cs = body ++ '*' :: '/' :: rest := by
  constructor
  · intro h
    obtain ⟨body, cs', hbody, hcs, hrest, -⟩ := exists_body_of_blockCommentLoop h
    exact ⟨body, hbody, hrest rfl ▸ hcs⟩
  · rintro ⟨body, hbody, rfl⟩
    exact blockCommentLoop_body Nat.one_pos hbody rest

/-! ### Comments in a source -/

/-- A comment is terminated exactly if the text begins with a comment of the grammar. There is then only one such
beginning, and this is what is taken; otherwise everything is taken. -/
theorem blockComment_nested (src : List Char) (pos : Nat) (cs : List Char) :
    let text := '/' :: '*' :: cs
    ∃ style terminated c', blockComment ⟨src, pos, ['/'], '*' :: cs⟩ = (.block style terminated, c') ∧
      (terminated = true ↔ ∃ u, u <+: text ∧ IsComment u) ∧
      (∀ u, u <+: text → IsComment u → u = c'.eaten ∧ text = u ++ c'.rest) ∧
      (terminated = false → c'.eaten = text ∧ c'.rest = []) := by
  intro text
  let c : Cursor := ⟨src, pos, ['/', '*'], cs⟩
  generalize hloop : blockCommentLoop 1 cs = r
  obtain ⟨depth, rest⟩ := r
  obtain ⟨style, hrun⟩ : ∃ style, blockComment ⟨src, pos, ['/'], '*' :: cs⟩ =
      (.block style (depth == 0), c.skipTo rest) := by
    have hbump : (⟨src, pos, ['/'], '*' :: cs⟩ : Cursor).bump = c :=
      Cursor.skipTo_append _ (show _ = ['*'] ++ cs from rfl)
    rw [blockComment, hbump]
    simp only [c, hloop]
    exact ⟨_, rfl⟩
  have hcomment {u : List Char} (hu : u <+: text) (hc : IsComment u) :
      depth = 0 ∧ u = (c.skipTo rest).eaten ∧ text = u ++ rest := by
    obtain ⟨body, hbody, rfl⟩ := hc
    obtain ⟨cs', hcs'⟩ := hu
    have hcs : cs = (body ++ ['*', '/']) ++ cs' := by simpa [text] using hcs'.symm
    have hend : blockCommentLoop 1 cs = (0, cs') :=
      blockCommentLoop_closes_iff.2 ⟨body, hbody, by rw [hcs, List.append_assoc]; rfl⟩
    obtain ⟨rfl, rfl⟩ := Prod.mk.inj (hloop.symm.trans hend)
    exact ⟨rfl, by rw [c.skipTo_append hcs]; rfl, hcs'.symm⟩
  refine ⟨style, _, _, hrun, ⟨fun hterminated => ?_, ?_⟩, fun u hu hc => (hcomment hu hc).2, fun hterminated => ?_⟩
  · obtain rfl : depth = 0 := by simpa using hterminated
    obtain ⟨body, hbody, hcs⟩ := blockCommentLoop_closes_iff.1 hloop
    exact ⟨_, ⟨rest, by simp [text, hcs]⟩, body, hbody, rfl⟩
  · rintro ⟨u, hu, hc⟩
    simp [(hcomment hu hc).1]
  · obtain rfl : rest = [] := blockCommentLoop_open hloop (by simpa using hterminated)
    exact ⟨by rw [c.skipTo_append (List.append_nil cs).symm]; rfl, rfl⟩

end PuralinguaIR
