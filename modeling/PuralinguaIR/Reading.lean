import PuralinguaIR.Effect

/-!
# Programs that read a list of tokens

A `TokenStream` is a list of tokens with a position. A `Spelling` says which tokens of a source spell which
words, and `Reads L φ p ws a` says that the program `p` takes exactly the tokens that spell the words `ws` and
gives `a`, whatever comes after them as long as the next token satisfies `φ`. A grammar is then read by putting
such facts together along the program: one rule for each way the program is put together.

The loops of a reader run until a program succeeds or until it fails; they are given a number of turns, and a
loop that uses more turns than there are tokens left has taken nothing in one of them and never ends.
-/

namespace Reading

open Effect Effect.Prog

variable {ρ τ ω ε α β γ ξ : Type}

/-- The tokens of a source with a position. -/
structure TokenStream (ρ τ : Type) where
  source : ρ
  tokens : List τ
  index : Nat

namespace TokenStream

def rest (st : TokenStream ρ τ) : List τ := st.tokens.drop st.index

def skip (st : TokenStream ρ τ) (n : Nat) : TokenStream ρ τ := { st with index := st.index + n }

def current (st : TokenStream ρ τ) : Option τ := st.tokens[st.index]?

@[simp] theorem skip_source (st : TokenStream ρ τ) (n : Nat) : (st.skip n).source = st.source := rfl

@[simp] theorem skip_zero (st : TokenStream ρ τ) : st.skip 0 = st := rfl

@[simp] theorem skip_skip (st : TokenStream ρ τ) (m n : Nat) : (st.skip m).skip n = st.skip (m + n) := by
  simp [skip, Nat.add_assoc]

@[simp] theorem rest_skip (st : TokenStream ρ τ) (n : Nat) : (st.skip n).rest = st.rest.drop n := by
  simp [rest, skip, List.drop_drop]

theorem current_eq (st : TokenStream ρ τ) : st.current = st.rest.head? := by
  simp [current, rest, List.head?_drop]

theorem rest_skip_of_append {st : TokenStream ρ τ} {ts us : List τ} (h : st.rest = ts ++ us) :
    (st.skip ts.length).rest = us := by
  simp [h]

theorem rest_skip_of_cons {st : TokenStream ρ τ} {t : τ} {ts : List τ} (h : st.rest = t :: ts) :
    (st.skip 1).rest = ts := by
  simp [h]

end TokenStream

/-- A program on token streams. -/
abbrev Reader (ρ τ ε α : Type) := Prog (TokenStream ρ τ) ε α

/-- The next token, if it satisfies `p`; otherwise the error `e`, and the position stays. -/
def takeIf (p : τ → Bool) (e : TokenStream ρ τ → ε) : Reader ρ τ ε τ := fun st =>
  match st.current with
  | some t => if p t then (.ok t, st.skip 1) else (.err (e st), st)
  | none => (.err (e st), st)

/-- `p` reports an error and stays where it is. -/
def Declines (p : Reader ρ τ ε α) (st : TokenStream ρ τ) : Prop := ∃ e, p st = (.err e, st)

theorem takeIf_ok {p : τ → Bool} {e : TokenStream ρ τ → ε} {st : TokenStream ρ τ} {t : τ} {ts : List τ}
    (h : st.rest = t :: ts) (ht : p t) : takeIf p e st = (.ok t, st.skip 1) := by
  simp [takeIf, TokenStream.current_eq, h, ht]

theorem takeIf_declines {p : τ → Bool} {e : TokenStream ρ τ → ε} {st : TokenStream ρ τ}
    (h : ∀ t, st.rest.head? = some t → p t = false) : Declines (takeIf p e) st := by
  refine ⟨e st, ?_⟩
  rw [takeIf, TokenStream.current_eq]
  rcases hr : st.rest.head? with _ | t
  · rfl
  · simp [h t hr]

theorem Declines.bind {p : Reader ρ τ ε α} {st : TokenStream ρ τ} (h : Declines p st) (f : α → Reader ρ τ ε β) :
    Declines (p >>= f) st := by
  obtain ⟨e, h⟩ := h
  exact ⟨e, bind_of_err h⟩

theorem Declines.map {p : Reader ρ τ ε α} {st : TokenStream ρ τ} (h : Declines p st) (f : α → β) :
    Declines (f <$> p) st :=
  h.bind _

theorem Declines.attempt {p : Reader ρ τ ε α} {st : TokenStream ρ τ} (h : Declines p st) :
    Prog.attempt p st = (.ok none, st) := by
  obtain ⟨e, h⟩ := h
  simp [Prog.attempt, h]

theorem attempt_of_ok {σ : Type} {p : Prog σ ε α} {s s' : σ} {a : α} (h : p s = (.ok a, s')) :
    Prog.attempt p s = (.ok (some a), s') := by
  simp [Prog.attempt, h]

/-! ### Loops -/

/-- Run `p` and hand its value to `step`, until `p` fails. -/
def foldWhileOk {σ : Type} (p : Prog σ ε α) (step : β → α → Prog σ ε β) : (turns : Nat) → β → Prog σ ε β
  | 0, _ => diverge
  | turns + 1, b => do
    match ← attempt p with
    | none => pure b
    | some a => foldWhileOk p step turns (← step b a)

/-- Run `step` until `p` succeeds. -/
def foldUntilOk {σ : Type} (p : Prog σ ε α) (step : β → Prog σ ε β) : (turns : Nat) → β → Prog σ ε β
  | 0, _ => diverge
  | turns + 1, b => do
    match ← attempt p with
    | some _ => pure b
    | none => foldUntilOk p step turns (← step b)

/-- A loop with as many turns as it can need. -/
def withTurns (loop : Nat → Reader ρ τ ε α) : Reader ρ τ ε α := fun st => loop (st.rest.length + 1) st

theorem Declines.withTurns {loop : Nat → Reader ρ τ ε α} {st : TokenStream ρ τ}
    (h : ∀ n, Declines (loop (n + 1)) st) : Declines (Reading.withTurns loop) st :=
  h _

theorem foldWhileOk_turn {σ : Type} {p : Prog σ ε α} {step : β → α → Prog σ ε β} {n : Nat} {b c : β} {s t : σ}
    (h : (p >>= step b) s = (.ok c, t)) : foldWhileOk p step (n + 1) b s = foldWhileOk p step n c t := by
  obtain ⟨a, s₁, hp, hs⟩ := bind_eq_ok.1 h
  rw [foldWhileOk, bind_of_ok (attempt_of_ok hp)]
  exact bind_of_ok hs

theorem foldWhileOk_end {p : Reader ρ τ ε α} {step : β → α → Reader ρ τ ε β} {n : Nat} {b : β}
    {st : TokenStream ρ τ} (h : Declines p st) : foldWhileOk p step (n + 1) b st = (.ok b, st) := by
  rw [foldWhileOk, bind_of_ok h.attempt]
  rfl

theorem foldUntilOk_turn {p : Reader ρ τ ε α} {step : β → Reader ρ τ ε β} {n : Nat} {b b' : β}
    {st st' : TokenStream ρ τ} (hp : Declines p st) (h : step b st = (.ok b', st')) :
    foldUntilOk p step (n + 1) b st = foldUntilOk p step n b' st' := by
  rw [foldUntilOk, bind_of_ok hp.attempt]
  exact bind_of_ok h

theorem foldUntilOk_end {σ : Type} {p : Prog σ ε α} {step : β → Prog σ ε β} {n : Nat} {a : α} {b : β}
    {s s' : σ} (h : p s = (.ok a, s')) : foldUntilOk p step (n + 1) b s = (.ok b, s') := by
  rw [foldUntilOk, bind_of_ok (attempt_of_ok h)]
  rfl

/-- What every turn of a loop keeps, the loop keeps. -/
theorem foldWhileOk_invariant {σ : Type} {p : Prog σ ε α} {step : β → α → Prog σ ε β} {I : β → Prop}
    (hstep : ∀ b a s c s', I b → step b a s = (.ok c, s') → I c) {n : Nat} {b c : β} {s s' : σ} (hb : I b)
    (h : foldWhileOk p step n b s = (.ok c, s')) : I c := by
  induction n generalizing b s with
  | zero => cases h
  | succ n ih =>
    obtain ⟨a, s₁, -, hrest⟩ := bind_eq_ok.1 h
    cases a with
    | none =>
      obtain ⟨rfl, -⟩ : b = c ∧ s₁ = s' := by simpa using hrest
      exact hb
    | some a =>
      obtain ⟨b', s₂, hturn, hrest⟩ := bind_eq_ok.1 hrest
      exact ih (hstep b a s₁ b' s₂ hb hturn) hrest

/-- The runs of a list of parts with separators between them: it ends where no further part begins, which may be
after a separator. -/
inductive SeparatedRun (item : Reader ρ τ ε α) (sep : Reader ρ τ ε β) :
    TokenStream ρ τ → List α → TokenStream ρ τ → Prop where
  | none {st} : Declines item st → SeparatedRun item sep st [] st
  | last {st st₁ a} : item st = (.ok a, st₁) → Declines sep st₁ → SeparatedRun item sep st [a] st₁
  | more {st st₁ st₂ st₃ a b as} : item st = (.ok a, st₁) → sep st₁ = (.ok b, st₂) →
      SeparatedRun item sep st₂ as st₃ → SeparatedRun item sep st (a :: as) st₃

/-! ### Reading words -/

/-- The tokens of one source, and the words each of them spells. -/
structure Spelling (ρ τ ω : Type) where
  source : ρ
  spells : ω → τ → Prop

/-- `p` reads the words `ws` as `a` when the token after them satisfies `φ`. -/
def Reads (L : Spelling ρ τ ω) (φ : Option τ → Prop) (p : Reader ρ τ ε α) (ws : List ω) (a : α) : Prop :=
  ∀ (st : TokenStream ρ τ) (ts us : List τ), st.source = L.source → st.rest = ts ++ us →
    List.Forall₂ L.spells ws ts → φ us.head? → p st = (.ok a, st.skip ws.length)

/-- `p` takes the tokens that spell the words `ws`, whatever its value. -/
def Takes (L : Spelling ρ τ ω) (φ : Option τ → Prop) (p : Reader ρ τ ε α) (ws : List ω) : Prop :=
  ∀ (st : TokenStream ρ τ) (ts us : List τ), st.source = L.source → st.rest = ts ++ us →
    List.Forall₂ L.spells ws ts → φ us.head? → ∃ a, p st = (.ok a, st.skip ws.length)

/-- No condition on what follows. -/
def anything : Option τ → Prop := fun _ => True

/-- When the words `ws` come first and then something that satisfies `ψ`, the next token satisfies `φ`. -/
def Leads (L : Spelling ρ τ ω) (φ : Option τ → Prop) : List ω → (Option τ → Prop) → Prop
  | [], ψ => ∀ t, ψ t → φ t
  | w :: _, _ => ∀ t, L.spells w t → φ (some t)

theorem forall₂_append_left {R : ω → τ → Prop} {us vs : List ω} {ts : List τ}
    (h : List.Forall₂ R (us ++ vs) ts) :
    ∃ ts₁ ts₂, List.Forall₂ R us ts₁ ∧ List.Forall₂ R vs ts₂ ∧ ts = ts₁ ++ ts₂ := by
  induction us generalizing ts with
  | nil => exact ⟨[], ts, List.Forall₂.nil, h, rfl⟩
  | cons u us ih =>
    cases h with
    | cons hu hrest =>
      obtain ⟨ts₁, ts₂, h₁, h₂, rfl⟩ := ih hrest
      exact ⟨_ :: ts₁, ts₂, List.Forall₂.cons hu h₁, h₂, rfl⟩

section Rules

variable {L : Spelling ρ τ ω} {φ ψ : Option τ → Prop}

theorem Leads.anything (ws : List ω) : Leads L Reading.anything ws ψ := by
  cases ws <;> exact fun _ _ => trivial

theorem Leads.mono {φ' : Option τ → Prop} {ws : List ω} (h : Leads L φ ws ψ)
    (hf : ∀ t, φ t → φ' t) : Leads L φ' ws ψ := by
  cases ws with
  | nil => exact fun t ht => hf t (h t ht)
  | cons w ws => exact fun t ht => hf _ (h t ht)

theorem Leads.append {us : List ω} (h : Leads L φ us ψ) (hne : us ≠ []) (vs : List ω)
    (ψ' : Option τ → Prop) : Leads L φ (us ++ vs) ψ' := by
  cases us with
  | nil => exact absurd rfl hne
  | cons u us => exact h

theorem Leads.head {ws : List ω} (h : Leads L φ ws ψ) {ts us : List τ}
    (hw : List.Forall₂ L.spells ws ts) (ha : ψ us.head?) : φ (ts ++ us).head? := by
  cases hw with
  | nil => exact h _ ha
  | cons hw _ => exact h _ hw

theorem Reads.mono {p : Reader ρ τ ε α} {ws : List ω} {a : α} (h : Reads L φ p ws a)
    (hf : ∀ t, ψ t → φ t) : Reads L ψ p ws a :=
  fun st ts us hs hr hw ha => h st ts us hs hr hw (hf _ ha)

theorem Reads.any {p : Reader ρ τ ε α} {ws : List ω} {a : α} (h : Reads L anything p ws a) :
    Reads L ψ p ws a :=
  h.mono fun _ _ => trivial

theorem Reads.pure (a : α) : Reads L φ (Pure.pure a : Reader ρ τ ε α) [] a :=
  fun _ _ _ _ _ _ _ => rfl

/-- Reading one part and then the next. -/
theorem Reads.bind {p : Reader ρ τ ε α} {f : α → Reader ρ τ ε β} {w u : List ω} {a : α} {b : β}
    (hp : Reads L φ p w a) (hl : Leads L φ u ψ) (hf : Reads L ψ (f a) u b) :
    Reads L ψ (p >>= f) (w ++ u) b := by
  intro st ts rest hs hr hw ha
  obtain ⟨ts₁, ts₂, hw₁, hw₂, rfl⟩ := forall₂_append_left hw
  rw [List.append_assoc] at hr
  rw [bind_of_ok (hp st ts₁ (ts₂ ++ rest) hs hr hw₁ (hl.head hw₂ ha)), hw₁.length_eq,
    hf (st.skip ts₁.length) ts₂ rest hs (TokenStream.rest_skip_of_append hr) hw₂ ha]
  simp [← hw₁.length_eq]

/-- Reading a part that needs nothing of what follows, and then the next. -/
theorem Reads.then {p : Reader ρ τ ε α} {f : α → Reader ρ τ ε β} {w u : List ω} {a : α} {b : β}
    (hp : Reads L anything p w a) (hf : Reads L ψ (f a) u b) : Reads L ψ (p >>= f) (w ++ u) b :=
  hp.bind (Leads.anything u) hf

/-- Taking one token, whatever takes it, and then reading the rest, which may use the token. -/
theorem Reads.one {p : Reader ρ τ ε α} {g : τ → α} {f : α → Reader ρ τ ε β} {w : ω} {us : List ω} {b : β}
    (hp : ∀ (st : TokenStream ρ τ) t ts, st.rest = t :: ts → L.spells w t → p st = (.ok (g t), st.skip 1))
    (hf : ∀ t, L.spells w t → Reads L ψ (f (g t)) us b) : Reads L ψ (p >>= f) (w :: us) b := by
  intro st ts rest hs hr hws ha
  cases hws with
  | @cons _ t _ ts ht hws =>
    have hr' : st.rest = [t] ++ (ts ++ rest) := hr
    rw [bind_of_ok (hp st t _ hr ht),
      hf t ht (st.skip 1) ts rest hs (TokenStream.rest_skip_of_append hr') hws ha]
    simp [Nat.add_comm]

/-- Reading one token by its kind, and then the rest, which may use the token. -/
theorem Reads.token {p : τ → Bool} {e : TokenStream ρ τ → ε} {f : τ → Reader ρ τ ε β} {w : ω} {us : List ω} {b : β}
    (hw : ∀ t, L.spells w t → p t) (hf : ∀ t, L.spells w t → Reads L ψ (f t) us b) :
    Reads L ψ (takeIf p e >>= f) (w :: us) b :=
  Reads.one (g := id) (fun _ t _ hr ht => takeIf_ok hr (hw t ht)) hf

theorem Reads.last {p : Reader ρ τ ε α} {f : α → Reader ρ τ ε β} {ws : List ω} {a : α} {b : β}
    (hp : Reads L φ p ws a) (hf : Reads L φ (f a) [] b) : Reads L φ (p >>= f) ws b := by
  have := hp.bind (u := []) (fun _ h => h) hf
  simpa using this

/-- An optional part that is there. -/
theorem Reads.attempt {p : Reader ρ τ ε α} {ws : List ω} {a : α} (hp : Reads L φ p ws a) :
    Reads L φ (Prog.attempt p) ws (some a) :=
  fun st ts us hs hr hw hf => attempt_of_ok (hp st ts us hs hr hw hf)

/-- An optional part that is not there. -/
theorem Reads.attempt_none {p : Reader ρ τ ε α} (hp : ∀ st : TokenStream ρ τ, φ st.rest.head? → Declines p st) :
    Reads L φ (Prog.attempt p) [] none := by
  intro st ts us _ hr hw hf
  cases hw
  rw [List.nil_append] at hr
  rw [(hp st (hr ▸ hf)).attempt]
  rfl

/-- A program that is given as many turns as it can need. -/
theorem Reads.withTurns {loop : Nat → Reader ρ τ ε α} {ws : List ω} {a : α}
    (h : ∀ n, ws.length < n → Reads L φ (loop n) ws a) : Reads L φ (Reading.withTurns loop) ws a := by
  intro st ts us hs hr hw hf
  refine h _ ?_ st ts us hs hr hw hf
  rw [hw.length_eq, hr, List.length_append]
  omega

private theorem foldWhileOk_reads {p : Reader ρ τ ε α} {q : β → α → Reader ρ τ ε β} {W : ξ → List ω}
    {g : β → ξ → β} {xs : List ξ} (hitem : ∀ x ∈ xs, ∀ b, Reads L φ (p >>= q b) (W x) (g b x))
    (hlead : ∀ x ∈ xs, Leads L φ (W x) ψ) (hne : ∀ x ∈ xs, W x ≠ [])
    (hlast : ∀ t, ψ t → φ t)
    (hend : ∀ st : TokenStream ρ τ, ψ st.rest.head? → Declines p st) {n : Nat} (hn : xs.length < n) (b : β) :
    Reads L ψ (foldWhileOk p q n b) (xs.flatMap W) (xs.foldl g b) := by
  induction xs generalizing n b with
  | nil =>
    intro st ts us hs hr hw ha
    obtain ⟨n, rfl⟩ : ∃ m, n = m + 1 := ⟨n - 1, by omega⟩
    cases hw
    rw [List.nil_append] at hr
    rw [foldWhileOk_end (hend st (hr ▸ ha))]
    rfl
  | cons x xs ih =>
    intro st ts us hs hr hw ha
    obtain ⟨n, rfl⟩ : ∃ m, n = m + 1 := ⟨n - 1, by omega⟩
    rw [List.flatMap_cons] at hw
    obtain ⟨ts₁, ts₂, hw₁, hw₂, rfl⟩ := forall₂_append_left hw
    rw [List.append_assoc] at hr
    -- the next part, or the end of the loop, begins with a token this part may be followed by
    have hrest : Leads L φ (xs.flatMap W) ψ := by
      cases xs with
      | nil => exact hlast
      | cons y ys =>
        rw [List.flatMap_cons]
        exact (hlead y (by simp)).append (hne y (by simp)) _ _
    have hx := hitem x (by simp) b st ts₁ (ts₂ ++ us) hs hr hw₁ (hrest.head hw₂ ha)
    have hih := ih (fun y hy => hitem y (by simp [hy])) (fun y hy => hlead y (by simp [hy]))
      (fun y hy => hne y (by simp [hy])) (n := n) (by simpa using hn) (g b x)
    rw [foldWhileOk_turn hx, hw₁.length_eq,
      hih (st.skip ts₁.length) ts₂ us hs (TokenStream.rest_skip_of_append hr) hw₂ ha]
    simp [← hw₁.length_eq]

private theorem length_le_flatMap {W : ξ → List ω} {xs : List ξ} (hne : ∀ x ∈ xs, W x ≠ []) :
    xs.length ≤ (xs.flatMap W).length := by
  induction xs with
  | nil => simp
  | cons x xs ih =>
    have h₁ := List.length_pos_iff.2 (hne x (by simp))
    have h₂ := ih fun y hy => hne y (by simp [hy])
    simp only [List.flatMap_cons, List.length_append, List.length_cons]
    omega

/-- A loop over parts, each of which begins with a token the loop goes on at, ends at a token it stops at. -/
theorem Reads.foldWhileOk {p : Reader ρ τ ε α} {q : β → α → Reader ρ τ ε β} {W : ξ → List ω}
    {g : β → ξ → β} {X : List ξ} (hitem : ∀ x ∈ X, ∀ b, Reads L φ (p >>= q b) (W x) (g b x))
    (hlead : ∀ x ∈ X, Leads L φ (W x) ψ) (hne : ∀ x ∈ X, W x ≠ [])
    (hlast : ∀ t, ψ t → φ t)
    (hend : ∀ st : TokenStream ρ τ, ψ st.rest.head? → Declines p st) (b : β) :
    Reads L ψ (Reading.withTurns fun n => Reading.foldWhileOk p q n b) (X.flatMap W) (X.foldl g b) :=
  Reads.withTurns fun _ hn =>
    foldWhileOk_reads hitem hlead hne hlast hend (Nat.lt_of_le_of_lt (length_le_flatMap hne) hn) b

private theorem foldUntilOk_reads {p : Reader ρ τ ε α} {q : β → Reader ρ τ ε β} {W : ξ → List ω}
    {g : β → ξ → β} {inv : β → List ξ → Prop} {xs : List ξ} {ws : List ω}
    (hitem : ∀ b x xs, inv b (x :: xs) → Reads L φ (q b) (W x) (g b x) ∧ inv (g b x) xs)
    (hlead : ∀ x ∈ xs, Leads L φ (W x) ψ) (hne : ∀ x ∈ xs, W x ≠ [])
    (hgo : ∀ x ∈ xs, Leads L (fun t => ∀ st : TokenStream ρ τ, st.rest.head? = t → Declines p st) (W x) ψ)
    (hlast : Leads L φ ws ψ)
    (hend : Takes L ψ p ws) {n : Nat} (hn : xs.length < n) (b : β) (hinv : inv b xs) :
    Reads L ψ (foldUntilOk p q n b) (xs.flatMap W ++ ws) (xs.foldl g b) := by
  induction xs generalizing n b with
  | nil =>
    intro st ts us hs hr hw ha
    obtain ⟨n, rfl⟩ : ∃ m, n = m + 1 := ⟨n - 1, by omega⟩
    obtain ⟨a, hp⟩ := hend st ts us hs hr hw ha
    rw [foldUntilOk_end hp]
    simp
  | cons x xs ih =>
    intro st ts us hs hr hw ha
    obtain ⟨n, rfl⟩ : ∃ m, n = m + 1 := ⟨n - 1, by omega⟩
    rw [List.flatMap_cons, List.append_assoc] at hw
    -- the loop goes on, since the end does not begin with the first word of a part
    have hdecl : Declines p st :=
      ((hgo x (by simp)).append (hne x (by simp)) (xs.flatMap W ++ ws) ψ).head hw ha st (hr ▸ rfl)
    obtain ⟨ts₁, ts₂, hw₁, hw₂, rfl⟩ := forall₂_append_left hw
    rw [List.append_assoc] at hr
    have hrest : Leads L φ (xs.flatMap W ++ ws) ψ := by
      cases xs with
      | nil => exact hlast
      | cons y ys =>
        rw [List.flatMap_cons, List.append_assoc]
        exact (hlead y (by simp)).append (hne y (by simp)) _ _
    obtain ⟨hx, hinv⟩ := hitem b x xs hinv
    have hx := hx st ts₁ (ts₂ ++ us) hs hr hw₁ (hrest.head hw₂ ha)
    have hih := ih (fun y hy => hlead y (by simp [hy])) (fun y hy => hne y (by simp [hy]))
      (fun y hy => hgo y (by simp [hy])) (n := n) (by simpa using hn) (g b x) hinv
    rw [foldUntilOk_turn hdecl hx, hw₁.length_eq,
      hih (st.skip ts₁.length) ts₂ us hs (TokenStream.rest_skip_of_append hr) hw₂ ha]
    simp [← hw₁.length_eq]

/-- A loop over parts, at the first token of each of which `p` declines, ends with what `p` reads; `inv` relates
what has been collected to the parts that are left. -/
theorem Reads.foldUntilOk {p : Reader ρ τ ε α} {q : β → Reader ρ τ ε β} {W : ξ → List ω}
    {g : β → ξ → β} (inv : β → List ξ → Prop) {X : List ξ} {ws : List ω}
    (hitem : ∀ b x xs, inv b (x :: xs) → Reads L φ (q b) (W x) (g b x) ∧ inv (g b x) xs)
    (hlead : ∀ x ∈ X, Leads L φ (W x) ψ) (hne : ∀ x ∈ X, W x ≠ [])
    (hgo : ∀ x ∈ X, Leads L (fun t => ∀ st : TokenStream ρ τ, st.rest.head? = t → Declines p st) (W x) ψ)
    (hlast : Leads L φ ws ψ) (hend : Takes L ψ p ws) (b : β) (hinv : inv b X) :
    Reads L ψ (Reading.withTurns fun n => Reading.foldUntilOk p q n b) (X.flatMap W ++ ws)
      (X.foldl g b) := by
  refine Reads.withTurns fun n hn => foldUntilOk_reads hitem hlead hne hgo hlast hend ?_ b hinv
  have := length_le_flatMap hne
  rw [List.length_append] at hn
  omega

/-! ### Lists with separators -/

/-- The words of a list with the word `s` between its parts, and after the last one if `trailing`. -/
def separated (s : ω) (W : ξ → List ω) (trailing : Bool) : List ξ → List ω
  | [] => []
  | [x] => W x ++ if trailing then [s] else []
  | x :: y :: xs => W x ++ s :: separated s W trailing (y :: xs)

theorem length_le_separated (s : ω) {W : ξ → List ω} (trailing : Bool) {xs : List ξ} (hne : ∀ x ∈ xs, W x ≠ []) :
    xs.length ≤ (separated s W trailing xs).length := by
  induction xs with
  | nil => simp
  | cons x xs ih =>
    have h₁ := List.length_pos_iff.2 (hne x (by simp))
    have h₂ := ih fun y hy => hne y (by simp [hy])
    cases xs with
    | nil =>
      simp only [separated, List.length_append, List.length_cons, List.length_nil]
      omega
    | cons y ys =>
      simp only [separated, List.length_append, List.length_cons] at h₂ ⊢
      omega

theorem length_words_le_separated (s : ω) {W : ξ → List ω} (trailing : Bool) {xs : List ξ} {x : ξ} (h : x ∈ xs) :
    (W x).length ≤ (separated s W trailing xs).length := by
  induction xs with
  | nil => cases h
  | cons y ys ih =>
    cases ys with
    | nil =>
      obtain rfl : x = y := by simpa using h
      simp [separated]
    | cons z zs =>
      simp only [separated, List.length_append, List.length_cons]
      rcases List.mem_cons.1 h with rfl | h
      · omega
      · have := ih h
        omega

/-- What `separated` spells is a run of the parts. -/
theorem SeparatedRun.of_reads {item : Reader ρ τ ε α} {sep : Reader ρ τ ε β} {s : ω} {W : α → List ω}
    {trailing : Bool} {xs : List α} (hitem : ∀ x ∈ xs, Reads L φ item (W x) x)
    (hsep : ∀ (st : TokenStream ρ τ) t ts, st.rest = t :: ts → L.spells s t → ∃ b, sep st = (.ok b, st.skip 1))
    (hnext : ∀ t, L.spells s t → φ (some t)) (hlast : ∀ t, ψ t → φ t)
    (hend : ∀ st : TokenStream ρ τ, ψ st.rest.head? → Declines item st ∧ Declines sep st)
    {st : TokenStream ρ τ} {ts us : List τ} (hs : st.source = L.source) (hr : st.rest = ts ++ us)
    (hw : List.Forall₂ L.spells (separated s W trailing xs) ts) (ha : ψ us.head?) :
    SeparatedRun item sep st xs (st.skip ts.length) := by
  induction xs generalizing st ts with
  | nil =>
    cases hw
    exact SeparatedRun.none (hend st (by rw [hr]; exact ha)).1
  | cons x xs ih =>
    have hx := hitem x (by simp)
    cases xs with
    | nil =>
      obtain ⟨ts₁, ts₂, hw₁, hw₂, rfl⟩ := forall₂_append_left hw
      rw [List.append_assoc] at hr
      cases trailing with
      | false =>
        cases hw₂
        rw [List.nil_append] at hr
        have h₁ := hx st ts₁ us hs hr hw₁ (hlast _ ha)
        rw [hw₁.length_eq] at h₁
        rw [List.append_nil]
        refine SeparatedRun.last h₁ (hend _ ?_).2
        rw [TokenStream.rest_skip_of_append hr]
        exact ha
      | true =>
        cases hw₂ with
        | @cons _ t _ _ ht hnil =>
          cases hnil
          have h₁ := hx st ts₁ ([t] ++ us) hs hr hw₁ (hnext t ht)
          rw [hw₁.length_eq] at h₁
          have hr₁ := TokenStream.rest_skip_of_append hr
          obtain ⟨b, hb⟩ := hsep (st.skip ts₁.length) t us hr₁ ht
          have hr₂ : ((st.skip ts₁.length).skip 1).rest = us := TokenStream.rest_skip_of_cons hr₁
          rw [List.length_append, ← TokenStream.skip_skip]
          exact SeparatedRun.more h₁ hb (SeparatedRun.none (hend _ (by rw [hr₂]; exact ha)).1)
    | cons y ys =>
      obtain ⟨ts₁, ts₂, hw₁, hw₂, rfl⟩ := forall₂_append_left hw
      rw [List.append_assoc] at hr
      cases hw₂ with
      | @cons _ t _ ts₂ ht hw₂ =>
        have h₁ := hx st ts₁ (t :: ts₂ ++ us) hs hr hw₁ (hnext t ht)
        rw [hw₁.length_eq] at h₁
        have hr₁ := TokenStream.rest_skip_of_append hr
        obtain ⟨b, hb⟩ := hsep (st.skip ts₁.length) t (ts₂ ++ us) hr₁ ht
        have hr₂ : ((st.skip ts₁.length).skip 1).rest = ts₂ ++ us :=
          TokenStream.rest_skip_of_cons hr₁
        have hs₂ : ((st.skip ts₁.length).skip 1).source = L.source := hs
        have hrest := ih (fun z hz => hitem z (by simp [hz])) hs₂ hr₂ hw₂
        have hlen : (ts₁ ++ t :: ts₂).length = ts₁.length + 1 + ts₂.length := by
          simp only [List.length_append, List.length_cons]
          omega
        rw [hlen, ← TokenStream.skip_skip, ← TokenStream.skip_skip]
        exact SeparatedRun.more h₁ hb hrest

end Rules

end Reading
