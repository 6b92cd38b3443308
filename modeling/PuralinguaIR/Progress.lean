import PuralinguaIR.Reading

/-!
# Readers that end

`Breaks p s` says that the run of `p` from `s` ends with neither a value nor an error, but with a panic or not
at all. A sequence breaks where one of its parts does (`breaks_bind`). A reader moves forward (`Keeps Forward`),
and one that takes a token whenever it succeeds (`Consumes`) can be repeated only as often as there are tokens:
a loop over such readers breaks exactly when one of the turns it reaches does (`breaks_foldWhileOk`,
`breaks_foldUntilOk`).
-/

namespace Effect.Prog

variable {σ ε α β : Type}

/-! ### Runs that break -/

/-- The run of `p` from `s` ends with a panic, or does not end. -/
def Breaks (p : Prog σ ε α) (s : σ) : Prop := (p s).1 = .panic ∨ (p s).1 = .diverge

/-- After a value of `p`, the condition `P` holds of it and the state it leaves. -/
def After (p : Prog σ ε α) (s : σ) (P : α → σ → Prop) : Prop := ∃ a s', p s = (.ok a, s') ∧ P a s'

theorem not_breaks_iff {p : Prog σ ε α} {s : σ} :
    ¬Breaks p s ↔ (∃ a s', p s = (.ok a, s')) ∨ ∃ e s', p s = (.err e, s') := by
  rw [Breaks]
  rcases hp : p s with ⟨_ | _ | _ | _, s'⟩ <;> simp

theorem not_breaks_of_ok {p : Prog σ ε α} {s s' : σ} {a : α} (h : p s = (.ok a, s')) : ¬Breaks p s :=
  not_breaks_iff.2 (.inl ⟨a, s', h⟩)

theorem not_breaks_of_err {p : Prog σ ε α} {s s' : σ} {e : ε} (h : p s = (.err e, s')) : ¬Breaks p s :=
  not_breaks_iff.2 (.inr ⟨e, s', h⟩)

theorem breaks_of_panic {p : Prog σ ε α} {s : σ} (h : (p s).1 = .panic) : Breaks p s := .inl h

@[simp] theorem not_breaks_pure (a : α) (s : σ) : ¬Breaks (pure a : Prog σ ε α) s := not_breaks_of_ok rfl

@[simp] theorem not_breaks_fail (e : ε) (s : σ) : ¬Breaks (fail e : Prog σ ε α) s := not_breaks_of_err rfl

@[simp] theorem breaks_panic (s : σ) : Breaks (panic : Prog σ ε α) s := breaks_of_panic rfl

@[simp] theorem not_breaks_modify (f : σ → σ) (s : σ) :
    ¬Breaks (modify f : Prog σ ε Unit) s := not_breaks_of_ok rfl

@[simp] theorem not_breaks_okOr (e : ε) (o : Option α) (s : σ) : ¬Breaks (okOr e o : Prog σ ε α) s := by
  cases o with
  | none => exact not_breaks_of_err rfl
  | some a => exact not_breaks_of_ok rfl

@[simp] theorem breaks_unwrap {o : Option α} {s : σ} : Breaks (unwrap o : Prog σ ε α) s ↔ o = none := by
  cases o with
  | none => exact iff_of_true (breaks_of_panic rfl) rfl
  | some a => exact iff_of_false (not_breaks_of_ok rfl) (by simp)

theorem After.congr {p : Prog σ ε α} {s : σ} {P Q : α → σ → Prop}
    (h : ∀ a s', p s = (.ok a, s') → (P a s' ↔ Q a s')) : After p s P ↔ After p s Q :=
  ⟨fun ⟨a, s', hp, hP⟩ => ⟨a, s', hp, (h a s' hp).1 hP⟩, fun ⟨a, s', hp, hQ⟩ => ⟨a, s', hp, (h a s' hp).2 hQ⟩⟩

/-- A sequence breaks in its first part, or after it. -/
theorem breaks_bind {p : Prog σ ε α} {f : α → Prog σ ε β} {s : σ} :
    Breaks (p >>= f) s ↔ Breaks p s ∨ After p s fun a s' => Breaks (f a) s' := by
  unfold Breaks After
  rw [bind_run]
  rcases hp : p s with ⟨_ | _ | _ | _, s'⟩ <;> simp

theorem breaks_bind_of_ok {p : Prog σ ε α} {f : α → Prog σ ε β} {s s' : σ} {a : α} (h : p s = (.ok a, s')) :
    Breaks (p >>= f) s ↔ Breaks (f a) s' := by
  rw [Breaks, bind_of_ok h, Breaks]

/-- A sequence whose second part is harmless breaks in its first part. -/
theorem breaks_bind_left {p : Prog σ ε α} {f : α → Prog σ ε β} {s : σ}
    (hf : ∀ a s', p s = (.ok a, s') → ¬Breaks (f a) s') : Breaks (p >>= f) s ↔ Breaks p s := by
  rw [breaks_bind, or_iff_left]
  rintro ⟨a, s', ha, h⟩
  exact hf a s' ha h

/-- A sequence whose first part is harmless breaks after it. -/
theorem breaks_bind_right {p : Prog σ ε α} {f : α → Prog σ ε β} {s : σ} (hp : ¬Breaks p s) :
    Breaks (p >>= f) s ↔ After p s fun a s' => Breaks (f a) s' := by
  rw [breaks_bind, or_iff_right hp]

theorem breaks_map {p : Prog σ ε α} {f : α → β} {s : σ} : Breaks (f <$> p) s ↔ Breaks p s := by
  rw [map_eq_pure_bind, breaks_bind]
  simp [After]

theorem breaks_attempt {p : Prog σ ε α} {s : σ} : Breaks (attempt p) s ↔ Breaks p s := by
  unfold Breaks attempt
  rcases p s with ⟨_ | _ | _ | _, s'⟩ <;> simp

/-- What an optional part gives. -/
theorem attempt_eq_ok {p : Prog σ ε α} {s s' : σ} {o : Option α} :
    attempt p s = (.ok o, s') ↔ (∃ a, o = some a ∧ p s = (.ok a, s')) ∨ o = none ∧ ∃ e, p s = (.err e, s') := by
  unfold attempt
  rcases hp : p s with ⟨_ | _ | _ | _, s''⟩ <;> simp [eq_comm]

end Effect.Prog

namespace Reading

open Effect Effect.Prog

variable {ρ τ ε α β : Type}

/-! ### Moving forward -/

/-- The position has not gone back. -/
structure Forward (st st' : TokenStream ρ τ) : Prop where
  source : st'.source = st.source
  tokens : st'.tokens = st.tokens
  index_le : st.index ≤ st'.index

instance : Std.Refl (Forward (ρ := ρ) (τ := τ)) := ⟨fun _ => ⟨rfl, rfl, Nat.le_refl _⟩⟩

instance : IsTrans (TokenStream ρ τ) Forward :=
  ⟨fun _ _ _ h h' => ⟨h'.source.trans h.source, h'.tokens.trans h.tokens, Nat.le_trans h.index_le h'.index_le⟩⟩

namespace Forward

theorem refl (st : TokenStream ρ τ) : Forward st st := Std.Refl.refl st

theorem trans {st st' st'' : TokenStream ρ τ} (h : Forward st st') (h' : Forward st' st'') : Forward st st'' :=
  IsTrans.trans _ _ _ h h'

/-- Going back to where it began. -/
theorem reset {st st' : TokenStream ρ τ} (h : Forward st st') : { st' with index := st.index } = st := by
  cases st
  cases st'
  simpa using ⟨h.source, h.tokens⟩

theorem skip (st : TokenStream ρ τ) (n : Nat) : Forward st (st.skip n) := ⟨rfl, rfl, Nat.le_add_right _ _⟩

theorem length_rest_le {st st' : TokenStream ρ τ} (h : Forward st st') : st'.rest.length ≤ st.rest.length := by
  simp only [TokenStream.rest, List.length_drop, h.tokens]
  exact Nat.sub_le_sub_left h.index_le _

end Forward

@[grind ←]
theorem takeIf_forward (p : τ → Bool) (e : TokenStream ρ τ → ε) : Keeps Forward (takeIf p e) := by
  intro st
  unfold takeIf
  split
  · split
    · exact .skip st 1
    · exact .refl st
  · exact .refl st

@[grind ←]
theorem attempt_forward {p : Reader ρ τ ε α} (hp : Keeps Forward p) : Keeps Forward (attempt p) := by
  intro st
  have h := hp st
  unfold attempt
  rcases hps : p st with ⟨_ | _ | _ | _, s'⟩ <;> (rw [hps] at h; exact h)

theorem foldWhileOk_forward {p : Reader ρ τ ε α} {step : β → α → Reader ρ τ ε β} (hp : Keeps Forward p)
    (hstep : ∀ b a, Keeps Forward (step b a)) (n : Nat) (b : β) : Keeps Forward (foldWhileOk p step n b) := by
  induction n generalizing b with
  | zero => exact fun st => .refl st
  | succ n ih =>
    refine (attempt_forward hp).bind fun o => ?_
    cases o with
    | none => exact Keeps.pure _
    | some a => exact (hstep b a).bind fun c => ih c

theorem foldUntilOk_forward {p : Reader ρ τ ε α} {step : β → Reader ρ τ ε β} (hp : Keeps Forward p)
    (hstep : ∀ b, Keeps Forward (step b)) (n : Nat) (b : β) : Keeps Forward (foldUntilOk p step n b) := by
  induction n generalizing b with
  | zero => exact fun st => .refl st
  | succ n ih =>
    refine (attempt_forward hp).bind fun o => ?_
    cases o with
    | none => exact (hstep b).bind fun c => ih c
    | some a => exact Keeps.pure _

@[grind ←]
theorem withTurns_forward {loop : Nat → Reader ρ τ ε α} (h : ∀ n, Keeps Forward (loop n)) :
    Keeps Forward (withTurns loop) :=
  fun st => h _ st

/-! ### Taking tokens -/

/-- Every successful run of `p` takes a token. -/
def Consumes (p : Reader ρ τ ε α) : Prop :=
  ∀ st a st', p st = (.ok a, st') → st'.rest.length < st.rest.length

theorem takeIf_eq_ok {p : τ → Bool} {e : TokenStream ρ τ → ε} {st st' : TokenStream ρ τ} {t : τ} :
    takeIf p e st = (.ok t, st') ↔ st.current = some t ∧ p t ∧ st' = st.skip 1 := by
  unfold takeIf
  cases hc : st.current with
  | none => simp
  | some t' =>
    dsimp only
    split
    · rename_i hp
      simp only [Prod.mk.injEq, Outcome.ok.injEq, Option.some.injEq]
      constructor
      · rintro ⟨rfl, rfl⟩
        exact ⟨rfl, hp, rfl⟩
      · rintro ⟨rfl, -, rfl⟩
        exact ⟨rfl, rfl⟩
    · rename_i hp
      simp only [Prod.mk.injEq, reduceCtorEq, false_and, Option.some.injEq, false_iff]
      rintro ⟨rfl, hp', -⟩
      exact hp hp'

theorem takeIf_eq_err {p : τ → Bool} {e : TokenStream ρ τ → ε} {st st' : TokenStream ρ τ} {e' : ε}
    (h : takeIf p e st = (.err e', st')) : st' = st ∧ ∀ t, st.current = some t → p t = false := by
  unfold takeIf at h
  cases hc : st.current with
  | none =>
    rw [hc] at h
    exact ⟨(congrArg Prod.snd h).symm, by simp⟩
  | some t =>
    rw [hc] at h
    dsimp only at h
    split at h
    · cases h
    · rename_i hp
      refine ⟨(congrArg Prod.snd h).symm, fun t' ht' => ?_⟩
      obtain rfl : t = t' := Option.some.inj ht'
      exact Bool.eq_false_iff.2 hp

/-- The next token is taken, or the position stays. -/
theorem takeIf_cases (p : τ → Bool) (e : TokenStream ρ τ → ε) (st : TokenStream ρ τ) :
    (∃ t, takeIf p e st = (.ok t, st.skip 1)) ∨ Declines (takeIf p e) st := by
  by_cases h : ∃ t, st.current = some t ∧ p t
  · obtain ⟨t, hc, ht⟩ := h
    exact .inl ⟨t, takeIf_eq_ok.2 ⟨hc, ht, rfl⟩⟩
  · refine .inr (takeIf_declines fun t ht => ?_)
    rw [← TokenStream.current_eq] at ht
    exact Bool.eq_false_iff.2 fun hp => h ⟨t, ht, hp⟩

@[simp] theorem not_breaks_takeIf (p : τ → Bool) (e : TokenStream ρ τ → ε) (st : TokenStream ρ τ) :
    ¬Breaks (takeIf p e) st := by
  unfold Breaks takeIf
  split
  · split <;> simp
  · simp

/-- What comes after a token that may be there. -/
theorem breaks_attempt_takeIf {p : τ → Bool} {e : TokenStream ρ τ → ε} {f : Option τ → Reader ρ τ ε β}
    {st : TokenStream ρ τ} : Breaks (attempt (takeIf p e) >>= f) st ↔
      (∃ t, takeIf p e st = (.ok t, st.skip 1) ∧ Breaks (f (some t)) (st.skip 1)) ∨
        Declines (takeIf p e) st ∧ Breaks (f none) st := by
  rcases takeIf_cases p e st with ⟨t, ht⟩ | hnone
  · rw [breaks_bind_of_ok (attempt_of_ok ht), or_iff_left]
    · constructor
      · exact fun h => ⟨t, ht, h⟩
      · rintro ⟨t', ht', h⟩
        cases ht.symm.trans ht'
        exact h
    · rintro ⟨⟨e', he⟩, -⟩
      cases ht.symm.trans he
  · rw [breaks_bind_of_ok hnone.attempt, and_iff_right hnone, or_iff_right]
    rintro ⟨t, ht, -⟩
    obtain ⟨e', he⟩ := hnone
    cases ht.symm.trans he

theorem length_rest_skip_lt {st : TokenStream ρ τ} {t : τ} (h : st.current = some t) :
    (st.skip 1).rest.length < st.rest.length := by
  rw [TokenStream.current_eq] at h
  obtain ⟨ts, hts⟩ := List.head?_eq_some_iff.1 h
  rw [TokenStream.rest_skip_of_cons hts, hts]
  exact Nat.lt_succ_self _

theorem takeIf_consumes (p : τ → Bool) (e : TokenStream ρ τ → ε) : Consumes (takeIf p e) := by
  intro st t st' h
  obtain ⟨hc, -, rfl⟩ := takeIf_eq_ok.1 h
  exact length_rest_skip_lt hc

theorem Consumes.bind {p : Reader ρ τ ε α} {f : α → Reader ρ τ ε β} (hp : Consumes p)
    (hf : ∀ a, Keeps Forward (f a)) : Consumes (p >>= f) := by
  intro st b st' h
  obtain ⟨a, st₁, ha, hb⟩ := bind_eq_ok.1 h
  exact Nat.lt_of_le_of_lt ((hf a).of_run hb).length_rest_le (hp st a st₁ ha)

/-- A part that takes a token may come later. -/
theorem Consumes.bind_right {p : Reader ρ τ ε α} {f : α → Reader ρ τ ε β} (hp : Keeps Forward p)
    (hf : ∀ a, Consumes (f a)) : Consumes (p >>= f) := by
  intro st b st' h
  obtain ⟨a, st₁, ha, hb⟩ := bind_eq_ok.1 h
  exact Nat.lt_of_lt_of_le (hf a st₁ b st' hb) (hp.of_run ha).length_rest_le

theorem Consumes.map {p : Reader ρ τ ε α} (hp : Consumes p) (f : α → β) : Consumes (f <$> p) := by
  intro st b st' h
  obtain ⟨a, ha, -⟩ := map_eq_ok.1 h
  exact hp st a st' ha

/-! ### Loops -/

/-- The turns of a loop that goes on while `p` succeeds: from the value `b` at `st` it comes to `c` at `st'`. -/
inductive WhileTurn (p : Reader ρ τ ε α) (step : β → α → Reader ρ τ ε β) :
    β → TokenStream ρ τ → β → TokenStream ρ τ → Prop where
  | here {b st} : WhileTurn p step b st b st
  | next {b st a st₁ c st₂ d st₃} : p st = (.ok a, st₁) → step b a st₁ = (.ok c, st₂) →
      WhileTurn p step c st₂ d st₃ → WhileTurn p step b st d st₃

/-- The turns of a loop that goes on until `p` succeeds. -/
inductive UntilTurn (p : Reader ρ τ ε α) (step : β → Reader ρ τ ε β) :
    β → TokenStream ρ τ → β → TokenStream ρ τ → Prop where
  | here {b st} : UntilTurn p step b st b st
  | next {b st e st₁ c st₂ d st₃} : p st = (.err e, st₁) → step b st₁ = (.ok c, st₂) →
      UntilTurn p step c st₂ d st₃ → UntilTurn p step b st d st₃

theorem WhileTurn.forward {p : Reader ρ τ ε α} {step : β → α → Reader ρ τ ε β} (hp : Keeps Forward p)
    (hstep : ∀ b a, Keeps Forward (step b a)) {b c : β} {st st' : TokenStream ρ τ}
    (h : WhileTurn p step b st c st') : Forward st st' := by
  induction h with
  | here => exact .refl _
  | next ha hc _ ih => exact ((hp.of_run ha).trans ((hstep _ _).of_run hc)).trans ih

theorem UntilTurn.forward {p : Reader ρ τ ε α} {step : β → Reader ρ τ ε β} (hp : Keeps Forward p)
    (hstep : ∀ b, Keeps Forward (step b)) {b c : β} {st st' : TokenStream ρ τ} (h : UntilTurn p step b st c st') :
    Forward st st' := by
  induction h with
  | here => exact .refl _
  | next he hc _ ih => exact ((hp.of_run he).trans ((hstep _).of_run hc)).trans ih

/-- A loop that ends has come to where `p` fails. -/
theorem foldWhileOk_stops {p : Reader ρ τ ε α} {step : β → α → Reader ρ τ ε β} {n : Nat} {b c : β}
    {st st' : TokenStream ρ τ} (h : foldWhileOk p step n b st = (.ok c, st')) :
    ∃ st'' e, WhileTurn p step b st c st'' ∧ p st'' = (.err e, st') := by
  induction n generalizing b st with
  | zero => cases h
  | succ n ih =>
    obtain ⟨o, st₁, ho, hrest⟩ := bind_eq_ok.1 h
    cases o with
    | none =>
      obtain ⟨a, h, -⟩ | ⟨-, e, he⟩ := attempt_eq_ok.1 ho
      · cases h
      · cases hrest
        exact ⟨st, e, .here, he⟩
    | some a =>
      obtain ⟨a', ha', hp⟩ | ⟨h, -⟩ := attempt_eq_ok.1 ho
      · obtain rfl := Option.some.inj ha'
        obtain ⟨b', st₂, hstep, hrest⟩ := bind_eq_ok.1 hrest
        obtain ⟨st'', e, hturns, he⟩ := ih hrest
        exact ⟨st'', e, .next hp hstep hturns, he⟩
      · cases h

/-- A loop whose turns take tokens breaks in a turn that it reaches. -/
theorem breaks_foldWhileOk {p : Reader ρ τ ε α} {step : β → α → Reader ρ τ ε β}
    (hturn : ∀ b, Consumes (p >>= step b)) {st : TokenStream ρ τ} {b : β} :
    Breaks (withTurns fun turns => foldWhileOk p step turns b) st ↔
      ∃ c st', WhileTurn p step b st c st' ∧ (Breaks p st' ∨ After p st' fun a st'' =>
          Breaks (step c a) st'') := by
  show Breaks (foldWhileOk p step (st.rest.length + 1) b) st ↔ _
  generalize hn : st.rest.length + 1 = n
  have hlt : st.rest.length < n := by omega
  clear hn
  induction n generalizing b st with
  | zero => omega
  | succ n ih =>
    rw [foldWhileOk, breaks_bind, breaks_attempt]
    constructor
    · rintro (hp | ⟨o, st₁, ho, hrest⟩)
      · exact ⟨b, st, .here, .inl hp⟩
      · cases o with
        | none => exact absurd hrest (not_breaks_pure _ _)
        | some a =>
          obtain ⟨a', h, ha⟩ | ⟨h, -⟩ := attempt_eq_ok.1 ho
          · cases h
            rcases breaks_bind.1 hrest with hstep | ⟨c, st₂, hc, hloop⟩
            · exact ⟨b, st, .here, .inr ⟨a, st₁, ha, hstep⟩⟩
            · have hcons := hturn b st c st₂ (bind_step ha hc)
              obtain ⟨d, st', hreach, hbreaks⟩ := (ih (by omega)).1 hloop
              exact ⟨d, st', .next ha hc hreach, hbreaks⟩
          · cases h
    · rintro ⟨d, st', hreach, hbreaks⟩
      cases hreach with
      | here =>
        rcases hbreaks with hp | ⟨a, st₁, ha, hstep⟩
        · exact .inl hp
        · exact .inr ⟨some a, st₁, attempt_of_ok ha, breaks_bind.2 (.inl hstep)⟩
      | @next _ _ a st₁ c st₂ _ _ ha hc hreach =>
        have hcons := hturn b st c st₂ (bind_step ha hc)
        exact .inr ⟨some a, st₁, attempt_of_ok ha,
          (breaks_bind_of_ok hc).2 ((ih (by omega)).2 ⟨d, st', hreach, hbreaks⟩)⟩

/-- A turn that changes nothing: `p` fails and `step` stays where it is. -/
def Stuck (p : Reader ρ τ ε α) (step : β → Reader ρ τ ε β) (b : β) (st : TokenStream ρ τ) : Prop :=
  Declines p st ∧ step b st = (.ok b, st)

theorem Stuck.breaks {p : Reader ρ τ ε α} {step : β → Reader ρ τ ε β} {b : β} {st : TokenStream ρ τ}
    (h : Stuck p step b st) (n : Nat) : Breaks (foldUntilOk p step n b) st := by
  induction n with
  | zero => exact .inr rfl
  | succ n ih =>
    rw [Breaks, foldUntilOk_turn h.1 h.2]
    exact ih

/-- A loop each of whose turns takes tokens or changes nothing breaks in a turn that it reaches. -/
theorem breaks_foldUntilOk {p : Reader ρ τ ε α} {step : β → Reader ρ τ ε β}
    (hturn : ∀ b st e st₁ c st₂, p st = (.err e, st₁) → step b st₁ = (.ok c, st₂) →
      st₂.rest.length < st.rest.length ∨ Stuck p step b st) {st : TokenStream ρ τ} {b : β} :
    Breaks (withTurns fun turns => foldUntilOk p step turns b) st ↔
      ∃ c st', UntilTurn p step b st c st' ∧
        (Breaks p st' ∨ (∃ e st'', p st' = (.err e, st'') ∧ Breaks (step c) st'') ∨ Stuck p step c st') := by
  show Breaks (foldUntilOk p step (st.rest.length + 1) b) st ↔ _
  generalize hn : st.rest.length + 1 = n
  have hlt : st.rest.length < n := by omega
  clear hn
  induction n generalizing b st with
  | zero => omega
  | succ n ih =>
    constructor
    · intro hbreaks
      rw [foldUntilOk, breaks_bind, breaks_attempt] at hbreaks
      rcases hbreaks with hp | ⟨o, st₁, ho, hrest⟩
      · exact ⟨b, st, .here, .inl hp⟩
      · cases o with
        | some a => exact absurd hrest (not_breaks_pure _ _)
        | none =>
          obtain ⟨a', h, -⟩ | ⟨-, e, he⟩ := attempt_eq_ok.1 ho
          · cases h
          · rcases breaks_bind.1 hrest with hstep | ⟨c, st₂, hc, hloop⟩
            · exact ⟨b, st, .here, .inr (.inl ⟨e, st₁, he, hstep⟩)⟩
            · rcases hturn b st e st₁ c st₂ he hc with hcons | hstuck
              · obtain ⟨d, st', hreach, hbreaks⟩ := (ih (by omega)).1 hloop
                exact ⟨d, st', .next he hc hreach, hbreaks⟩
              · exact ⟨b, st, .here, .inr (.inr hstuck)⟩
    · rintro ⟨d, st', hreach, hbreaks⟩
      cases hreach with
      | here =>
        rcases hbreaks with hp | ⟨e, st₁, he, hstep⟩ | hstuck
        · rw [foldUntilOk, breaks_bind, breaks_attempt]
          exact .inl hp
        · rw [foldUntilOk, breaks_bind_of_ok (attempt_eq_ok.2 (.inr ⟨rfl, e, he⟩))]
          exact breaks_bind.2 (.inl hstep)
        · exact hstuck.breaks _
      | @next _ _ e st₁ c st₂ _ _ he hc hreach =>
        rcases hturn b st e st₁ c st₂ he hc with hcons | hstuck
        · rw [foldUntilOk, breaks_bind_of_ok (attempt_eq_ok.2 (.inr ⟨rfl, e, he⟩)), breaks_bind_of_ok hc]
          exact (ih (by omega)).2 ⟨d, st', hreach, hbreaks⟩
        · exact hstuck.breaks _

/-- Sequences with the same first part run alike when they do behind each of its values. -/
theorem bind_run_congr {p : Reader ρ τ ε α} {f g : α → Reader ρ τ ε β} {st : TokenStream ρ τ}
    (h : ∀ a st', p st = (.ok a, st') → f a st' = g a st') : (p >>= f) st = (p >>= g) st := by
  rw [bind_run, bind_run]
  rcases hp : p st with ⟨a | _ | _ | _, st'⟩
  · exact h a st' hp
  all_goals rfl

/-- When every turn takes a token, more turns than there are tokens make no difference. -/
theorem foldUntilOk_enough {p : Reader ρ τ ε α} {step : β → Reader ρ τ ε β} (hp : Keeps Forward p)
    (hstep : ∀ b, Consumes (step b)) {n m : Nat} {st : TokenStream ρ τ} {b : β} (hn : st.rest.length < n)
    (hm : st.rest.length < m) : foldUntilOk p step n b st = foldUntilOk p step m b st := by
  induction n generalizing m st b with
  | zero => omega
  | succ n ih =>
    obtain ⟨m, rfl⟩ : ∃ k, m = k + 1 := ⟨m - 1, by omega⟩
    rw [foldUntilOk, foldUntilOk]
    refine bind_run_congr fun o st₁ ho => ?_
    have hle : st₁.rest.length ≤ st.rest.length := ((attempt_forward hp).of_run ho).length_rest_le
    cases o with
    | some a => rfl
    | none =>
      refine bind_run_congr fun c st₂ hc => ?_
      have hlt : st₂.rest.length < st₁.rest.length := hstep b st₁ c st₂ hc
      exact ih (by omega) (by omega)

/-- A turn of a loop with enough turns. -/
theorem withTurns_foldUntilOk_turn {p : Reader ρ τ ε α} {step : β → Reader ρ τ ε β} (hp : Keeps Forward p)
    (hstep : ∀ b, Consumes (step b)) {st : TokenStream ρ τ} (hdecl : Declines p st) (b : β) :
    (withTurns fun turns => foldUntilOk p step turns b) st =
      (step b >>= fun c => withTurns fun turns => foldUntilOk p step turns c) st := by
  show foldUntilOk p step (st.rest.length + 1) b st = _
  rw [foldUntilOk, bind_of_ok hdecl.attempt]
  refine bind_run_congr fun c st' hc => ?_
  have hlt : st'.rest.length < st.rest.length := hstep b st c st' hc
  exact foldUntilOk_enough hp hstep hlt (Nat.lt_succ_self _)

/-- The places at which an item of a list with separators is tried. -/
inductive SeparatedTurn (item : Reader ρ τ ε α) (sep : Reader ρ τ ε β) :
    TokenStream ρ τ → TokenStream ρ τ → Prop where
  | here {st} : SeparatedTurn item sep st st
  | next {st a st₁ b st₂ st₃} : item st = (.ok a, st₁) → sep st₁ = (.ok b, st₂) → SeparatedTurn item sep st₂ st₃ →
      SeparatedTurn item sep st st₃

theorem SeparatedTurn.forward {item : Reader ρ τ ε α} {sep : Reader ρ τ ε β} (hitem : Keeps Forward item)
    (hsep : Keeps Forward sep) {st st' : TokenStream ρ τ} (h : SeparatedTurn item sep st st') :
    Forward st st' := by
  induction h with
  | here => exact .refl _
  | next ha hb _ ih => exact ((hitem.of_run ha).trans (hsep.of_run hb)).trans ih

end Reading
