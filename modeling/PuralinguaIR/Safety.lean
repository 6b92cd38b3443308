import PuralinguaIR.Progress

/-!
# Safe programs

`Safe I p J` says that from every state with `I` the program `p` ends, with a value and a state that satisfy `J` or
with an error. There is one rule for each way a program is put together. A condition on a stream is `Stable` when
it stays true further on; from such a condition, a part that moves forward may be tried and given up, and a loop is
safe whose turns are safe and take tokens.
-/

namespace Effect.Prog

variable {σ ε α β : Type} {I I' : σ → Prop} {J J' : α → σ → Prop} {K : β → σ → Prop}

/-- From every state with `I`, the run of `p` ends, and if it has a value, this and the state satisfy `J`. -/
def Safe (I : σ → Prop) (p : Prog σ ε α) (J : α → σ → Prop) : Prop :=
  ∀ s, I s → ¬Breaks p s ∧ ∀ a s', p s = (.ok a, s') → J a s'

namespace Safe

theorem mono {p : Prog σ ε α} (h : Safe I p J) (hI : ∀ s, I' s → I s) (hJ : ∀ a s, J a s → J' a s) :
    Safe I' p J' :=
  fun s hs => ⟨(h s (hI s hs)).1, fun a s' hp => hJ a s' ((h s (hI s hs)).2 a s' hp)⟩

theorem pure {a : α} (h : ∀ s, I s → J a s) : Safe I (Pure.pure a : Prog σ ε α) J := by
  intro s hs
  refine ⟨not_breaks_pure a s, fun b s' hb => ?_⟩
  cases hb
  exact h s hs

theorem fail (e : ε) : Safe I (Prog.fail e : Prog σ ε α) J := fun s _ => ⟨not_breaks_fail e s, nofun⟩

theorem bind {p : Prog σ ε α} {f : α → Prog σ ε β} (hp : Safe I p J) (hf : ∀ a, Safe (J a) (f a) K) :
    Safe I (p >>= f) K := by
  intro s hs
  obtain ⟨hends, hvalue⟩ := hp s hs
  constructor
  · rw [breaks_bind]
    rintro (hbreaks | ⟨a, s', ha, hbreaks⟩)
    · exact hends hbreaks
    · exact (hf a s' (hvalue a s' ha)).1 hbreaks
  · intro b s'' hb
    obtain ⟨a, s', ha, hb⟩ := bind_eq_ok.1 hb
    exact (hf a s' (hvalue a s' ha)).2 b s'' hb

theorem map {p : Prog σ ε α} {f : α → β} (hp : Safe I p fun a s => K (f a) s) : Safe I (f <$> p) K := by
  rw [map_eq_pure_bind]
  exact hp.bind fun a => pure fun _ h => h

/-- What does not depend on the state may be assumed. -/
theorem assuming {p : Prog σ ε α} {P : Prop} (h : P → Safe I p J) : Safe (fun s => I s ∧ P) p J :=
  fun s hs => h hs.2 s hs.1

/-- A condition that every run of the program keeps. -/
theorem of_keeps {R : σ → σ → Prop} {p : Prog σ ε α} (hI : ∀ s s', R s s' → I s → I s') (hk : Keeps R p)
    (hp : ∀ s, I s → ¬Breaks p s) : Safe I p fun _ => I :=
  fun s hs => ⟨hp s hs, fun _ s' ha => hI s s' (hk.of_run ha) hs⟩

end Safe

end Effect.Prog

namespace Reading

open Effect Effect.Prog

variable {ρ τ ε α β : Type} {I : TokenStream ρ τ → Prop} {J : α → TokenStream ρ τ → Prop}

/-- The condition stays true as the position moves forward. -/
def Stable (I : TokenStream ρ τ → Prop) : Prop := ∀ st st', Forward st st' → I st → I st'

theorem safe_of_forward (hI : Stable I) {p : Reader ρ τ ε α} (hk : Keeps Forward p)
    (hp : ∀ st, I st → ¬Breaks p st) : Safe I p fun _ => I :=
  Safe.of_keeps hI hk hp

/-- The token that is taken. -/
theorem safe_takeIf {p : τ → Bool} {e : TokenStream ρ τ → ε} {J : τ → TokenStream ρ τ → Prop}
    (hJ : ∀ st t, I st → st.current = some t → p t → J t (st.skip 1)) : Safe I (takeIf p e) J := by
  intro st hst
  refine ⟨not_breaks_takeIf p e st, fun t st' h => ?_⟩
  obtain ⟨hc, ht, rfl⟩ := takeIf_eq_ok.1 h
  exact hJ st t hst hc ht

/-- A part may be tried and given up. -/
theorem safe_attempt (hI : Stable I) {p : Reader ρ τ ε α} (hk : Keeps Forward p) (hp : Safe I p J) :
    Safe I (attempt p) fun o st => I st ∧ ∀ a ∈ o, J a st := by
  intro st hst
  refine ⟨fun h => (hp st hst).1 (breaks_attempt.1 h), fun o st' ho => ?_⟩
  refine ⟨hI st st' ((attempt_forward hk).of_run ho) hst, ?_⟩
  rintro a rfl
  obtain ⟨a', ha', h⟩ | ⟨h, -⟩ := attempt_eq_ok.1 ho
  · cases ha'
    exact (hp st hst).2 a st' h
  · cases h

/-! ### Loops -/

/-- A loop whose turns take tokens is safe when each turn keeps an invariant of its value and the state; where it
ends, the condition holds to which a failure leads. -/
theorem safe_foldWhileOk {I K : β → TokenStream ρ τ → Prop} {J : β → α → TokenStream ρ τ → Prop}
    {p : Reader ρ τ ε α} {step : β → α → Reader ρ τ ε β} (hturn : ∀ b, Consumes (p >>= step b))
    (hp : ∀ b, Safe (I b) p (J b)) (hstep : ∀ b a, Safe (J b a) (step b a) I)
    (hend : ∀ b st e st', I b st → p st = (.err e, st') → K b st') (b : β) :
    Safe (I b) (withTurns fun turns => foldWhileOk p step turns b) K := by
  have hreach {b c : β} {st st' : TokenStream ρ τ} (h : WhileTurn p step b st c st') (hst : I b st) : I c st' := by
    induction h with
    | here => exact hst
    | next ha hc _ ih => exact ih ((hstep _ _ _ ((hp _ _ hst).2 _ _ ha)).2 _ _ hc)
  intro st hst
  constructor
  · rw [breaks_foldWhileOk hturn]
    rintro ⟨c, st', hturns, hbreaks | ⟨a, st'', ha, hbreaks⟩⟩
    · exact (hp c st' (hreach hturns hst)).1 hbreaks
    · exact (hstep c a st'' ((hp c st' (hreach hturns hst)).2 a st'' ha)).1 hbreaks
  · intro c st' hc
    obtain ⟨st'', e, hturns, he⟩ := foldWhileOk_stops hc
    exact hend c st'' e st' (hreach hturns hst) he

/-- The same for a stable condition, when the value does not matter. -/
theorem safe_foldWhileOk_stable (hI : Stable I) {p : Reader ρ τ ε α} {step : β → α → Reader ρ τ ε β}
    (hk : Keeps Forward p) (hturn : ∀ b, Consumes (p >>= step b)) (hp : Safe I p J)
    (hstep : ∀ b a, Safe (J a) (step b a) fun _ => I) (b : β) :
    Safe I (withTurns fun turns => foldWhileOk p step turns b) fun _ => I :=
  safe_foldWhileOk (I := fun _ => I) (K := fun _ => I) hturn (fun _ => hp) hstep
    (fun _ st _ st' hst he => hI st st' (hk.of_run he) hst) b

variable {K : β → TokenStream ρ τ → Prop}

/-- A loop whose steps take tokens is safe when each turn is. -/
theorem safe_foldUntilOk (hI : Stable I) {p : Reader ρ τ ε α} {step : β → Reader ρ τ ε β} (hk : Keeps Forward p)
    (hkstep : ∀ b, Keeps Forward (step b)) (hturn : ∀ b, Consumes (step b)) (hp : Safe I p J)
    (hstep : ∀ b, Safe I (step b) K) (b : β) :
    Safe I (withTurns fun turns => foldUntilOk p step turns b) fun _ => I := by
  have hconsumes {b : β} {st st₁ st₂ : TokenStream ρ τ} {e : ε} {c : β} (he : p st = (.err e, st₁))
      (hc : step b st₁ = (.ok c, st₂)) : st₂.rest.length < st.rest.length :=
    Nat.lt_of_lt_of_le (hturn b st₁ c st₂ hc) (hk.of_run he).length_rest_le
  refine safe_of_forward hI (withTurns_forward fun n => foldUntilOk_forward hk hkstep n b) fun st hst => ?_
  rw [breaks_foldUntilOk fun b st e st₁ c st₂ he hc => .inl (hconsumes he hc)]
  rintro ⟨c, st', hturns, hbreaks⟩
  have hst' := hI st st' (hturns.forward hk hkstep) hst
  rcases hbreaks with hbreaks | ⟨e, st'', he, hbreaks⟩ | ⟨⟨e, he⟩, hstuck⟩
  · exact (hp st' hst').1 hbreaks
  · exact (hstep c st'' (hI st' st'' (hk.of_run he) hst')).1 hbreaks
  · exact absurd (hconsumes he hstuck) (Nat.lt_irrefl _)

end Reading
