import PuralinguaIR.Progress

/-!
# What the value of a program satisfies

`Ensures I p P` says that from every state with `I` the program `p` ends in such a state again, and that its value,
if it has one, satisfies `P`. There is one rule for each way a program is put together; a part whose value does
not matter only has to keep a relation under which `I` is stable.
-/

namespace Effect.Prog

open Effect

variable {σ ε α β : Type} {I : σ → Prop}

/-- From every state with `I`, a run of `p` ends in such a state, and its value satisfies `P`. -/
def Ensures (I : σ → Prop) (p : Prog σ ε α) (P : α → Prop) : Prop :=
  ∀ s, I s → I (p s).2 ∧ ∀ a, (p s).1 = .ok a → P a

namespace Ensures

variable {P : α → Prop} {Q : β → Prop}

theorem of_run {p : Prog σ ε α} (h : Ensures I p P) {s s' : σ} {a : α} (hs : I s) (hp : p s = (.ok a, s')) :
    I s' ∧ P a := by
  have := h s hs
  rw [hp] at this
  exact ⟨this.1, this.2 a rfl⟩

theorem mono {p : Prog σ ε α} {P' : α → Prop} (h : Ensures I p P) (hP : ∀ a, P a → P' a) : Ensures I p P' :=
  fun s hs => ⟨(h s hs).1, fun a ha => hP a ((h s hs).2 a ha)⟩

/-- Where only the states matter, they may be kept by a relation that carries `I` along. -/
theorem of_keeps {R : σ → σ → Prop} {p : Prog σ ε α} (hI : ∀ s s', R s s' → I s → I s') (h : Keeps R p) :
    Ensures I p fun _ => True :=
  fun s hs => ⟨hI s _ (h s) hs, fun _ _ => trivial⟩

theorem pure {a : α} (h : P a) : Ensures I (Pure.pure a : Prog σ ε α) P := by
  intro s hs
  refine ⟨hs, fun b hb => ?_⟩
  cases hb
  exact h

theorem fail (e : ε) : Ensures I (Prog.fail e : Prog σ ε α) P := fun _ hs => ⟨hs, nofun⟩

theorem panic : Ensures I (Prog.panic : Prog σ ε α) P := fun _ hs => ⟨hs, nofun⟩

theorem diverge : Ensures I (Prog.diverge : Prog σ ε α) P := fun _ hs => ⟨hs, nofun⟩

theorem bind {p : Prog σ ε α} {f : α → Prog σ ε β} (hp : Ensures I p P) (hf : ∀ a, P a → Ensures I (f a) Q) :
    Ensures I (p >>= f) Q := by
  intro s hs
  have h := hp s hs
  rw [bind_run]
  rcases hps : p s with ⟨o, s'⟩
  rw [hps] at h
  cases o with
  | ok a => exact hf a (h.2 a rfl) s' h.1
  | err e => exact ⟨h.1, nofun⟩
  | panic => exact ⟨h.1, nofun⟩
  | diverge => exact ⟨h.1, nofun⟩

/-- The first value does not matter. -/
theorem skip {p : Prog σ ε α} {f : α → Prog σ ε β} (hf : ∀ a, Ensures (fun _ => True) (f a) Q) :
    Ensures (fun _ => True) (p >>= f) Q :=
  bind (P := fun _ => True) (fun _ _ => ⟨trivial, fun _ _ => trivial⟩) fun a _ => hf a

theorem map {p : Prog σ ε α} {f : α → β} (hp : Ensures I p P) (hf : ∀ a, P a → Q (f a)) :
    Ensures I (f <$> p) Q := by
  rw [map_eq_pure_bind]
  exact hp.bind fun a ha => pure (hf a ha)

theorem attempt {p : Prog σ ε α} (hp : Ensures I p P) : Ensures I (Prog.attempt p) fun o => ∀ a ∈ o, P a := by
  intro s hs
  have h := hp s hs
  unfold Prog.attempt
  rcases hps : p s with ⟨_ | _ | _ | _, s'⟩
  all_goals rw [hps] at h
  case ok a =>
    refine ⟨h.1, fun o ho => ?_⟩
    cases ho
    rintro _ ⟨⟩
    exact h.2 a rfl
  case err e =>
    refine ⟨h.1, fun o ho => ?_⟩
    cases ho
    exact nofun
  all_goals exact ⟨h.1, nofun⟩

end Ensures

end Effect.Prog

namespace Reading

open Effect Effect.Prog

variable {ρ τ ε α β : Type} {P : α → Prop} {J : β → Prop}

/-- A loop keeps what each of its turns keeps. -/
theorem foldWhileOk_ensures {σ : Type} {I : σ → Prop} {p : Prog σ ε α} {step : β → α → Prog σ ε β}
    (hp : Ensures I p P) (hstep : ∀ b a, J b → P a → Ensures I (step b a) J) (n : Nat) {b : β} (hb : J b) :
    Ensures I (foldWhileOk p step n b) J := by
  induction n generalizing b with
  | zero => exact Ensures.diverge
  | succ n ih =>
    refine hp.attempt.bind fun o ho => ?_
    cases o with
    | none => exact Ensures.pure hb
    | some a => exact (hstep b a hb (ho a rfl)).bind fun c hc => ih hc

theorem foldUntilOk_ensures {σ : Type} {I : σ → Prop} {p : Prog σ ε α} {step : β → Prog σ ε β}
    (hp : Ensures I p P) (hstep : ∀ b, J b → Ensures I (step b) J) (n : Nat) {b : β} (hb : J b) :
    Ensures I (foldUntilOk p step n b) J := by
  induction n generalizing b with
  | zero => exact Ensures.diverge
  | succ n ih =>
    refine hp.attempt.bind fun o _ => ?_
    cases o with
    | none => exact (hstep b hb).bind fun c hc => ih hc
    | some a => exact Ensures.pure hb

theorem withTurns_ensures {I : TokenStream ρ τ → Prop} {loop : Nat → Reader ρ τ ε α} {P : α → Prop}
    (h : ∀ n, Ensures I (loop n) P) : Ensures I (withTurns loop) P :=
  fun st hst => h _ st hst

/-- A loop that collects values has at most one for each turn but the last. -/
theorem foldWhileOk_length {σ : Type} {p : Prog σ ε α} {n : Nat} {xs ys : List α} {s s' : σ}
    (h : foldWhileOk p (fun xs x => pure (xs ++ [x])) n xs s = (.ok ys, s')) : ys.length < xs.length + n := by
  induction n generalizing xs s with
  | zero => cases h
  | succ n ih =>
    obtain ⟨o, s₁, -, hrest⟩ := bind_eq_ok.1 h
    cases o with
    | none =>
      obtain ⟨rfl, -⟩ : xs = ys ∧ s₁ = s' := by simpa using hrest
      omega
    | some a =>
      have := ih hrest
      rw [List.length_append, List.length_singleton] at this
      omega

/-- The tokens are at most `n`. -/
def Fits (n : Nat) (st : TokenStream ρ τ) : Prop := st.tokens.length ≤ n

theorem Fits.forward {n : Nat} {st st' : TokenStream ρ τ} (h : Forward st st') (hst : Fits n st) : Fits n st' := by
  rw [Fits, h.tokens]
  exact hst

theorem Fits.length_rest {n : Nat} {st : TokenStream ρ τ} (h : Fits n st) : st.rest.length ≤ n := by
  rw [TokenStream.rest, List.length_drop]
  exact Nat.le_trans (Nat.sub_le _ _) h

theorem ensures_of_forward {n : Nat} {p : Reader ρ τ ε α} (h : Keeps Forward p) :
    Ensures (Fits n) p fun _ => True :=
  Ensures.of_keeps (fun _ _ => Fits.forward) h

/-- A part whose value does not matter, and then the next. -/
theorem ensures_then {n : Nat} {p : Reader ρ τ ε α} {f : α → Reader ρ τ ε β} (hp : Keeps Forward p)
    (hf : ∀ a, Ensures (Fits n) (f a) J) : Ensures (Fits n) (p >>= f) J :=
  (ensures_of_forward hp).bind fun a _ => hf a

end Reading
