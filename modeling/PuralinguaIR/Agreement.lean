import PuralinguaIR.Reading

/-!
# Programs that agree

`Agrees R E V p q` says that from related states the programs `p` and `q` end in the same way and in related
states: both with a value, the two values related by `V`, or both with an error, the two errors related by `E`,
or both with a panic, or neither. There is one rule for each way a program is put together, so two programs that
are put together alike from parts that agree do agree.
-/

namespace Effect

variable {σ τ ε δ α β γ ζ ξ η : Type}

/-- Two runs end in the same way. -/
inductive Outcome.Alike (E : ε → δ → Prop) (V : α → β → Prop) : Outcome ε α → Outcome δ β → Prop where
  | ok {a b} : V a b → Alike E V (.ok a) (.ok b)
  | err {e d} : E e d → Alike E V (.err e) (.err d)
  | panic : Alike E V .panic .panic
  | diverge : Alike E V .diverge .diverge

namespace Outcome.Alike

variable {E : ε → δ → Prop} {V : α → β → Prop}

theorem mono {V' : α → β → Prop} {o : Outcome ε α} {u : Outcome δ β} (h : Alike E V o u)
    (hV : ∀ a b, V a b → V' a b) : Alike E V' o u := by
  cases h with
  | ok h => exact ok (hV _ _ h)
  | err h => exact err h
  | panic => exact panic
  | diverge => exact diverge

theorem eq {o u : Outcome ε α} (h : Alike Eq Eq o u) : o = u := by
  cases h with
  | ok h => rw [h]
  | err h => rw [h]
  | panic => rfl
  | diverge => rfl

end Outcome.Alike

namespace Prog

/-- From related states, `p` and `q` end in the same way and in related states. -/
def Agrees (R : σ → τ → Prop) (E : ε → δ → Prop) (V : α → β → Prop) (p : Prog σ ε α) (q : Prog τ δ β) : Prop :=
  ∀ s t, R s t → Outcome.Alike E V (p s).1 (q t).1 ∧ R (p s).2 (q t).2

namespace Agrees

variable {R : σ → τ → Prop} {E : ε → δ → Prop} {E' : ε → ε → Prop} {V : α → β → Prop} {W : γ → ζ → Prop}

theorem mono {V' : α → β → Prop} {p : Prog σ ε α} {q : Prog τ δ β} (h : Agrees R E V p q)
    (hV : ∀ a b, V a b → V' a b) : Agrees R E V' p q :=
  fun s t hst => ⟨(h s t hst).1.mono hV, (h s t hst).2⟩

/-- A program agrees with itself on equal states. -/
theorem refl [Std.Refl E'] (p : Prog σ ε α) : Agrees Eq E' Eq p p := by
  rintro s _ ⟨⟩
  refine ⟨?_, rfl⟩
  cases (p s).1 with
  | ok a => exact .ok rfl
  | err e => exact .err (Std.Refl.refl e)
  | panic => exact .panic
  | diverge => exact .diverge

theorem pure {a : α} {b : β} (h : V a b) : Agrees R E V (Pure.pure a) (Pure.pure b) := fun _ _ hst => ⟨.ok h, hst⟩

theorem fail {e : ε} {d : δ} (h : E e d) : Agrees R E V (Prog.fail e) (Prog.fail d) := fun _ _ hst => ⟨.err h, hst⟩

theorem panic : Agrees R E V Prog.panic Prog.panic := fun _ _ hst => ⟨.panic, hst⟩

theorem diverge : Agrees R E V Prog.diverge Prog.diverge := fun _ _ hst => ⟨.diverge, hst⟩

theorem get : Agrees R E R Prog.get Prog.get := fun _ _ hst => ⟨.ok hst, hst⟩

theorem modify {f : σ → σ} {g : τ → τ} (h : ∀ s t, R s t → R (f s) (g t)) :
    Agrees R E (fun _ _ => True) (Prog.modify f) (Prog.modify g) :=
  fun s t hst => ⟨.ok trivial, h s t hst⟩

theorem okOr {e : ε} {d : δ} (he : E e d) {o : Option α} {u : Option β} (h : Option.Rel V o u) :
    Agrees R E V (Prog.okOr e o) (Prog.okOr d u) := by
  cases h with
  | some h => exact pure h
  | none => exact fail he

theorem unwrap {o : Option α} {u : Option β} (h : Option.Rel V o u) :
    Agrees R E V (Prog.unwrap o) (Prog.unwrap u) := by
  cases h with
  | some h => exact pure h
  | none => exact panic

theorem bind {p : Prog σ ε α} {q : Prog τ δ β} {f : α → Prog σ ε γ} {g : β → Prog τ δ ζ} (hp : Agrees R E V p q)
    (hf : ∀ a b, V a b → Agrees R E W (f a) (g b)) : Agrees R E W (p >>= f) (q >>= g) := by
  intro s t hst
  obtain ⟨hends, hstates⟩ := hp s t hst
  rw [bind_run, bind_run]
  generalize p s = x at hends hstates
  generalize q t = y at hends hstates
  obtain ⟨o, s'⟩ := x
  obtain ⟨u, t'⟩ := y
  cases hends with
  | ok h => exact hf _ _ h s' t' hstates
  | err h => exact ⟨.err h, hstates⟩
  | panic => exact ⟨.panic, hstates⟩
  | diverge => exact ⟨.diverge, hstates⟩

/-- A part with equal values, and then the next. -/
theorem andThen {p : Prog σ ε α} {q : Prog τ δ α} {f : α → Prog σ ε γ} {g : α → Prog τ δ ζ}
    (hp : Agrees R E Eq p q) (hf : ∀ a, Agrees R E W (f a) (g a)) : Agrees R E W (p >>= f) (q >>= g) :=
  hp.bind fun a _ hab => hab ▸ hf a

/-- A part, and then the next, which agrees whatever the two values are. -/
theorem andAny {p : Prog σ ε α} {q : Prog τ δ β} {f : α → Prog σ ε γ} {g : β → Prog τ δ ζ} (hp : Agrees R E V p q)
    (hf : ∀ a b, Agrees R E W (f a) (g b)) : Agrees R E W (p >>= f) (q >>= g) :=
  hp.bind fun a b _ => hf a b

theorem map {p : Prog σ ε α} {q : Prog τ δ β} {f : α → γ} {g : β → ζ} (hp : Agrees R E V p q)
    (hf : ∀ a b, V a b → W (f a) (g b)) : Agrees R E W (f <$> p) (g <$> q) := by
  rw [map_eq_pure_bind, map_eq_pure_bind]
  exact hp.bind fun a b hab => pure (hf a b hab)

theorem map_eq {p : Prog σ ε α} {q : Prog τ δ α} (hp : Agrees R E Eq p q) (f : α → γ) :
    Agrees R E Eq (f <$> p) (f <$> q) :=
  hp.map fun _ _ hab => congrArg f hab

theorem attempt {p : Prog σ ε α} {q : Prog τ δ β} (hp : Agrees R E V p q) :
    Agrees R E (Option.Rel V) (Prog.attempt p) (Prog.attempt q) := by
  intro s t hst
  obtain ⟨hends, hstates⟩ := hp s t hst
  unfold Prog.attempt
  generalize p s = x at hends hstates
  generalize q t = y at hends hstates
  obtain ⟨o, s'⟩ := x
  obtain ⟨u, t'⟩ := y
  cases hends with
  | ok h => exact ⟨.ok (.some h), hstates⟩
  | err h => exact ⟨.ok .none, hstates⟩
  | panic => exact ⟨.panic, hstates⟩
  | diverge => exact ⟨.diverge, hstates⟩

/-- A part that may be there or not, when both sides go on in the same way. -/
theorem cases_attempt {p : Prog σ ε α} {q : Prog τ δ β} {f : Option α → Prog σ ε γ} {g : Option β → Prog τ δ ζ}
    (hp : Agrees R E V p q) (hnone : Agrees R E W (f none) (g none))
    (hsome : ∀ a b, V a b → Agrees R E W (f (some a)) (g (some b))) :
    Agrees R E W (Prog.attempt p >>= f) (Prog.attempt q >>= g) := by
  refine hp.attempt.bind fun o u hou => ?_
  cases hou with
  | some h => exact hsome _ _ h
  | none => exact hnone

/-- Parts of the states are related as the programs on them need it. -/
theorem zoom {S : ξ → η → Prop} {view : ξ → σ} {view' : η → τ} {update : σ → ξ → ξ} {update' : τ → η → η}
    {p : Prog σ ε α} {q : Prog τ δ β} (hview : ∀ x y, S x y → R (view x) (view' y))
    (hupdate : ∀ x y s t, S x y → R s t → S (update s x) (update' t y)) (hp : Agrees R E V p q) :
    Agrees S E V (Prog.zoom view update p) (Prog.zoom view' update' q) := by
  intro x y hxy
  obtain ⟨hends, hstates⟩ := hp (view x) (view' y) (hview x y hxy)
  exact ⟨hends, hupdate x y _ _ hxy hstates⟩

/-- Passes over two lists whose elements are treated alike. -/
theorem mapM {X : ξ → η → Prop} {f : ξ → Prog σ ε α} {g : η → Prog τ δ β}
    (hf : ∀ x y, X x y → Agrees R E V (f x) (g y)) {xs : List ξ} {ys : List η} (h : List.Forall₂ X xs ys) :
    Agrees R E (List.Forall₂ V) (xs.mapM f) (ys.mapM g) := by
  induction h with
  | nil => exact pure .nil
  | cons hxy _ ih =>
    rw [List.mapM_cons, List.mapM_cons]
    exact (hf _ _ hxy).bind fun a b hab => ih.bind fun as bs hs => pure (.cons hab hs)

/-- The same when the values are equal. -/
theorem mapM_eq {X : ξ → η → Prop} {f : ξ → Prog σ ε α} {g : η → Prog τ δ α}
    (hf : ∀ x y, X x y → Agrees R E Eq (f x) (g y)) {xs : List ξ} {ys : List η} (h : List.Forall₂ X xs ys) :
    Agrees R E Eq (xs.mapM f) (ys.mapM g) :=
  (mapM hf h).mono fun _ _ hab => List.forall₂_eq_eq_eq ▸ hab

/-- Two passes over the same list. -/
theorem mapM_same {f : ξ → Prog σ ε α} {g : ξ → Prog τ δ β} (hf : ∀ x, Agrees R E V (f x) (g x)) (xs : List ξ) :
    Agrees R E (List.Forall₂ V) (xs.mapM f) (xs.mapM g) :=
  mapM (X := Eq) (fun x _ hxy => hxy ▸ hf x) (List.forall₂_same.2 fun _ _ => rfl)

theorem optionMapM {f : ξ → Prog σ ε α} {g : ξ → Prog τ δ β} (hf : ∀ x, Agrees R E V (f x) (g x)) (o : Option ξ) :
    Agrees R E (Option.Rel V) (o.mapM f) (o.mapM g) := by
  cases o with
  | none => exact pure .none
  | some x => exact (hf x).map fun _ _ hab => .some hab

theorem forM {X : ξ → η → Prop} {f : ξ → Prog σ ε Unit} {g : η → Prog τ δ Unit}
    (hf : ∀ x y, X x y → Agrees R E Eq (f x) (g y)) {xs : List ξ} {ys : List η} (h : List.Forall₂ X xs ys) :
    Agrees R E Eq (xs.forM f) (ys.forM g) := by
  induction h with
  | nil => exact pure rfl
  | cons hxy _ ih => exact (hf _ _ hxy).andThen fun _ => ih

end Agrees

end Prog

end Effect

namespace Reading

open Effect Effect.Prog

variable {σ τ ρ κ ε δ α β γ ζ : Type} {R : σ → τ → Prop} {E : ε → δ → Prop} {V : α → β → Prop} {W : γ → ζ → Prop}

/-! ### Loops -/

theorem foldWhileOk_agrees {p : Prog σ ε α} {q : Prog τ δ β} {step : γ → α → Prog σ ε γ}
    {step' : ζ → β → Prog τ δ ζ}
    (hp : Agrees R E V p q) (hstep : ∀ c d a b, W c d → V a b → Agrees R E W (step c a) (step' d b)) (n : Nat)
    {c : γ} {d : ζ} (h : W c d) : Agrees R E W (foldWhileOk p step n c) (foldWhileOk q step' n d) := by
  induction n generalizing c d with
  | zero => exact .diverge
  | succ n ih => exact hp.cases_attempt (.pure h) fun a b hab => (hstep c d a b h hab).bind fun _ _ h' => ih h'

theorem foldUntilOk_agrees {p : Prog σ ε α} {q : Prog τ δ β} {step : γ → Prog σ ε γ} {step' : ζ → Prog τ δ ζ}
    (hp : Agrees R E V p q) (hstep : ∀ c d, W c d → Agrees R E W (step c) (step' d)) (n : Nat) {c : γ} {d : ζ}
    (h : W c d) : Agrees R E W (foldUntilOk p step n c) (foldUntilOk q step' n d) := by
  induction n generalizing c d with
  | zero => exact .diverge
  | succ n ih => exact hp.cases_attempt ((hstep c d h).bind fun _ _ h' => ih h') fun _ _ _ => .pure h

/-- Two loops get the same number of turns where as many tokens are left. -/
theorem withTurns_agrees {R : TokenStream ρ α → TokenStream κ β → Prop} {loop : Nat → Reader ρ α ε γ}
    {loop' : Nat → Reader κ β δ ζ} (hR : ∀ st st', R st st' → st.rest.length = st'.rest.length)
    (h : ∀ n, Agrees R E W (loop n) (loop' n)) : Agrees R E W (withTurns loop) (withTurns loop') := by
  intro st st' hst
  unfold withTurns
  rw [hR st st' hst]
  exact h _ st st' hst

end Reading
