import PuralinguaIR.Effect

/-!
# Values that refer to the state

A value may refer to what a program has put into the state, and mean something there and in every later state.
`Emits R A p V` says that the states of `p` grow along `R`, and that a value of `p` satisfies `V` in the state it
comes with, if this state is within the bounds `A`. What lasts while states grow holds at the end of the program
it is a part of, so there is one rule for each way a program is put together.
-/

namespace Effect.Prog

variable {σ τ ε α β : Type} {R : σ → σ → Prop} {A : σ → Prop}

/-- What holds of a value in a state holds in all later states. -/
def Lasts (R : σ → σ → Prop) (V : σ → α → Prop) : Prop := ∀ s s' a, R s s' → V s a → V s' a

/-- A state is within the bounds when a later one is. -/
class Bounds (R : σ → σ → Prop) (A : σ → Prop) : Prop where
  of_later : ∀ s s', R s s' → A s' → A s

/-- The states of `p` grow, and its values satisfy `V` where they come with a state within the bounds. -/
structure Emits (R : σ → σ → Prop) (A : σ → Prop) (p : Prog σ ε α) (V : σ → α → Prop) : Prop where
  keeps : Keeps R p
  value : ∀ s s' a, p s = (.ok a, s') → A s' → V s' a

/-! ### Lasting properties -/

theorem Lasts.and {V W : σ → α → Prop} (hV : Lasts R V) (hW : Lasts R W) : Lasts R fun s a => V s a ∧ W s a :=
  fun s s' a h ha => ⟨hV s s' a h ha.1, hW s s' a h ha.2⟩

theorem Lasts.comap {V : σ → α → Prop} (hV : Lasts R V) (g : β → α) : Lasts R fun s b => V s (g b) :=
  fun s s' b h hb => hV s s' (g b) h hb

theorem Lasts.forall₂ {V : σ → α → β → Prop} (hV : ∀ x, Lasts R (V · x)) (xs : List α) :
    Lasts R fun s ys => List.Forall₂ (V s) xs ys :=
  fun s s' _ h hys => hys.imp fun x y hy => hV x s s' y h hy

theorem Lasts.rel {V : σ → α → β → Prop} (hV : ∀ x, Lasts R (V · x)) (o : Option α) :
    Lasts R fun s o' => Option.Rel (V s) o o' := by
  intro s s' o' h ho
  cases ho with
  | none => exact .none
  | some hy => exact .some (hV _ s s' _ h hy)

namespace Emits

variable {V : σ → α → Prop} {W : σ → β → Prop}

theorem mono {p : Prog σ ε α} {V' : σ → α → Prop} (h : Emits R A p V) (hV : ∀ s a, V s a → V' s a) :
    Emits R A p V' :=
  ⟨h.keeps, fun s s' a hp hs => hV s' a (h.value s s' a hp hs)⟩

theorem and {p : Prog σ ε α} {V' : σ → α → Prop} (h : Emits R A p V) (h' : Emits R A p V') :
    Emits R A p fun s a => V s a ∧ V' s a :=
  ⟨h.keeps, fun s s' a hp hs => ⟨h.value s s' a hp hs, h'.value s s' a hp hs⟩⟩

section Parts

variable [Std.Refl R]

theorem pure {a : α} (h : ∀ s, V s a) : Emits R A (Pure.pure a : Prog σ ε α) V := by
  refine ⟨Keeps.pure a, fun s s' b hp _ => ?_⟩
  cases hp
  exact h s

theorem panic : Emits R A (Prog.panic : Prog σ ε α) V := ⟨Keeps.panic, fun _ _ _ hp => nomatch hp⟩

theorem okOr (e : ε) (o : Option α) : Emits R A (Prog.okOr e o) fun _ a => o = some a :=
  ⟨Keeps.okOr e o, fun _ _ _ hp _ => (okOr_eq_ok.1 hp).1⟩

theorem unwrap (o : Option α) : Emits (ε := ε) R A (Prog.unwrap o) fun _ a => o = some a :=
  ⟨Keeps.unwrap o, fun _ _ _ hp _ => (unwrap_eq_ok.1 hp).1⟩

end Parts

/-- What holds of the first value still holds at the end. -/
theorem bind [IsTrans σ R] [Bounds R A] {p : Prog σ ε α} {f : α → Prog σ ε β} (hp : Emits R A p V) (hV : Lasts R V)
    (hf : ∀ a, Emits R A (f a) fun s b => V s a → W s b) : Emits R A (p >>= f) W := by
  refine ⟨hp.keeps.bind fun a => (hf a).keeps, fun s s'' b hrun hs => ?_⟩
  obtain ⟨a, s', ha, hb⟩ := bind_eq_ok.1 hrun
  have hlater : R s' s'' := (hf a).keeps.of_run hb
  have hVa := hp.value s s' a ha (Bounds.of_later s' s'' hlater hs)
  exact (hf a).value s' s'' b hb hs (hV s' s'' a hlater hVa)

/-- The first value does not matter. -/
theorem skip [IsTrans σ R] {p : Prog σ ε α} {f : α → Prog σ ε β} (hp : Keeps R p) (hf : ∀ a, Emits R A (f a) W) :
    Emits R A (p >>= f) W := by
  refine ⟨hp.bind fun a => (hf a).keeps, fun s s'' b hrun hs => ?_⟩
  obtain ⟨a, s', -, hb⟩ := bind_eq_ok.1 hrun
  exact (hf a).value s' s'' b hb hs

theorem map {p : Prog σ ε α} {g : α → β} (hp : Emits R A p fun s a => W s (g a)) : Emits R A (g <$> p) W := by
  refine ⟨hp.keeps.map g, fun s s' b hrun hs => ?_⟩
  obtain ⟨a, ha, rfl⟩ := map_eq_ok.1 hrun
  exact hp.value s s' a ha hs

theorem mapM [Std.Refl R] [IsTrans σ R] [Bounds R A] {V : σ → α → β → Prop} {f : α → Prog σ ε β} {xs : List α}
    (hf : ∀ x ∈ xs, Emits R A (f x) (V · x)) (hV : ∀ x, Lasts R (V · x)) :
    Emits R A (xs.mapM f) fun s ys => List.Forall₂ (V s) xs ys := by
  refine ⟨Keeps.mapM fun x hx => (hf x hx).keeps, fun s s' ys hrun hs => ?_⟩
  refine (mapM_ok (fun x hx => (hf x hx).keeps) hrun).imp fun x y ⟨hx, s₁, s₂, _, hy, hlater⟩ => ?_
  exact hV x s₂ s' y hlater ((hf x hx).value s₁ s₂ y hy (Bounds.of_later s₂ s' hlater hs))

/-- A pass over a list with places, which do not matter for what is known of the values. -/
theorem mapM_zipIdx [Std.Refl R] [IsTrans σ R] [Bounds R A] {V : σ → α → β → Prop} {f : α × Nat → Prog σ ε β}
    {xs : List α} {n : Nat} (hf : ∀ x ∈ xs, ∀ i, Emits R A (f (x, i)) (V · x)) (hV : ∀ x, Lasts R (V · x)) :
    Emits R A ((xs.zipIdx n).mapM f) fun s ys => List.Forall₂ (V s) xs ys := by
  have h : Emits R A ((xs.zipIdx n).mapM f) fun s ys => List.Forall₂ (fun x y => V s x.1 y) (xs.zipIdx n) ys :=
    mapM (fun x hx => hf x.1 (List.fst_mem_of_mem_zipIdx hx) x.2) fun x => hV x.1
  refine h.mono fun s ys hys => ?_
  rw [← List.zipIdx_map_fst n xs]
  exact List.forall₂_map_left_iff.2 hys

theorem optionMapM [Std.Refl R] {V : σ → α → β → Prop} {f : α → Prog σ ε β} {o : Option α}
    (hf : ∀ x, Emits R A (f x) (V · x)) : Emits R A (o.mapM f) fun s o' => Option.Rel (V s) o o' := by
  cases o with
  | none => exact pure fun _ => .none
  | some x => exact map ((hf x).mono fun s y hy => .some hy)

/-- A program that works on one component of a state. -/
theorem zoom {view : τ → σ} {update : σ → τ → τ} {p : Prog σ ε α} (hp : Emits R A p V)
    (hview : ∀ s t, view (update s t) = s) :
    Emits (fun t t' => R (view t) (view t')) (fun t => A (view t)) (Prog.zoom view update p) fun t a =>
      V (view t) a
    := by
  constructor
  · intro t
    have h := hp.keeps (view t)
    rwa [← hview (p (view t)).2 t] at h
  · intro t t' a hrun hs
    have hfst : (p (view t)).1 = .ok a := congrArg Prod.fst hrun
    have hsnd : view t' = (p (view t)).2 := by
      rw [← show update (p (view t)).2 t = t' from congrArg Prod.snd hrun, hview]
    rw [hsnd] at hs ⊢
    exact hp.value (view t) _ a (run_of_fst hfst) hs

end Emits

end Effect.Prog
