import PuralinguaIR.Effect

/-!
# What the errors of a program say

`Blames p E` says that whatever state a run of `p` begins in, an error it ends with satisfies `E`. There is one
rule for each way a program is put together; in a sequence the second part is asked only for the values that the
first one has.
-/

namespace Effect.Prog

variable {σ τ ε α β : Type}

/-- The errors of `p` satisfy `E`. -/
def Blames (p : Prog σ ε α) (E : ε → Prop) : Prop := ∀ s e s', p s = (.err e, s') → E e

namespace Blames

variable {E E' : ε → Prop}

theorem mono {p : Prog σ ε α} (h : Blames p E) (hE : ∀ e, E e → E' e) : Blames p E' :=
  fun s e s' he => hE e (h s e s' he)

theorem of_okOrPanics {p : Prog σ ε α} (h : OkOrPanics p) : Blames p E := fun _ _ _ he => absurd he h.ne_err

theorem pure (a : α) : Blames (Pure.pure a : Prog σ ε α) E := of_okOrPanics (.pure a)

theorem panic : Blames (Prog.panic : Prog σ ε α) E := of_okOrPanics .panic

theorem unwrap (o : Option α) : Blames (Prog.unwrap o : Prog σ ε α) E := of_okOrPanics (.unwrap o)

theorem modify (f : σ → σ) : Blames (Prog.modify f : Prog σ ε Unit) E := fun _ _ _ he => nomatch he

theorem okOr {e : ε} {o : Option α} (h : o = none → E e) : Blames (Prog.okOr e o : Prog σ ε α) E := by
  intro s e' s' he
  cases o with
  | none =>
    cases he
    exact h rfl
  | some a => cases he

/-- The second part is asked only for values that the first one can have. -/
theorem bind_of {p : Prog σ ε α} {f : α → Prog σ ε β} (hp : Blames p E)
    (hf : ∀ s a s', p s = (.ok a, s') → Blames (f a) E) : Blames (p >>= f) E := by
  intro s e s' he
  rcases bind_eq_err.1 he with he | ⟨a, s₁, ha, he⟩
  · exact hp s e s' he
  · exact hf s a s₁ ha s₁ e s' he

theorem bind {p : Prog σ ε α} {f : α → Prog σ ε β} (hp : Blames p E) (hf : ∀ a, Blames (f a) E) :
    Blames (p >>= f) E :=
  hp.bind_of fun _ a _ _ => hf a

theorem map {p : Prog σ ε α} (hp : Blames p E) (f : α → β) : Blames (f <$> p) E := by
  rw [map_eq_pure_bind]
  exact hp.bind fun a => pure (f a)

theorem mapM {f : α → Prog σ ε β} {xs : List α} (hf : ∀ x ∈ xs, Blames (f x) E) : Blames (xs.mapM f) E := by
  induction xs with
  | nil => exact pure []
  | cons x xs ih =>
    rw [List.mapM_cons]
    have hrest := ih fun z hz => hf z (List.mem_cons_of_mem x hz)
    exact (hf x List.mem_cons_self).bind fun y => hrest.bind fun ys => pure _

theorem optionMapM {f : α → Prog σ ε β} {o : Option α} (hf : ∀ x ∈ o, Blames (f x) E) : Blames (o.mapM f) E := by
  cases o with
  | none => exact pure none
  | some x => exact (hf x rfl).map some

theorem zoom {p : Prog σ ε α} (hp : Blames p E) (view : τ → σ) (update : σ → τ → τ) :
    Blames (Prog.zoom view update p) E :=
  fun t e _ he => hp (view t) e (p (view t)).2 (run_of_fst (congrArg Prod.fst he))

end Blames

end Effect.Prog
