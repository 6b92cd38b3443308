import Mathlib.Data.List.Forall2
import Mathlib.Logic.Basic
import Mathlib.Order.Defs.Unbundled

/-!
# Programs with a state and an outcome

A run of a program over a state `σ` ends with a value, with a reported error, with a panic, or does not end at
all; the state it has reached is kept in every case. `Prog σ ε α` is the corresponding monad. The rules below
read a successful run of a sequence backwards (`Prog.bind_eq_ok`, `Prog.mapM_ok`), and carry a reflexive and
transitive relation between the states before and after along a whole program (`Keeps`).
-/

namespace Effect

/-- How a run ends. -/
inductive Outcome (ε α : Type) where
  | ok (a : α)
  | err (e : ε)
  | panic
  | diverge
deriving DecidableEq, Repr

/-- A program over the state `σ`. -/
def Prog (σ ε α : Type) : Type := σ → Outcome ε α × σ

variable {σ τ ε α β γ : Type}

namespace Prog

/-- Continue with `f` after a value; every other end is final. -/
protected def bind (p : Prog σ ε α) (f : α → Prog σ ε β) : Prog σ ε β := fun s =>
  match p s with
  | (.ok a, s') => f a s'
  | (.err e, s') => (.err e, s')
  | (.panic, s') => (.panic, s')
  | (.diverge, s') => (.diverge, s')

instance : Monad (Prog σ ε) where
  pure a := fun s => (.ok a, s)
  bind := Prog.bind

/-- End with the error `e`. -/
def fail (e : ε) : Prog σ ε α := fun s => (.err e, s)

/-- End with a panic. -/
def panic : Prog σ ε α := fun s => (.panic, s)

/-- Never end. -/
def diverge : Prog σ ε α := fun s => (.diverge, s)

/-- The current state. -/
def get : Prog σ ε σ := fun s => (.ok s, s)

/-- Change the state. -/
def modify (f : σ → σ) : Prog σ ε Unit := fun s => (.ok (), f s)

/-- A value that may be missing, reported as the error `e`. -/
def okOr (e : ε) : Option α → Prog σ ε α
  | some a => pure a
  | none => fail e

/-- A value whose absence is a panic. -/
def unwrap : Option α → Prog σ ε α
  | some a => pure a
  | none => panic

/-- The value of a run, or nothing when the run reports an error. -/
def attempt (p : Prog σ ε α) : Prog σ ε (Option α) := fun s =>
  match p s with
  | (.ok a, s') => (.ok (some a), s')
  | (.err _, s') => (.ok none, s')
  | (.panic, s') => (.panic, s')
  | (.diverge, s') => (.diverge, s')

/-- Run a program on one component of a larger state. -/
def zoom (view : τ → σ) (update : σ → τ → τ) (p : Prog σ ε α) : Prog τ ε α := fun t =>
  ((p (view t)).1, update (p (view t)).2 t)

/-! ### Running -/

@[simp] theorem pure_run (a : α) (s : σ) : (pure a : Prog σ ε α) s = (.ok a, s) := rfl

@[simp] theorem fail_run (e : ε) (s : σ) : (fail e : Prog σ ε α) s = (.err e, s) := rfl

@[simp] theorem panic_run (s : σ) : (panic : Prog σ ε α) s = (.panic, s) := rfl

@[simp] theorem diverge_run (s : σ) : (diverge : Prog σ ε α) s = (.diverge, s) := rfl

@[simp] theorem get_run (s : σ) : (get : Prog σ ε σ) s = (.ok s, s) := rfl

@[simp] theorem modify_run (f : σ → σ) (s : σ) : (modify f : Prog σ ε Unit) s = (.ok (), f s) := rfl

@[simp] theorem okOr_some (e : ε) (a : α) : (okOr e (some a) : Prog σ ε α) = pure a := rfl

@[simp] theorem okOr_none (e : ε) : (okOr e none : Prog σ ε α) = fail e := rfl

@[simp] theorem unwrap_some (a : α) : (unwrap (some a) : Prog σ ε α) = pure a := rfl

@[simp] theorem unwrap_none : (unwrap none : Prog σ ε α) = panic := rfl

theorem bind_run (p : Prog σ ε α) (f : α → Prog σ ε β) (s : σ) :
    (p >>= f) s = match p s with
      | (.ok a, s') => f a s'
      | (.err e, s') => (.err e, s')
      | (.panic, s') => (.panic, s')
      | (.diverge, s') => (.diverge, s') := rfl

theorem run_of_fst {p : Prog σ ε α} {s : σ} {o : Outcome ε α} (h : (p s).1 = o) : p s = (o, (p s).2) := by
  rw [← h]

/-- The state a program leaves. -/
def after (p : Prog σ ε α) (s : σ) : σ := (p s).2

theorem run_after {p : Prog σ ε α} {s : σ} {o : Outcome ε α} (h : (p s).1 = o) :
    p s = (o, p.after s) := run_of_fst h

theorem bind_of_ok {p : Prog σ ε α} {f : α → Prog σ ε β} {s s' : σ} {a : α} (h : p s = (.ok a, s')) :
    (p >>= f) s = f a s' := by
  rw [bind_run, h]

theorem bind_step {p : Prog σ ε α} {f : α → Prog σ ε β} {s s' : σ} {a : α} {r : Outcome ε β × σ}
    (h : p s = (.ok a, s')) (hf : f a s' = r) : (p >>= f) s = r :=
  (bind_of_ok h).trans hf

theorem bind_of_err {p : Prog σ ε α} {f : α → Prog σ ε β} {s s' : σ} {e : ε} (h : p s = (.err e, s')) :
    (p >>= f) s = (.err e, s') := by
  rw [bind_run, h]

private theorem id_map' (p : Prog σ ε α) : id <$> p = p := by
  funext s
  show (p >>= pure) s = p s
  rw [bind_run]
  rcases p s with ⟨_ | _ | _ | _, s'⟩ <;> rfl

private theorem bind_assoc' (p : Prog σ ε α) (f : α → Prog σ ε β) (g : β → Prog σ ε γ) :
    p >>= f >>= g = p >>= fun a => f a >>= g := by
  funext s
  simp only [bind_run]
  rcases p s with ⟨_ | _ | _ | _, s'⟩ <;> rfl

instance : LawfulMonad (Prog σ ε) := LawfulMonad.mk' _ id_map' (fun _ _ => rfl) bind_assoc'

theorem bind_eq_ok {p : Prog σ ε α} {f : α → Prog σ ε β} {s s'' : σ} {b : β} :
    (p >>= f) s = (.ok b, s'') ↔ ∃ a s', p s = (.ok a, s') ∧ f a s' = (.ok b, s'') := by
  rw [bind_run]
  rcases p s with ⟨_ | _ | _ | _, s'⟩ <;> simp

theorem bind_eq_err {p : Prog σ ε α} {f : α → Prog σ ε β} {s s'' : σ} {e : ε} :
    (p >>= f) s = (.err e, s'') ↔ p s = (.err e, s'') ∨ ∃ a s', p s = (.ok a, s') ∧ f a s' = (.err e, s'') := by
  rw [bind_run]
  rcases p s with ⟨_ | _ | _ | _, s'⟩ <;> simp

theorem map_eq_ok {p : Prog σ ε α} {f : α → β} {s s' : σ} {b : β} :
    (f <$> p) s = (.ok b, s') ↔ ∃ a, p s = (.ok a, s') ∧ f a = b := by
  rw [map_eq_pure_bind, bind_eq_ok]
  simp

theorem okOr_eq_ok {e : ε} {o : Option α} {s s' : σ} {a : α} :
    (okOr e o : Prog σ ε α) s = (.ok a, s') ↔ o = some a ∧ s' = s := by
  cases o <;> simp [eq_comm]

theorem unwrap_eq_ok {o : Option α} {s s' : σ} {a : α} :
    (unwrap o : Prog σ ε α) s = (.ok a, s') ↔ o = some a ∧ s' = s := by
  cases o <;> simp [eq_comm]

theorem okOr_eq_err {e e' : ε} {o : Option α} {s s' : σ} (h : (okOr e o : Prog σ ε α) s = (.err e', s')) :
    s' = s := by
  cases o with
  | none => exact (congrArg Prod.snd h).symm
  | some a => cases h

/-! ### What a program keeps -/

/-- Every run of `p` leads to a state related by `R` to the one it started from, whatever its end. -/
def Keeps (R : σ → σ → Prop) (p : Prog σ ε α) : Prop := ∀ s, R s (p s).2

section Keeps

variable {R : σ → σ → Prop}

theorem Keeps.of_run {p : Prog σ ε α} (h : Keeps R p) {s s' : σ} {o : Outcome ε α} (hp : p s = (o, s')) :
    R s s' := by
  have := h s
  rwa [hp] at this

section Refl

variable [Std.Refl R]

@[grind ←]
theorem Keeps.pure (a : α) : Keeps R (Pure.pure a : Prog σ ε α) := fun s => Std.Refl.refl s

@[grind ←]
theorem Keeps.get : Keeps R (get : Prog σ ε σ) := fun s => Std.Refl.refl s

@[grind ←]
theorem Keeps.fail (e : ε) : Keeps R (fail e : Prog σ ε α) := fun s => Std.Refl.refl s

@[grind ←]
theorem Keeps.panic : Keeps R (panic : Prog σ ε α) := fun s => Std.Refl.refl s

@[grind ←]
theorem Keeps.okOr (e : ε) (o : Option α) : Keeps R (okOr e o : Prog σ ε α) := by
  cases o <;> exact fun s => Std.Refl.refl s

@[grind ←]
theorem Keeps.unwrap (o : Option α) : Keeps R (unwrap o : Prog σ ε α) := by
  cases o <;> exact fun s => Std.Refl.refl s

end Refl

theorem Keeps.modify {f : σ → σ} (h : ∀ s, R s (f s)) : Keeps R (modify f : Prog σ ε Unit) := h

@[grind ←]
theorem Keeps.bind [IsTrans σ R] {p : Prog σ ε α} {f : α → Prog σ ε β} (hp : Keeps R p) (hf : ∀ a, Keeps R (f a)) :
    Keeps R (p >>= f) := by
  intro s
  have h := hp s
  rw [bind_run]
  rcases hps : p s with ⟨o, s'⟩
  rw [hps] at h
  cases o with
  | ok a => exact IsTrans.trans _ _ _ h (hf a s')
  | err e => exact h
  | panic => exact h
  | diverge => exact h

@[grind ←]
theorem Keeps.map {p : Prog σ ε α} (hp : Keeps R p) (f : α → β) : Keeps R (f <$> p) := by
  intro s
  have h := hp s
  rw [map_eq_pure_bind, bind_run]
  rcases hps : p s with ⟨_ | _ | _ | _, s'⟩ <;> (rw [hps] at h; exact h)

@[grind ←]
theorem Keeps.mapM [Std.Refl R] [IsTrans σ R] {f : α → Prog σ ε β} {xs : List α} (hf : ∀ x ∈ xs, Keeps R (f x)) :
    Keeps R (xs.mapM f) := by
  induction xs with
  | nil =>
    rw [List.mapM_nil]
    exact Keeps.pure []
  | cons x xs ih =>
    rw [List.mapM_cons]
    refine Keeps.bind (hf x (by simp)) fun y => Keeps.bind (ih ?_) fun ys => Keeps.pure _
    exact fun z hz => hf z (by simp [hz])

@[grind ←]
theorem Keeps.optionMapM [Std.Refl R] {f : α → Prog σ ε β} {o : Option α} (hf : ∀ x, Keeps R (f x)) :
    Keeps R (o.mapM f) := by
  cases o with
  | none => exact Keeps.pure none
  | some x => exact (hf x).map some

end Keeps

/-! ### Lists -/

theorem mapM_nil_run (f : α → Prog σ ε β) (s : σ) : ([].mapM f) s = (.ok [], s) := rfl

theorem mapM_cons_eq_ok {f : α → Prog σ ε β} {x : α} {xs : List α} {s s' : σ} {zs : List β} :
    ((x :: xs).mapM f) s = (.ok zs, s') ↔
      ∃ y s₁ ys, f x s = (.ok y, s₁) ∧ (xs.mapM f) s₁ = (.ok ys, s') ∧ zs = y :: ys := by
  rw [List.mapM_cons, bind_eq_ok]
  simp only [bind_eq_ok, pure_run, Prod.mk.injEq, Outcome.ok.injEq]
  constructor
  · rintro ⟨y, s₁, hy, ys, s₂, hys, rfl, rfl⟩
    exact ⟨y, s₁, ys, hy, hys, rfl⟩
  · rintro ⟨y, s₁, ys, hy, hys, rfl⟩
    exact ⟨y, s₁, hy, ys, s', hys, rfl, rfl⟩

theorem forM_cons_eq_ok {f : α → Prog σ ε Unit} {x : α} {xs : List α} {s s' : σ} :
    ((x :: xs).forM f) s = (.ok (), s') ↔ ∃ s₁, f x s = (.ok (), s₁) ∧ (xs.forM f) s₁ = (.ok (), s') := by
  rw [show (x :: xs).forM f = f x >>= fun _ => xs.forM f from rfl, bind_eq_ok]
  exact ⟨fun ⟨_, s₁, h⟩ => ⟨s₁, h⟩, fun ⟨s₁, h⟩ => ⟨(), s₁, h⟩⟩

/-- Passes over two lists of one length are the same when all elements are treated alike. -/
theorem mapM_eq_of_alike {f : α → Prog σ ε β} {xs ys : List α} (hlen : xs.length = ys.length)
    (hf : ∀ x ∈ xs, ∀ y ∈ ys, f x = f y) : xs.mapM f = ys.mapM f := by
  induction xs generalizing ys with
  | nil =>
    obtain rfl : ys = [] := List.length_eq_zero_iff.1 hlen.symm
    rfl
  | cons x xs ih =>
    cases ys with
    | nil => cases hlen
    | cons y ys =>
      rw [List.mapM_cons, List.mapM_cons, hf x (by simp) y (by simp),
        ih (Nat.succ.inj hlen) fun x hx y hy => hf x (by simp [hx]) y (by simp [hy])]

/-- A successful pass over a list gives one result for each element, in order, each computed in a state between
the first and the last. -/
theorem mapM_ok {R : σ → σ → Prop} [Std.Refl R] [IsTrans σ R] {f : α → Prog σ ε β} {xs : List α}
    (hf : ∀ x ∈ xs, Keeps R (f x)) {s s' : σ} {ys : List β} (h : (xs.mapM f) s = (.ok ys, s')) :
    List.Forall₂ (fun x y => x ∈ xs ∧ ∃ s₁ s₂, R s s₁ ∧ f x s₁ = (.ok y, s₂) ∧ R s₂ s') xs ys := by
  induction xs generalizing s ys with
  | nil =>
    rw [mapM_nil_run] at h
    obtain ⟨rfl, rfl⟩ : ys = [] ∧ s' = s := by simpa [eq_comm] using h
    exact List.Forall₂.nil
  | cons x xs ih =>
    obtain ⟨y, s₁, ys, hy, hys, rfl⟩ := mapM_cons_eq_ok.1 h
    have hxs : ∀ z ∈ xs, Keeps R (f z) := fun z hz => hf z (by simp [hz])
    have h₁ : R s s₁ := (hf x (by simp)).of_run hy
    refine List.Forall₂.cons ⟨by simp, s, s₁, Std.Refl.refl s, hy, (Keeps.mapM hxs).of_run hys⟩ ?_
    refine (ih hxs hys).imp fun a b ⟨hmem, t₁, t₂, ha, hb, hc⟩ => ⟨by simp [hmem], t₁, t₂, ?_, hb, hc⟩
    exact IsTrans.trans _ _ _ h₁ ha

/-- The plain form of `mapM_ok`. -/
theorem forall₂_of_mapM {f : α → Prog σ ε β} {xs : List α} {s s' : σ} {ys : List β}
    (h : (xs.mapM f) s = (.ok ys, s')) :
    List.Forall₂ (fun x y => ∃ s₁ s₂, f x s₁ = (.ok y, s₂)) xs ys := by
  have _ : Std.Refl fun _ _ : σ => True := ⟨fun _ => trivial⟩
  have _ : IsTrans σ fun _ _ => True := ⟨fun _ _ _ _ _ => trivial⟩
  have hkeeps : ∀ x ∈ xs, Keeps (fun _ _ => True) (f x) := fun _ _ _ => trivial
  exact (mapM_ok hkeeps h).imp fun a b ⟨_, t₁, t₂, _, hb, _⟩ => ⟨t₁, t₂, hb⟩

/-! ### Programs that always succeed -/

/-- Every run of `p` ends with a value. -/
def Succeeds (p : Prog σ ε α) : Prop := ∀ s, ∃ a s', p s = (.ok a, s')

@[grind ←]
theorem Succeeds.pure (a : α) : Succeeds (Pure.pure a : Prog σ ε α) := fun s => ⟨a, s, rfl⟩

@[grind ←]
theorem Succeeds.bind {p : Prog σ ε α} {f : α → Prog σ ε β} (hp : Succeeds p) (hf : ∀ a, Succeeds (f a)) :
    Succeeds (p >>= f) := by
  intro s
  obtain ⟨a, s', h⟩ := hp s
  obtain ⟨b, s'', h'⟩ := hf a s'
  exact ⟨b, s'', by rw [bind_of_ok h, h']⟩

@[grind ←]
theorem Succeeds.map {p : Prog σ ε α} (hp : Succeeds p) (f : α → β) : Succeeds (f <$> p) := by
  rw [map_eq_pure_bind]
  exact hp.bind fun a => Succeeds.pure (f a)

@[grind ←]
theorem Succeeds.mapM {f : α → Prog σ ε β} {xs : List α} (hf : ∀ x ∈ xs, Succeeds (f x)) :
    Succeeds (xs.mapM f) := by
  induction xs with
  | nil => exact Succeeds.pure []
  | cons x xs ih =>
    rw [List.mapM_cons]
    refine Succeeds.bind (hf x (by simp)) fun y => Succeeds.bind (ih ?_) fun ys => Succeeds.pure _
    exact fun z hz => hf z (by simp [hz])

@[grind ←]
theorem Succeeds.optionMapM {f : α → Prog σ ε β} {o : Option α} (hf : ∀ x ∈ o, Succeeds (f x)) :
    Succeeds (o.mapM f) := by
  cases o with
  | none => exact Succeeds.pure none
  | some x => exact (hf x rfl).map some

@[grind ←]
theorem Succeeds.okOr {e : ε} {o : Option α} (h : o.isSome) : Succeeds (okOr e o : Prog σ ε α) := by
  obtain ⟨a, rfl⟩ := Option.isSome_iff_exists.1 h
  exact Succeeds.pure a

/-! ### Programs that report no errors -/

/-- Every run of `p` ends with a value or a panic. -/
def OkOrPanics (p : Prog σ ε α) : Prop := ∀ s, (∃ a s', p s = (.ok a, s')) ∨ (p s).1 = .panic

theorem OkOrPanics.ne_err {p : Prog σ ε α} (h : OkOrPanics p) {s s' : σ} {e : ε} : p s ≠ (.err e, s') := by
  intro hp
  rcases h s with ⟨a, s'', h⟩ | h
  · cases hp.symm.trans h
  · rw [hp] at h
    cases h

theorem Succeeds.okOrPanics {p : Prog σ ε α} (h : Succeeds p) : OkOrPanics p := fun s => Or.inl (h s)

theorem OkOrPanics.pure (a : α) : OkOrPanics (Pure.pure a : Prog σ ε α) := (Succeeds.pure a).okOrPanics

theorem OkOrPanics.panic : OkOrPanics (panic : Prog σ ε α) := fun _ => Or.inr rfl

theorem OkOrPanics.unwrap (o : Option α) : OkOrPanics (unwrap o : Prog σ ε α) := by
  cases o with
  | none => exact OkOrPanics.panic
  | some a => exact OkOrPanics.pure a

theorem OkOrPanics.bind {p : Prog σ ε α} {f : α → Prog σ ε β} (hp : OkOrPanics p) (hf : ∀ a, OkOrPanics (f a)) :
    OkOrPanics (p >>= f) := by
  intro s
  rcases hp s with ⟨a, s', h⟩ | h
  · rw [bind_of_ok h]
    exact hf a s'
  · refine Or.inr ?_
    rw [bind_run, run_of_fst h]

theorem OkOrPanics.map {p : Prog σ ε α} (hp : OkOrPanics p) (f : α → β) : OkOrPanics (f <$> p) := by
  rw [map_eq_pure_bind]
  exact hp.bind fun a => OkOrPanics.pure (f a)

theorem OkOrPanics.mapM {f : α → Prog σ ε β} {xs : List α} (hf : ∀ x ∈ xs, OkOrPanics (f x)) :
    OkOrPanics (xs.mapM f) := by
  induction xs with
  | nil => exact OkOrPanics.pure []
  | cons x xs ih =>
    rw [List.mapM_cons]
    refine OkOrPanics.bind (hf x (by simp)) fun y => OkOrPanics.bind (ih ?_) fun ys => OkOrPanics.pure _
    exact fun z hz => hf z (by simp [hz])

theorem OkOrPanics.optionMapM {f : α → Prog σ ε β} {o : Option α} (hf : ∀ x, OkOrPanics (f x)) :
    OkOrPanics (o.mapM f) := by
  cases o with
  | none => exact OkOrPanics.pure none
  | some x => exact (hf x).map some

/-! ### Programs that report errors -/

/-- Every run of `p` ends with a value or a reported error. -/
def Returns (p : Prog σ ε α) : Prop := ∀ s, (∃ a s', p s = (.ok a, s')) ∨ ∃ e s', p s = (.err e, s')

/-- Every run of `p` ends with a reported error. -/
def Reports (p : Prog σ ε α) : Prop := ∀ s, ∃ e s', p s = (.err e, s')

theorem Succeeds.returns {p : Prog σ ε α} (h : Succeeds p) : Returns p := fun s => Or.inl (h s)

@[grind ←]
theorem Returns.pure (a : α) : Returns (Pure.pure a : Prog σ ε α) := fun s => Or.inl ⟨a, s, rfl⟩

@[grind ←]
theorem Returns.okOr (e : ε) (o : Option α) : Returns (okOr e o : Prog σ ε α) := by
  cases o with
  | none => exact fun s => Or.inr ⟨e, s, rfl⟩
  | some a => exact fun s => Or.inl ⟨a, s, rfl⟩

@[grind ←]
theorem Reports.fail (e : ε) : Reports (fail e : Prog σ ε α) := fun s => ⟨e, s, rfl⟩

@[grind ←]
theorem Returns.bind {p : Prog σ ε α} {f : α → Prog σ ε β} (hp : Returns p) (hf : ∀ a, Returns (f a)) :
    Returns (p >>= f) := by
  intro s
  rcases hp s with ⟨a, s', h⟩ | ⟨e, s', h⟩
  · rw [bind_of_ok h]
    exact hf a s'
  · exact Or.inr ⟨e, s', bind_of_err h⟩

@[grind ←]
theorem Returns.map {p : Prog σ ε α} (hp : Returns p) (f : α → β) : Returns (f <$> p) := by
  rw [map_eq_pure_bind]
  exact hp.bind fun a => Returns.pure (f a)

@[grind ←]
theorem Returns.mapM {f : α → Prog σ ε β} {xs : List α} (hf : ∀ x ∈ xs, Returns (f x)) : Returns (xs.mapM f) := by
  induction xs with
  | nil => exact (Succeeds.pure []).returns
  | cons x xs ih =>
    rw [List.mapM_cons]
    refine Returns.bind (hf x (by simp)) fun y => Returns.bind (ih ?_) fun ys => (Succeeds.pure _).returns
    exact fun z hz => hf z (by simp [hz])

/-- An error at the beginning is the error of the whole. -/
@[grind ←]
theorem Reports.bind {p : Prog σ ε α} (hp : Reports p) (f : α → Prog σ ε β) : Reports (p >>= f) := by
  intro s
  obtain ⟨e, s', h⟩ := hp s
  exact ⟨e, s', bind_of_err h⟩

/-- An error that is certain to come later is reported, unless another one comes first. -/
theorem Returns.bind_reports {p : Prog σ ε α} {f : α → Prog σ ε β} (hp : Returns p) (hf : ∀ a, Reports (f a)) :
    Reports (p >>= f) := by
  intro s
  rcases hp s with ⟨a, s', h⟩ | ⟨e, s', h⟩
  · rw [bind_of_ok h]
    exact hf a s'
  · exact ⟨e, s', bind_of_err h⟩

theorem Reports.mapM {f : α → Prog σ ε β} {xs : List α} {x : α} (hx : x ∈ xs) (hreports : Reports (f x))
    (hreturns : ∀ y ∈ xs, Returns (f y)) : Reports (xs.mapM f) := by
  induction xs with
  | nil => cases hx
  | cons y ys ih =>
    rw [List.mapM_cons]
    rcases List.mem_cons.1 hx with rfl | hx
    · exact Reports.bind hreports _
    · exact (hreturns y (by simp)).bind_reports fun _ => (ih hx fun z hz => hreturns z (by simp [hz])).bind _

end Prog

end Effect
