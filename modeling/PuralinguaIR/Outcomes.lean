import PuralinguaIR.Effect

/-!
# How programs end

A program whose parts succeed, panic or report an error whatever the state they meet ends in one of the three
ways itself. `EndsAs` names the conditions of the first two; the rules for sequences say that the first part
that does not succeed decides.
-/

namespace Effect

namespace Prog

variable {σ τ ε α β : Type}

/-- Every run of `p` ends with a panic. -/
def Panics (p : Prog σ ε α) : Prop := ∀ s, ∃ s', p s = (.panic, s')

theorem bind_of_panic {p : Prog σ ε α} {f : α → Prog σ ε β} {s s' : σ} (h : p s = (.panic, s')) :
    (p >>= f) s = (.panic, s') := by
  rw [bind_run, h]

theorem Panics.bind {p : Prog σ ε α} (hp : Panics p) (f : α → Prog σ ε β) : Panics (p >>= f) := by
  intro s
  obtain ⟨s', h⟩ := hp s
  exact ⟨s', bind_of_panic h⟩

/-- The first entry of a list that is not good is bad. -/
inductive FirstBad (good bad : α → Prop) : List α → Prop where
  | here {x xs} : bad x → FirstBad good bad (x :: xs)
  | later {x xs} : good x → FirstBad good bad xs → FirstBad good bad (x :: xs)

theorem firstBad_nil {good bad : α → Prop} : ¬FirstBad good bad [] := nofun

theorem firstBad_cons {good bad : α → Prop} {x : α} {xs : List α} :
    FirstBad good bad (x :: xs) ↔ bad x ∨ good x ∧ FirstBad good bad xs := by
  constructor
  · intro h
    cases h with
    | here hx => exact .inl hx
    | later hx hxs => exact .inr ⟨hx, hxs⟩
  · rintro (hx | ⟨hx, hxs⟩)
    · exact .here hx
    · exact .later hx hxs

/-- All runs of `p` end alike: with a value if `good`, with a panic if `bad`, and with an error otherwise. -/
structure EndsAs (p : Prog σ ε α) (good bad : Prop) : Prop where
  succeeds : good → Succeeds p
  panics : bad → Panics p
  reports : ¬good → ¬bad → Reports p

variable {good bad good' bad' : Prop}

namespace EndsAs

theorem congr {p : Prog σ ε α} (h : EndsAs p good bad) (hgood : good ↔ good') (hbad : bad ↔ bad') :
    EndsAs p good' bad' := by
  rwa [← propext hgood, ← propext hbad]

theorem of_succeeds {p : Prog σ ε α} (hp : Succeeds p) : EndsAs p True False :=
  ⟨fun _ => hp, False.elim, fun h => absurd trivial h⟩

theorem pure (a : α) : EndsAs (Pure.pure a : Prog σ ε α) True False := of_succeeds (Succeeds.pure a)

theorem panic : EndsAs (panic : Prog σ ε α) False True :=
  ⟨False.elim, fun _ s => ⟨s, rfl⟩, fun _ h => absurd trivial h⟩

theorem okOr (e : ε) (o : Option α) : EndsAs (okOr e o : Prog σ ε α) o.isSome False := by
  refine ⟨Succeeds.okOr, False.elim, fun h _ => ?_⟩
  cases o with
  | none => exact Reports.fail e
  | some a => exact absurd rfl h

theorem modify (f : σ → σ) : EndsAs (modify f : Prog σ ε Unit) True False :=
  of_succeeds fun s => ⟨(), f s, rfl⟩

/-- What ends with a value or an error ends with a value exactly if it can. -/
theorem of_returns {p : Prog σ ε α} (hp : Returns p) (hgood : good → Succeeds p)
    (hok : ∀ s a s', p s = (.ok a, s') → good) : EndsAs p good False := by
  refine ⟨hgood, False.elim, fun h _ s => ?_⟩
  obtain ⟨a, s', ha⟩ | he := hp s
  · exact absurd (hok s a s' ha) h
  · exact he

variable (good' bad') in
/-- The second part is asked only for values that the first one can have. -/
theorem bind_of {p : Prog σ ε α} {f : α → Prog σ ε β} (hp : EndsAs p good bad)
    (hf : ∀ s a s', p s = (.ok a, s') → EndsAs (f a) good' bad') :
    EndsAs (p >>= f) (good ∧ good') (bad ∨ good ∧ bad') := by
  refine ⟨fun ⟨hg, hg'⟩ s => ?_, fun hb s => ?_, fun hg hb s => ?_⟩
  · obtain ⟨a, s', ha⟩ := hp.succeeds hg s
    rw [bind_of_ok ha]
    exact (hf s a s' ha).succeeds hg' s'
  · rcases hb with hb | ⟨hg, hb'⟩
    · exact (hp.panics hb).bind f s
    · obtain ⟨a, s', ha⟩ := hp.succeeds hg s
      rw [bind_of_ok ha]
      exact (hf s a s' ha).panics hb' s'
  · by_cases hg' : good
    · obtain ⟨a, s', ha⟩ := hp.succeeds hg' s
      rw [bind_of_ok ha]
      exact (hf s a s' ha).reports (fun h => hg ⟨hg', h⟩) (fun h => hb (.inr ⟨hg', h⟩)) s'
    · exact (hp.reports hg' fun h => hb (.inl h)).bind f s

theorem bind {p : Prog σ ε α} {f : α → Prog σ ε β} (hp : EndsAs p good bad) (hf : ∀ a, EndsAs (f a) good' bad') :
    EndsAs (p >>= f) (good ∧ good') (bad ∨ good ∧ bad') :=
  hp.bind_of good' bad' fun _ a _ _ => hf a

/-- Two parts that never panic. -/
theorem bind_returns {p : Prog σ ε α} {f : α → Prog σ ε β} (hp : EndsAs p good False)
    (hf : ∀ a, EndsAs (f a) good' False) : EndsAs (p >>= f) (good ∧ good') False :=
  (hp.bind hf).congr .rfl (by simp)

theorem bind_pure {p : Prog σ ε α} (hp : EndsAs p good bad) (f : α → β) :
    EndsAs (p >>= fun a => Pure.pure (f a)) good bad :=
  (hp.bind fun a => pure (f a)).congr (by simp) (by simp)

theorem map {p : Prog σ ε α} (hp : EndsAs p good bad) (f : α → β) : EndsAs (f <$> p) good bad := by
  rw [map_eq_pure_bind]
  exact hp.bind_pure f

theorem mapM {f : α → Prog σ ε β} {g b : α → Prop} {xs : List α} (hf : ∀ x ∈ xs, EndsAs (f x) (g x) (b x)) :
    EndsAs (xs.mapM f) (∀ x ∈ xs, g x) (FirstBad g b xs) := by
  induction xs with
  | nil => exact (pure []).congr (by simp) (iff_of_false id firstBad_nil)
  | cons x xs ih =>
    rw [List.mapM_cons]
    have hrest := ih fun y hy => hf y (List.mem_cons_of_mem x hy)
    refine ((hf x List.mem_cons_self).bind fun y => hrest.map (y :: ·)).congr ?_ ?_
    · rw [List.forall_mem_cons]
    · rw [firstBad_cons]

/-- Parts that never panic. -/
theorem mapM_returns {f : α → Prog σ ε β} {g : α → Prop} {xs : List α} (hf : ∀ x ∈ xs, EndsAs (f x) (g x) False) :
    EndsAs (xs.mapM f) (∀ x ∈ xs, g x) False := by
  refine (mapM hf).congr .rfl (iff_of_false (fun h => ?_) id)
  induction h with
  | here h => exact h
  | later _ _ ih => exact ih fun x hx => hf x (List.mem_cons_of_mem _ hx)

theorem optionMapM {f : α → Prog σ ε β} {g b : α → Prop} {o : Option α} (hf : ∀ x ∈ o, EndsAs (f x) (g x) (b x)) :
    EndsAs (o.mapM f) (∀ x ∈ o, g x) (∃ x ∈ o, b x) := by
  cases o with
  | none => exact (pure none).congr (by simp) (by simp)
  | some x => exact ((hf x rfl).map some).congr (by simp) (by simp)

theorem zoom {p : Prog σ ε α} (hp : EndsAs p good bad) (view : τ → σ) (update : σ → τ → τ) :
    EndsAs (zoom view update p) good bad := by
  refine ⟨fun hg t => ?_, fun hb t => ?_, fun hg hb t => ?_⟩
  · obtain ⟨a, s', h⟩ := hp.succeeds hg (view t)
    exact ⟨a, update s' t, by rw [Prog.zoom, h]⟩
  · obtain ⟨s', h⟩ := hp.panics hb (view t)
    exact ⟨update s' t, by rw [Prog.zoom, h]⟩
  · obtain ⟨e, s', h⟩ := hp.reports hg hb (view t)
    exact ⟨e, update s' t, by rw [Prog.zoom, h]⟩

theorem returns {p : Prog σ ε α} (hp : EndsAs p good bad) (hb : ¬bad) : Returns p := by
  intro s
  by_cases hg : good
  · exact .inl (hp.succeeds hg s)
  · exact .inr (hp.reports hg hb s)

/-- A run panics exactly under the condition for it. -/
theorem panic_iff {p : Prog σ ε α} (hp : EndsAs p good bad) (s : σ) : (p s).1 = .panic ↔ bad := by
  constructor
  · intro h
    by_contra hb
    obtain ⟨a, s', ha⟩ | ⟨e, s', he⟩ := hp.returns hb s
    · rw [ha] at h
      cases h
    · rw [he] at h
      cases h
  · intro hb
    obtain ⟨s', h⟩ := hp.panics hb s
    rw [h]

end EndsAs

/-! ### Programs that succeed under a condition -/

/-- A run of `p` ends with a value exactly if `good`, whatever the state it meets. -/
def OkIff (p : Prog σ ε α) (good : Prop) : Prop := ∀ s, (∃ a s', p s = (.ok a, s')) ↔ good

namespace OkIff

theorem congr {p : Prog σ ε α} (h : OkIff p good) (hgood : good ↔ good') :
    OkIff p good' := fun s => (h s).trans hgood

theorem of_run {p : Prog σ ε α} (h : OkIff p good) {s s' : σ} {a : α} (hp : p s = (.ok a, s')) : good :=
  (h s).1 ⟨a, s', hp⟩

theorem unit {p : Prog σ ε Unit} (h : OkIff p good) (s : σ) : (∃ s', p s = (.ok (), s')) ↔ good :=
  ⟨fun ⟨_, hp⟩ => h.of_run hp, fun hg => ((h s).2 hg).elim fun _ hp => hp⟩

theorem of_succeeds {p : Prog σ ε α} (hp : Succeeds p) : OkIff p True := fun s => iff_of_true (hp s) trivial

theorem of_ends {p : Prog σ ε α} (hp : EndsAs p good bad) : OkIff p good := by
  refine fun s => ⟨fun ⟨a, s', ha⟩ => ?_, fun hg => hp.succeeds hg s⟩
  by_contra hg
  by_cases hb : bad
  · obtain ⟨s'', h⟩ := hp.panics hb s
    cases h.symm.trans ha
  · obtain ⟨e, s'', h⟩ := hp.reports hg hb s
    cases h.symm.trans ha

theorem unwrap (o : Option α) : OkIff (ε := ε) (σ := σ) (unwrap o) o.isSome := by
  cases o with
  | none => exact fun s => iff_of_false (fun ⟨a, s', h⟩ => nomatch h) (by simp)
  | some a => exact fun s => iff_of_true ⟨a, s, rfl⟩ rfl

theorem bind {p : Prog σ ε α} {f : α → Prog σ ε β} (hp : OkIff p good) (hf : ∀ a, OkIff (f a) good') :
    OkIff (p >>= f) (good ∧ good') := by
  intro s
  constructor
  · rintro ⟨b, s'', h⟩
    obtain ⟨a, s', ha, hb⟩ := bind_eq_ok.1 h
    exact ⟨hp.of_run ha, (hf a).of_run hb⟩
  · rintro ⟨hg, hg'⟩
    obtain ⟨a, s', ha⟩ := (hp s).2 hg
    obtain ⟨b, s'', hb⟩ := (hf a s').2 hg'
    exact ⟨b, s'', bind_step ha hb⟩

theorem bind_pure {p : Prog σ ε α} (hp : OkIff p good) (f : α → β) : OkIff (p >>= fun a => Pure.pure (f a)) good :=
  (hp.bind fun a => of_succeeds (Succeeds.pure (f a))).congr (by rw [and_true])

theorem mapM {f : α → Prog σ ε β} {g : α → Prop} {xs : List α} (hf : ∀ x ∈ xs, OkIff (f x) (g x)) :
    OkIff (xs.mapM f) (∀ x ∈ xs, g x) := by
  induction xs with
  | nil => exact (of_succeeds (Succeeds.pure [])).congr (by simp)
  | cons x xs ih =>
    rw [List.mapM_cons, List.forall_mem_cons]
    have hrest := ih fun y hy => hf y (List.mem_cons_of_mem x hy)
    exact (hf x List.mem_cons_self).bind fun y => hrest.bind_pure _

theorem forM {f : α → Prog σ ε Unit} {g : α → Prop} {xs : List α} (hf : ∀ x ∈ xs, OkIff (f x) (g x)) :
    OkIff (xs.forM f) (∀ x ∈ xs, g x) := by
  induction xs with
  | nil => exact (of_succeeds (Succeeds.pure ())).congr (by simp)
  | cons x xs ih =>
    rw [List.forall_mem_cons]
    have hrest := ih fun y hy => hf y (List.mem_cons_of_mem x hy)
    exact (hf x List.mem_cons_self).bind fun _ => hrest

end OkIff

/-! ### Where a run stops -/

/-- A run over a list goes through some of its entries; it ends there, or at the next entry, which has no value, as
that entry ends. -/
theorem forM_stops (f : α → Prog σ ε Unit) (xs : List α) (s : σ) :
    ∃ k s₁, (xs.take k).forM f s = (.ok (), s₁) ∧ (k = xs.length ∧ xs.forM f s = (.ok (), s₁) ∨
      ∃ x, xs[k]? = some x ∧ (¬∃ s', f x s₁ = (.ok (), s')) ∧ xs.forM f s = f x s₁) := by
  induction xs generalizing s with
  | nil => exact ⟨0, s, rfl, .inl ⟨rfl, rfl⟩⟩
  | cons x xs ih =>
    by_cases hx : ∃ s', f x s = (.ok (), s')
    · obtain ⟨s', hx⟩ := hx
      obtain ⟨k, s₁, hrun, hend⟩ := ih s'
      have hforM : (x :: xs).forM f s = xs.forM f s' := bind_of_ok hx
      refine ⟨k + 1, s₁, bind_step hx hrun, ?_⟩
      rw [hforM, List.length_cons, List.getElem?_cons_succ]
      exact hend.imp_left fun ⟨hk, h⟩ => ⟨congrArg (· + 1) hk, h⟩
    · refine ⟨0, s, rfl, .inr ⟨x, rfl, hx, ?_⟩⟩
      rcases h : f x s with ⟨_ | _ | _ | _, s'⟩
      · exact absurd ⟨s', h⟩ hx
      all_goals
        refine Eq.trans (bind_run _ _ _) ?_
        rw [h]

end Prog

end Effect
