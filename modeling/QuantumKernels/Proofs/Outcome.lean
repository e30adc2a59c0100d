import Mathlib.Data.List.Forall2

/-!
# Computations that may fail

When a computation that is made of others succeeds, these have succeeded; over a list, it gives one
result for each item.
-/
namespace QuantumKernels

variable {ε α β : Type}

theorem bind_eq_ok_iff {x : Except ε α} {f : α → Except ε β} {b : β} :
    x >>= f = .ok b ↔ ∃ a, x = .ok a ∧ f a = .ok b := by
  cases x with
  | error e => simp [bind, Except.bind]
  | ok a =>
    refine ⟨fun h => ⟨a, rfl, h⟩, ?_⟩
    rintro ⟨a', ha, h⟩
    cases ha
    exact h

theorem map_eq_ok_iff {x : Except ε α} {f : α → β} {b : β} : f <$> x = .ok b ↔ ∃ a, x = .ok a ∧ f a = b := by
  cases x with
  | error e => simp [Functor.map, Except.map]
  | ok a => simp [Functor.map, Except.map]

theorem mapError_eq_ok {ε' : Type} {f : ε → ε'} {x : Except ε α} {a : α} :
    x.mapError f = .ok a ↔ x = .ok a := by
  cases x with
  | error e => exact ⟨nofun, nofun⟩
  | ok b => rw [Except.mapError, Except.ok.injEq, Except.ok.injEq]

theorem foldlM_cons_eq_ok_iff {τ : Type} {f : τ → α → Except ε τ} {a : α} {l : List α} {s s' : τ} :
    (a :: l).foldlM f s = .ok s' ↔ ∃ s₁, f s a = .ok s₁ ∧ l.foldlM f s₁ = .ok s' := by
  rw [List.foldlM_cons]
  exact bind_eq_ok_iff

theorem exists_eq_error_iff {x : Except ε α} : (∃ e, x = .error e) ↔ ¬ ∃ a, x = .ok a := by
  cases x with
  | error e => exact ⟨fun _ => nofun, fun _ => ⟨e, rfl⟩⟩
  | ok a => exact ⟨nofun, fun h => absurd ⟨a, rfl⟩ h⟩

theorem exists_eq_ok_of_isSome {x : Except ε α} (h : x.toOption.isSome) : ∃ a, x = .ok a := by
  cases x with
  | error e => cases h
  | ok a => exact ⟨a, rfl⟩

theorem mapM_eq_ok_iff {f : α → Except ε β} {l : List α} {bs : List β} :
    l.mapM f = .ok bs ↔ List.Forall₂ (fun a b => f a = .ok b) l bs := by
  constructor
  · intro h
    induction l generalizing bs with
    | nil =>
      cases h
      exact .nil
    | cons a rest ih =>
      rw [List.mapM_cons] at h
      obtain ⟨b, hb, h⟩ := bind_eq_ok_iff.mp h
      obtain ⟨bs', hrest, h⟩ := bind_eq_ok_iff.mp h
      cases h
      exact .cons hb (ih hrest)
  · intro h
    induction h with
    | nil => rfl
    | cons hb _ ih =>
      rw [List.mapM_cons, hb, ih]
      rfl

theorem mapM_eq_some_iff {f : α → Option β} {l : List α} {bs : List β} :
    l.mapM f = some bs ↔ List.Forall₂ (fun a b => f a = some b) l bs := by
  induction l generalizing bs with
  | nil => simp [eq_comm]
  | cons a rest ih =>
    simp only [List.mapM_cons, Option.pure_def, Option.bind_eq_bind, Option.bind_eq_some_iff, Option.some.injEq,
      List.forall₂_cons_left_iff, ih]
    simp only [exists_and_left, eq_comm]

theorem exists_mem_of_forall₂ {R : α → β → Prop} {l : List α} {l' : List β}
    (h : List.Forall₂ R l l') {b : β} (hb : b ∈ l') : ∃ a ∈ l, R a b := by
  induction h with
  | nil => cases hb
  | @cons a b' rest rest' hab _ ih =>
    rcases List.mem_cons.mp hb with rfl | hb
    · exact ⟨a, by simp, hab⟩
    · obtain ⟨a', ha', hab'⟩ := ih hb
      exact ⟨a', by simp [ha'], hab'⟩

/-- What is related to an item of a list may be used together with the item's place in it. -/
theorem forall₂_with_mem {R : α → β → Prop} {l : List α} {l' : List β} (h : List.Forall₂ R l l') :
    List.Forall₂ (fun a b => a ∈ l ∧ R a b) l l' :=
  (List.forall₂_and_left l l').mpr ⟨fun _ ha => ha, h⟩

theorem exists_forall₂_iff {R : α → β → Prop} {l : List α} :
    (∃ l', List.Forall₂ R l l') ↔ ∀ a ∈ l, ∃ b, R a b := by
  induction l with
  | nil => exact ⟨fun _ => nofun, fun _ => ⟨[], .nil⟩⟩
  | cons a rest ih =>
    rw [List.forall_mem_cons, ← ih]
    constructor
    · rintro ⟨_, hall⟩
      obtain ⟨b, l', hab, hrest, -⟩ := List.forall₂_cons_left_iff.mp hall
      exact ⟨⟨b, hab⟩, l', hrest⟩
    · rintro ⟨⟨b, hab⟩, l', hrest⟩
      exact ⟨b :: l', .cons hab hrest⟩

theorem forall_mem_iff_of_forall₂ {P : α → Prop} {Q : β → Prop} {l : List α} {l' : List β}
    (h : List.Forall₂ (fun a b => P a ↔ Q b) l l') : (∀ a ∈ l, P a) ↔ ∀ b ∈ l', Q b := by
  induction h with
  | nil => simp
  | cons hab _ ih => rw [List.forall_mem_cons, List.forall_mem_cons, hab, ih]

theorem map_eq_map_iff_forall₂ {γ : Type} {f : α → γ} {g : β → γ} {l : List α} {l' : List β} :
    l.map f = l'.map g ↔ List.Forall₂ (fun a b => f a = g b) l l' := by
  rw [← List.forall₂_eq_eq_eq, List.forall₂_map_left_iff, List.forall₂_map_right_iff]

theorem exists_mapM {f : α → Except ε β} {R : α → β → Prop} {l : List α}
    (h : ∀ a ∈ l, ∃ b, f a = .ok b ∧ R a b) : ∃ bs, l.mapM f = .ok bs ∧ List.Forall₂ R l bs := by
  induction l with
  | nil => exact ⟨[], rfl, .nil⟩
  | cons a rest ih =>
    obtain ⟨b, hb, hab⟩ := h a (by simp)
    obtain ⟨bs, hbs, hrest⟩ := ih fun c hc => h c (by simp [hc])
    refine ⟨b :: bs, ?_, .cons hab hrest⟩
    rw [List.mapM_cons, hb, hbs]
    rfl

/-- Mapping there and back: each item comes back as `t` has it. -/
theorem exists_mapM_back {γ : Type} {f : α → Except ε β} {g : β → Except ε γ} {t : α → γ}
    {Q : β → Prop} {l : List α} (h : ∀ a ∈ l, ∃ b, f a = .ok b ∧ g b = .ok (t a) ∧ Q b) :
    ∃ bs, l.mapM f = .ok bs ∧ bs.mapM g = .ok (l.map t) ∧ ∀ b ∈ bs, Q b := by
  induction l with
  | nil => exact ⟨[], rfl, rfl, by simp⟩
  | cons a rest ih =>
    obtain ⟨b, hthere, hback, hb⟩ := h a (by simp)
    obtain ⟨bs, hthere', hback', hbs⟩ := ih fun c hc => h c (by simp [hc])
    refine ⟨b :: bs, ?_, ?_, by simpa using ⟨hb, hbs⟩⟩
    · rw [List.mapM_cons, hthere, hthere']
      rfl
    · rw [List.mapM_cons, hback, hback']
      rfl

theorem run_bind {σ : Type} (x : ExceptT ε (StateM σ) α) (f : α → ExceptT ε (StateM σ) β) (s : σ) :
    (x >>= f).run s = match x.run s with
      | (.ok a, s) => (f a).run s
      | (.error e, s) => (.error e, s) := by
  change ExceptT.bindCont f (x.run s).1 (x.run s).2 = _
  rcases x.run s with ⟨e | a, s'⟩ <;> rfl

/-- The same failure, or results in a relation. -/
inductive Agree (R : α → β → Prop) : Except ε α → Except ε β → Prop
  | error (e : ε) : Agree R (.error e) (.error e)
  | ok {a : α} {b : β} (h : R a b) : Agree R (.ok a) (.ok b)

variable {γ δ : Type} {R : α → β → Prop} {S : γ → δ → Prop}

theorem Agree.refl (x : Except ε α) : Agree Eq x x := by
  cases x with
  | error e => exact .error e
  | ok a => exact .ok rfl

theorem Agree.eq {x y : Except ε α} (h : Agree Eq x y) : x = y := by
  cases h with
  | error e => rfl
  | ok h => rw [h]

theorem Agree.bind {x : Except ε α} {y : Except ε β} {f : α → Except ε γ} {g : β → Except ε δ} (h : Agree R x y)
    (hnext : ∀ a b, R a b → Agree S (f a) (g b)) : Agree S (x >>= f) (y >>= g) := by
  cases h with
  | error e => exact .error e
  | ok h => exact hnext _ _ h

/-- Two actions that go on in step: from states in a relation they come to states in it again, with the
same failure or results in a relation. -/
def InStep {σ τ : Type} (ρ : σ → τ → Prop) (R : α → β → Prop) (x : ExceptT ε (StateM σ) α)
    (y : ExceptT ε (StateM τ) β) : Prop :=
  ∀ s t, ρ s t → Agree R (x.run s).1 (y.run t).1 ∧ ρ (x.run s).2 (y.run t).2

namespace InStep

variable {σ τ : Type} {ρ : σ → τ → Prop}

theorem bind {x : ExceptT ε (StateM σ) α} {y : ExceptT ε (StateM τ) β} {f : α → ExceptT ε (StateM σ) γ}
    {g : β → ExceptT ε (StateM τ) δ} (h : InStep ρ R x y) (hnext : ∀ a b, R a b → InStep ρ S (f a) (g b)) :
    InStep ρ S (x >>= f) (y >>= g) := by
  intro s t hst
  obtain ⟨hagree, hstates⟩ := h s t hst
  rw [run_bind, run_bind]
  revert hagree hstates
  generalize x.run s = p
  generalize y.run t = q
  obtain ⟨outcome, s'⟩ := p
  obtain ⟨outcome', t'⟩ := q
  intro hagree hstates
  cases hagree with
  | error e => exact ⟨.error e, hstates⟩
  | ok hab => exact hnext _ _ hab s' t' hstates

theorem lift {v : Except ε α} {w : Except ε β} (h : Agree R v w) :
    InStep ρ R (ExceptT.mk (pure v) : ExceptT ε (StateM σ) α) (ExceptT.mk (pure w) : ExceptT ε (StateM τ) β) :=
  fun _ _ hst => ⟨h, hst⟩

theorem get : InStep ρ ρ (MonadState.get : ExceptT ε (StateM σ) σ) (MonadState.get : ExceptT ε (StateM τ) τ) :=
  fun _ _ hst => ⟨.ok hst, hst⟩

theorem modify {f : σ → σ} {g : τ → τ} (h : ∀ s t, ρ s t → ρ (f s) (g t)) :
    InStep ρ Eq (modify f : ExceptT ε (StateM σ) PUnit) (modify g : ExceptT ε (StateM τ) PUnit) :=
  fun s t hst => ⟨.ok rfl, h s t hst⟩

end InStep

end QuantumKernels
