import Mathlib.Tactic

/-! Inversion of computations in `Except`: what a successful run of a bind, a
guard or a fold says about its parts. -/
namespace Fallible

universe u v
variable {ε : Type u} {α β σ : Type v}

/-- Refuse with `err` when `bad` holds, and go on otherwise. -/
def refuse (bad : Bool) (err : ε) : Except ε Unit :=
  if bad then .error err else .ok ()

/-- The value of an option, or the error of its absence. -/
def orRaise (x : Option α) (err : ε) : Except ε α :=
  match x with
  | some a => .ok a
  | none => .error err

@[simp] theorem bind_eq_ok {x : Except ε α} {f : α → Except ε β} {b : β} :
    (x >>= f) = .ok b ↔ ∃ a, x = .ok a ∧ f a = .ok b := by
  cases x with
  | error e => simp [bind, Except.bind]
  | ok a => simp [bind, Except.bind]

@[simp] theorem pure_eq_ok {a b : α} : (pure a : Except ε α) = .ok b ↔ a = b := by
  simp [pure, Except.pure]

@[simp] theorem ok_bind (a : α) (f : α → Except ε β) : (Except.ok a >>= f) = f a := rfl

@[simp] theorem error_bind (e : ε) (f : α → Except ε β) :
    ((Except.error e : Except ε α) >>= f) = .error e := rfl

@[simp] theorem map_eq_ok {x : Except ε α} {f : α → β} {b : β} :
    (f <$> x) = .ok b ↔ ∃ a, x = .ok a ∧ f a = b := by
  cases x with
  | error e => simp [Functor.map, Except.map]
  | ok a => simp [Functor.map, Except.map]

@[simp] theorem refuse_eq_ok {bad : Bool} {err : ε} {u : Unit} :
    refuse bad err = .ok u ↔ bad = false := by
  cases bad <;> simp [refuse]

@[simp] theorem orRaise_eq_ok {x : Option α} {err : ε} {a : α} :
    orRaise x err = .ok a ↔ x = some a := by
  cases x <;> simp [orRaise]

theorem exists_of_isOk {x : Except ε α} (h : x.isOk = true) : ∃ a, x = .ok a := by
  cases x with
  | error e => cases h
  | ok a => exact ⟨a, rfl⟩

theorem mem_toOption {x : Except ε α} {a : α} : a ∈ x.toOption ↔ x = .ok a := by
  cases x with
  | error e => simp [Except.toOption]
  | ok b => simp [Except.toOption]

/-- A successful fold is a chain of successful steps, so a relation that is
reflexive along the chain and kept by each step relates its two ends. -/
theorem foldlM_invariant {f : σ → α → Except ε σ} {P : σ → Prop} {xs : List α} {s t : σ}
    (step : ∀ s a t, a ∈ xs → P s → f s a = .ok t → P t)
    (h : xs.foldlM f s = .ok t) (hs : P s) : P t := by
  induction xs generalizing s with
  | nil =>
    have hst : s = t := by simpa [List.foldlM] using h
    exact hst ▸ hs
  | cons a xs ih =>
    obtain ⟨u, hu, ht⟩ : ∃ u, f s a = .ok u ∧ xs.foldlM f u = .ok t := by
      rw [List.foldlM_cons] at h
      exact bind_eq_ok.mp h
    have hstep : ∀ s b t, b ∈ xs → P s → f s b = .ok t → P t := by
      intro s b t hb
      exact step s b t (List.mem_cons_of_mem a hb)
    exact ih hstep ht (step s a u List.mem_cons_self hs hu)

/-- The same with the elements already folded in sight. -/
theorem foldlM_along {f : σ → α → Except ε σ} {P : List α → σ → Prop} {done xs : List α} {s t : σ}
    (step : ∀ done a s t, a ∈ xs → P done s → f s a = .ok t → P (done ++ [a]) t)
    (h : xs.foldlM f s = .ok t) (hs : P done s) : P (done ++ xs) t := by
  induction xs generalizing done s with
  | nil =>
    have hst : s = t := by simpa [List.foldlM] using h
    rw [List.append_nil]
    exact hst ▸ hs
  | cons a xs ih =>
    obtain ⟨u, hu, ht⟩ : ∃ u, f s a = .ok u ∧ xs.foldlM f u = .ok t := by
      rw [List.foldlM_cons] at h
      exact bind_eq_ok.mp h
    have hstep : ∀ done b s t, b ∈ xs → P done s → f s b = .ok t → P (done ++ [b]) t := by
      intro done b s t hb
      exact step done b s t (List.mem_cons_of_mem a hb)
    rw [List.append_cons]
    exact ih hstep ht (step done a s u List.mem_cons_self hs hu)

/-! ### Failures -/

/-- Whatever error `x` ends in is one of `P`. -/
def FailsAs (P : ε → Prop) (x : Except ε α) : Prop := ∀ e, x = .error e → P e

variable {P : ε → Prop}

theorem FailsAs.ok (a : α) : FailsAs P (.ok a : Except ε α) := by
  intro e h
  cases h

theorem FailsAs.refuse {bad : Bool} {err : ε} (h : P err) :
    FailsAs P (Fallible.refuse bad err) := by
  intro e heq
  cases bad with
  | false => cases heq
  | true => exact Except.error.inj heq ▸ h

theorem FailsAs.orRaise {x : Option α} {err : ε} (h : P err) :
    FailsAs P (Fallible.orRaise x err) := by
  intro e heq
  cases x with
  | none => exact Except.error.inj heq ▸ h
  | some a => cases heq

theorem FailsAs.bind {x : Except ε α} {f : α → Except ε β} (hx : FailsAs P x)
    (hf : ∀ a, FailsAs P (f a)) :
    FailsAs P (x >>= f) := by
  intro e h
  cases x with
  | error e₀ => exact hx e (congrArg Except.error (Except.error.inj h))
  | ok a => exact hf a e h

theorem FailsAs.foldlM {f : σ → α → Except ε σ} {xs : List α} {s : σ}
    (hf : ∀ s a, FailsAs P (f s a)) :
    FailsAs P (xs.foldlM f s) := by
  induction xs generalizing s with
  | nil => exact FailsAs.ok s
  | cons a xs ih =>
    rw [List.foldlM_cons]
    exact (hf s a).bind fun _ => ih

end Fallible
