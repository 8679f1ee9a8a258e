import Mathlib.Tactic

/-! Computations on a state that may fail and do not undo what they did, and what a
run of one says about its parts. -/
namespace Attempts

variable {σ ε α β : Type}

/-- A computation: the state it leaves and its value or error. -/
def Attempt (σ ε α : Type) : Type := σ → σ × Except ε α

instance : Monad (Attempt σ ε) where
  pure a := fun s => (s, .ok a)
  bind x f := fun s =>
    match x s with
    | (t, .ok a) => f a t
    | (t, .error e) => (t, .error e)

namespace Attempt

/-- A computation that only looks. -/
def ask (f : σ → Except ε α) : Attempt σ ε α := fun s => (s, f s)

/-- A change of state that cannot fail. -/
def alter (f : σ → σ) : Attempt σ ε Unit := fun s => (f s, .ok ())

/-- Nothing, unless the condition holds. -/
def only (c : Bool) (x : Attempt σ ε Unit) : Attempt σ ε Unit := if c then x else pure ()

end Attempt

open Attempt

variable {x : Attempt σ ε α} {f : α → Attempt σ ε β} {s t : σ} {a : α} {b : β} {e : ε}

theorem bind_ok_iff : (x >>= f) s = (t, .ok b) ↔ ∃ a u, x s = (u, .ok a) ∧ f a u = (t, .ok b) := by
  change (match x s with
    | (t, .ok a) => f a t
    | (t, .error e) => (t, .error e)) = (t, .ok b) ↔ _
  rcases hx : x s with ⟨u, e | a⟩
  · simp
  · simp

theorem bind_error_iff : (x >>= f) s = (t, .error e) ↔
    x s = (t, .error e) ∨ ∃ a u, x s = (u, .ok a) ∧ f a u = (t, .error e) := by
  change (match x s with
    | (t, .ok a) => f a t
    | (t, .error e) => (t, .error e)) = (t, .error e) ↔ _
  rcases hx : x s with ⟨u, e' | a⟩
  · simp
  · simp

theorem bind_of_ok {u : σ} (h : x s = (u, .ok a)) : (x >>= f) s = f a u := by
  change (match x s with
    | (t, .ok a) => f a t
    | (t, .error e) => (t, .error e)) = _
  rw [h]

theorem bind_of_error {u : σ} (h : x s = (u, .error e)) : (x >>= f) s = (u, .error e) := by
  change (match x s with
    | (t, .ok a) => f a t
    | (t, .error e) => (t, .error e)) = _
  rw [h]

theorem bind_bind {γ : Type} {g : β → Attempt σ ε γ} :
    ((x >>= f) >>= g) = (x >>= fun a => f a >>= g) := by
  funext s
  rcases h : x s with ⟨u, e | a⟩
  · rw [bind_of_error h, bind_of_error (bind_of_error h)]
  · rw [bind_of_ok h]
    rcases hf : f a u with ⟨w, e | b⟩
    · rw [bind_of_error hf, bind_of_error ((bind_of_ok h).trans hf)]
    · rw [bind_of_ok hf, bind_of_ok ((bind_of_ok h).trans hf)]

theorem ret_bind : ((pure a : Attempt σ ε α) >>= f) = f a := rfl

@[simp] theorem pure_run (a : α) (s : σ) : (pure a : Attempt σ ε α) s = (s, .ok a) := rfl

@[simp] theorem ask_run (g : σ → Except ε α) (s : σ) : ask g s = (s, g s) := rfl

@[simp] theorem alter_run (g : σ → σ) (s : σ) : (alter g : Attempt σ ε Unit) s = (g s, .ok ()) :=
  rfl

/-- What a computation keeps, whether or not it fails. -/
def Keeps (P : σ → Prop) (x : Attempt σ ε α) : Prop := ∀ s, P s → P (x s).1

theorem Keeps.pure {P : σ → Prop} (a : α) : Keeps P (pure a : Attempt σ ε α) := fun _ h => h

theorem Keeps.ask {P : σ → Prop} (g : σ → Except ε α) : Keeps P (ask g) := fun _ h => h

theorem Keeps.alter {P : σ → Prop} {g : σ → σ} (hg : ∀ s, P s → P (g s)) :
    Keeps P (alter g : Attempt σ ε Unit) := hg

theorem Keeps.bind {P : σ → Prop} (hx : Keeps P x) (hf : ∀ a, Keeps P (f a)) :
    Keeps P (x >>= f) := by
  intro s hs
  rcases h : x s with ⟨u, e | a⟩
  · rw [bind_of_error h]
    have hu := hx s hs
    rwa [h] at hu
  · rw [bind_of_ok h]
    have hu := hx s hs
    rw [h] at hu
    exact hf a u hu

theorem Keeps.only {P : σ → Prop} {c : Bool} {y : Attempt σ ε Unit} (hy : Keeps P y) :
    Keeps P (only c y) := by
  rw [Attempt.only]
  split
  · exact hy
  · exact Keeps.pure ()

end Attempts
