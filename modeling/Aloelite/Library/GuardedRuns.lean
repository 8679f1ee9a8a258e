import Mathlib.Tactic
import Mathlib.Logic.Relation

/-! Runs of a total step function under a guard on the state and the label, and
the induction that carries an invariant along them. -/
namespace GuardedRuns

variable {σ ι : Type*} (step : σ → ι → σ) (guard : σ → ι → Prop)

/-- One guarded step. -/
def Next (s t : σ) : Prop := ∃ i, guard s i ∧ t = step s i

/-- Any number of guarded steps. -/
def Run : σ → σ → Prop := Relation.ReflTransGen (Next step guard)

/-- Every label of a list meets the guard in the state it is taken in. -/
def Guards : σ → List ι → Prop
  | _, [] => True
  | s, i :: is => guard s i ∧ Guards (step s i) is

/-- Guards that can be checked can be checked along a list. -/
instance Guards.decidable [∀ s i, Decidable (guard s i)] :
    ∀ s (is : List ι), Decidable (Guards step guard s is)
  | _, [] => isTrue trivial
  | s, i :: is =>
    have := Guards.decidable (step s i) is
    inferInstanceAs (Decidable (guard s i ∧ Guards step guard (step s i) is))

variable {step guard} {s t u : σ} {i : ι}

theorem Run.refl (s : σ) : Run step guard s s := Relation.ReflTransGen.refl

theorem Run.snoc (h : Run step guard s t) (hg : guard t i) : Run step guard s (step t i) :=
  Relation.ReflTransGen.tail h ⟨i, hg, rfl⟩

theorem Run.trans (h : Run step guard s t) (h' : Run step guard t u) : Run step guard s u :=
  Relation.ReflTransGen.trans h h'

theorem Run.foldl {is : List ι} (h : Guards step guard s is) :
    Run step guard s (is.foldl step s) := by
  induction is generalizing s with
  | nil => exact Run.refl s
  | cons i is ih =>
    obtain ⟨hi, his⟩ := h
    exact ((Run.refl s).snoc hi).trans (ih his)

/-- Two guards that agree where an invariant holds, which the first one keeps. -/
theorem Guards.congr {guard' : σ → ι → Prop} {P : σ → Prop}
    (hiff : ∀ s i, P s → (guard s i ↔ guard' s i)) (hstep : ∀ s i, P s → guard s i → P (step s i))
    (hs : P s) {is : List ι} :
    Guards step guard s is ↔ Guards step guard' s is := by
  induction is generalizing s with
  | nil => exact Iff.rfl
  | cons i is ih =>
    constructor
    · rintro ⟨hi, his⟩
      exact ⟨(hiff s i hs).mp hi, (ih (hstep s i hs hi)).mp his⟩
    · rintro ⟨hi, his⟩
      have hi' := (hiff s i hs).mpr hi
      exact ⟨hi', (ih (hstep s i hs hi')).mpr his⟩

/-- What every guarded step keeps holds along every run. -/
theorem Run.invariant {P : σ → Prop} (hstep : ∀ s i, guard s i → P s → P (step s i))
    (h : Run step guard s t) (hs : P s) : P t := by
  induction h with
  | refl => exact hs
  | tail _ hnext ih =>
    obtain ⟨i, hg, rfl⟩ := hnext
    exact hstep _ i hg ih

/-- A run under a guard is a run under a weaker one. -/
theorem Run.weaken {guard' : σ → ι → Prop} (hw : ∀ s i, guard s i → guard' s i)
    (h : Run step guard s t) : Run step guard' s t := by
  refine Relation.ReflTransGen.mono ?_ s t h
  intro a b hnext
  obtain ⟨i, hg, rfl⟩ := hnext
  exact ⟨i, hw a i hg, rfl⟩

end GuardedRuns
