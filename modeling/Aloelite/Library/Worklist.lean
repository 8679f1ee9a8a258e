import Mathlib.Data.List.Basic
import Mathlib.Tactic

/-! Loops over a first-in first-out worklist: each item taken changes a state and adds its
items at the end. -/
namespace Worklist

variable {σ ι : Type*} (visit : ι → σ → σ × List ι)

/-- The loop, for a number of turns at most. -/
def sweep : ℕ → List ι × σ → List ι × σ
  | 0, p => p
  | _ + 1, ([], s) => ([], s)
  | turns + 1, (i :: queue, s) => sweep turns (queue ++ (visit i s).2, (visit i s).1)

variable {visit} {P : List ι → σ → Prop} {queue queue' : List ι} {s s' : σ} {i : ι}

theorem sweep_nil (turns : ℕ) : sweep visit turns ([], s) = ([], s) := by
  cases turns with
  | zero => rfl
  | succ turns => rfl

theorem sweep_add (m n : ℕ) (p : List ι × σ) :
    sweep visit (m + n) p = sweep visit n (sweep visit m p) := by
  induction m generalizing p with
  | zero => rw [Nat.zero_add, sweep]
  | succ m ih =>
    obtain ⟨queue, s⟩ := p
    cases queue with
    | nil => rw [sweep_nil, sweep_nil, sweep_nil]
    | cons i queue => rw [Nat.succ_add, sweep, sweep, ih]

/-- What every visit keeps holds after any number of turns. -/
theorem sweep_invariant
    (hstep : ∀ i queue s, P (i :: queue) s → P (queue ++ (visit i s).2) (visit i s).1) (turns : ℕ)
    (h : P queue s) : P (sweep visit turns (queue, s)).1 (sweep visit turns (queue, s)).2 := by
  induction turns generalizing queue s with
  | zero => exact h
  | succ turns ih =>
    cases queue with
    | nil => exact h
    | cons i queue => exact ih (hstep i queue s h)

variable (visit) in
/-- What is in the queue comes to its head. -/
theorem sweep_reaches (h : i ∈ queue) :
    ∃ turns queue' s', sweep visit turns (queue, s) = (i :: queue', s') := by
  obtain ⟨before, after, rfl⟩ := List.append_of_mem h
  clear h
  induction before generalizing after s with
  | nil => exact ⟨0, after, s, rfl⟩
  | cons j before ih =>
    obtain ⟨turns, queue', s', hsweep⟩ := ih (s := (visit j s).1) (after ++ (visit j s).2)
    refine ⟨turns + 1, queue', s', ?_⟩
    rw [List.cons_append, sweep, List.append_assoc, List.cons_append]
    exact hsweep

/-- From a state of the loop on, what is in its queue is visited. -/
theorem sweep_visits {turns : ℕ} {p : List ι × σ} (hsweep : sweep visit turns p = (queue, s))
    (h : i ∈ queue) :
    ∃ turns' queue' s', sweep visit turns' p = (i :: queue', s') ∧
      sweep visit (turns' + 1) p = (queue' ++ (visit i s').2, (visit i s').1) := by
  obtain ⟨more, queue', s', hmore⟩ := sweep_reaches visit (s := s) h
  have hreach : sweep visit (turns + more) p = (i :: queue', s') := by
    rw [sweep_add, hsweep, hmore]
  refine ⟨turns + more, queue', s', hreach, ?_⟩
  rw [sweep_add, hreach]
  rfl

end Worklist
