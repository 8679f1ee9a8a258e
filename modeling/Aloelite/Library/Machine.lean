import Mathlib.Tactic

/-! Machine integers as integers with a range, the builds that treat a value out of
range differently, and computations that give a value, refuse or panic. -/
namespace Machine

/-- A machine integer type, in two's complement when it is signed. -/
structure IntType where
  bits : ℕ
  signed : Bool
  pos : 0 < bits
  deriving DecidableEq

namespace IntType

variable (T : IntType) (x : ℤ)

def low : ℤ := if T.signed then -2 ^ (T.bits - 1) else 0

def high : ℤ := T.low + 2 ^ T.bits - 1

/-- The values of the type. -/
def Holds : Prop := T.low ≤ x ∧ x ≤ T.high

instance : Decidable (T.Holds x) := inferInstanceAs (Decidable (_ ∧ _))

/-- The value of the type that agrees with `x` in the low bits. -/
def wrap : ℤ := T.low + (x - T.low) % 2 ^ T.bits

variable {T x}

end IntType

/-- What an addition or a cast does with a value out of range: a release build wraps
both, a debug build panics at the addition. The exact build is no build of a compiler:
it panics at the cast as well, so it panics as soon as any value is lost. -/
inductive Build
  | release
  | debug
  | exact
  deriving DecidableEq

/-- The result of a computation that may refuse with an error or panic. -/
inductive Outcome (ε α : Type)
  | done (a : α)
  | refused (e : ε)
  | panicked
  deriving DecidableEq

variable {ε α β γ : Type}

namespace Outcome

instance : Monad (Outcome ε) where
  pure := done
  bind x f :=
    match x with
    | done a => f a
    | refused e => refused e
    | panicked => panicked

end Outcome

open Outcome

variable {x : Outcome ε α} {f : α → Outcome ε β} {a : α} {b : β} {e : ε}

@[simp] theorem done_bind (a : α) (f : α → Outcome ε β) : (done a >>= f) = f a := rfl

@[simp] theorem refused_bind (e : ε) (f : α → Outcome ε β) : (refused e >>= f) = refused e := rfl

@[simp] theorem panicked_bind (f : α → Outcome ε β) : ((panicked : Outcome ε α) >>= f) = panicked :=
  rfl

@[simp] theorem pure_eq_done (a : α) : (pure a : Outcome ε α) = done a := rfl

/-- A computation that does not refuse panics when what follows it does. -/
theorem bind_panics (hx : ∀ e, x ≠ refused e) (hf : ∀ a, x = done a → f a = panicked) :
    (x >>= f) = panicked := by
  cases x with
  | done a => exact hf a rfl
  | refused e => exact absurd rfl (hx e)
  | panicked => rfl

namespace Build

variable (B : Build) (T : IntType) (n : ℤ)

/-- `+`, `-` and `*`, at their mathematical result. -/
def arith : Outcome ε ℤ :=
  if T.Holds n then done n else if B = release then done (T.wrap n) else panicked

/-- `as`, at the value that is cast. -/
def cast : Outcome ε ℤ :=
  if T.Holds n then done n else if B = exact then panicked else done (T.wrap n)

variable {B T n}

theorem arith_of_holds (h : T.Holds n) : (B.arith T n : Outcome ε ℤ) = done n := if_pos h

theorem cast_of_holds (h : T.Holds n) : (B.cast T n : Outcome ε ℤ) = done n := if_pos h

theorem arith_exact (h : ¬T.Holds n) : (exact.arith T n : Outcome ε ℤ) = panicked := by
  rw [arith, if_neg h, if_neg (by decide)]

theorem cast_exact (h : ¬T.Holds n) : (exact.cast T n : Outcome ε ℤ) = panicked := by
  rw [cast, if_neg h, if_pos rfl]

end Build

/-! Vectors and slices. No vector is longer than `cap`. -/

variable (cap : ℕ) (v w : List α) (n lo hi : ℤ) (z : α)

/-- A vector of its own for `v`. -/
def toVec : Outcome ε (List α) := if v.length ≤ cap then done v else panicked

/-- `v.resize(n, z)` -/
def resize : Outcome ε (List α) :=
  if n ≤ v.length then done (v.take n.toNat)
  else if n ≤ cap then done (v ++ List.replicate (n.toNat - v.length) z)
  else panicked

/-- `v.extend_from_slice(w)` -/
def extendFromSlice : Outcome ε (List α) :=
  if v.length + w.length ≤ cap then done (v ++ w) else panicked

/-- `&v[..n]` -/
def sliceUpTo : Outcome ε (List α) := if n ≤ v.length then done (v.take n.toNat) else panicked

/-- `v[lo..hi].copy_from_slice(w)` -/
def copyFromSlice : Outcome ε (List α) :=
  if lo ≤ hi ∧ hi ≤ v.length ∧ hi - lo = w.length then
    done (v.take lo.toNat ++ w ++ v.drop hi.toNat) else panicked

/-- `v.drain(..n)`: what is taken out and what stays. -/
def drainUpTo : Outcome ε (List α × List α) :=
  if n ≤ v.length then done (v.take n.toNat, v.drop n.toNat) else panicked

variable {cap v w n lo hi z}

theorem resize_done (h0 : 0 ≤ n) (h : n ≤ cap) :
    ∃ u, (resize cap v n z : Outcome ε (List α)) = done u ∧ (u.length : ℤ) = n := by
  rw [resize]
  by_cases hle : n ≤ v.length
  · refine ⟨_, if_pos hle, ?_⟩
    rw [List.length_take]
    omega
  · refine ⟨_, (if_neg hle).trans (if_pos h), ?_⟩
    rw [List.length_append, List.length_replicate]
    omega

theorem resize_panics (hv : v.length ≤ cap) (h : cap < n) :
    (resize cap v n z : Outcome ε (List α)) = panicked := by
  rw [resize, if_neg (by omega), if_neg (by omega)]

theorem copyFromSlice_done (hlo : 0 ≤ lo) (hhi : hi ≤ v.length) (h : hi = lo + w.length) :
    ∃ u, (copyFromSlice v w lo hi : Outcome ε (List α)) = done u ∧ u.length = v.length := by
  refine ⟨_, if_pos ⟨by omega, hhi, by omega⟩, ?_⟩
  rw [List.length_append, List.length_append, List.length_take, List.length_drop]
  omega

end Machine
