import Mathlib.Tactic
import Mathlib.Data.List.Lex

/-! Numerals of a fixed width, highest digit first. Their order as texts is the
order of the numbers, and a text made of fields of fixed width compares field by
field. -/
namespace Numerals

section

variable {α : Type*} (digit : ℕ → α) (b : ℕ)

/-- The `width` lowest digits of a number in base `b`. -/
def numeral : ℕ → ℕ → List α
  | 0, _ => []
  | width + 1, n => numeral width (n / b) ++ [digit (n % b)]

variable {digit b} {width m n : ℕ}

@[simp] theorem length_numeral : (numeral digit b width n).length = width := by
  induction width generalizing n with
  | zero => rfl
  | succ width ih => simp [numeral, ih]

end

section

variable {α : Type*} {r : α → α → Prop}

/-- Of two texts that start with fields of one width, the fields decide. -/
theorem lex_append {x y : List α} (h : List.Lex r x y) (hlen : x.length = y.length) (u v : List α) :
    List.Lex r (x ++ u) (y ++ v) := by
  induction h with
  | nil => simp at hlen
  | cons _ ih => exact .cons (ih (by simpa using hlen))
  | rel hr => exact .rel hr

/-- A field that is the same on both sides decides nothing. -/
theorem lex_append_left {x y : List α} (h : List.Lex r x y) (u : List α) :
    List.Lex r (u ++ x) (u ++ y) := by
  induction u with
  | nil => exact h
  | cons _ _ ih => exact .cons ih

/-- Two texts of one length keep their order when one text is put into both at
one place. -/
theorem lex_insert {x y : List α} (h : List.Lex r x y) (hlen : x.length = y.length) (k : ℕ)
    (u : List α) : List.Lex r (x.take k ++ u ++ x.drop k) (y.take k ++ u ++ y.drop k) := by
  induction h generalizing k with
  | nil => simp at hlen
  | cons hl ih =>
    cases k with
    | zero =>
      simp only [List.take_zero, List.nil_append, List.drop_zero]
      exact lex_append_left (.cons hl) u
    | succ k => exact .cons (ih (by simpa using hlen) k)
  | rel hr =>
    cases k with
    | zero =>
      simp only [List.take_zero, List.nil_append, List.drop_zero]
      exact lex_append_left (.rel hr) u
    | succ k => exact .rel hr

variable {digit : ℕ → α} {b width m n : ℕ}

/-- The numerals of two numbers of the width stand in the order of the numbers. -/
theorem numeral_lex (hd : ∀ i j, i < j → j < b → r (digit i) (digit j)) (hlt : m < n)
    (hn : n < b ^ width) : List.Lex r (numeral digit b width m) (numeral digit b width n) := by
  induction width generalizing m n with
  | zero => simp at hn; omega
  | succ width ih =>
    have hb : 0 < b := by
      rcases Nat.eq_zero_or_pos b with h0 | h0
      · simp [h0] at hn
      · exact h0
    have hhigh : n / b < b ^ width := by
      apply Nat.div_lt_of_lt_mul
      rwa [← pow_succ']
    have hle : m / b ≤ n / b := Nat.div_le_div_right hlt.le
    rcases Nat.lt_or_eq_of_le hle with hq | hq
    · exact lex_append (ih hq hhigh) (by simp) _ _
    · -- equal high digits: the lowest ones differ
      have hm' := Nat.div_add_mod m b
      have hn' := Nat.div_add_mod n b
      rw [hq] at hm'
      have hmod : m % b < n % b := by omega
      simp only [numeral, hq]
      exact lex_append_left (.rel (hd _ _ hmod (Nat.mod_lt _ hb))) _

end

end Numerals
