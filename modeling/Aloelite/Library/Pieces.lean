import Mathlib.Tactic

/-! Cutting a list into pieces of a fixed size, the last one possibly shorter,
and putting them together again. -/
namespace Pieces

variable {α : Type*}

/-- `[xs[i : i + n] for i in range(0, len(xs), n)]` -/
def pieces (n : ℕ) (xs : List α) : List (List α) :=
  (List.range ((xs.length + n - 1) / n)).map (fun i => (xs.drop (i * n)).take n)

variable {n : ℕ} {xs ys : List α}

theorem length_pieces : (pieces n xs).length = (xs.length + n - 1) / n := by
  simp [pieces]

theorem length_getElem?_pieces {i : ℕ} {p : List α} (h : (pieces n xs)[i]? = some p) :
    p.length = min n (xs.length - i * n) := by
  rw [pieces, List.getElem?_map, Option.map_eq_some_iff] at h
  obtain ⟨j, hj, rfl⟩ := h
  obtain ⟨hlt, rfl⟩ := List.getElem?_eq_some_iff.mp hj
  rw [List.getElem_range, List.length_take, List.length_drop]

theorem map_pieces {β : Type*} (f : α → β) :
    (pieces n xs).map (List.map f) = pieces n (xs.map f) := by
  simp [pieces]

@[simp] theorem pieces_nil : pieces n ([] : List α) = [] := by
  simp [pieces, Nat.eq_zero_or_pos n]

/-- A cut at a multiple of the piece size cuts the pieces. -/
theorem pieces_append (hn : 0 < n) {k : ℕ} (hk : xs.length = k * n) :
    pieces n (xs ++ ys) = pieces n xs ++ pieces n ys := by
  have hx : (xs.length + n - 1) / n = k := by
    rw [hk, Nat.add_sub_assoc hn, Nat.mul_comm, Nat.mul_add_div hn,
      Nat.div_eq_of_lt (by omega : n - 1 < n), Nat.add_zero]
  have hxy : ((xs ++ ys).length + n - 1) / n = k + (ys.length + n - 1) / n := by
    rw [List.length_append, hk, show k * n + ys.length + n - 1 = n * k + (ys.length + n - 1) by
      rw [Nat.mul_comm]; omega, Nat.mul_add_div hn]
  rw [pieces, pieces, pieces, hxy, hx, List.range_add, List.map_append, List.map_map]
  congr 1
  · apply List.map_congr_left
    intro i hi
    have hi' : i < k := List.mem_range.mp hi
    have hle : i * n + n ≤ xs.length := by
      rw [hk]
      calc i * n + n = (i + 1) * n := by ring
        _ ≤ k * n := Nat.mul_le_mul_right n hi'
    rw [List.drop_append_of_le_length (by omega), List.take_append_of_le_length]
    rw [List.length_drop]
    omega
  · apply List.map_congr_left
    intro i _
    have hle : xs.length ≤ (k + i) * n := by
      rw [hk]
      exact Nat.mul_le_mul_right n (Nat.le_add_right k i)
    simp only [Function.comp_apply]
    rw [List.drop_append, List.drop_eq_nil_of_le hle, List.nil_append, hk]
    congr 2
    rw [Nat.add_mul]
    omega

/-- A short non-empty list is one piece. -/
theorem pieces_of_le (hn : xs ≠ []) (hle : xs.length ≤ n) : pieces n xs = [xs] := by
  have hpos : 0 < xs.length := List.length_pos_iff.mpr hn
  have hone : (xs.length + n - 1) / n = 1 := by
    apply Nat.div_eq_of_lt_le
    · omega
    · omega
  simp [pieces, hone, List.take_of_length_le hle]

theorem flatten_pieces (hn : 0 < n) (xs : List α) : (pieces n xs).flatten = xs := by
  induction h : xs.length using Nat.strong_induction_on generalizing xs with
  | _ m ih =>
    by_cases hle : xs.length ≤ n
    · by_cases hnil : xs = []
      · simp [hnil]
      · simp [pieces_of_le hnil hle]
    · have htake : (xs.take n).length = 1 * n := by rw [List.length_take]; omega
      have hne : xs.take n ≠ [] := by
        apply List.ne_nil_of_length_pos
        omega
      rw [← List.take_append_drop n xs, pieces_append hn htake,
        pieces_of_le hne (by omega), List.flatten_append,
        ih (xs.drop n).length (by rw [List.length_drop]; omega) _ rfl]
      simp

theorem pieces_singleton_append (hn : 0 < n) (hx : xs.length = n) :
    pieces n (xs ++ ys) = xs :: pieces n ys := by
  have hne : xs ≠ [] := List.ne_nil_of_length_pos (by omega)
  rw [pieces_append hn (show xs.length = 1 * n by omega), pieces_of_le hne hx.le]
  rfl

theorem length_pieces_of_mul (hn : 0 < n) {k : ℕ} (hk : xs.length = k * n) :
    (pieces n xs).length = k := by
  rw [length_pieces, hk, Nat.add_sub_assoc hn, Nat.mul_comm, Nat.mul_add_div hn,
    Nat.div_eq_of_lt (by omega : n - 1 < n), Nat.add_zero]

/-- The first `k` pieces are the pieces of the first `k * n` elements. -/
theorem take_pieces (hn : 0 < n) {k : ℕ} (hk : k * n ≤ xs.length) :
    (pieces n xs).take k = pieces n (xs.take (k * n)) := by
  have hlen : (xs.take (k * n)).length = k * n := by rw [List.length_take]; omega
  conv_lhs => rw [← List.take_append_drop (k * n) xs]
  rw [pieces_append hn hlen, List.take_append_of_le_length (length_pieces_of_mul hn hlen).ge,
    List.take_of_length_le (length_pieces_of_mul hn hlen).le]

theorem drop_pieces (hn : 0 < n) {k : ℕ} (hk : k * n ≤ xs.length) :
    (pieces n xs).drop k = pieces n (xs.drop (k * n)) := by
  have hlen : (xs.take (k * n)).length = k * n := by rw [List.length_take]; omega
  conv_lhs => rw [← List.take_append_drop (k * n) xs]
  rw [pieces_append hn hlen, List.drop_append_of_le_length (length_pieces_of_mul hn hlen).ge,
    List.drop_eq_nil_of_le (length_pieces_of_mul hn hlen).le, List.nil_append]

/-- The first piece and the rest. -/
theorem pieces_eq_cons (hn : 0 < n) (hx : xs ≠ []) :
    pieces n xs = xs.take n :: pieces n (xs.drop n) := by
  by_cases hle : xs.length ≤ n
  · rw [pieces_of_le hx hle, List.take_of_length_le hle, List.drop_eq_nil_of_le hle, pieces_nil]
  · have htake : (xs.take n).length = n := by
      rw [List.length_take]
      omega
    conv_lhs => rw [← List.take_append_drop n xs]
    exact pieces_singleton_append hn htake

/-- All elements lie in the first `k` pieces, when `k` pieces have room for
them. -/
theorem length_pieces_le (hn : 0 < n) {k : ℕ} (hk : xs.length ≤ k * n) :
    (pieces n xs).length ≤ k := by
  have hlt : xs.length + n - 1 < (k + 1) * n := by
    have hmul : (k + 1) * n = k * n + n := Nat.succ_mul k n
    omega
  rw [length_pieces]
  exact Nat.le_of_lt_succ (Nat.div_lt_of_lt_mul (Nat.mul_comm n (k + 1) ▸ hlt))

theorem pieces_take (hn : 0 < n) (k : ℕ) : pieces n (xs.take (k * n)) = (pieces n xs).take k := by
  by_cases hk : k * n ≤ xs.length
  · exact (take_pieces hn hk).symm
  · have hle : xs.length ≤ k * n := by omega
    rw [List.take_of_length_le hle, List.take_of_length_le (length_pieces_le hn hle)]

theorem pieces_drop (hn : 0 < n) (k : ℕ) : pieces n (xs.drop (k * n)) = (pieces n xs).drop k := by
  by_cases hk : k * n ≤ xs.length
  · exact (drop_pieces hn hk).symm
  · have hle : xs.length ≤ k * n := by omega
    rw [List.drop_eq_nil_of_le hle, List.drop_eq_nil_of_le (length_pieces_le hn hle), pieces_nil]

/-- A range of pieces, put together. -/
theorem flatten_range (hn : 0 < n) (a b : ℕ) :
    (((pieces n xs).take b).drop a).flatten = (xs.take (b * n)).drop (a * n) := by
  rw [← pieces_take hn, ← pieces_drop hn, flatten_pieces hn]

end Pieces
