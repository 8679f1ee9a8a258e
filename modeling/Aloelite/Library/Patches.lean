import Aloelite.Library.Numbered

/-! Overwriting part of a list, past its end too, where a filler closes the gap; and
the pieces of the result, of which only those the write meets are cut anew. -/
namespace Patches

open Pieces Numbered

variable {α β : Type*} {z : α} {xs ys ws : List α} {off : ℕ}

/-- `xs` with `ys` written at `off`. -/
def patch (z : α) (xs : List α) (off : ℕ) (ys : List α) : List α :=
  let xs := xs ++ List.replicate (off - xs.length) z
  xs.take off ++ ys ++ xs.drop (off + ys.length)

theorem map_patch (g : α → β) :
    (patch z xs off ys).map g = patch (g z) (xs.map g) off (ys.map g) := by
  simp [patch, List.map_take, List.map_drop]

theorem length_patch : (patch z xs off ys).length = max xs.length (off + ys.length) := by
  simp only [patch, List.length_append, List.length_take, List.length_drop, List.length_replicate]
  omega

/-- What lies before the offset stays. -/
theorem patch_append_of_le (h : xs.length ≤ off) :
    patch z (xs ++ ws) off ys = xs ++ patch z ws (off - xs.length) ys := by
  have hgap : off - (xs ++ ws).length = off - xs.length - ws.length := by
    rw [List.length_append]
    omega
  have hend : off + ys.length - xs.length = off - xs.length + ys.length := by omega
  rw [patch, patch, hgap, List.append_assoc xs, List.take_append, List.drop_append,
    List.take_of_length_le h, List.drop_eq_nil_of_le (by omega), List.nil_append, hend,
    List.append_assoc, List.append_assoc, List.append_assoc]

/-- What lies after the written part stays. -/
theorem patch_append_of_ge (h : off + ys.length ≤ xs.length) :
    patch z (xs ++ ws) off ys = patch z xs off ys ++ ws := by
  have hgap : off - (xs ++ ws).length = 0 := by
    rw [List.length_append]
    omega
  have hgap' : off - xs.length = 0 := by omega
  rw [patch, patch, hgap, hgap', List.replicate_zero, List.append_nil, List.append_nil,
    List.take_append_of_le_length (by omega), List.drop_append_of_le_length h,
    List.append_assoc, List.append_assoc, List.append_assoc]

/-- Pieces below `lo` and from `hi` on are those of the old list, the ones between
are cut from the patched window. -/
theorem numbered_pieces_patch {n lo hi : ℕ} (hn : 0 < n) (hle : lo ≤ hi) (hlo : lo * n ≤ xs.length)
    (hoff : lo * n ≤ off) (hend : off + ys.length ≤ hi * n) :
    numbered 0 (pieces n (xs.take (lo * n))) ++
        numbered lo (pieces n (patch z ((xs.take (hi * n)).drop (lo * n)) (off - lo * n) ys)) ++
        numbered hi (pieces n (xs.drop (hi * n))) =
      numbered 0 (pieces n (patch z xs off ys)) := by
  have hmul : lo * n ≤ hi * n := Nat.mul_le_mul_right n hle
  have hfirst : (xs.take (lo * n)).length = lo * n := by
    rw [List.length_take]
    omega
  have hsplit : xs.take (lo * n) ++ (xs.take (hi * n)).drop (lo * n) = xs.take (hi * n) := by
    have hhead : (xs.take (hi * n)).take (lo * n) = xs.take (lo * n) := by
      rw [List.take_take, Nat.min_eq_left hmul]
    rw [← hhead, List.take_append_drop]
  have hwindow : xs.take (lo * n) ++ patch z ((xs.take (hi * n)).drop (lo * n)) (off - lo * n) ys =
      patch z (xs.take (hi * n)) off ys := by
    have hpatch : patch z (xs.take (lo * n) ++ (xs.take (hi * n)).drop (lo * n)) off ys =
        xs.take (lo * n) ++
          patch z ((xs.take (hi * n)).drop (lo * n)) (off - (xs.take (lo * n)).length) ys :=
      patch_append_of_le (hfirst.le.trans hoff)
    rw [hsplit, hfirst] at hpatch
    exact hpatch.symm
  rw [numbered_pieces_append hn hfirst, hwindow]
  by_cases hlast : hi * n ≤ xs.length
  · -- the window is followed by old pieces, so it is full
    have htake : (xs.take (hi * n)).length = hi * n := by
      rw [List.length_take]
      omega
    have hfull : (patch z (xs.take (hi * n)) off ys).length = hi * n := by
      rw [length_patch, htake]
      omega
    have hafter : patch z (xs.take (hi * n) ++ xs.drop (hi * n)) off ys =
        patch z (xs.take (hi * n)) off ys ++ xs.drop (hi * n) :=
      patch_append_of_ge (hend.trans htake.ge)
    rw [List.take_append_drop] at hafter
    rw [numbered_pieces_append hn hfull, ← hafter]
  · have hall : xs.length ≤ hi * n := by omega
    rw [List.drop_eq_nil_of_le hall, pieces_nil, numbered_nil, List.append_nil,
      List.take_of_length_le hall]

end Patches
