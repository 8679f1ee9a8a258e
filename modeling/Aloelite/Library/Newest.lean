import Mathlib.Tactic

/-! Strictly descending lists as sets with a newest-first order: ranks and the
first few elements. -/
namespace Newest

variable {α : Type*} [LinearOrder α] {xs ys : List α} {a : α} {m : ℕ}

/-- The number of elements at or above `a`. -/
def rank (xs : List α) (a : α) : ℕ := (xs.filter (fun x => a ≤ x)).length

theorem rank_perm (h : xs.Perm ys) : rank xs a = rank ys a :=
  (h.filter _).length_eq

/-- In a descending list the first `m` elements are those of rank at most `m`. -/
theorem mem_take_iff (h : xs.Pairwise (· > ·)) : a ∈ xs.take m ↔ a ∈ xs ∧ rank xs a ≤ m := by
  induction xs generalizing m with
  | nil => simp
  | cons x xs ih =>
    obtain ⟨hx, hxs⟩ := List.pairwise_cons.mp h
    cases m with
    | zero =>
      simp only [List.take_zero, List.not_mem_nil, false_iff, not_and, List.mem_cons]
      intro ha
      have hle : a ≤ x := by
        rcases ha with rfl | ha
        · exact le_rfl
        · exact (hx a ha).le
      simp [rank, hle]
    | succ m =>
      rw [List.take_succ_cons, List.mem_cons, List.mem_cons, ih hxs]
      by_cases hax : a = x
      · have hnone : xs.filter (fun y => a ≤ y) = [] := by
          rw [List.filter_eq_nil_iff]
          intro y hy
          have hlt := hx y hy
          rw [hax]
          simpa using hlt
        simp [hax, rank, hax ▸ hnone]
      · constructor
        · rintro (heq | ⟨ha, hr⟩)
          · exact absurd heq hax
          · refine ⟨Or.inr ha, ?_⟩
            have hle : a ≤ x := (hx a ha).le
            simpa [rank, List.filter_cons, hle] using hr
        · rintro ⟨heq | ha, hr⟩
          · exact absurd heq hax
          · refine Or.inr ⟨ha, ?_⟩
            have hle : a ≤ x := (hx a ha).le
            simpa [rank, List.filter_cons, hle] using hr

/-- A descending list inside another that has all its first `m` elements has the
same first `m` elements. -/
theorem take_eq_of_subset (hxs : xs.Pairwise (· > ·)) (hys : ys.Pairwise (· > ·)) (hsub : ys ⊆ xs)
    (htop : xs.take m ⊆ ys) : ys.take m = xs.take m := by
  induction xs generalizing ys m with
  | nil => simp [List.subset_nil.mp hsub]
  | cons x xs ih =>
    cases m with
    | zero => rfl
    | succ m =>
      obtain ⟨hx, hxs'⟩ := List.pairwise_cons.mp hxs
      have hmem : x ∈ ys := htop (by simp)
      cases ys with
      | nil => cases hmem
      | cons y ys =>
        obtain ⟨hy, hys'⟩ := List.pairwise_cons.mp hys
        -- both lists start with the greatest element of the longer one
        have heq : y = x := by
          rcases List.mem_cons.mp hmem with rfl | hin
          · rfl
          · rcases List.mem_cons.mp (hsub List.mem_cons_self) with h | h
            · exact h
            · exact absurd (hx y h) (not_lt_of_gt (hy x hin))
        rw [heq, List.take_succ_cons, List.take_succ_cons]
        congr 1
        refine ih hxs' hys' ?_ ?_
        · intro z hz
          rcases List.mem_cons.mp (hsub (List.mem_cons_of_mem _ hz)) with h | h
          · exact absurd (hy z hz) (by rw [h, heq]; exact lt_irrefl x)
          · exact h
        · intro z hz
          have hzx : z ∈ (x :: xs).take (m + 1) := by
            rw [List.take_succ_cons]
            exact List.mem_cons_of_mem _ hz
          rcases List.mem_cons.mp (htop hzx) with h | h
          · exact absurd (hx z (List.mem_of_mem_take hz)) (by rw [h, heq]; exact lt_irrefl x)
          · exact h

end Newest
