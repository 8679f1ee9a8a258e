import Aloelite.Library.KeyedRows

/-! Portions of a table: the rows that meet a condition. A change to other rows leaves a
portion as it was, and what is looked up among its own rows is found in the portion alone. -/
namespace Portions
open KeyedRows

variable {ρ κ : Type*} {q keep : ρ → Bool} {rows added : List ρ} {g : ρ → ρ}

theorem filter_append_off (h : ∀ r ∈ added, q r = false) :
    (rows ++ added).filter q = rows.filter q := by
  have hnil : added.filter q = [] := by
    apply List.filter_eq_nil_iff.mpr
    intro r hr hq
    exact absurd ((h r hr).symm.trans hq) (by decide)
  rw [List.filter_append, hnil, List.append_nil]

/-- A map that leaves the rows of the portion alone, and puts no other row into it. -/
theorem filter_map_off (hin : ∀ r ∈ rows, q r = true → g r = r)
    (hout : ∀ r ∈ rows, q r = false → q (g r) = false) : (rows.map g).filter q = rows.filter q := by
  induction rows with
  | nil => rfl
  | cons r rows ih =>
    have htail := ih (fun r' hr' => hin r' (List.mem_cons_of_mem r hr'))
      (fun r' hr' => hout r' (List.mem_cons_of_mem r hr'))
    rw [List.map_cons]
    by_cases hq : q r = true
    · rw [hin r List.mem_cons_self hq, List.filter_cons_of_pos hq,
        List.filter_cons_of_pos hq, htail]
    · have hg := hout r List.mem_cons_self (Bool.eq_false_iff.mpr hq)
      rw [List.filter_cons_of_neg (Bool.eq_false_iff.mp hg), List.filter_cons_of_neg hq, htail]

theorem filter_amend_off [DecidableEq κ] {key : ρ → κ} {k : κ}
    (hrow : ∀ r ∈ rows, key r = k → q r = false) (hg : ∀ r ∈ rows, key r = k → q (g r) = false) :
    (amend key rows k g).filter q = rows.filter q := by
  apply filter_map_off
  · intro r hr hq
    have hne : key r ≠ k := fun heq => absurd ((hrow r hr heq).symm.trans hq) (by decide)
    rw [if_neg hne]
  · intro r hr hq
    by_cases heq : key r = k
    · rw [if_pos heq]
      exact hg r hr heq
    · rw [if_neg heq]
      exact hq

/-- Rows outside the portion may go. -/
theorem filter_filter_off (h : ∀ r ∈ rows, q r = true → keep r = true) :
    (rows.filter keep).filter q = rows.filter q := by
  rw [List.filter_filter]
  apply List.filter_congr
  intro r hr
  by_cases hq : q r = true
  · rw [hq, h r hr hq, Bool.and_self]
  · rw [Bool.eq_false_iff.mpr hq, Bool.false_and]

/-- A question about rows of the portion only. -/
theorem any_within (h : ∀ r ∈ rows, q r = true → keep r = true) :
    (rows.filter keep).any q = rows.any q := by
  rw [List.any_filter]
  apply Bool.eq_iff_iff.mpr
  rw [List.any_eq_true, List.any_eq_true]
  apply exists_congr
  intro r
  apply and_congr_right
  intro hr
  rw [Bool.and_eq_true]
  exact ⟨And.right, fun hq => ⟨h r hr hq, hq⟩⟩

theorem find?_within (h : ∀ r ∈ rows, q r = true → keep r = true) :
    (rows.filter keep).find? q = rows.find? q := by
  rw [← List.head?_filter, ← List.head?_filter, filter_filter_off h]

end Portions
