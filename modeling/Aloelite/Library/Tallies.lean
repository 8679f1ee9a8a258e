import Mathlib.Tactic

/-! Tables that count references. One side enters a value under a key and counts it at
every reply, the other side counts what it is told and gives counts back. -/
namespace Tallies

variable {κ ν : Type*}

/-- A value and a number of references for each key. -/
structure Tally (κ ν : Type*) where
  count : κ → ℕ
  value : κ → Option ν

namespace Tally

variable [DecidableEq κ]

/-- A value entered without a reference. -/
def enter (t : Tally κ ν) (k : κ) (v : ν) : Tally κ ν :=
  { t with value := Function.update t.value k (some v) }

/-- A value entered and counted. -/
def tell (t : Tally κ ν) (k : κ) (v : ν) : Tally κ ν :=
  { count := Function.update t.count k (t.count k + 1),
    value := Function.update t.value k (some v) }

/-- A value heard of and counted: the first one stays. -/
def told (t : Tally κ ν) (k : κ) (v : ν) : Tally κ ν :=
  { count := Function.update t.count k (t.count k + 1)
    value := Function.update t.value k (some ((t.value k).getD v)) }

/-- Counts given back; the value goes with the last of them. -/
def drop (t : Tally κ ν) (k : κ) (c : ℕ) : Tally κ ν :=
  if c < t.count k then { t with count := Function.update t.count k (t.count k - c) }
  else { count := Function.update t.count k 0, value := Function.update t.value k none }

/-- Counts given back where the value of one key is kept whatever its count. -/
def giveBack (pin : κ) (t : Tally κ ν) (k : κ) (c : ℕ) : Tally κ ν :=
  if k = pin then { t with count := Function.update t.count k (t.count k - c) } else t.drop k c

/-- Off the pinned key there is a value just where there are references. -/
def Backed (pin : κ) (t : Tally κ ν) : Prop := ∀ k, k ≠ pin → (t.value k = none ↔ t.count k = 0)

/-- Two sides of one table, which has a pinned key that is not counted. -/
structure Agree (pin : κ) (t u : Tally κ ν) : Prop where
  values : t.value = u.value
  counts : ∀ k, k ≠ pin → t.count k = u.count k

variable {pin k : κ} {v : ν} {c : ℕ} {t u : Tally κ ν}

theorem Backed.told (h : Backed pin u) : Backed pin (u.told k v) := by
  intro j hj
  by_cases hjk : j = k
  · subst hjk
    simp [Tally.told]
  · simpa [Tally.told, hjk] using h j hj

theorem Backed.drop (h : Backed pin u) : Backed pin (u.drop k c) := by
  intro j hj
  rw [Tally.drop]
  split
  · -- some references stay, and so does the value
    rename_i hlt
    by_cases hjk : j = k
    · subst hjk
      have hvalue : u.value j ≠ none := fun hnone => by
        have hzero := (h j hj).mp hnone
        omega
      simp only [Function.update_self, hvalue, false_iff]
      omega
    · simpa [hjk] using h j hj
  · by_cases hjk : j = k
    · subst hjk
      simp
    · simpa [hjk] using h j hj

theorem Backed.giveBack (h : Backed pin u) : Backed pin (u.giveBack pin k c) := by
  rw [Tally.giveBack]
  split
  · rename_i hpin
    intro j hj
    have hjk : j ≠ k := hpin ▸ hj
    simpa [hjk] using h j hj
  · exact h.drop

/-- A value told and heard, unless the key stands for another one already. -/
theorem Agree.tell (h : Agree pin t u) (hv : ∀ w ∈ u.value k, w = v) :
    Agree pin (t.tell k v) (u.told k v) := by
  constructor
  · have hfirst : (u.value k).getD v = v := by
      cases hw : u.value k with
      | none => rfl
      | some w => exact hv w hw
    simp only [Tally.tell, Tally.told, h.values, hfirst]
  · intro j hj
    by_cases hjk : j = k
    · subst hjk
      simp [Tally.tell, Tally.told, h.counts j hj]
    · simpa [Tally.tell, Tally.told, hjk] using h.counts j hj

/-- A value entered again under its key changes nothing. -/
theorem Agree.enter (h : Agree pin t u) (hv : u.value k = some v) : Agree pin (t.enter k v) u := by
  refine ⟨?_, h.counts⟩
  rw [Tally.enter, h.values, ← hv]
  exact Function.update_eq_self k u.value

/-- Counts heard for the pinned key, which the table does not keep. -/
theorem Agree.told_pin (h : Agree pin t u) (hv : u.value pin ≠ none) :
    Agree pin t (u.told pin v) := by
  obtain ⟨w, hw⟩ := Option.ne_none_iff_exists'.mp hv
  constructor
  · simp only [Tally.told, hw, Option.getD_some, h.values]
    rw [← hw]
    exact (Function.update_eq_self pin u.value).symm
  · intro j hj
    simpa [Tally.told, hj] using h.counts j hj

theorem Agree.drop (h : Agree pin t u) (hk : k ≠ pin) : Agree pin (t.drop k c) (u.drop k c) := by
  have hcount := h.counts k hk
  rw [Tally.drop, Tally.drop, hcount]
  split
  · refine ⟨h.values, ?_⟩
    intro j hj
    by_cases hjk : j = k
    · subst hjk
      simp
    · simpa [hjk] using h.counts j hj
  · refine ⟨by simp only [h.values], ?_⟩
    intro j hj
    by_cases hjk : j = k
    · subst hjk
      simp
    · simpa [hjk] using h.counts j hj

/-- Counts given back on both sides, of which one does not count the pinned key. -/
theorem Agree.giveBack (h : Agree pin t u) :
    Agree pin (if k = pin then t else t.drop k c) (u.giveBack pin k c) := by
  rw [Tally.giveBack]
  split
  · rename_i hpin
    refine ⟨h.values, ?_⟩
    intro j hj
    have hjk : j ≠ k := hpin ▸ hj
    simpa [hjk] using h.counts j hj
  · exact h.drop ‹_›

theorem told_value_ne (hv : u.value pin ≠ none) : (u.told k v).value pin ≠ none := by
  by_cases hpin : pin = k
  · subst hpin
    simp [Tally.told]
  · simpa [Tally.told, hpin] using hv

theorem giveBack_value_pin : (u.giveBack pin k c).value pin = u.value pin := by
  rw [Tally.giveBack]
  split
  · rfl
  · rename_i hpin
    rw [Tally.drop]
    split
    · rfl
    · simp [Ne.symm hpin]

/-- A value heard of that was not counted: the last reference but one takes it away. -/
theorem Agree.untold (h : Agree pin t u) (hk : k ≠ pin) :
    (t.drop k (t.count k)).value k = none ∧ ((u.told k v).drop k (t.count k)).count k = 1 ∧
      ((u.told k v).drop k (t.count k)).value k ≠ none := by
  have hcount := h.counts k hk
  have hlt : t.count k < (u.told k v).count k := by
    simp [Tally.told, hcount]
  refine ⟨by simp [Tally.drop], ?_, ?_⟩
  · rw [Tally.drop, if_pos hlt]
    simp [Tally.told, hcount]
  · rw [Tally.drop, if_pos hlt]
    simp [Tally.told]

end Tally

end Tallies
