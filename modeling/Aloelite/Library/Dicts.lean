import Aloelite.Library.KeyedRows
import Mathlib.Data.List.Perm.Basic

/-! Dictionaries that keep the order of insertion, as lists of values that name their own
keys. -/
namespace Dicts

open KeyedRows

variable {κ ρ : Type*} [DecidableEq κ] (key : ρ → κ)

/-- `d[key r] = r`: in its place if the key is there, at the end otherwise. -/
def assign : List ρ → ρ → List ρ
  | [], r => [r]
  | x :: rows, r => if key x = key r then r :: rows else x :: assign rows r

/-- `del d[k]` -/
def discard (rows : List ρ) (k : κ) : List ρ := rows.filter (fun r => key r ≠ k)

variable {key} {rows rows' : List ρ} {r : ρ} {k : κ}

theorem lookup_assign : lookup key (assign key rows r) k = if k = key r then some r
    else lookup key rows k := by
  induction rows with
  | nil =>
    rw [assign, lookup, lookup, List.find?_singleton, List.find?_nil]
    by_cases h : key r = k
    · simp [h]
    · simp [h, Ne.symm h]
  | cons x rows ih =>
    rw [assign]
    by_cases hx : key x = key r
    · rw [if_pos hx, lookup, lookup, List.find?_cons, List.find?_cons]
      by_cases h : key r = k
      · simp [h]
      · simp [hx, h, Ne.symm h]
    · rw [if_neg hx]
      rw [lookup] at ih ⊢
      rw [lookup] at ih ⊢
      rw [List.find?_cons, List.find?_cons]
      by_cases h : key x = k
      · have hne : k ≠ key r := fun heq => hx (h.trans heq)
        simp [h, hne]
      · simp [h, ih]

theorem mem_assign {x : ρ} (h : x ∈ assign key rows r) : x = r ∨ x ∈ rows := by
  induction rows with
  | nil => exact Or.inl (List.mem_singleton.mp h)
  | cons y rows ih =>
    rw [assign] at h
    split at h
    · rcases List.mem_cons.mp h with h | h
      · exact Or.inl h
      · exact Or.inr (List.mem_cons_of_mem _ h)
    · rcases List.mem_cons.mp h with h | h
      · exact Or.inr (h ▸ List.mem_cons_self)
      · rcases ih h with h | h
        · exact Or.inl h
        · exact Or.inr (List.mem_cons_of_mem _ h)

theorem mem_assign_self : r ∈ assign key rows r := by
  induction rows with
  | nil => exact List.mem_singleton_self r
  | cons y rows ih =>
    rw [assign]
    split
    · exact List.mem_cons_self
    · exact List.mem_cons_of_mem _ ih

theorem keyed_assign (hk : Keyed key rows) : Keyed key (assign key rows r) := by
  induction rows with
  | nil => exact List.nodup_singleton _
  | cons x rows ih =>
    obtain ⟨hx, hrows⟩ := List.nodup_cons.mp hk
    rw [assign]
    split
    next h =>
      rw [Keyed, List.map_cons, ← h]
      exact hk
    next h =>
      apply List.nodup_cons.mpr
      refine ⟨?_, ih hrows⟩
      intro hmem
      obtain ⟨y, hy, heq⟩ := List.mem_map.mp hmem
      rcases mem_assign hy with rfl | hy
      · exact h heq.symm
      · exact hx (heq ▸ List.mem_map_of_mem hy)

/-- Assigning what is there changes nothing. -/
theorem assign_eq_self (h : lookup key rows (key r) = some r) : assign key rows r = rows := by
  induction rows with
  | nil => cases h
  | cons x rows ih =>
    rw [lookup, List.find?_cons] at h
    rw [assign]
    by_cases hx : key x = key r
    · simp only [hx, decide_true] at h
      rw [if_pos hx, Option.some.inj h]
    · simp only [hx, decide_false] at h
      rw [if_neg hx, ih h]

theorem assign_eq_self_iff : assign key rows r = rows ↔ lookup key rows (key r) = some r := by
  constructor
  · intro h
    rw [← h, lookup_assign, if_pos rfl]
  · exact assign_eq_self

theorem lookup_discard {k' : κ} : lookup key (discard key rows k) k' = if k' = k then none
    else lookup key rows k' := by
  by_cases h : k' = k
  · rw [if_pos h, lookup_eq_none, h]
    intro r hr
    simpa [discard] using (List.mem_filter.mp hr).2
  · rw [if_neg h]
    apply lookup_filter_of_key
    intro r _ hkey
    simpa [hkey] using h

theorem keyed_discard (hk : Keyed key rows) : Keyed key (discard key rows k) := keyed_filter hk _

/-- A lookup does not depend on the order. -/
theorem lookup_perm (hk : Keyed key rows) (h : rows.Perm rows') :
    lookup key rows k = lookup key rows' k := by
  have hk' : Keyed key rows' := (h.map key).nodup_iff.mp hk
  cases hrow : lookup key rows k with
  | none =>
    symm
    rw [lookup_eq_none] at hrow ⊢
    intro r hr
    exact hrow r (h.mem_iff.mpr hr)
  | some r =>
    obtain rfl := key_of_lookup hrow
    exact (lookup_eq_some_of_mem hk' (h.mem_iff.mp (mem_of_lookup hrow))).symm

variable (key) in
/-- What a list of items makes, one after the other. -/
def assigned (items : List ρ) : List ρ := items.foldl (assign key) []

theorem keyed_assigned (items : List ρ) : Keyed key (assigned key items) := by
  have hfold : ∀ rows : List ρ, Keyed key rows → Keyed key (items.foldl (assign key) rows) := by
    induction items with
    | nil => exact fun rows hk => hk
    | cons r items ih => exact fun rows hk => ih _ (keyed_assign hk)
  exact hfold [] List.nodup_nil

theorem assign_append (h : lookup key rows (key r) = none) : assign key rows r = rows ++ [r] := by
  induction rows with
  | nil => rfl
  | cons x rows ih =>
    rw [lookup, List.find?_cons] at h
    by_cases hx : key x = key r
    · simp [hx] at h
    · simp only [hx, decide_false] at h
      rw [assign, if_neg hx, ih h, List.cons_append]

theorem assigned_of_keyed (hk : Keyed key rows) : assigned key rows = rows := by
  have hfold : ∀ done items : List ρ, Keyed key (done ++ items) → items.foldl (assign key) done =
      done ++ items := by
    intro done items
    induction items generalizing done with
    | nil =>
      intro _
      exact (List.append_nil done).symm
    | cons r items ih =>
      intro hk
      have hnew : lookup key done (key r) = none := by
        apply lookup_eq_none.mpr
        intro x hx heq
        rw [Keyed, List.map_append, List.nodup_append] at hk
        exact hk.2.2 (key x) (List.mem_map_of_mem hx) (key r) List.mem_cons_self heq
      rw [List.foldl_cons, assign_append hnew, ih _ (by simpa using hk), List.append_assoc,
        List.singleton_append]
  exact hfold [] rows hk

/-- What is alike before and after is alike in the whole. -/
theorem map_assign {τ : Type*} {f : ρ → τ} {old : ρ} (h : lookup key rows (key r) = some old)
    (hf : f r = f old) :
    (assign key rows r).map f = rows.map f := by
  induction rows with
  | nil => cases h
  | cons x rows ih =>
    rw [lookup, List.find?_cons] at h
    rw [assign]
    by_cases hx : key x = key r
    · simp only [hx, decide_true] at h
      rw [if_pos hx, List.map_cons, List.map_cons, hf, Option.some.inj h]
    · simp only [hx, decide_false] at h
      rw [if_neg hx, List.map_cons, List.map_cons, ih h]

theorem perm_cons_discard (hk : Keyed key rows) (h : lookup key rows k = some r) :
    rows.Perm (r :: discard key rows k) := by
  obtain rfl := key_of_lookup h
  induction rows with
  | nil => cases h
  | cons x rows ih =>
    obtain ⟨hx, hrows⟩ := List.nodup_cons.mp hk
    rw [lookup, List.find?_cons] at h
    by_cases hkey : key x = key r
    · simp only [hkey, decide_true] at h
      obtain rfl := Option.some.inj h
      have hrest : discard key rows (key x) = rows := by
        apply List.filter_eq_self.mpr
        intro y hy
        have hne : key y ≠ key x := fun heq => hx (heq ▸ List.mem_map_of_mem hy)
        simpa using hne
      rw [discard, List.filter_cons_of_neg (by simp)]
      exact (List.Perm.of_eq (congrArg (List.cons x) hrest)).symm
    · simp only [hkey, decide_false] at h
      rw [discard, List.filter_cons_of_pos (by simpa using hkey)]
      exact ((ih hrows h).cons x).trans (List.Perm.swap _ _ _)

end Dicts
