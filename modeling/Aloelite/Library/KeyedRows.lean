import Mathlib.Tactic

/-! Tables as lists of rows with a primary key: lookup by key, insertion of a
row with a new key, in-place change of the row under a key, deletion. -/
namespace KeyedRows

variable {ρ κ : Type*} [DecidableEq κ] (key : ρ → κ)

/-- The row stored under `k`. -/
def lookup (rows : List ρ) (k : κ) : Option ρ :=
  rows.find? (fun r => key r = k)

/-- Change the rows stored under `k`, leaving every other row as it is. -/
def amend (rows : List ρ) (k : κ) (f : ρ → ρ) : List ρ :=
  rows.map (fun r => if key r = k then f r else r)

/-- No two rows share a key. -/
def Keyed (rows : List ρ) : Prop := (rows.map key).Nodup

variable {key} {rows : List ρ} {k k' : κ} {r : ρ} {f : ρ → ρ}

theorem mem_of_lookup (h : lookup key rows k = some r) : r ∈ rows :=
  List.mem_of_find?_eq_some h

theorem key_of_lookup (h : lookup key rows k = some r) : key r = k := by
  simpa using List.find?_some h

theorem lookup_eq_none : lookup key rows k = none ↔ ∀ r ∈ rows, key r ≠ k := by
  simp [lookup]

theorem lookup_isSome_of_mem (h : r ∈ rows) : ∃ r', lookup key rows (key r) = some r' := by
  cases hl : lookup key rows (key r) with
  | none => exact absurd rfl (lookup_eq_none.mp hl r h)
  | some r' => exact ⟨r', rfl⟩

theorem lookup_eq_some_of_mem (hk : Keyed key rows) (h : r ∈ rows) :
    lookup key rows (key r) = some r := by
  obtain ⟨r', hr'⟩ : ∃ r', lookup key rows (key r) = some r' := lookup_isSome_of_mem h
  have heq : r' = r :=
    List.inj_on_of_nodup_map hk (mem_of_lookup hr') h (key_of_lookup hr')
  rw [hr', heq]

omit [DecidableEq κ] in
theorem eq_of_key_eq (hk : Keyed key rows) {r' : ρ} (h : r ∈ rows) (h' : r' ∈ rows)
    (he : key r = key r') : r = r' :=
  List.inj_on_of_nodup_map hk h h' he

theorem lookup_append_self (hn : lookup key rows (key r) = none) :
    lookup key (rows ++ [r]) (key r) = some r := by
  simp only [lookup] at hn ⊢
  rw [List.find?_append, hn]
  simp

theorem lookup_append_of_ne (hne : key r ≠ k) :
    lookup key (rows ++ [r]) k = lookup key rows k := by
  simp [lookup, hne]

theorem lookup_append_of_some (h : lookup key rows k = some r) (rs : List ρ) :
    lookup key (rows ++ rs) k = some r := by
  simp only [lookup] at h ⊢
  rw [List.find?_append, h, Option.some_or]

theorem lookup_amend (hf : ∀ r, key (f r) = key r) :
    lookup key (amend key rows k f) k' =
      if k' = k then (lookup key rows k').map f else lookup key rows k' := by
  induction rows with
  | nil => simp [lookup, amend]
  | cons a rows ih =>
    simp only [lookup, amend, List.map_cons, List.find?_cons] at ih ⊢
    by_cases ha : key a = k
    · by_cases hk : k' = k
      · simp [ha, hf, hk]
      · have hne : key a ≠ k' := fun h => hk (h.symm.trans ha)
        have hne' : k ≠ k' := fun h => hk h.symm
        simpa [ha, hf, hk, hne, hne'] using ih
    · by_cases hk : key a = k'
      · have hne : k' ≠ k := fun h => ha (hk.trans h)
        simp [hk, hne]
      · simpa [ha, hk] using ih

/-- Lookup commutes with a map that keeps the keys. -/
theorem lookup_map {τ : Type*} {key' : τ → κ} {g : ρ → τ} (hg : ∀ r, key' (g r) = key r) :
    lookup key' (rows.map g) k = (lookup key rows k).map g := by
  simp only [lookup, List.find?_map]
  congr 2
  funext r
  simp [hg]

theorem mem_amend : r ∈ amend key rows k f ↔
    (r ∈ rows ∧ key r ≠ k) ∨ ∃ r₀ ∈ rows, key r₀ = k ∧ r = f r₀ := by
  simp only [amend, List.mem_map]
  constructor
  · rintro ⟨a, ha, he⟩
    by_cases hk : key a = k
    · rw [if_pos hk] at he
      exact Or.inr ⟨a, ha, hk, he.symm⟩
    · rw [if_neg hk] at he
      exact Or.inl ⟨he ▸ ha, he ▸ hk⟩
  · rintro (⟨hr, hk⟩ | ⟨a, ha, hk, he⟩)
    · exact ⟨r, hr, if_neg hk⟩
    · exact ⟨a, ha, by rw [if_pos hk, he]⟩

theorem map_key_amend (hf : ∀ r, key (f r) = key r) :
    (amend key rows k f).map key = rows.map key := by
  rw [amend, List.map_map]
  apply List.map_congr_left
  intro a _
  by_cases hk : key a = k
  · simp [hk, hf]
  · simp [hk]

theorem keyed_amend (hk : Keyed key rows) (hf : ∀ r, key (f r) = key r) :
    Keyed key (amend key rows k f) := by
  rw [Keyed, map_key_amend hf]
  exact hk

theorem keyed_append (hk : Keyed key rows) (hn : lookup key rows (key r) = none) :
    Keyed key (rows ++ [r]) := by
  rw [Keyed, List.map_append, List.nodup_append]
  refine ⟨hk, by simp, ?_⟩
  intro a ha b hb hab
  obtain ⟨r₀, hr₀, rfl⟩ := List.mem_map.mp ha
  have hb' : b = key r := by simpa using hb
  exact lookup_eq_none.mp hn r₀ hr₀ (hab.trans hb')

/-- Amending a row just appended changes no other. -/
theorem amend_append_fresh (f : ρ → ρ) (hn : lookup key rows (key r) = none) :
    amend key (rows ++ [r]) (key r) f = rows ++ [f r] := by
  rw [amend, List.map_append, List.map_singleton, if_pos rfl]
  congr 1
  conv_rhs => rw [← List.map_id rows]
  apply List.map_congr_left
  intro a ha
  rw [if_neg (lookup_eq_none.mp hn a ha), id]

omit [DecidableEq κ] in
theorem keyed_filter (hk : Keyed key rows) (p : ρ → Bool) : Keyed key (rows.filter p) :=
  hk.sublist (List.filter_sublist.map key)

/-- A filter that keeps every row under `k` keeps the lookup of `k`. -/
theorem lookup_filter_of_key {p : ρ → Bool} (h : ∀ r ∈ rows, key r = k → p r = true) :
    lookup key (rows.filter p) k = lookup key rows k := by
  induction rows with
  | nil => rfl
  | cons a rows ih =>
    have htail := ih (fun r hr => h r (List.mem_cons_of_mem a hr))
    simp only [lookup] at htail ⊢
    by_cases hk : key a = k
    · rw [List.filter_cons_of_pos (h a List.mem_cons_self hk)]
      simp [hk]
    · rw [List.find?_cons_of_neg (by simpa using hk)]
      by_cases hp : p a = true
      · rw [List.filter_cons_of_pos hp, List.find?_cons_of_neg (by simpa using hk), htail]
      · rw [List.filter_cons_of_neg hp, htail]

end KeyedRows
