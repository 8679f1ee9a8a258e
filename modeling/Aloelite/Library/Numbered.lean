import Aloelite.Library.Pieces

/-! Lists whose elements carry consecutive numbers, ranges of them, and the one
order that sorting by number gives. -/
namespace Numbered

variable {α β : Type*} {xs ys : List α} {i lo hi : ℕ}

/-- The elements with their numbers from `i` on. -/
def numbered (i : ℕ) : List α → List (ℕ × α)
  | [] => []
  | x :: xs => (i, x) :: numbered (i + 1) xs

@[simp] theorem numbered_nil : numbered i ([] : List α) = [] := rfl

@[simp] theorem map_snd_numbered : (numbered i xs).map Prod.snd = xs := by
  induction xs generalizing i with
  | nil => rfl
  | cons x xs ih => rw [numbered, List.map_cons, ih]

theorem map_fst_numbered : (numbered i xs).map Prod.fst = List.range' i xs.length := by
  induction xs generalizing i with
  | nil => rfl
  | cons x xs ih => rw [numbered, List.map_cons, ih, List.length_cons, List.range'_succ]

theorem numbered_append :
    numbered i (xs ++ ys) = numbered i xs ++ numbered (i + xs.length) ys := by
  induction xs generalizing i with
  | nil => simp
  | cons x xs ih =>
    have hlen : i + 1 + xs.length = i + (x :: xs).length := by
      rw [List.length_cons]
      omega
    rw [List.cons_append, numbered, numbered, ih, hlen, List.cons_append]

theorem le_of_mem_numbered {p : ℕ × α} (h : p ∈ numbered i xs) : i ≤ p.1 := by
  induction xs generalizing i with
  | nil => cases h
  | cons x xs ih =>
    rcases List.mem_cons.mp h with rfl | h
    · exact le_rfl
    · have hle := ih h
      omega

theorem lt_of_mem_numbered {p : ℕ × α} (h : p ∈ numbered i xs) : p.1 < i + xs.length := by
  induction xs generalizing i with
  | nil => cases h
  | cons x xs ih =>
    rw [List.length_cons]
    rcases List.mem_cons.mp h with rfl | h
    · show i < _
      omega
    · have hlt := ih h
      omega

/-- Every number in range is carried. -/
theorem exists_mem_numbered {j : ℕ} (hi : i ≤ j) (hj : j < i + xs.length) :
    ∃ x, (j, x) ∈ numbered i xs := by
  induction xs generalizing i with
  | nil =>
    rw [List.length_nil] at hj
    omega
  | cons x xs ih =>
    rw [List.length_cons] at hj
    by_cases heq : i = j
    · exact ⟨x, heq ▸ List.mem_cons_self⟩
    · obtain ⟨y, hy⟩ := ih (i := i + 1) (by omega) (by omega)
      exact ⟨y, List.mem_cons_of_mem _ hy⟩

theorem getElem?_of_mem_numbered {j : ℕ} {x : α} (h : (j, x) ∈ numbered i xs) :
    xs[j - i]? = some x := by
  induction xs generalizing i with
  | nil => cases h
  | cons y ys ih =>
    rcases List.mem_cons.mp h with heq | hrest
    · obtain ⟨rfl, rfl⟩ := Prod.mk.inj heq
      rw [Nat.sub_self, List.getElem?_cons_zero]
    · have hle : i + 1 ≤ j := le_of_mem_numbered hrest
      rw [show j - i = j - (i + 1) + 1 by omega, List.getElem?_cons_succ]
      exact ih hrest

theorem numbered_pairwise : (numbered i xs).Pairwise (fun p q => p.1 < q.1) := by
  induction xs generalizing i with
  | nil => exact List.Pairwise.nil
  | cons x xs ih =>
    refine List.pairwise_cons.mpr ⟨?_, ih⟩
    intro p hp
    have hle := le_of_mem_numbered hp
    exact hle

/-- A range of numbers is a range of the list. -/
theorem filter_numbered : (numbered 0 xs).filter (fun p => lo ≤ p.1 ∧ p.1 ≤ hi) =
    numbered lo ((xs.take (hi + 1)).drop lo) := by
  -- split the list at both ends of the range
  by_cases hlo : xs.length ≤ lo
  · have hnil : (xs.take (hi + 1)).drop lo = [] := by
      rw [List.drop_eq_nil_iff, List.length_take]
      omega
    rw [hnil, numbered_nil, List.filter_eq_nil_iff]
    intro p hp
    have hlt := lt_of_mem_numbered hp
    simp only [decide_eq_true_eq, not_and]
    omega
  · by_cases hhi : hi < lo
    · have hnil : (xs.take (hi + 1)).drop lo = [] := by
        rw [List.drop_eq_nil_iff, List.length_take]
        omega
      rw [hnil, numbered_nil, List.filter_eq_nil_iff]
      intro p _
      simp only [decide_eq_true_eq, not_and]
      omega
    · have hsplit : xs = (xs.take (hi + 1)).take lo ++
          ((xs.take (hi + 1)).drop lo ++ xs.drop (hi + 1)) := by
        rw [← List.append_assoc, List.take_append_drop, List.take_append_drop]
      have hlen : ((xs.take (hi + 1)).take lo).length = lo := by
        rw [List.length_take, List.length_take]
        omega
      conv_lhs => rw [hsplit, numbered_append, numbered_append, hlen, Nat.zero_add]
      rw [List.filter_append, List.filter_append]
      have hleft : (numbered 0 ((xs.take (hi + 1)).take lo)).filter
          (fun p => lo ≤ p.1 ∧ p.1 ≤ hi) = [] := by
        rw [List.filter_eq_nil_iff]
        intro p hp
        have hlt := lt_of_mem_numbered hp
        simp only [decide_eq_true_eq, not_and]
        omega
      have hmid : (numbered lo ((xs.take (hi + 1)).drop lo)).filter
          (fun p => lo ≤ p.1 ∧ p.1 ≤ hi) = numbered lo ((xs.take (hi + 1)).drop lo) := by
        rw [List.filter_eq_self]
        intro p hp
        have hle := le_of_mem_numbered hp
        have hlt := lt_of_mem_numbered hp
        rw [List.length_drop, List.length_take] at hlt
        simp only [decide_eq_true_eq]
        omega
      have hright : (numbered (lo + ((xs.take (hi + 1)).drop lo).length) (xs.drop (hi + 1))).filter
          (fun p => lo ≤ p.1 ∧ p.1 ≤ hi) = [] := by
        rw [List.filter_eq_nil_iff]
        intro p hp
        have hle := le_of_mem_numbered hp
        have hlt := lt_of_mem_numbered hp
        simp only [List.length_drop, List.length_take] at hle hlt
        simp only [decide_eq_true_eq, not_and]
        omega
      rw [hleft, hmid, hright, List.nil_append, List.append_nil]

/-- The part below a number. -/
theorem filter_numbered_lt {n : ℕ} (hn : 0 < n) :
    (numbered 0 xs).filter (fun p => 0 ≤ p.1 ∧ p.1 ≤ n - 1) = numbered 0 (xs.take n) := by
  rw [filter_numbered, Nat.sub_add_cancel hn, List.drop_zero]

theorem filter_numbered_below {n : ℕ} :
    (numbered 0 xs).filter (fun p => p.1 < n) = numbered 0 (xs.take n) := by
  rcases Nat.eq_zero_or_pos n with rfl | hpos
  · rw [List.take_zero, numbered_nil, List.filter_eq_nil_iff]
    intro p _
    simp
  · rw [← filter_numbered_lt hpos]
    apply List.filter_congr
    intro p _
    have hiff : p.1 < n ↔ (0 ≤ p.1 ∧ p.1 ≤ n - 1) := by omega
    simp only [hiff]

theorem exists_of_forall₂_right {R : α → β → Prop} {bs : List β} {b : β} (h : List.Forall₂ R xs bs)
    (hb : b ∈ bs) : ∃ a ∈ xs, R a b := by
  induction h with
  | nil => cases hb
  | @cons a b' _ _ hab _ ih =>
    rcases List.mem_cons.mp hb with rfl | hb
    · exact ⟨a, List.mem_cons_self, hab⟩
    · obtain ⟨a', ha', hR⟩ := ih hb
      exact ⟨a', List.mem_cons_of_mem _ ha', hR⟩

theorem map_eq_of_forall₂ {γ : Type*} {R : α → β → Prop} {bs : List β} {f : α → γ} {g : β → γ}
    (h : List.Forall₂ R xs bs) (hfg : ∀ a b, R a b → f a = g b) : xs.map f = bs.map g := by
  induction h with
  | nil => rfl
  | cons hab _ ih => rw [List.map_cons, List.map_cons, hfg _ _ hab, ih]

theorem forall₂_filter {R : α → β → Prop} {bs : List β} {p : α → Bool} {q : β → Bool}
    (h : List.Forall₂ R xs bs) (hpq : ∀ a b, R a b → p a = q b) :
    List.Forall₂ R (xs.filter p) (bs.filter q) := by
  induction h with
  | nil => exact List.Forall₂.nil
  | cons hab _ ih =>
    rw [List.filter_cons, List.filter_cons, hpq _ _ hab]
    split
    · exact List.Forall₂.cons hab ih
    · exact ih

/-- Sorting by a key that tells the elements apart gives the one sorted order. -/
theorem insertionSort_eq {key : α → ℕ} (hperm : xs.Perm ys)
    (hsorted : ys.Pairwise (fun a b => key a < key b)) :
    xs.insertionSort (fun a b => key a ≤ key b) = ys := by
  have hpairs : (xs.insertionSort (fun a b => key a ≤ key b)).Pairwise (fun a b => key a ≤ key b) :=
    List.pairwise_insertionSort _ _
  refine List.Perm.eq_of_pairwise ?_ hpairs (hsorted.imp (fun h => h.le))
    ((List.perm_insertionSort _ _).trans hperm)
  intro a b ha hb hab hba
  have ha' : a ∈ ys := hperm.mem_iff.mp ((List.mem_insertionSort _).mp ha)
  have hnodup : (ys.map key).Nodup := List.pairwise_map.mpr (hsorted.imp ne_of_lt)
  exact List.inj_on_of_nodup_map hnodup ha' hb (le_antisymm hab hba)

/-! ### Numbered pieces -/

open Pieces in
/-- Pieces numbered on from where the others end. -/
theorem numbered_pieces_append {n k : ℕ} (hn : 0 < n) (hk : xs.length = k * n) :
    numbered 0 (pieces n xs) ++ numbered k (pieces n ys) = numbered 0 (pieces n (xs ++ ys)) := by
  rw [pieces_append hn hk, numbered_append, length_pieces_of_mul hn hk, Nat.zero_add]

end Numbered
