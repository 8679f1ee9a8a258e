import Mathlib.Data.List.Forall2
import Mathlib.Data.List.Nodup
import Mathlib.Tactic.Common

/-! A list divided among the segments of a pattern: a wild segment takes any piece, any
other segment one element that fits it. -/
namespace Divisions

variable {α σ : Type*} (wild : σ → Bool) (fits : σ → α → Bool)

/-- What a segment takes. -/
def Takes (seg : σ) (piece : List α) : Prop :=
  wild seg = true ∨ (wild seg = false ∧ ∃ x, piece = [x] ∧ fits seg x = true)

/-- The pieces of a list, one a segment. -/
def Divides (segs : List σ) (xs : List α) (pieces : List (List α)) : Prop :=
  List.Forall₂ (Takes wild fits) segs pieces ∧ pieces.flatten = xs

/-- One element more in the first piece. -/
def grow (x : α) : List (List α) → List (List α)
  | [] => []
  | piece :: pieces => (x :: piece) :: pieces

/-- Every division of a list. -/
def divisions : List σ → List α → List (List (List α))
  | [], [] => [[]]
  | [], _ :: _ => []
  | seg :: segs, [] => if wild seg then (divisions segs []).map ([] :: ·) else []
  | seg :: segs, x :: xs =>
    if wild seg then (divisions segs (x :: xs)).map ([] :: ·) ++
      (divisions (seg :: segs) xs).map (grow x)
    else if fits seg x then (divisions segs xs).map ([x] :: ·) else []
termination_by segs xs => segs.length + xs.length

/-- In how many ways a list can be divided. -/
def ways (segs : List σ) (xs : List α) : ℕ := (divisions wild fits segs xs).length

variable {wild fits} {seg : σ} {segs : List σ} {x : α} {xs : List α} {piece : List α}
  {pieces : List (List α)}

/-! ### The number of divisions -/

theorem ways_nil_nil : ways wild fits [] [] = 1 := by
  rw [ways, divisions, List.length_singleton]

theorem ways_nil_cons : ways wild fits [] (x :: xs) = 0 := by
  rw [ways, divisions, List.length_nil]

theorem ways_wild_nil (hseg : wild seg = true) :
    ways wild fits (seg :: segs) [] = ways wild fits segs [] := by
  rw [ways, divisions, if_pos hseg, List.length_map, ways]

theorem ways_wild_cons (hseg : wild seg = true) :
    ways wild fits (seg :: segs) (x :: xs) = ways wild fits segs (x :: xs) +
      ways wild fits (seg :: segs) xs := by
  rw [ways, divisions, if_pos hseg, List.length_append, List.length_map,
    List.length_map, ways, ways]

theorem ways_tame_nil (hseg : wild seg = false) : ways wild fits (seg :: segs) [] = 0 := by
  rw [ways, divisions, hseg, if_neg Bool.false_ne_true, List.length_nil]

theorem ways_tame_cons (hseg : wild seg = false) :
    ways wild fits (seg :: segs) (x :: xs) = if fits seg x then ways wild fits segs xs else 0 := by
  rw [ways, divisions, hseg, if_neg Bool.false_ne_true]
  by_cases hfits : fits seg x = true
  · rw [if_pos hfits, if_pos hfits, List.length_map, ways]
  · rw [if_neg hfits, if_neg hfits, List.length_nil]

/-- Nothing is divided among wild segments only. -/
theorem wild_of_ways_nil (h : 0 < ways wild fits segs []) : ∀ seg ∈ segs, wild seg = true := by
  induction segs with
  | nil =>
    intro seg hseg
    cases hseg
  | cons first segs ih =>
    cases hfirst : wild first with
    | false =>
      rw [ways_tame_nil hfirst] at h
      exact absurd h (Nat.lt_irrefl 0)
    | true =>
      rw [ways_wild_nil hfirst] at h
      intro seg hseg
      rcases List.mem_cons.mp hseg with rfl | hseg
      · exact hfirst
      · exact ih h seg hseg

/-! ### What the divisions are -/

theorem divides_nil : Divides wild fits [] xs pieces ↔ pieces = [] ∧ xs = [] := by
  rw [Divides, List.forall₂_nil_left_iff]
  constructor
  · rintro ⟨rfl, hflat⟩
    exact ⟨rfl, hflat.symm⟩
  · rintro ⟨rfl, rfl⟩
    exact ⟨rfl, rfl⟩

theorem divides_cons : Divides wild fits (seg :: segs) xs pieces ↔
    ∃ piece rest ys, pieces = piece :: rest ∧ xs = piece ++ ys ∧ Takes wild fits seg piece ∧
      Divides wild fits segs ys rest := by
  rw [Divides, List.forall₂_cons_left_iff]
  constructor
  · rintro ⟨⟨piece, rest, htakes, hrest, rfl⟩, hflat⟩
    exact ⟨piece, rest, rest.flatten, rfl, by rw [← hflat, List.flatten_cons], htakes, hrest, rfl⟩
  · rintro ⟨piece, rest, ys, rfl, rfl, htakes, hrest, hflat⟩
    exact ⟨⟨piece, rest, htakes, hrest, rfl⟩, by rw [List.flatten_cons, hflat]⟩

theorem mem_divisions : pieces ∈ divisions wild fits segs xs ↔
    Divides wild fits segs xs pieces := by
  fun_induction divisions wild fits segs xs generalizing pieces with
  | case1 => simp [divides_nil]
  | case2 x xs => simp [divides_nil]
  | case3 seg segs hwild ih =>
    rw [List.mem_map, divides_cons]
    constructor
    · rintro ⟨rest, hrest, rfl⟩
      exact ⟨[], rest, [], rfl, rfl, Or.inl hwild, ih.mp hrest⟩
    · rintro ⟨piece, rest, ys, rfl, hxs, -, hrest⟩
      obtain ⟨rfl, rfl⟩ := List.append_eq_nil_iff.mp hxs.symm
      exact ⟨rest, ih.mpr hrest, rfl⟩
  | case4 seg segs hwild =>
    rw [divides_cons]
    constructor
    · intro h
      cases h
    · rintro ⟨piece, rest, ys, rfl, hxs, htakes, -⟩
      obtain ⟨rfl, rfl⟩ := List.append_eq_nil_iff.mp hxs.symm
      rcases htakes with htakes | ⟨-, x, hx, -⟩
      · exact absurd htakes hwild
      · cases hx
  | case5 seg segs x xs hwild ih ih' =>
    rw [List.mem_append, List.mem_map, List.mem_map, divides_cons]
    constructor
    · rintro (⟨rest, hrest, rfl⟩ | ⟨whole, hwhole, rfl⟩)
      · exact ⟨[], rest, x :: xs, rfl, rfl, Or.inl hwild, ih.mp hrest⟩
      · obtain ⟨piece, rest, ys, rfl, rfl, -, hrest⟩ := divides_cons.mp (ih'.mp hwhole)
        exact ⟨x :: piece, rest, ys, rfl, rfl, Or.inl hwild, hrest⟩
    · rintro ⟨piece, rest, ys, rfl, hxs, -, hrest⟩
      cases piece with
      | nil =>
        obtain rfl : x :: xs = ys := hxs
        exact Or.inl ⟨rest, ih.mpr hrest, rfl⟩
      | cons y piece =>
        obtain ⟨rfl, rfl⟩ := List.cons.inj hxs
        exact Or.inr ⟨piece :: rest,
          ih'.mpr (divides_cons.mpr ⟨piece, rest, ys, rfl, rfl, Or.inl hwild, hrest⟩), rfl⟩
  | case6 seg segs x xs hwild hfits ih =>
    rw [List.mem_map, divides_cons]
    constructor
    · rintro ⟨rest, hrest, rfl⟩
      exact ⟨[x], rest, xs, rfl, rfl,
        Or.inr ⟨Bool.eq_false_iff.mpr hwild, x, rfl, hfits⟩, ih.mp hrest⟩
    · rintro ⟨piece, rest, ys, rfl, hxs, htakes, hrest⟩
      rcases htakes with htakes | ⟨-, y, rfl, -⟩
      · exact absurd htakes hwild
      · obtain ⟨rfl, rfl⟩ := List.cons.inj hxs
        exact ⟨rest, ih.mpr hrest, rfl⟩
  | case7 seg segs x xs hwild hfits =>
    rw [divides_cons]
    constructor
    · intro h
      cases h
    · rintro ⟨piece, rest, ys, rfl, hxs, htakes, -⟩
      rcases htakes with htakes | ⟨-, y, rfl, hy⟩
      · exact absurd htakes hwild
      · obtain ⟨rfl, rfl⟩ := List.cons.inj hxs
        exact absurd hy hfits

/-- No division is listed twice: the first piece is empty in one half only. -/
theorem divisions_nodup : (divisions wild fits segs xs).Nodup := by
  fun_induction divisions wild fits segs xs with
  | case1 => exact List.nodup_singleton _
  | case2 x xs => exact List.nodup_nil
  | case3 seg segs hwild ih => exact ih.map List.cons_injective
  | case4 seg segs hwild => exact List.nodup_nil
  | case5 seg segs x xs hwild ih ih' =>
    apply List.Nodup.append (ih.map List.cons_injective)
    · apply ih'.map_on
      intro p hp q hq h
      obtain ⟨piece, rest, ys, rfl, -⟩ := divides_cons.mp (mem_divisions.mp hp)
      obtain ⟨piece', rest', ys', rfl, -⟩ := divides_cons.mp (mem_divisions.mp hq)
      simpa [grow] using h
    · intro p hp hp'
      obtain ⟨rest, -, rfl⟩ := List.mem_map.mp hp
      obtain ⟨whole, hwhole, heq⟩ := List.mem_map.mp hp'
      obtain ⟨piece, rest', ys, rfl, -⟩ := divides_cons.mp (mem_divisions.mp hwhole)
      simp [grow] at heq
  | case6 seg segs x xs hwild hfits ih => exact ih.map List.cons_injective
  | case7 seg segs x xs hwild hfits => exact List.nodup_nil

theorem ways_pos_iff : 0 < ways wild fits segs xs ↔ ∃ pieces, Divides wild fits segs xs pieces := by
  rw [ways, List.length_pos_iff_exists_mem]
  exact exists_congr (fun _ => mem_divisions)

theorem ways_le_one_iff : ways wild fits segs xs ≤ 1 ↔
    ∀ pieces pieces', Divides wild fits segs xs pieces → Divides wild fits segs xs pieces' →
      pieces = pieces' := by
  constructor
  · intro h pieces pieces' hp hp'
    rw [← mem_divisions] at hp hp'
    rw [ways] at h
    match hall : divisions wild fits segs xs with
    | [] =>
      rw [hall] at hp
      cases hp
    | [p] =>
      rw [hall] at hp hp'
      rw [List.mem_singleton.mp hp, List.mem_singleton.mp hp']
    | p :: q :: rest =>
      rw [hall] at h
      simp at h
  · intro h
    have hnodup : (divisions wild fits segs xs).Nodup := divisions_nodup
    rw [ways]
    match hall : divisions wild fits segs xs with
    | [] => simp
    | [p] => simp
    | p :: q :: rest =>
      rw [hall] at hnodup
      have hpq : p = q :=
        h p q (mem_divisions.mp (hall ▸ by simp)) (mem_divisions.mp (hall ▸ by simp))
      simp [hpq] at hnodup

/-! ### Patterns with one wild segment -/

theorem ways_tame (h : ∀ seg ∈ segs, wild seg = false) :
    ways wild fits segs xs ≤ 1 ∧ (0 < ways wild fits segs xs → xs.length = segs.length) := by
  induction segs generalizing xs with
  | nil =>
    cases xs with
    | nil => simp [ways_nil_nil]
    | cons x xs => simp [ways_nil_cons]
  | cons seg segs ih =>
    have hseg := h seg List.mem_cons_self
    have hsegs : ∀ seg ∈ segs, wild seg = false := fun s hs => h s (List.mem_cons_of_mem _ hs)
    cases xs with
    | nil => simp [ways_tame_nil hseg]
    | cons x xs =>
      rw [ways_tame_cons hseg]
      by_cases hfits : fits seg x = true
      · rw [if_pos hfits]
        refine ⟨(ih hsegs).1, fun hpos => ?_⟩
        rw [List.length_cons, List.length_cons, (ih hsegs).2 hpos]
      · simp [hfits]

/-- With one wild segment at most there is one division at most. -/
theorem ways_le_one (h : segs.countP wild ≤ 1) : ways wild fits segs xs ≤ 1 := by
  induction segs generalizing xs with
  | nil => exact (ways_tame (by simp)).1
  | cons seg segs ih =>
    cases hseg : wild seg with
    | false =>
      rw [List.countP_cons_of_neg (by simp [hseg])] at h
      cases xs with
      | nil => simp [ways_tame_nil hseg]
      | cons x xs =>
        rw [ways_tame_cons hseg]
        by_cases hfits : fits seg x = true
        · rw [if_pos hfits]
          exact ih h
        · simp [hfits]
    | true =>
      rw [List.countP_cons_of_pos hseg] at h
      have htame : ∀ seg ∈ segs, wild seg = false := by
        have hnone : segs.countP wild = 0 := by omega
        intro s hs
        simpa using List.countP_eq_zero.mp hnone s hs
      -- the wild segment takes what the others leave, and their number is fixed
      have hlength : ∀ xs : List α, ways wild fits (seg :: segs) xs ≤ 1 ∧
          (0 < ways wild fits (seg :: segs) xs → segs.length ≤ xs.length) := by
        intro xs
        induction xs with
        | nil =>
          rw [ways_wild_nil hseg]
          exact ⟨(ways_tame htame).1, fun hpos => Nat.le_of_eq ((ways_tame htame).2 hpos).symm⟩
        | cons x xs ihx =>
          have hhere : ways wild fits segs (x :: xs) ≤ 1 ∧
              (0 < ways wild fits segs (x :: xs) → xs.length + 1 = segs.length) :=
            ways_tame htame
          rw [ways_wild_cons hseg, List.length_cons]
          omega
      exact (hlength xs).1

end Divisions
