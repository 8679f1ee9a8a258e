import Aloelite.Library.PageEnds
import Mathlib.Data.List.Lex

/-! Texts under a common prefix, grouped up to the first delimiter after it. In
lexicographic order such groups stand together and in their own order. -/
namespace CommonPrefixes

open Paging

variable {α : Type*} [LinearOrder α] {x y : α} {xs ys a b c d g h p : List α}

/-! ### Prefixes in lexicographic order -/

theorem cons_le_cons : x :: xs ≤ y :: ys ↔ x < y ∨ x = y ∧ xs ≤ ys := by
  rw [← not_lt, List.cons_lt_cons_iff, ← not_lt, not_or, not_and, not_lt]
  constructor
  · intro h
    obtain ⟨hle, hrest⟩ := h
    exact hle.lt_or_eq.imp_right fun heq => ⟨heq, hrest heq.symm⟩
  · intro h
    rcases h with hlt | ⟨rfl, hrest⟩
    · exact ⟨hlt.le, fun heq => absurd heq hlt.ne'⟩
    · exact ⟨le_rfl, fun _ => hrest⟩

theorem nil_le (xs : List α) : [] ≤ xs := not_lt.mp (List.not_lt_nil xs)

theorem prefix_le (h : g <+: a) : g ≤ a := by
  induction g generalizing a with
  | nil => exact nil_le a
  | cons x g ih =>
    obtain ⟨t, rfl⟩ := h
    exact cons_le_cons.mpr (Or.inr ⟨rfl, ih ⟨t, rfl⟩⟩)

/-- What lies between two texts with a prefix has it too. -/
theorem prefix_between (hab : a ≤ b) (hbc : b ≤ c) (ha : g <+: a) (hc : g <+: c) : g <+: b := by
  induction g generalizing a b c with
  | nil => exact List.nil_prefix
  | cons x g ih =>
    obtain ⟨s, rfl⟩ := ha
    obtain ⟨t, rfl⟩ := hc
    cases b with
    | nil => exact absurd hab (not_le.mpr (List.nil_lt_cons x _))
    | cons y b =>
      rw [List.cons_append, cons_le_cons] at hab hbc
      have hxy : x = y := by
        apply le_antisymm
        · exact hab.elim le_of_lt fun h => h.1.le
        · exact hbc.elim le_of_lt fun h => h.1.le
      subst hxy
      have hsb := (hab.resolve_left (lt_irrefl x)).2
      have hbt := (hbc.resolve_left (lt_irrefl x)).2
      exact List.cons_prefix_cons.mpr ⟨rfl, ih hsb hbt ⟨s, rfl⟩ ⟨t, rfl⟩⟩

/-- Prefixes that part ways come in the order of their texts. -/
theorem prefix_lt (hab : a ≤ b) (ha : g <+: a) (hb : h <+: b) (hgh : ¬ g <+: h) :
    g < h ∨ h <+: g := by
  induction g generalizing a b h with
  | nil => exact absurd List.nil_prefix hgh
  | cons x g ih =>
    cases h with
    | nil => exact Or.inr List.nil_prefix
    | cons y h =>
      obtain ⟨s, rfl⟩ := ha
      obtain ⟨t, rfl⟩ := hb
      rw [List.cons_append, List.cons_append, cons_le_cons] at hab
      rw [List.cons_lt_cons_iff, List.cons_prefix_cons]
      rcases hab with hlt | ⟨rfl, hrest⟩
      · exact Or.inl (Or.inl hlt)
      · have hgh' : ¬ g <+: h := fun h => hgh (List.cons_prefix_cons.mpr ⟨rfl, h⟩)
        rcases ih hrest ⟨s, rfl⟩ ⟨t, rfl⟩ hgh' with hlt | hpre
        · exact Or.inl (Or.inr ⟨rfl, hlt⟩)
        · exact Or.inr ⟨rfl, hpre⟩

/-! ### Up to the first delimiter -/

/-- A text up to the first `d` in it, which is included. -/
def cut (d : List α) : List α → Option (List α)
  | [] => if d = [] then some [] else none
  | x :: xs => if d <+: x :: xs then some d else (cut d xs).map (x :: ·)

theorem cut_of_prefix (h : d <+: a) : cut d a = some d := by
  cases a with
  | nil =>
    obtain rfl := List.prefix_nil.mp h
    rfl
  | cons x xs => rw [cut, if_pos h]

theorem cut_start (h : cut d a = some g) : g <+: a ∧ d.length ≤ g.length := by
  induction a generalizing g with
  | nil =>
    rw [cut] at h
    split at h
    next hd =>
      obtain rfl := Option.some.inj h
      exact ⟨List.nil_prefix, by rw [hd]⟩
    next => cases h
  | cons x xs ih =>
    rw [cut] at h
    split at h
    next hd =>
      obtain rfl := Option.some.inj h
      exact ⟨hd, le_rfl⟩
    next hd =>
      obtain ⟨g', hg', rfl⟩ := Option.map_eq_some_iff.mp h
      obtain ⟨hpre, hlen⟩ := ih hg'
      exact ⟨List.cons_prefix_cons.mpr ⟨rfl, hpre⟩, Nat.le_succ_of_le hlen⟩

/-- A text that starts with what is cut off one is cut in the same place. -/
theorem cut_of_cut (h : cut d a = some g) (hb : g <+: b) : cut d b = some g := by
  induction a generalizing b g with
  | nil =>
    rw [cut] at h
    split at h
    next hd =>
      obtain rfl := Option.some.inj h
      subst hd
      exact cut_of_prefix List.nil_prefix
    next => cases h
  | cons x xs ih =>
    rw [cut] at h
    split at h
    next hd =>
      obtain rfl := Option.some.inj h
      exact cut_of_prefix hb
    next hd =>
      obtain ⟨g', hg', rfl⟩ := Option.map_eq_some_iff.mp h
      obtain ⟨hpre, hlen⟩ := cut_start hg'
      obtain ⟨t, rfl⟩ := hb
      have hrest : cut d (g' ++ t) = some g' := ih hg' ⟨t, rfl⟩
      -- an earlier delimiter would lie within what is cut off
      have hno : ¬ d <+: x :: (g' ++ t) := by
        intro hd'
        apply hd
        have hwithin : d <+: x :: g' := by
          apply List.prefix_of_prefix_length_le hd' ⟨t, rfl⟩
          exact Nat.le_succ_of_le hlen
        exact hwithin.trans (List.cons_prefix_cons.mpr ⟨rfl, hpre⟩)
      rw [List.cons_append, cut, if_neg hno, hrest]
      rfl

/-! ### The groups -/

/-- The group of a text with prefix `p`: up to the first `d` after the prefix. -/
def group (p d a : List α) : Option (List α) :=
  if d ≠ [] ∧ p <+: a then (cut d (a.drop p.length)).map (p ++ ·) else none

theorem group_start (hg : group p d a = some g) : p <+: g ∧ g <+: a := by
  rw [group] at hg
  split at hg
  next hp =>
    obtain ⟨g', hcut, rfl⟩ := Option.map_eq_some_iff.mp hg
    obtain ⟨t, rfl⟩ := hp.2
    rw [List.drop_left] at hcut
    exact ⟨⟨g', rfl⟩, (List.prefix_append_right_inj p).mpr (cut_start hcut).1⟩
  next => cases hg

theorem group_of_group (hg : group p d a = some g) (hb : g <+: b) : group p d b = some g := by
  have hpb : p <+: b := (group_start hg).1.trans hb
  rw [group] at hg ⊢
  split at hg
  next hp =>
    obtain ⟨g', hcut, rfl⟩ := Option.map_eq_some_iff.mp hg
    obtain ⟨t, rfl⟩ := hpb
    rw [if_pos ⟨hp.1, List.prefix_append p t⟩, List.drop_left,
      cut_of_cut hcut ((List.prefix_append_right_inj p).mp hb), Option.map_some]
  next => cases hg

/-- Neither of two groups starts with the other. -/
theorem group_eq (hg : group p d a = some g) (hh : group p d b = some h) (hgh : g <+: h) :
    g = h := by
  have hb := group_of_group hg (hgh.trans (group_start hh).2)
  exact Option.some.inj (hb.symm.trans hh)

theorem group_mono (hab : a ≤ b) (hg : group p d a = some g) (hh : group p d b = some h) :
    g ≤ h := by
  by_cases hgh : g <+: h
  · exact (group_eq hg hh hgh).le
  · rcases prefix_lt hab (group_start hg).2 (group_start hh).2 hgh with hlt | hpre
    · exact hlt.le
    · exact absurd ((group_eq hh hg hpre) ▸ List.prefix_rfl) hgh

/-- The texts under a prefix, grouped by a delimiter. -/
def grouping (p d : List α) : Grouping (List α) (List α) where
  group := group p d
  convex hab hbc ha hc :=
    group_of_group ha (prefix_between hab hbc (group_start ha).2 (group_start hc).2)
  mono hab ha hb := group_mono hab ha hb

/-- A text of no group comes before the groups of the texts after it. -/
theorem lt_group (hab : a < b) (ha : group p d a = none) (hb : group p d b = some h) : a < h := by
  by_contra hle
  have hpre : h <+: a := prefix_between (not_lt.mp hle) hab.le List.prefix_rfl (group_start hb).2
  rw [group_of_group hb hpre] at ha
  cases ha

end CommonPrefixes
