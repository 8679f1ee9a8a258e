import Mathlib.Tactic
import Mathlib.Data.List.Sort

/-! Paging through a sorted list in which stretches of keys are shown as one group. A page
remembers the groups it has shown and ends with a marker; the next page starts after the
marker. Whether the pages together show every item once is a matter of what stands at
their ends. -/
namespace Paging

/-- Which keys are shown as a group: the keys of a group stand together, and groups come
in the order of their keys. -/
structure Grouping (α β : Type*) [LinearOrder α] [LinearOrder β] where
  group : α → Option β
  convex : ∀ {a b c g}, a ≤ b → b ≤ c → group a = some g → group c = some g → group b = some g
  mono : ∀ {a b g h}, a ≤ b → group a = some g → group b = some h → g ≤ h

/-- A page: the keys and groups on it, whether there is more, and the last marker noted. -/
@[ext] structure Turn (α β : Type*) where
  keys : List α := []
  groups : List β := []
  more : Bool := false
  next : Option α := none
  deriving DecidableEq

namespace Turn

variable {α β : Type*}

def addKey (a : α) (t : Turn α β) : Turn α β := { t with keys := a :: t.keys }

def addGroup (g : β) (t : Turn α β) : Turn α β := { t with groups := g :: t.groups }

/-- Keys and groups in front of a page. -/
def behind (ks : List α) (gs : List β) (t : Turn α β) : Turn α β :=
  { t with keys := ks ++ t.keys, groups := gs ++ t.groups }

@[simp] theorem behind_nil (t : Turn α β) : behind [] [] t = t := rfl

@[simp] theorem addKey_behind (a : α) (ks : List α) (gs : List β) (t : Turn α β) :
    addKey a (behind ks gs t) = behind (a :: ks) gs t := rfl

@[simp] theorem addGroup_behind (g : β) (ks : List α) (gs : List β) (t : Turn α β) :
    addGroup g (behind ks gs t) = behind ks (g :: gs) t := rfl

end Turn

namespace Grouping

variable {α β : Type*} [LinearOrder α] [LinearOrder β] (G : Grouping α β)

/-- One page with room for `room` items over sorted keys: `seen` are its groups so far,
`next` its marker so far. A key of a group that finds no room is itself the marker. -/
def turn : ℕ → List β → Option α → List α → Turn α β
  | _, _, next, [] => { next := next }
  | 0, seen, next, a :: as =>
    match G.group a with
    | some g => if g ∈ seen then turn 0 seen next as else { more := true, next := some a }
    | none => { more := true, next := next }
  | room + 1, seen, next, a :: as =>
    match G.group a with
    | some g =>
      if g ∈ seen then turn (room + 1) seen next as
      else (turn room (g :: seen) (some a) as).addGroup g
    | none => (turn room seen (some a) as).addKey a

/-- The pages of `k` items each, from the keys `K` on, until one has nothing after it. -/
inductive Turns (k : ℕ) : List α → List (Turn α β) → Prop
  | last {K : List α} (h : (G.turn k [] none K).more = false) : Turns k K [G.turn k [] none K]
  | more {K : List α} {m : α} {ts : List (Turn α β)} (h : (G.turn k [] none K).more = true)
      (hm : (G.turn k [] none K).next = some m) (hts : Turns k (K.filter (m < ·)) ts) :
      Turns k K (G.turn k [] none K :: ts)

/-- The pages show each key of `K` that is no group's and each group that is wanted once,
and nothing else, both ascending. -/
structure Shows (W : β → Prop) (ts : List (Turn α β)) (K : List α) : Prop where
  keys_sorted : (ts.flatMap Turn.keys).Pairwise (· < ·)
  groups_sorted : (ts.flatMap Turn.groups).Pairwise (· < ·)
  mem_keys : ∀ a, a ∈ ts.flatMap Turn.keys ↔ a ∈ K ∧ G.group a = none
  mem_groups : ∀ g, g ∈ ts.flatMap Turn.groups ↔ (∃ a ∈ K, G.group a = some g) ∧ W g

/-! ### One key after another -/

section

variable {G} {room : ℕ} {seen : List β} {next : Option α} {K : List α} {k : ℕ} {a : α} {g : β}

theorem turn_seen (hg : G.group a = some g) (hseen : g ∈ seen) :
    G.turn room seen next (a :: K) = G.turn room seen next K := by
  cases room with
  | zero => simp only [turn, hg, if_pos hseen]
  | succ room => simp only [turn, hg, if_pos hseen]

theorem turn_full_group (hg : G.group a = some g) (hseen : g ∉ seen) :
    G.turn 0 seen next (a :: K) = { more := true, next := some a } := by
  simp only [turn, hg, if_neg hseen]

theorem turn_full_key (ha : G.group a = none) :
    G.turn 0 seen next (a :: K) = { more := true, next := next } := by
  simp only [turn, ha]

theorem turn_group (hg : G.group a = some g) (hseen : g ∉ seen) :
    G.turn (room + 1) seen next (a :: K) = (G.turn room (g :: seen) (some a) K).addGroup g := by
  simp only [turn, hg, if_neg hseen]

theorem turn_key (ha : G.group a = none) :
    G.turn (room + 1) seen next (a :: K) = (G.turn room seen (some a) K).addKey a := by
  simp only [turn, ha]

/-- What there is to show for a step of `turn`: nothing, because its group is there
already; no room; or an item. -/
theorem turn_cases {P : ℕ → List β → Option α → List α → Turn α β → Prop}
    (nil : ∀ room seen next, P room seen next [] { next := next })
    (seen : ∀ room seen next a as g t, G.group a = some g → g ∈ seen → P room seen next as t →
      P room seen next (a :: as) t)
    (fullGroup : ∀ seen next a as g, G.group a = some g → g ∉ seen →
      P 0 seen next (a :: as) { more := true, next := some a })
    (fullKey : ∀ seen next a as, G.group a = none →
      P 0 seen next (a :: as) { more := true, next := next })
    (group : ∀ room seen next a as g t, G.group a = some g → g ∉ seen →
      P room (g :: seen) (some a) as t →
      P (room + 1) seen next (a :: as) (t.addGroup g))
    (key : ∀ room seen next a as t, G.group a = none → P room seen (some a) as t →
      P (room + 1) seen next (a :: as) (t.addKey a)) :
    ∀ room seen next K, P room seen next K (G.turn room seen next K) := by
  intro room seen₀ next K
  induction K generalizing room seen₀ next with
  | nil => exact nil room seen₀ next
  | cons a as ih =>
    cases ha : G.group a with
    | some g =>
      by_cases hseen : g ∈ seen₀
      · rw [turn_seen ha hseen]
        exact seen room seen₀ next a as g _ ha hseen (ih room seen₀ next)
      · cases room with
        | zero =>
          rw [turn_full_group ha hseen]
          exact fullGroup seen₀ next a as g ha hseen
        | succ room =>
          rw [turn_group ha hseen]
          exact group room seen₀ next a as g _ ha hseen (ih room (g :: seen₀) (some a))
    | none =>
      cases room with
      | zero =>
        rw [turn_full_key ha]
        exact fullKey seen₀ next a as ha
      | succ room =>
        rw [turn_key ha]
        exact key room seen₀ next a as _ ha (ih room seen₀ (some a))

/-! ### What a page may show -/

theorem turn_keys : ∀ a ∈ (G.turn room seen next K).keys, a ∈ K ∧ G.group a = none := by
  refine turn_cases (P := fun _ _ _ K t => ∀ a ∈ t.keys, a ∈ K ∧ G.group a = none) ?_ ?_ ?_ ?_ ?_ ?_
    room seen next K
  · intro _ _ _ a h
    cases h
  · intro _ _ _ b as g t _ _ ih a h
    exact ⟨List.mem_cons_of_mem b (ih a h).1, (ih a h).2⟩
  · intro _ _ _ _ _ _ _ a h
    cases h
  · intro _ _ _ _ _ a h
    cases h
  · intro _ _ _ b as g t _ _ ih a h
    exact ⟨List.mem_cons_of_mem b (ih a h).1, (ih a h).2⟩
  · intro _ _ _ b as t hb ih a h
    rcases List.mem_cons.mp h with rfl | h
    · exact ⟨List.mem_cons_self, hb⟩
    · exact ⟨List.mem_cons_of_mem b (ih a h).1, (ih a h).2⟩

theorem turn_groups : ∀ g ∈ (G.turn room seen next K).groups, ∃ a ∈ K, G.group a = some g := by
  have hcons : ∀ {b : α} {bs : List α} {g : β}, (∃ a ∈ bs, G.group a = some g) →
      ∃ a ∈ b :: bs, G.group a = some g := by
    intro b bs g h
    obtain ⟨a, ha, hag⟩ := h
    exact ⟨a, List.mem_cons_of_mem b ha, hag⟩
  refine turn_cases (P := fun _ _ _ K t => ∀ g ∈ t.groups, ∃ a ∈ K, G.group a = some g) ?_ ?_ ?_ ?_
    ?_ ?_ room seen next K
  · intro _ _ _ g h
    cases h
  · intro _ _ _ b as g₀ t _ _ ih g h
    exact hcons (ih g h)
  · intro _ _ _ _ _ _ _ g h
    cases h
  · intro _ _ _ _ _ g h
    cases h
  · intro _ _ _ b as g₀ t hb _ ih g h
    rcases List.mem_cons.mp h with rfl | h
    · exact ⟨b, List.mem_cons_self, hb⟩
    · exact hcons (ih g h)
  · intro _ _ _ b as t _ ih g h
    exact hcons (ih g h)

/-- No page is longer than its room. -/
theorem turn_length :
    (G.turn room seen next K).keys.length + (G.turn room seen next K).groups.length ≤ room := by
  refine turn_cases (P := fun room _ _ _ t => t.keys.length + t.groups.length ≤ room) ?_ ?_ ?_ ?_ ?_
    ?_ room seen next K
  · intro room _ _
    exact Nat.zero_le room
  · intro _ _ _ _ _ _ _ _ _ ih
    exact ih
  · intro _ _ _ _ _ _ _
    exact le_rfl
  · intro _ _ _ _ _
    exact le_rfl
  · intro _ _ _ _ _ g t _ _ ih
    simp only [Turn.addGroup, List.length_cons]
    omega
  · intro _ _ _ _ _ t _ ih
    simp only [Turn.addKey, List.length_cons]
    omega

/-- A page with room ends at a key. -/
theorem turn_next (hmore : (G.turn (k + 1) [] none K).more = true) :
    ∃ m ∈ K, (G.turn (k + 1) [] none K).next = some m := by
  have hany : ∀ room seen next K, (G.turn room seen next K).more = true →
      (0 < room ∨ ∃ m, next = some m) →
      ∃ m, (G.turn room seen next K).next = some m ∧ (m ∈ K ∨ next = some m) := by
    refine turn_cases (P := fun room _ next K t => t.more = true → (0 < room ∨ ∃ m, next = some m) →
      ∃ m, t.next = some m ∧ (m ∈ K ∨ next = some m)) ?_ ?_ ?_ ?_ ?_ ?_
    · intro _ _ _ h
      cases h
    · intro _ _ _ a as _ _ _ _ ih hmore hpos
      obtain ⟨m, hm, hmem⟩ := ih hmore hpos
      exact ⟨m, hm, hmem.imp (List.mem_cons_of_mem a) id⟩
    · intro _ _ a _ _ _ _ _ _
      exact ⟨a, rfl, Or.inl List.mem_cons_self⟩
    · intro _ next _ _ _ _ hpos
      obtain ⟨m, hm⟩ := hpos.resolve_left (lt_irrefl 0)
      exact ⟨m, hm, Or.inr hm⟩
    · intro _ _ _ a as _ _ _ _ ih hmore _
      obtain ⟨m, hm, hmem⟩ := ih hmore (Or.inr ⟨a, rfl⟩)
      refine ⟨m, hm, Or.inl ?_⟩
      rcases hmem with hmem | heq
      · exact List.mem_cons_of_mem a hmem
      · exact List.mem_cons.mpr (Or.inl (Option.some.inj heq).symm)
    · intro _ _ _ a as _ _ ih hmore _
      obtain ⟨m, hm, hmem⟩ := ih hmore (Or.inr ⟨a, rfl⟩)
      refine ⟨m, hm, Or.inl ?_⟩
      rcases hmem with hmem | heq
      · exact List.mem_cons_of_mem a hmem
      · exact List.mem_cons.mpr (Or.inl (Option.some.inj heq).symm)
  obtain ⟨m, hm, hmem⟩ := hany (k + 1) [] none K hmore (Or.inl (Nat.succ_pos k))
  refine ⟨m, hmem.resolve_right (by simp), hm⟩

/-- What the pages show is among the keys. -/
theorem turns_keys {ts : List (Turn α β)} (h : G.Turns k K ts) :
    ∀ a ∈ ts.flatMap Turn.keys, a ∈ K ∧ G.group a = none := by
  induction h with
  | last hmore =>
    intro a ha
    rw [List.flatMap_singleton] at ha
    exact turn_keys a ha
  | more hmore hm hts ih =>
    intro a ha
    rw [List.flatMap_cons, List.mem_append] at ha
    rcases ha with ha | ha
    · exact turn_keys a ha
    · obtain ⟨hmem, hnone⟩ := ih a ha
      exact ⟨(List.mem_filter.mp hmem).1, hnone⟩

theorem turns_groups {ts : List (Turn α β)} (h : G.Turns k K ts) :
    ∀ g ∈ ts.flatMap Turn.groups, ∃ a ∈ K, G.group a = some g := by
  induction h with
  | last hmore =>
    intro g hg
    rw [List.flatMap_singleton] at hg
    exact turn_groups g hg
  | more hmore hm hts ih =>
    intro g hg
    rw [List.flatMap_cons, List.mem_append] at hg
    rcases hg with hg | hg
    · exact turn_groups g hg
    · obtain ⟨a, hmem, hag⟩ := ih g hg
      exact ⟨a, (List.mem_filter.mp hmem).1, hag⟩

end

/-! ### One page after another -/

/-- What is on a page comes before its marker, and what is on a later page after it. -/
def Before (t t' : Turn α β) : Prop :=
  ∃ m, (∀ a ∈ t.keys, a ≤ m ∧ G.group a = none) ∧
    (∀ g ∈ t.groups, ∃ a, a ≤ m ∧ G.group a = some g) ∧
    (∀ a ∈ t'.keys, m < a ∧ G.group a = none) ∧ ∀ g ∈ t'.groups, ∃ a, m < a ∧ G.group a = some g

section

variable {G} {K : List α} {k : ℕ} {ts : List (Turn α β)} {m : α}

/-- Up to its marker a page shows what it shows. -/
theorem turn_upto (hK : K.Pairwise (· ≤ ·)) (hm : (G.turn k [] none K).next = some m) :
    (∀ a ∈ (G.turn k [] none K).keys, a ≤ m) ∧
      ∀ g ∈ (G.turn k [] none K).groups, ∃ a, a ≤ m ∧ G.group a = some g := by
  have hall : ∀ room seen next K, K.Pairwise (· ≤ ·) → (∀ n, next = some n → ∀ a ∈ K, n ≤ a) →
      ∀ m, (G.turn room seen next K).next = some m → (∀ n, next = some n → n ≤ m) ∧
        (∀ a ∈ (G.turn room seen next K).keys, a ≤ m) ∧
        ∀ g ∈ (G.turn room seen next K).groups, ∃ a, a ≤ m ∧ G.group a = some g := by
    refine turn_cases (P := fun _ _ next K t => K.Pairwise (· ≤ ·) →
      (∀ n, next = some n → ∀ a ∈ K, n ≤ a) →
      ∀ m, t.next = some m → (∀ n, next = some n → n ≤ m) ∧ (∀ a ∈ t.keys, a ≤ m) ∧
        ∀ g ∈ t.groups, ∃ a, a ≤ m ∧ G.group a = some g) ?_ ?_ ?_ ?_ ?_ ?_
    · intro _ _ next _ _ m hm
      refine ⟨?_, by simp, by simp⟩
      intro n hn
      exact (Option.some.inj (hn.symm.trans hm)).le
    · intro _ _ _ a as _ _ _ _ ih hsorted hnext m hm
      exact ih (List.pairwise_cons.mp hsorted).2
        (fun n hn b hb => hnext n hn b (List.mem_cons_of_mem a hb)) m hm
    · intro _ _ a as _ _ _ _ hnext m hm
      obtain rfl : a = m := Option.some.inj hm
      exact ⟨fun n hn => hnext n hn a List.mem_cons_self, by simp, by simp⟩
    · intro _ next _ _ _ _ _ m hm
      refine ⟨?_, by simp, by simp⟩
      intro n hn
      exact (Option.some.inj (hn.symm.trans hm)).le
    · intro _ _ _ a as g t ha _ ih hsorted hnext m hm
      obtain ⟨hfirst, has⟩ := List.pairwise_cons.mp hsorted
      obtain ⟨hle, hkeys, hgroups⟩ := ih has (fun n hn => Option.some.inj hn ▸ hfirst) m hm
      have ham : a ≤ m := hle a rfl
      refine ⟨fun n hn => (hnext n hn a List.mem_cons_self).trans ham, hkeys, ?_⟩
      intro g' hg'
      rcases List.mem_cons.mp hg' with rfl | hg'
      · exact ⟨a, ham, ha⟩
      · exact hgroups g' hg'
    · intro _ _ _ a as t _ ih hsorted hnext m hm
      obtain ⟨hfirst, has⟩ := List.pairwise_cons.mp hsorted
      obtain ⟨hle, hkeys, hgroups⟩ := ih has (fun n hn => Option.some.inj hn ▸ hfirst) m hm
      have ham : a ≤ m := hle a rfl
      refine ⟨fun n hn => (hnext n hn a List.mem_cons_self).trans ham, ?_, hgroups⟩
      intro b hb
      rcases List.mem_cons.mp hb with rfl | hb
      · exact ham
      · exact hkeys b hb
  exact (hall k [] none K hK (by simp) m hm).2

theorem turns_before (hK : K.Pairwise (· ≤ ·)) (h : G.Turns k K ts) : ts.Pairwise G.Before := by
  induction h with
  | last _ => exact List.pairwise_singleton _ _
  | @more K m ts hmore hm hts ih =>
    refine List.pairwise_cons.mpr ⟨?_, ih (hK.filter _)⟩
    intro t' ht'
    obtain ⟨hkeys, hgroups⟩ := turn_upto hK hm
    refine ⟨m, ?_, hgroups, ?_, ?_⟩
    · intro a ha
      exact ⟨hkeys a ha, (turn_keys a ha).2⟩
    · intro a ha
      obtain ⟨hmem, hnone⟩ := turns_keys hts a (List.mem_flatMap.mpr ⟨t', ht', ha⟩)
      exact ⟨of_decide_eq_true (List.mem_filter.mp hmem).2, hnone⟩
    · intro g hg
      obtain ⟨a, hmem, hag⟩ := turns_groups hts g (List.mem_flatMap.mpr ⟨t', ht', hg⟩)
      exact ⟨a, of_decide_eq_true (List.mem_filter.mp hmem).2, hag⟩

theorem turns_length (h : G.Turns k K ts) : ∀ t ∈ ts, t.keys.length + t.groups.length ≤ k := by
  induction h with
  | last _ =>
    intro t ht
    obtain rfl := List.mem_singleton.mp ht
    exact turn_length
  | more _ _ _ ih =>
    intro t ht
    rcases List.mem_cons.mp ht with rfl | ht
    · exact turn_length
    · exact ih t ht

/-- A key that is no group's is on the page or after its marker. -/
theorem turn_plain {a : α} (hK : K.Pairwise (· ≤ ·)) (ha : a ∈ K) (hnone : G.group a = none) :
    a ∈ (G.turn k [] none K).keys ∨
      (G.turn k [] none K).more = true ∧ ∀ m, (G.turn k [] none K).next = some m → m < a := by
  have hall : ∀ room seen next K, K.Pairwise (· ≤ ·) → (∀ n, next = some n → ∀ b ∈ K, n ≤ b) →
      a ∈ K →
      a ∈ (G.turn room seen next K).keys ∨ next = some a ∨
        (G.turn room seen next K).more = true ∧ ∀ m, (G.turn room seen next K).next = some m →
        m < a := by
    refine turn_cases (P := fun _ _ next K t => K.Pairwise (· ≤ ·) →
      (∀ n, next = some n → ∀ b ∈ K, n ≤ b) → a ∈ K →
      a ∈ t.keys ∨ next = some a ∨ t.more = true ∧ ∀ m, t.next = some m → m < a) ?_ ?_ ?_ ?_ ?_ ?_
    · intro _ _ _ _ _ h
      cases h
    · intro _ _ _ b as g _ hb _ ih hsorted hnext hmem
      have hab : a ≠ b := by
        rintro rfl
        rw [hnone] at hb
        cases hb
      exact ih (List.pairwise_cons.mp hsorted).2
        (fun n hn c hc => hnext n hn c (List.mem_cons_of_mem b hc))
        ((List.mem_cons.mp hmem).resolve_left hab)
    · intro _ _ b as g hb _ hsorted _ hmem
      have hab : a ≠ b := by
        rintro rfl
        rw [hnone] at hb
        cases hb
      have hle := (List.pairwise_cons.mp hsorted).1 a ((List.mem_cons.mp hmem).resolve_left hab)
      refine Or.inr (Or.inr ⟨rfl, ?_⟩)
      intro m hm
      obtain rfl : b = m := Option.some.inj hm
      exact lt_of_le_of_ne hle (Ne.symm hab)
    · intro _ next b as _ _ hnext hmem
      by_cases heq : next = some a
      · exact Or.inr (Or.inl heq)
      · refine Or.inr (Or.inr ⟨rfl, ?_⟩)
        intro m hm
        exact lt_of_le_of_ne (hnext m hm a hmem) (fun h => heq (h ▸ hm))
    · intro _ _ _ b as g t hb _ ih hsorted _ hmem
      have hab : a ≠ b := by
        rintro rfl
        rw [hnone] at hb
        cases hb
      obtain ⟨hfirst, has⟩ := List.pairwise_cons.mp hsorted
      rcases ih has (fun n hn => Option.some.inj hn ▸ hfirst)
        ((List.mem_cons.mp hmem).resolve_left hab) with h | h | h
      · exact Or.inl h
      · exact absurd (Option.some.inj h).symm hab
      · exact Or.inr (Or.inr h)
    · intro _ _ _ b as t _ ih hsorted _ hmem
      obtain ⟨hfirst, has⟩ := List.pairwise_cons.mp hsorted
      rcases List.mem_cons.mp hmem with rfl | hmem
      · exact Or.inl List.mem_cons_self
      rcases ih has (fun n hn => Option.some.inj hn ▸ hfirst) hmem with h | h | h
      · exact Or.inl (List.mem_cons_of_mem b h)
      · exact Or.inl (Option.some.inj h ▸ List.mem_cons_self)
      · exact Or.inr (Or.inr h)
  rcases hall k [] none K hK (by simp) ha with h | h | h
  · exact Or.inl h
  · cases h
  · exact Or.inr h

/-- No key that is no group's is left out. -/
theorem turns_plain {a : α} (hK : K.Pairwise (· ≤ ·)) (h : G.Turns k K ts) (ha : a ∈ K)
    (hnone : G.group a = none) :
    a ∈ ts.flatMap Turn.keys := by
  induction h with
  | last hmore =>
    rw [List.flatMap_singleton]
    rcases turn_plain hK ha hnone with h | ⟨h, -⟩
    · exact h
    · rw [hmore] at h
      cases h
  | more hmore hm _ ih =>
    rw [List.flatMap_cons, List.mem_append]
    rcases turn_plain hK ha hnone with h | ⟨-, h⟩
    · exact Or.inl h
    · exact Or.inr (ih (hK.filter _) (List.mem_filter.mpr ⟨ha, by simpa using h _ hm⟩))

end

end Grouping

end Paging
