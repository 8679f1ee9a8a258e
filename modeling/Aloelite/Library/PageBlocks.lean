import Aloelite.Library.Paging

/-! Sorted keys cut into blocks, one for each item, and what a page takes up of them. -/
namespace Paging

namespace Grouping

variable {α β : Type*} [LinearOrder α] [LinearOrder β] (G : Grouping α β)

/-! ### Stretches of keys -/

/-- The keys of one item: the first, and those that follow it. -/
abbrev Block (α : Type*) := α × List α

def Block.keys {α : Type*} (b : Block α) : List α := b.1 :: b.2

def flat {α : Type*} (bs : List (Block α)) : List α := bs.flatMap Block.keys

theorem mem_flat {α : Type*} {a : α} {bs : List (Block α)} : a ∈ flat bs ↔ ∃ b ∈ bs, a ∈ b.keys :=
  List.mem_flatMap

theorem flat_append {α : Type*} (front rest : List (Block α)) :
    flat (front ++ rest) = flat front ++ flat rest :=
  List.flatMap_append

/-- The last item of a full page. -/
theorem split_at {α : Type*} {as rest : List α} {last : α} {k : ℕ} (h : as.drop k = last :: rest) :
    as.take k ++ last :: rest = as ∧ (as.take k).length = k ∧ as.take (k + 1) =
      as.take k ++ [last] := by
  refine ⟨by rw [← h, List.take_append_drop], ?_, ?_⟩
  · have hlen := congrArg List.length h
    rw [List.length_drop, List.length_cons] at hlen
    rw [List.length_take]
    omega
  · rw [List.take_add_one, ← List.head?_drop, h]
    rfl

/-- Two keys make one item. -/
def Together (a b : α) : Prop := a = b ∨ ∃ g, G.group a = some g ∧ G.group b = some g

instance (a b : α) : Decidable (G.Together a b) :=
  decidable_of_iff (a = b ∨ ((G.group a).isSome ∧ G.group a = G.group b)) (by
    rw [Together]
    apply or_congr_right
    constructor
    · intro h
      obtain ⟨g, hg⟩ := Option.isSome_iff_exists.mp h.1
      exact ⟨g, hg, h.2 ▸ hg⟩
    · intro h
      obtain ⟨g, ha, hb⟩ := h
      exact ⟨by rw [ha, Option.isSome_some], by rw [ha, hb]⟩)

/-- Sorted keys, cut where the item changes. -/
def blocks : List α → List (Block α)
  | [] => []
  | a :: as =>
    match blocks as with
    | [] => [(a, [])]
    | b :: bs => if G.Together a b.1 then (a, b.keys) :: bs else (a, []) :: b :: bs

/-- Each block is one item, and items come one after another. -/
structure Blocked (bs : List (Block α)) : Prop where
  sorted : ∀ b ∈ bs, b.2.Pairwise (· ≤ ·)
  together : ∀ b ∈ bs, ∀ x ∈ b.2, b.1 ≤ x ∧ G.Together b.1 x
  apart : bs.Pairwise (fun b c => ∀ x ∈ b.keys, ∀ y ∈ c.keys, x < y ∧ ¬ G.Together x y)

/-- A key that is no group's and stands more than once. -/
def Again (b : Block α) : Prop := G.group b.1 = none ∧ b.2 ≠ []

instance (b : Block α) : Decidable (G.Again b) := inferInstanceAs (Decidable (_ ∧ _))

/-- What has to stand at the ends of the pages of `k + 1` items: a key that stands more
than once is the last item of its page; a page ends before a wanted group only if the
group has a second key, which is where the next page takes it up; and a group ends a page
before a key only if it has but one key left. The bound is one for the number of blocks. -/
def Fair (W : β → Prop) (k : ℕ) : ℕ → List (Block α) → Prop
  | 0, bs => bs = []
  | fuel + 1, bs =>
    ((∀ b ∈ bs.take k, ¬ G.Again b) ∧ ∀ b ∈ bs.take (k + 1), ∀ g, G.group b.1 = some g → W g) ∧
      match bs.drop k with
      | [] => True
      | last :: rest =>
        if G.Again last then Fair W k fuel rest
        else
          match rest with
          | [] => True
          | r :: rs =>
            if G.group r.1 = none then (∀ x ∈ last.2, x = last.1) ∧ Fair W k fuel (r :: rs)
            else
              match r.2.filter (r.1 < ·) with
              | [] => (∀ g, G.group r.1 = some g → ¬ W g) ∧ Fair W k fuel rs
              | x :: xs => Fair W k fuel ((x, xs) :: rs)

/-- The key a block shows, where it is no group's. -/
def plain (b : Block α) : Option α := if G.group b.1 = none then some b.1 else none

/-- The group a block shows. -/
def shown (b : Block α) : Option β := G.group b.1

/-- Where a full page ends, and with which marker, by its last block and the blocks
after that. -/
inductive Ends (last : Block α) : List (Block α) → Turn α β → Prop
  | again {rest : List (Block α)} {t : Turn α β} (h : G.Again last) (hmore : t.more = true)
      (hnext : t.next = some last.1) : Ends last rest t
  | done {t : Turn α β} (h : ¬ G.Again last) (hmore : t.more = false) : Ends last [] t
  | key {r : Block α} {rs : List (Block α)} {t : Turn α β} (h : ¬ G.Again last)
    (hr : G.group r.1 = none)
      (hmore : t.more = true) (hnext : t.next = some last.1) : Ends last (r :: rs) t
  | group {r : Block α} {rs : List (Block α)} {t : Turn α β} (h : ¬ G.Again last)
    (hr : G.group r.1 ≠ none)
      (hmore : t.more = true) (hnext : t.next = some r.1) : Ends last (r :: rs) t

section

variable {G} {bs front rest : List (Block α)} {b c : Block α} {seen : List β} {next : Option α}
  {K : List α} {a x y : α} {g : β} {r k : ℕ} {t : Turn α β} {ts : List (Turn α β)} {W : β → Prop}

theorem Together.symm (h : G.Together a x) : G.Together x a := by
  rcases h with rfl | ⟨g, ha, hx⟩
  · exact Or.inl rfl
  · exact Or.inr ⟨g, hx, ha⟩

theorem Together.trans (h : G.Together a x) (h' : G.Together x y) : G.Together a y := by
  rcases h with rfl | ⟨g, ha, hx⟩
  · exact h'
  · rcases h' with rfl | ⟨g', hx', hy⟩
    · exact Or.inr ⟨g, ha, hx⟩
    · rw [hx] at hx'
      exact Or.inr ⟨g, ha, hx' ▸ hy⟩

theorem Together.group (h : G.Together a x) : G.group x = G.group a := by
  rcases h with rfl | ⟨g, ha, hx⟩
  · rfl
  · rw [ha, hx]

theorem Together.eq (h : G.Together a x) (ha : G.group a = none) : x = a := by
  rcases h with rfl | ⟨g, ha', -⟩
  · rfl
  · rw [ha] at ha'
    cases ha'


theorem Blocked.mem (h : G.Blocked bs) (hb : b ∈ bs) (hx : x ∈ b.keys) :
    b.1 ≤ x ∧ G.Together b.1 x := by
  rcases List.mem_cons.mp hx with rfl | hx
  · exact ⟨le_rfl, Or.inl rfl⟩
  · exact h.together b hb x hx

theorem Blocked.tail (h : G.Blocked (b :: bs)) : G.Blocked bs :=
  ⟨fun c hc => h.sorted c (List.mem_cons_of_mem b hc), fun c hc =>
    h.together c (List.mem_cons_of_mem b hc), (List.pairwise_cons.mp h.apart).2⟩

theorem Blocked.right (h : G.Blocked (front ++ rest)) : G.Blocked rest :=
  ⟨fun c hc => h.sorted c (List.mem_append_right front hc), fun c hc =>
    h.together c (List.mem_append_right front hc),
    (List.pairwise_append.mp h.apart).2.1⟩

theorem Blocked.left (h : G.Blocked (front ++ rest)) : G.Blocked front :=
  ⟨fun c hc => h.sorted c (List.mem_append_left rest hc), fun c hc =>
    h.together c (List.mem_append_left rest hc),
    (List.pairwise_append.mp h.apart).1⟩

theorem Blocked.across (h : G.Blocked (front ++ rest)) (hb : b ∈ front) (hc : c ∈ rest)
    (hx : x ∈ b.keys) (hy : y ∈ c.keys) : x < y ∧ ¬ G.Together x y :=
  (List.pairwise_append.mp h.apart).2.2 b hb c hc x hx y hy

/-- Cutting keeps the keys, and cuts sorted keys into items. -/
theorem flat_blocks (K : List α) : flat (G.blocks K) = K := by
  induction K with
  | nil => rfl
  | cons a as ih =>
    rw [blocks]
    cases hb : G.blocks as with
    | nil =>
      rw [hb] at ih
      rw [← ih]
      rfl
    | cons b bs =>
      rw [hb] at ih
      simp only
      split
      · rw [← ih]
        rfl
      · rw [← ih]
        rfl

theorem blocked_blocks (hK : K.Pairwise (· ≤ ·)) : G.Blocked (G.blocks K) := by
  induction K with
  | nil => exact ⟨fun b hb => absurd hb List.not_mem_nil, fun b hb =>
    absurd hb List.not_mem_nil, List.Pairwise.nil⟩
  | cons a as ih =>
    obtain ⟨hle, has⟩ := List.pairwise_cons.mp hK
    have hbs := ih has
    have hmem : ∀ c ∈ G.blocks as, ∀ y ∈ c.keys, a ≤ y := by
      intro c hc y hy
      apply hle
      rw [← flat_blocks (G := G) as]
      exact mem_flat.mpr ⟨c, hc, hy⟩
    rw [blocks]
    cases hb : G.blocks as with
    | nil =>
      refine ⟨?_, ?_, List.pairwise_singleton _ _⟩
      · intro c hc
        obtain rfl := List.mem_singleton.mp hc
        exact List.Pairwise.nil
      intro c hc x hx
      obtain rfl := List.mem_singleton.mp hc
      cases hx
    | cons b bs =>
      rw [hb] at hbs hmem
      obtain ⟨hfirst, hrest⟩ := List.pairwise_cons.mp hbs.apart
      simp only
      split
      next htog =>
        -- the key joins the first block
        refine ⟨?_, ?_, List.pairwise_cons.mpr ⟨?_, hrest⟩⟩
        · intro c hc
          rcases List.mem_cons.mp hc with rfl | hc
          · apply List.pairwise_cons.mpr
            exact ⟨fun x hx => (hbs.together b List.mem_cons_self x hx).1,
              hbs.sorted b List.mem_cons_self⟩
          · exact hbs.sorted c (List.mem_cons_of_mem b hc)
        · intro c hc x hx
          rcases List.mem_cons.mp hc with rfl | hc
          · refine ⟨hmem b List.mem_cons_self x hx, ?_⟩
            exact htog.trans (hbs.mem List.mem_cons_self hx).2
          · exact hbs.together c (List.mem_cons_of_mem b hc) x hx
        · intro c hc x hx y hy
          rcases List.mem_cons.mp hx with rfl | hx
          · obtain ⟨hlt, hnot⟩ := hfirst c hc b.1 List.mem_cons_self y hy
            refine ⟨(hmem b List.mem_cons_self b.1 List.mem_cons_self).trans_lt hlt, ?_⟩
            exact fun h => hnot (htog.symm.trans h)
          · exact hfirst c hc x hx y hy
      next htog =>
        -- the key starts a block of its own
        have hb₁ : a ≤ b.1 := hmem b List.mem_cons_self b.1 List.mem_cons_self
        have hnot : ∀ c ∈ b :: bs, ∀ y ∈ c.keys, ¬ G.Together a y := by
          intro c hc y hy hay
          rcases List.mem_cons.mp hc with rfl | hc
          · exact htog (hay.trans (hbs.mem List.mem_cons_self hy).2.symm)
          · have hlt := (hfirst c hc b.1 List.mem_cons_self y hy).1
            rcases hay with rfl | ⟨g, ha, hy'⟩
            · exact absurd hlt (not_lt.mpr hb₁)
            · exact htog (Or.inr ⟨g, ha, G.convex hb₁ hlt.le ha hy'⟩)
        refine ⟨?_, ?_, List.pairwise_cons.mpr ⟨?_, hbs.apart⟩⟩
        · intro c hc
          rcases List.mem_cons.mp hc with rfl | hc
          · exact List.Pairwise.nil
          · exact hbs.sorted c hc
        · intro c hc x hx
          rcases List.mem_cons.mp hc with rfl | hc
          · cases hx
          · exact hbs.together c hc x hx
        · intro c hc x hx y hy
          obtain rfl : x = a := by
            rcases List.mem_cons.mp hx with rfl | hx
            · rfl
            · cases hx
          refine ⟨lt_of_le_of_ne (hmem c hc y hy) ?_, hnot c hc y hy⟩
          rintro rfl
          exact hnot c hc x hy (Or.inl rfl)

/-! ### A page over blocks -/

theorem turn_skip {xs : List α} (hxs : ∀ x ∈ xs, G.group x = some g) (hseen : g ∈ seen) :
    G.turn r seen next (xs ++ K) = G.turn r seen next K := by
  induction xs with
  | nil => rfl
  | cons x xs ih =>
    rw [List.cons_append, turn_seen (hxs x List.mem_cons_self) hseen]
    exact ih (fun y hy => hxs y (List.mem_cons_of_mem x hy))

/-- A block that is a group takes one place. -/
theorem turn_block_group (hb : ∀ x ∈ b.2, G.Together b.1 x) (hg : G.group b.1 = some g)
    (hseen : g ∉ seen) :
    G.turn (r + 1) seen next (b.keys ++ K) = (G.turn r (g :: seen) (some b.1) K).addGroup g := by
  rw [Block.keys, List.cons_append, turn_group hg hseen, turn_skip _ List.mem_cons_self]
  intro x hx
  rw [(hb x hx).group, hg]

/-- So does a key that stands once. -/
theorem turn_block_key (hb : ¬ G.Again b) (hg : G.group b.1 = none) :
    G.turn (r + 1) seen next (b.keys ++ K) = (G.turn r seen (some b.1) K).addKey b.1 := by
  have hnil : b.2 = [] := by
    by_contra hne
    exact hb ⟨hg, hne⟩
  rw [Block.keys, List.cons_append, turn_key hg, hnil, List.nil_append]

/-- Blocks that take one place each. -/
theorem turn_front (next : Option α) (hbs : G.Blocked front) (hagain : ∀ b ∈ front, ¬ G.Again b)
    (hseen : ∀ b ∈ front, ∀ g ∈ seen, G.group b.1 ≠ some g) :
    ∃ seen' next', (∀ g, g ∈ seen' ↔ g ∈ seen ∨ ∃ b ∈ front, G.group b.1 = some g) ∧
      G.turn (front.length + r) seen next (flat front ++ K) =
        (G.turn r seen' next' K).behind (front.filterMap (plain G))
          (front.filterMap (shown G)) := by
  induction front generalizing seen next with
  | nil =>
    refine ⟨seen, next, ?_, ?_⟩
    · intro g
      simp
    · rw [List.length_nil, Nat.zero_add]
      rfl
  | cons b front ih =>
    have hcons : flat (b :: front) ++ K = b.keys ++ (flat front ++ K) := by
      rw [flat, List.flatMap_cons, List.append_assoc]
      rfl
    have hlen : (b :: front).length + r = (front.length + r) + 1 := by
      rw [List.length_cons]
      omega
    obtain ⟨hfirst, -⟩ := List.pairwise_cons.mp hbs.apart
    have hagain' : ∀ c ∈ front, ¬ G.Again c := fun c hc => hagain c (List.mem_cons_of_mem b hc)
    rw [hcons, hlen]
    cases hg : G.group b.1 with
    | none =>
      have hseen' : ∀ c ∈ front, ∀ g ∈ seen, G.group c.1 ≠ some g :=
        fun c hc => hseen c (List.mem_cons_of_mem b hc)
      obtain ⟨seen', next', hmem, hturn⟩ := ih (some b.1) hbs.tail hagain' hseen'
      refine ⟨seen', next', ?_, ?_⟩
      · intro g
        rw [hmem g, List.exists_mem_cons_iff, hg]
        simp
      · have hplain : plain G b = some b.1 := if_pos hg
        have hshown : shown G b = none := hg
        rw [turn_block_key (hagain b List.mem_cons_self) hg, hturn, List.filterMap_cons_some hplain,
          List.filterMap_cons_none hshown]
        rfl
    | some g =>
      have hnew : g ∉ seen := by
        intro hmem
        exact hseen b List.mem_cons_self g hmem hg
      have hseen' : ∀ c ∈ front, ∀ g' ∈ g :: seen, G.group c.1 ≠ some g' := by
        intro c hc g' hg' heq
        rcases List.mem_cons.mp hg' with rfl | hg'
        · exact (hfirst c hc b.1 List.mem_cons_self c.1 List.mem_cons_self).2 (Or.inr ⟨g', hg, heq⟩)
        · exact hseen c (List.mem_cons_of_mem b hc) g' hg' heq
      obtain ⟨seen', next', hmem, hturn⟩ := ih (some b.1) hbs.tail hagain' hseen'
      refine ⟨seen', next', ?_, ?_⟩
      · intro g'
        rw [hmem g', List.exists_mem_cons_iff, hg, List.mem_cons, Option.some.injEq, eq_comm]
        tauto
      · have hplain : plain G b = none := if_neg (by simp [hg])
        have hshown : shown G b = some g := hg
        have htog : ∀ x ∈ b.2, G.Together b.1 x :=
          fun x hx => (hbs.together b List.mem_cons_self x hx).2
        rw [turn_block_group htog hg hnew, hturn, List.filterMap_cons_none hplain,
          List.filterMap_cons_some hshown]
        rfl

/-- A page that holds all the blocks. -/
theorem turn_short (hbs : G.Blocked bs) (hagain : ∀ b ∈ bs, ¬ G.Again b) (hlen : bs.length ≤ k) :
    (G.turn k [] none (flat bs)).more = false ∧
      (G.turn k [] none (flat bs)).keys = bs.filterMap (plain G) ∧
      (G.turn k [] none (flat bs)).groups = bs.filterMap (shown G) := by
  have hseen : ∀ b ∈ bs, ∀ g ∈ ([] : List β), G.group b.1 ≠ some g :=
    fun _ _ _ hg => absurd hg List.not_mem_nil
  obtain ⟨seen', next', -, hturn⟩ := turn_front (r := k - bs.length) (K := []) none hbs hagain hseen
  rw [List.append_nil, Nat.add_sub_cancel' hlen] at hturn
  rw [hturn]
  exact ⟨rfl, List.append_nil _, List.append_nil _⟩

theorem turn_rest (hrest : G.Blocked rest) (hseen : ∀ b ∈ rest, ∀ g ∈ seen, G.group b.1 ≠ some g)
    {last : Block α} (hlast : ¬ G.Again last) :
    G.Ends last rest (G.turn 0 seen (some last.1) (flat rest)) ∧
      (G.turn 0 seen (some last.1) (flat rest)).keys = [] ∧
        (G.turn 0 seen (some last.1) (flat rest)).groups = [] := by
  cases rest with
  | nil => exact ⟨.done hlast rfl, rfl, rfl⟩
  | cons r rs =>
    have hcons : flat (r :: rs) = r.1 :: (r.2 ++ flat rs) := rfl
    rw [hcons]
    cases hr : G.group r.1 with
    | none =>
      rw [turn_full_key hr]
      exact ⟨.key hlast hr rfl rfl, rfl, rfl⟩
    | some g =>
      have hnew : g ∉ seen := fun hmem => hseen r List.mem_cons_self g hmem hr
      rw [turn_full_group hr hnew]
      exact ⟨.group hlast (by simp [hr]) rfl rfl, rfl, rfl⟩

/-- A page that is filled by its last block. -/
theorem turn_full {last : Block α} (hbs : G.Blocked (front ++ last :: rest))
    (hagain : ∀ b ∈ front, ¬ G.Again b) :
    let t := G.turn (front.length + 1) [] none (flat (front ++ last :: rest))
    G.Ends last rest t ∧ t.keys = (front ++ [last]).filterMap (plain G) ∧
      t.groups = (front ++ [last]).filterMap (shown G) := by
  intro t
  have hfront : G.Blocked front := hbs.left
  have hlast : G.Blocked (last :: rest) := hbs.right
  obtain ⟨hfirst, -⟩ := List.pairwise_cons.mp hlast.apart
  have hnone : ∀ b ∈ front, ∀ g ∈ ([] : List β), G.group b.1 ≠ some g :=
    fun _ _ _ hg => absurd hg List.not_mem_nil
  obtain ⟨seen', next', hmem, hturn⟩ :=
    turn_front (r := 1) (K := last.keys ++ flat rest) none hfront hagain hnone
  have hflat : flat (front ++ last :: rest) = flat front ++ (last.keys ++ flat rest) := by
    rw [flat, List.flatMap_append, List.flatMap_cons]
    rfl
  -- no later block is of a group that is there already
  have hseen : ∀ b ∈ last :: rest, ∀ g ∈ seen', G.group b.1 ≠ some g := by
    intro b hb g hg heq
    rcases (hmem g).mp hg with hnil | ⟨c, hc, hgc⟩
    · cases hnil
    · exact (hbs.across hc hb List.mem_cons_self List.mem_cons_self).2 (Or.inr ⟨g, hgc, heq⟩)
  have hseenRest : ∀ b ∈ rest, ∀ g ∈ seen', G.group b.1 ≠ some g :=
    fun b hb => hseen b (List.mem_cons_of_mem last hb)
  have ht : t = (G.turn 1 seen' next' (last.keys ++ flat rest)).behind (front.filterMap (plain G))
      (front.filterMap (shown G)) := by
    rw [← hturn, ← hflat]
  cases hg : G.group last.1 with
  | some g =>
    have hplain : plain G last = none := if_neg (by simp [hg])
    have hshown : shown G last = some g := hg
    have hnot : ¬ G.Again last := by
      intro h
      rw [Again, hg] at h
      cases h.1
    have htog : ∀ x ∈ last.2, G.Together last.1 x :=
      fun x hx => (hlast.together last List.mem_cons_self x hx).2
    have hnew : g ∉ seen' := fun h => hseen last List.mem_cons_self g h hg
    have hseen' : ∀ b ∈ rest, ∀ g' ∈ g :: seen', G.group b.1 ≠ some g' := by
      intro b hb g' hg' heq
      rcases List.mem_cons.mp hg' with rfl | hg'
      · exact (hfirst b hb last.1 List.mem_cons_self b.1 List.mem_cons_self).2
          (Or.inr ⟨g', hg, heq⟩)
      · exact hseenRest b hb g' hg' heq
    obtain ⟨hends, hkeys, hgroups⟩ := turn_rest hlast.tail hseen' hnot
    rw [turn_block_group htog hg hnew] at ht
    rw [ht, List.filterMap_append, List.filterMap_append, List.filterMap_cons_none hplain,
      List.filterMap_cons_some hshown]
    refine ⟨?_, ?_, ?_⟩
    · cases hends with
      | again h _ _ => exact absurd h hnot
      | done _ hmore => exact .done hnot hmore
      | key _ hr hmore hnext => exact .key hnot hr hmore hnext
      | group _ hr hmore hnext => exact .group hnot hr hmore hnext
    · simp only [Turn.behind, Turn.addGroup, hkeys, List.filterMap_nil]
    · simp only [Turn.behind, Turn.addGroup, hgroups, List.filterMap_nil]
  | none =>
    have hplain : plain G last = some last.1 := if_pos hg
    have hshown : shown G last = none := hg
    rw [List.filterMap_append, List.filterMap_append, List.filterMap_cons_some hplain,
      List.filterMap_cons_none hshown]
    by_cases hlastAgain : G.Again last
    · -- a second copy finds the page full
      obtain ⟨x, xs, hxs⟩ := List.exists_cons_of_ne_nil hlastAgain.2
      have hx : x = last.1 := by
        apply (hlast.together last List.mem_cons_self x (hxs ▸ List.mem_cons_self)).2.eq hg
      have hkeys : last.keys ++ flat rest = last.1 :: last.1 :: (xs ++ flat rest) := by
        rw [Block.keys, hxs, hx]
        rfl
      rw [hkeys, turn_key hg, turn_full_key hg] at ht
      rw [ht]
      exact ⟨.again hlastAgain rfl rfl, rfl, rfl⟩
    · obtain ⟨hends, hkeys, hgroups⟩ := turn_rest hlast.tail hseenRest hlastAgain
      rw [turn_block_key hlastAgain hg] at ht
      rw [ht]
      refine ⟨?_, ?_, ?_⟩
      · cases hends with
        | again h _ _ => exact absurd h hlastAgain
        | done _ hmore => exact .done hlastAgain hmore
        | key _ hr hmore hnext => exact .key hlastAgain hr hmore hnext
        | group _ hr hmore hnext => exact .group hlastAgain hr hmore hnext
      · simp only [Turn.behind, Turn.addKey, hkeys, List.filterMap_nil]
      · simp only [Turn.behind, Turn.addKey, hgroups, List.filterMap_nil]

/-- A key that stands more than once and is not the last item of its page is on the page
twice. -/
theorem turn_twice (hbs : G.Blocked (front ++ b :: rest)) (hagain : ∀ c ∈ front, ¬ G.Again c)
    (hb : G.Again b) (hk : front.length + 2 ≤ k) :
    ¬ (G.turn k [] none (flat (front ++ b :: rest))).keys.Pairwise (· < ·) := by
  have hfront : G.Blocked front := hbs.left
  have hnone : ∀ c ∈ front, ∀ g ∈ ([] : List β), G.group c.1 ≠ some g :=
    fun _ _ _ hg => absurd hg List.not_mem_nil
  obtain ⟨seen', next', -, hturn⟩ :=
    turn_front (r := k - front.length) (K := b.keys ++ flat rest) none hfront hagain hnone
  have hflat : flat (front ++ b :: rest) = flat front ++ (b.keys ++ flat rest) := by
    rw [flat, List.flatMap_append, List.flatMap_cons]
    rfl
  obtain ⟨x, xs, hxs⟩ := List.exists_cons_of_ne_nil hb.2
  have hx : x = b.1 := by
    apply (hbs.right.together b List.mem_cons_self x (hxs ▸ List.mem_cons_self)).2.eq hb.1
  have hkeys : b.keys ++ flat rest = b.1 :: b.1 :: (xs ++ flat rest) := by
    rw [Block.keys, hxs, hx]
    rfl
  have hroom : k - front.length = k - front.length - 2 + 1 + 1 := by omega
  have hlen : front.length + (k - front.length) = k := by omega
  rw [hlen, hkeys, hroom, turn_key hb.1, turn_key hb.1] at hturn
  rw [hflat, hkeys, hturn]
  intro hsorted
  have hright := (List.pairwise_append.mp hsorted).2.1
  exact lt_irrefl _ ((List.pairwise_cons.mp hright).1 b.1 List.mem_cons_self)

/-- The first item of the keys is on the page. -/
theorem first_shown (hg : G.group a = some g) : g ∈ (G.turn (k + 1) [] none (a :: K)).groups := by
  rw [turn_group hg List.not_mem_nil]
  exact List.mem_cons_self

end

end Grouping

end Paging
