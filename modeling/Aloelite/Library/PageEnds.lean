import Aloelite.Library.PageBlocks

/-! Where pages end. Each page takes up a number of blocks, and what stands at its end decides
whether the next page goes on with the block after it. -/
namespace Paging

namespace Grouping

variable {α β : Type*} [LinearOrder α] [LinearOrder β] (G : Grouping α β)

section

variable {G} {bs front rest : List (Block α)} {b c : Block α} {seen : List β} {next : Option α}
  {K : List α} {a x y : α} {g : β} {r k : ℕ} {t : Turn α β} {ts : List (Turn α β)} {W : β → Prop}

theorem mem_plain (hbs : G.Blocked bs) :
    a ∈ bs.filterMap (plain G) ↔ a ∈ flat bs ∧ G.group a = none := by
  rw [List.mem_filterMap, mem_flat]
  constructor
  · intro h
    obtain ⟨b, hb, hplain⟩ := h
    rw [plain] at hplain
    split at hplain
    next hnone =>
      obtain rfl := Option.some.inj hplain
      exact ⟨⟨b, hb, List.mem_cons_self⟩, hnone⟩
    next => cases hplain
  · intro h
    obtain ⟨⟨b, hb, ha⟩, hnone⟩ := h
    have htog := (hbs.mem hb ha).2
    have hfirst : G.group b.1 = none := by rw [← htog.group, hnone]
    refine ⟨b, hb, ?_⟩
    rw [plain, if_pos hfirst, htog.eq hfirst]

theorem mem_shown (hbs : G.Blocked bs) :
    g ∈ bs.filterMap (shown G) ↔ ∃ a ∈ flat bs, G.group a = some g := by
  rw [List.mem_filterMap]
  constructor
  · intro h
    obtain ⟨b, hb, hg⟩ := h
    exact ⟨b.1, mem_flat.mpr ⟨b, hb, List.mem_cons_self⟩, hg⟩
  · intro h
    obtain ⟨a, ha, hg⟩ := h
    obtain ⟨b, hb, hmem⟩ := mem_flat.mp ha
    refine ⟨b, hb, ?_⟩
    rw [shown, ← (hbs.mem hb hmem).2.group]
    exact hg

/-- What blocks show is in order. -/
theorem plain_sorted (hbs : G.Blocked bs) : (bs.filterMap (plain G)).Pairwise (· < ·) := by
  rw [List.pairwise_filterMap]
  refine hbs.apart.imp ?_
  intro b c hlt x hx y hy
  rw [plain] at hx hy
  split at hx
  · split at hy
    · obtain rfl := Option.some.inj hx
      obtain rfl := Option.some.inj hy
      exact (hlt b.1 List.mem_cons_self c.1 List.mem_cons_self).1
    · cases hy
  · cases hx

theorem group_lt {h : β} (hlt : a < x ∧ ¬ G.Together a x) (ha : G.group a = some g)
    (hx : G.group x = some h) : g < h := by
  apply lt_of_le_of_ne (G.mono hlt.1.le ha hx)
  rintro rfl
  exact hlt.2 (Or.inr ⟨g, ha, hx⟩)

theorem shown_sorted (hbs : G.Blocked bs) : (bs.filterMap (shown G)).Pairwise (· < ·) := by
  rw [List.pairwise_filterMap]
  refine hbs.apart.imp ?_
  intro b c hlt g hg h hh
  exact group_lt (hlt b.1 List.mem_cons_self c.1 List.mem_cons_self) hg hh

/-- A page that shows its blocks is right if and only if the pages after it are, which
see the items of the remaining blocks. -/
theorem shows_cons (hbs : G.Blocked (front ++ rest)) (hkeys : t.keys = front.filterMap (plain G))
    (hgroups : t.groups = front.filterMap (shown G))
    (hwant : ∀ b ∈ front, ∀ g, G.group b.1 = some g → W g)
    (hK : ∀ a, a ∈ K ∧ G.group a = none ↔ a ∈ flat rest ∧ G.group a = none)
    (hKg : ∀ g, W g → ((∃ a ∈ K, G.group a = some g) ↔ ∃ a ∈ flat rest, G.group a = some g))
    (hts : ∀ a ∈ ts.flatMap Turn.keys, a ∈ K ∧ G.group a = none)
    (htsg : ∀ g ∈ ts.flatMap Turn.groups, ∃ a ∈ K, G.group a = some g) :
    G.Shows W (t :: ts) (flat (front ++ rest)) ↔ G.Shows W ts K := by
  have hleft : G.Blocked front := hbs.left
  -- no key of the later blocks comes before, or is grouped with, one of the blocks shown
  have hcross : ∀ a ∈ flat front, ∀ x ∈ flat rest, a < x ∧ ¬ G.Together a x := by
    intro a ha x hx
    obtain ⟨b, hb, hab⟩ := mem_flat.mp ha
    obtain ⟨c, hc, hxc⟩ := mem_flat.mp hx
    exact hbs.across hb hc hab hxc
  constructor
  · intro h
    obtain ⟨hks, hgs, hmem, hmemg⟩ := h
    rw [List.flatMap_cons] at hks hgs hmem hmemg
    refine ⟨(List.pairwise_append.mp hks).2.1, (List.pairwise_append.mp hgs).2.1, ?_, ?_⟩
    · intro a
      refine ⟨hts a, ?_⟩
      intro ha
      obtain ⟨hrest, hnone⟩ := (hK a).mp ha
      have hall : a ∈ t.keys ++ ts.flatMap Turn.keys := by
        apply (hmem a).mpr
        rw [flat_append]
        exact ⟨List.mem_append_right _ hrest, hnone⟩
      rcases List.mem_append.mp hall with hfront | hmore
      · rw [hkeys, mem_plain hleft] at hfront
        exact absurd (hcross a hfront.1 a hrest).1 (lt_irrefl a)
      · exact hmore
    · intro g
      constructor
      · intro hg
        exact ⟨htsg g hg, ((hmemg g).mp (List.mem_append_right _ hg)).2⟩
      intro hg
      obtain ⟨hg, hw⟩ := hg
      obtain ⟨x, hx, hxg⟩ := (hKg g hw).mp hg
      have hall : g ∈ t.groups ++ ts.flatMap Turn.groups := by
        apply (hmemg g).mpr
        rw [flat_append]
        exact ⟨⟨x, List.mem_append_right _ hx, hxg⟩, hw⟩
      rcases List.mem_append.mp hall with hfront | hmore
      · rw [hgroups, mem_shown hleft] at hfront
        obtain ⟨a, ha, hag⟩ := hfront
        exact absurd (Or.inr ⟨g, hag, hxg⟩) (hcross a ha x hx).2
      · exact hmore
  · intro h
    obtain ⟨hks, hgs, hmem, hmemg⟩ := h
    refine ⟨?_, ?_, ?_, ?_⟩
    · rw [List.flatMap_cons, List.pairwise_append, hkeys]
      refine ⟨plain_sorted hleft, hks, ?_⟩
      intro a ha x hx
      exact (hcross a ((mem_plain hleft).mp ha).1 x ((hK x).mp (hts x hx)).1).1
    · rw [List.flatMap_cons, List.pairwise_append, hgroups]
      refine ⟨shown_sorted hleft, hgs, ?_⟩
      intro g hg g' hg'
      obtain ⟨a, ha, hag⟩ := (mem_shown hleft).mp hg
      obtain ⟨hg', hw⟩ := (hmemg g').mp hg'
      obtain ⟨x, hx, hxg⟩ := (hKg g' hw).mp hg'
      exact group_lt (hcross a ha x hx) hag hxg
    · intro a
      rw [List.flatMap_cons, List.mem_append, hkeys, mem_plain hleft, hmem, hK, flat_append,
        List.mem_append, or_and_right]
    · intro g
      have hwanted : (∃ a ∈ flat front, G.group a = some g) → W g := by
        intro h
        obtain ⟨a, ha, hag⟩ := h
        obtain ⟨b, hb, hab⟩ := mem_flat.mp ha
        exact hwant b hb g (((hleft.mem hb hab).2.group).symm.trans hag)
      rw [List.flatMap_cons, List.mem_append, hgroups, mem_shown hleft, hmemg, flat_append]
      simp only [List.mem_append, or_and_right, exists_or]
      by_cases hw : W g
      · rw [hKg g hw]
        simp only [hw, and_true]
      · simp only [hw, and_false, or_false]
        exact iff_of_false (fun h => hw (hwanted h)) id

/-- What comes after a marker that starts a block. -/
theorem filter_marker (hbs : G.Blocked (front ++ b :: rest)) :
    (flat (front ++ b :: rest)).filter (b.1 < ·) = b.2.filter (b.1 < ·) ++ flat rest := by
  have hfront : (flat front).filter (b.1 < ·) = [] := by
    rw [List.filter_eq_nil_iff]
    intro a ha
    obtain ⟨c, hc, hac⟩ := mem_flat.mp ha
    have hlt := (hbs.across hc List.mem_cons_self hac List.mem_cons_self).1
    simpa using hlt.le
  have hrest : (flat rest).filter (b.1 < ·) = flat rest := by
    rw [List.filter_eq_self]
    intro a ha
    obtain ⟨c, hc, hac⟩ := mem_flat.mp ha
    have hlt := ((List.pairwise_cons.mp hbs.right.apart).1 c hc b.1 List.mem_cons_self a hac).1
    simpa using hlt
  have hcons : flat (b :: rest) = b.1 :: (b.2 ++ flat rest) := rfl
  rw [flat_append, List.filter_append, hfront, List.nil_append, hcons,
    List.filter_cons_of_neg (by simp),
    List.filter_append, hrest]

/-- The pages from keys whose first page is not the last. -/
theorem turns_more {m : α} (hmore : (G.turn k [] none K).more = true)
    (hm : (G.turn k [] none K).next = some m) :
    G.Turns k K ts ↔ ∃ ts', ts = G.turn k [] none K :: ts' ∧ G.Turns k (K.filter (m < ·)) ts' := by
  constructor
  · intro h
    cases h with
    | last h =>
      rw [hmore] at h
      cases h
    | more _ hm' hts =>
      obtain rfl := Option.some.inj (hm.symm.trans hm')
      exact ⟨_, rfl, hts⟩
  · intro h
    obtain ⟨ts', rfl, hts⟩ := h
    exact .more hmore hm hts

theorem turns_first (h : G.Turns k K ts) : ∃ ts', ts = G.turn k [] none K :: ts' := by
  cases h with
  | last _ => exact ⟨[], rfl⟩
  | more _ _ _ => exact ⟨_, rfl⟩

/-- Where a page shows its blocks and leaves the remaining items to the next one. -/
theorem exists_shows_iff {m : α} (hbs : G.Blocked (front ++ rest))
    (hmore : (G.turn k [] none (flat (front ++ rest))).more = true)
    (hm : (G.turn k [] none (flat (front ++ rest))).next = some m)
    (hkeys : (G.turn k [] none (flat (front ++ rest))).keys = front.filterMap (plain G))
    (hgroups : (G.turn k [] none (flat (front ++ rest))).groups = front.filterMap (shown G))
    (hwant : ∀ b ∈ front, ∀ g, G.group b.1 = some g → W g)
    (hnext : (flat (front ++ rest)).filter (m < ·) = K)
    (hK : ∀ a, a ∈ K ∧ G.group a = none ↔ a ∈ flat rest ∧ G.group a = none)
    (hKg : ∀ g, W g → ((∃ a ∈ K, G.group a = some g) ↔ ∃ a ∈ flat rest, G.group a = some g)) :
    (∃ ts, G.Turns k (flat (front ++ rest)) ts ∧ G.Shows W ts (flat (front ++ rest))) ↔
      ∃ ts, G.Turns k K ts ∧ G.Shows W ts K := by
  simp only [turns_more hmore hm, hnext]
  constructor
  · intro h
    obtain ⟨_, ⟨ts, rfl, hts⟩, hshows⟩ := h
    exact ⟨ts, hts, (shows_cons hbs hkeys hgroups hwant hK hKg (turns_keys hts)
      (turns_groups hts)).mp hshows⟩
  · intro h
    obtain ⟨ts, hts, hshows⟩ := h
    exact ⟨_, ⟨ts, rfl, hts⟩,
      (shows_cons hbs hkeys hgroups hwant hK hKg (turns_keys hts) (turns_groups hts)).mpr hshows⟩

/-- A page that holds everything is right. -/
theorem shows_short (hbs : G.Blocked bs) (hagain : ∀ b ∈ bs, ¬ G.Again b)
    (hwant : ∀ b ∈ bs, ∀ g, G.group b.1 = some g → W g) (hlen : bs.length ≤ k) :
    ∃ ts, G.Turns k (flat bs) ts ∧ G.Shows W ts (flat bs) := by
  obtain ⟨hmore, hkeys, hgroups⟩ := turn_short hbs hagain hlen
  refine ⟨_, .last hmore, ?_⟩
  have hempty : G.Shows W ([] : List (Turn α β)) [] := ⟨.nil, .nil, by simp, by simp⟩
  rw [← List.append_nil bs] at hbs
  have hshows := (shows_cons hbs hkeys hgroups hwant (by simp [flat]) (by simp [flat])
      (by simp) (by simp)).mpr hempty
  rwa [List.append_nil] at hshows

/-- A page that is to hold a key twice is not. -/
theorem not_shows_again (hbs : G.Blocked bs) (hb : b ∈ bs.take k) (hagain : G.Again b) :
    ¬ ∃ ts, G.Turns (k + 1) (flat bs) ts ∧ G.Shows W ts (flat bs) := by
  intro h
  obtain ⟨ts, hts, hshows⟩ := h
  have hfind : ((bs.take k).find? (G.Again ·)).isSome := by
    rw [List.find?_isSome]
    exact ⟨b, hb, by simpa using hagain⟩
  obtain ⟨c, hc⟩ := Option.isSome_iff_exists.mp hfind
  obtain ⟨hcagain, front, rest, htake, hfront⟩ := List.find?_eq_some_iff_append.mp hc
  have hsplit : bs = front ++ c :: (rest ++ bs.drop k) := by
    calc bs = bs.take k ++ bs.drop k := (List.take_append_drop k bs).symm
      _ = front ++ c :: (rest ++ bs.drop k) := by rw [htake, List.append_assoc, List.cons_append]
  have hlen : front.length + 2 ≤ k + 1 := by
    have h := congrArg List.length htake
    rw [List.length_take, List.length_append, List.length_cons] at h
    omega
  obtain ⟨ts', rfl⟩ := turns_first hts
  have hsorted := hshows.keys_sorted
  rw [List.flatMap_cons] at hsorted
  rw [hsplit] at hbs hsorted
  apply turn_twice hbs (fun d hd => by simpa using hfront d hd) (by simpa using hcagain) hlen
  exact (List.pairwise_append.mp hsorted).1

section

variable {last : Block α}

/-- Where the last block fills the page, the next page decides. -/
theorem exists_shows_full {m : α} (hbs : G.Blocked (front ++ last :: rest))
    (hagain : ∀ b ∈ front, ¬ G.Again b)
    (hmore : (G.turn (front.length + 1) [] none (flat (front ++ last :: rest))).more = true)
    (hm : (G.turn (front.length + 1) [] none (flat (front ++ last :: rest))).next = some m)
    (hwant : ∀ b ∈ front ++ [last], ∀ g, G.group b.1 = some g → W g)
    (hnext : (flat (front ++ last :: rest)).filter (m < ·) = K)
    (hK : ∀ a, a ∈ K ∧ G.group a = none ↔ a ∈ flat rest ∧ G.group a = none)
    (hKg : ∀ g, W g → ((∃ a ∈ K, G.group a = some g) ↔ ∃ a ∈ flat rest, G.group a = some g)) :
    (∃ ts, G.Turns (front.length + 1) (flat (front ++ last :: rest)) ts ∧
      G.Shows W ts (flat (front ++ last :: rest))) ↔
      ∃ ts, G.Turns (front.length + 1) K ts ∧ G.Shows W ts K := by
  obtain ⟨-, hkeys, hgroups⟩ := turn_full hbs hagain
  have happ : front ++ last :: rest = (front ++ [last]) ++ rest := List.append_cons ..
  rw [happ] at hbs hmore hm hnext hkeys hgroups ⊢
  exact exists_shows_iff hbs hmore hm hkeys hgroups hwant hnext hK hKg

/-- What is left of a block whose keys are all the same. -/
theorem filter_same (h : ∀ x ∈ last.2, x = last.1) : last.2.filter (last.1 < ·) = [] := by
  rw [List.filter_eq_nil_iff]
  intro x hx
  simp [h x hx]

theorem shows_again (hbs : G.Blocked (front ++ last :: rest)) (hagain : ∀ b ∈ front, ¬ G.Again b)
    (hwant : ∀ b ∈ front ++ [last], ∀ g, G.group b.1 = some g → W g)
    (hlast : G.Again last)
    (hmore : (G.turn (front.length + 1) [] none (flat (front ++ last :: rest))).more = true)
    (hm : (G.turn (front.length + 1) [] none (flat (front ++ last :: rest))).next = some last.1) :
    (∃ ts, G.Turns (front.length + 1) (flat (front ++ last :: rest)) ts ∧
      G.Shows W ts (flat (front ++ last :: rest))) ↔
      ∃ ts, G.Turns (front.length + 1) (flat rest) ts ∧ G.Shows W ts (flat rest) := by
  have hsame : ∀ x ∈ last.2, x = last.1 := by
    intro x hx
    exact (hbs.right.together last List.mem_cons_self x hx).2.eq hlast.1
  apply exists_shows_full hbs hagain hmore hm hwant ?_ (fun _ => Iff.rfl) (fun _ _ => Iff.rfl)
  rw [filter_marker hbs, filter_same hsame, List.nil_append]

/-- A group before a key must have nothing left: what is left would be shown again. -/
theorem shows_before_key (hbs : G.Blocked (front ++ last :: rest))
    (hagain : ∀ b ∈ front, ¬ G.Again b)
    (hwant : ∀ b ∈ front ++ [last], ∀ g, G.group b.1 = some g → W g) (hlast : ¬ G.Again last)
    (hmore : (G.turn (front.length + 1) [] none (flat (front ++ last :: rest))).more = true)
    (hm : (G.turn (front.length + 1) [] none (flat (front ++ last :: rest))).next = some last.1) :
    (∃ ts, G.Turns (front.length + 1) (flat (front ++ last :: rest)) ts ∧
      G.Shows W ts (flat (front ++ last :: rest))) ↔
      (∀ x ∈ last.2, x = last.1) ∧ ∃ ts, G.Turns (front.length + 1) (flat rest) ts ∧
        G.Shows W ts (flat rest) := by
  by_cases hsame : ∀ x ∈ last.2, x = last.1
  · rw [and_iff_right hsame]
    apply exists_shows_full hbs hagain hmore hm hwant ?_ (fun _ => Iff.rfl) (fun _ _ => Iff.rfl)
    rw [filter_marker hbs, filter_same hsame, List.nil_append]
  · refine iff_of_false ?_ (fun h => hsame h.1)
    intro h
    obtain ⟨ts, hts, hshows⟩ := h
    push Not at hsame
    obtain ⟨x, hx, hne⟩ := hsame
    -- the block is a group, since a key that stands once has no second key
    obtain ⟨g, hg⟩ : ∃ g, G.group last.1 = some g := by
      apply Option.ne_none_iff_exists'.mp
      intro hnone
      exact hlast ⟨hnone, List.ne_nil_of_mem hx⟩
    have hgroup : ∀ y ∈ last.2, G.group y = some g := by
      intro y hy
      rw [(hbs.right.together last List.mem_cons_self y hy).2.group, hg]
    have hmem : x ∈ last.2.filter (last.1 < ·) := by
      rw [List.mem_filter]
      have hle := (hbs.right.together last List.mem_cons_self x hx).1
      exact ⟨hx, by simpa using lt_of_le_of_ne hle (Ne.symm hne)⟩
    obtain ⟨ts', rfl, hts'⟩ := (turns_more hmore hm).mp hts
    obtain ⟨ts'', rfl⟩ := turns_first hts'
    have hgs := hshows.groups_sorted
    rw [List.flatMap_cons, List.flatMap_cons] at hgs
    obtain ⟨-, -, hcross⟩ := List.pairwise_append.mp hgs
    refine lt_irrefl g (hcross g ?_ g ?_)
    · rw [(turn_full hbs hagain).2.2, List.mem_filterMap]
      exact ⟨last, List.mem_append_right front List.mem_cons_self, hg⟩
    · apply List.mem_append_left
      rw [filter_marker hbs]
      cases hfilter : last.2.filter (last.1 < ·) with
      | nil =>
        rw [hfilter] at hmem
        cases hmem
      | cons y ys =>
        have hy : y ∈ last.2.filter (last.1 < ·) := hfilter ▸ List.mem_cons_self
        exact first_shown (hgroup y (List.mem_filter.mp hy).1)

/-- A wanted group that ends a page has to go on after its marker. -/
theorem shows_before_group {r : Block α} {rs : List (Block α)}
    (hbs : G.Blocked (front ++ last :: r :: rs)) (hagain : ∀ b ∈ front, ¬ G.Again b)
    (hwant : ∀ b ∈ front ++ [last], ∀ g, G.group b.1 = some g → W g) (hr : G.group r.1 = some g)
    (hmore : (G.turn (front.length + 1) [] none (flat (front ++ last :: r :: rs))).more = true)
    (hm : (G.turn (front.length + 1) [] none (flat (front ++ last :: r :: rs))).next = some r.1) :
    (∃ ts, G.Turns (front.length + 1) (flat (front ++ last :: r :: rs)) ts ∧
      G.Shows W ts (flat (front ++ last :: r :: rs))) ↔
      match r.2.filter (r.1 < ·) with
      | [] => (∀ g, G.group r.1 = some g → ¬ W g) ∧ ∃ ts, G.Turns (front.length + 1) (flat rs) ts ∧
        G.Shows W ts (flat rs)
      | x :: xs => ∃ ts, G.Turns (front.length + 1) (flat ((x, xs) :: rs)) ts ∧
        G.Shows W ts (flat ((x, xs) :: rs)) := by
  have happ : front ++ last :: r :: rs = (front ++ [last]) ++ r :: rs := List.append_cons ..
  have hrs : G.Blocked (r :: rs) := (happ ▸ hbs).right
  have hgroup : ∀ y ∈ r.keys, G.group y = some g := by
    intro y hy
    rw [(hrs.mem List.mem_cons_self hy).2.group, hr]
  have hnext : (flat (front ++ last :: r :: rs)).filter (r.1 < ·) = r.2.filter (r.1 < ·) ++
      flat rs := by
    rw [happ, filter_marker (happ ▸ hbs)]
  have hflat : flat (r :: rs) = r.keys ++ flat rs := rfl
  -- no key of the block is shown as a key
  have hkeys : ∀ a, a ∈ flat (r :: rs) ∧ G.group a = none ↔ a ∈ flat rs ∧ G.group a = none := by
    intro a
    rw [hflat, List.mem_append]
    refine and_congr_left fun hnone => or_iff_right ?_
    intro ha
    rw [hgroup a ha] at hnone
    cases hnone
  cases hfilter : r.2.filter (r.1 < ·) with
  | nil =>
    rw [hfilter, List.nil_append] at hnext
    -- after its marker the group is not there
    have hgone : ¬ ∃ a ∈ flat rs, G.group a = some g := by
      intro h
      obtain ⟨a, ha, hag⟩ := h
      obtain ⟨c, hc, hac⟩ := mem_flat.mp ha
      have hnot := ((List.pairwise_cons.mp hrs.apart).1 c hc r.1 List.mem_cons_self a hac).2
      exact hnot (Or.inr ⟨g, hr, hag⟩)
    have hthere : ∃ a ∈ flat (r :: rs), G.group a = some g :=
      ⟨r.1, mem_flat.mpr ⟨r, List.mem_cons_self, List.mem_cons_self⟩, hr⟩
    by_cases hw : W g
    · refine iff_of_false ?_ (fun h => h.1 g hr hw)
      intro h
      obtain ⟨ts, hts, hshows⟩ := h
      obtain ⟨ts', rfl, hts'⟩ := (turns_more hmore hm).mp hts
      rw [hnext] at hts'
      have hmem := (hshows.mem_groups g).mpr ⟨by
        obtain ⟨a, ha, hag⟩ := hthere
        refine ⟨a, ?_, hag⟩
        rw [happ, flat_append]
        exact List.mem_append_right _ ha, hw⟩
      rw [List.flatMap_cons, List.mem_append, (turn_full hbs hagain).2.2] at hmem
      rcases hmem with hfront | hlater
      · rw [mem_shown (happ ▸ hbs).left] at hfront
        obtain ⟨a, ha, hag⟩ := hfront
        obtain ⟨c, hc, hac⟩ := mem_flat.mp ha
        exact ((happ ▸ hbs).across hc List.mem_cons_self hac List.mem_cons_self).2
          (Or.inr ⟨g, hag, hr⟩)
      · exact hgone (turns_groups hts' g hlater)
    · have hunwanted : ∀ g', G.group r.1 = some g' → ¬ W g' := by
        intro g' hg'
        obtain rfl := Option.some.inj (hr.symm.trans hg')
        exact hw
      rw [and_iff_right hunwanted]
      apply exists_shows_full hbs hagain hmore hm hwant hnext (fun a => (hkeys a).symm)
      intro g' hw'
      have hne : g' ≠ g := fun h => hw (h ▸ hw')
      rw [hflat]
      constructor
      · intro h
        obtain ⟨a, ha, hag⟩ := h
        exact ⟨a, List.mem_append_right _ ha, hag⟩
      · intro h
        obtain ⟨a, ha, hag⟩ := h
        rcases List.mem_append.mp ha with ha | ha
        · exact absurd (Option.some.inj (hag.symm.trans (hgroup a ha))) hne
        · exact ⟨a, ha, hag⟩
  -- keys of the group behind the marker: the next page starts inside the group and shows it
  | cons x xs =>
    have hsub : ∀ y ∈ x :: xs, y ∈ r.keys := by
      intro y hy
      exact List.mem_cons_of_mem r.1 (List.mem_of_mem_filter (hfilter ▸ hy))
    have hflat' : flat ((x, xs) :: rs) = x :: xs ++ flat rs := rfl
    rw [hfilter] at hnext
    apply exists_shows_full hbs hagain hmore hm hwant hnext
    · intro a
      rw [hkeys, List.mem_append]
      refine and_congr_left fun hnone => or_iff_right ?_
      intro ha
      rw [hgroup a (hsub a ha)] at hnone
      cases hnone
    · intro g' _
      rw [hflat]
      constructor
      · intro h
        obtain ⟨a, ha, hag⟩ := h
        refine ⟨a, ?_, hag⟩
        exact List.mem_append.mpr ((List.mem_append.mp ha).imp (hsub a) id)
      · intro h
        obtain ⟨a, ha, hag⟩ := h
        rcases List.mem_append.mp ha with ha | ha
        · refine ⟨x, List.mem_append_left _ List.mem_cons_self, ?_⟩
          rw [hgroup x (hsub x List.mem_cons_self), ← hgroup a ha, hag]
        · exact ⟨a, List.mem_append_right _ ha, hag⟩

/-- What is left of a group stands where the group stood. -/
theorem Blocked.shrink {r : Block α} {rs : List (Block α)} {xs : List α} (h : G.Blocked (r :: rs))
    (hfilter : r.2.filter (r.1 < ·) = x :: xs) : G.Blocked ((x, xs) :: rs) := by
  have hsub : ∀ y ∈ x :: xs, y ∈ r.2 := fun y hy => List.mem_of_mem_filter (hfilter ▸ hy)
  have hsorted : (x :: xs).Pairwise (· ≤ ·) := by
    rw [← hfilter]
    exact (h.sorted r List.mem_cons_self).filter _
  obtain ⟨hle, hxs⟩ := List.pairwise_cons.mp hsorted
  obtain ⟨hfirst, hrest⟩ := List.pairwise_cons.mp h.apart
  refine ⟨?_, ?_, List.pairwise_cons.mpr ⟨?_, hrest⟩⟩
  · intro c hc
    rcases List.mem_cons.mp hc with rfl | hc
    · exact hxs
    · exact h.sorted c (List.mem_cons_of_mem r hc)
  · intro c hc y hy
    rcases List.mem_cons.mp hc with rfl | hc
    · refine ⟨hle y hy, ?_⟩
      have htog := fun z hz => (h.together r List.mem_cons_self z hz).2
      exact (htog x (hsub x List.mem_cons_self)).symm.trans
        (htog y (hsub y (List.mem_cons_of_mem x hy)))
    · exact h.together c (List.mem_cons_of_mem r hc) y hy
  · intro c hc y hy
    exact hfirst c hc y (List.mem_cons_of_mem r.1 (hsub y hy))

end

/-- A page of more than is wanted is wrong. -/
theorem not_shows_unwanted (hbs : G.Blocked bs) (hagain : ∀ b ∈ bs.take k, ¬ G.Again b)
    (hb : b ∈ bs.take (k + 1)) (hg : G.group b.1 = some g) (hw : ¬ W g) :
    ¬ ∃ ts, G.Turns (k + 1) (flat bs) ts ∧ G.Shows W ts (flat bs) := by
  have hgroups : (G.turn (k + 1) [] none (flat bs)).groups =
      (bs.take (k + 1)).filterMap (shown G) := by
    cases hdrop : bs.drop k with
    | nil =>
      have hlen : bs.length ≤ k := List.drop_eq_nil_iff.mp hdrop
      rw [List.take_of_length_le hlen] at hagain
      rw [List.take_of_length_le (Nat.le_succ_of_le hlen)]
      exact (turn_short hbs hagain (Nat.le_succ_of_le hlen)).2.2
    | cons last rest =>
      obtain ⟨hsplit, hk, htake⟩ := split_at hdrop
      rw [htake]
      generalize bs.take k = front at hsplit hk hagain
      subst hsplit hk
      exact (turn_full hbs hagain).2.2
  intro h
  obtain ⟨ts, hts, hshows⟩ := h
  obtain ⟨ts', rfl⟩ := turns_first hts
  apply hw
  apply ((hshows.mem_groups g).mp _).2
  rw [List.flatMap_cons, hgroups]
  exact List.mem_append_left _ (List.mem_filterMap.mpr ⟨b, hb, hg⟩)

/-- The pages show what is wanted once if and only if their ends are as they have to be. -/
theorem shows_iff_fair {fuel : ℕ} (hbs : G.Blocked bs) (hfuel : bs.length ≤ fuel) :
    (∃ ts, G.Turns (k + 1) (flat bs) ts ∧ G.Shows W ts (flat bs)) ↔ G.Fair W k fuel bs := by
  -- induction on the pages: the first one shows its blocks, the rest start behind its marker
  induction fuel generalizing bs with
  | zero =>
    obtain rfl := List.length_eq_zero_iff.mp (Nat.le_zero.mp hfuel)
    exact iff_of_true (shows_short hbs (by simp) (by simp) (Nat.zero_le _)) rfl
  | succ fuel ih =>
    rw [Fair]
    -- a key that stands twice and does not end its page would be shown twice
    by_cases hagain : ∀ b ∈ bs.take k, ¬ G.Again b
    swap
    · refine iff_of_false ?_ (fun h => hagain h.1.1)
      push Not at hagain
      obtain ⟨b, hb, hb'⟩ := hagain
      exact not_shows_again hbs hb hb'
    by_cases hwant : ∀ b ∈ bs.take (k + 1), ∀ g, G.group b.1 = some g → W g
    swap
    · refine iff_of_false ?_ (fun h => hwant h.1.2)
      push Not at hwant
      obtain ⟨b, hb, g, hg, hw⟩ := hwant
      exact not_shows_unwanted hbs hagain hb hg hw
    rw [and_iff_right ⟨hagain, hwant⟩]
    cases hdrop : bs.drop k with
    | nil =>
      have hlen : bs.length ≤ k := List.drop_eq_nil_iff.mp hdrop
      rw [List.take_of_length_le hlen] at hagain
      rw [List.take_of_length_le (Nat.le_succ_of_le hlen)] at hwant
      exact iff_of_true (shows_short hbs hagain hwant (Nat.le_succ_of_le hlen)) trivial
    | cons last rest =>
      obtain ⟨hsplit, hk, htake⟩ := split_at hdrop
      rw [htake] at hwant
      generalize bs.take k = front at hsplit hk hagain hwant
      subst hsplit hk
      rw [List.length_append, List.length_cons] at hfuel
      have hrest : G.Blocked rest := hbs.right.tail
      have hends := (turn_full hbs hagain).1
      cases hends with
      | again hlast hmore hm =>
        simp only [if_pos hlast]
        rw [shows_again hbs hagain hwant hlast hmore hm]
        exact ih hrest (by omega)
      | done hlast hmore =>
        simp only [if_neg hlast]
        refine iff_of_true (shows_short hbs ?_ hwant (by simp)) trivial
        intro b hb
        rcases List.mem_append.mp hb with hb | hb
        · exact hagain b hb
        · exact List.mem_singleton.mp hb ▸ hlast
      | key hlast hr hmore hm =>
        simp only [if_neg hlast, if_pos hr]
        rw [shows_before_key hbs hagain hwant hlast hmore hm]
        exact and_congr_right fun _ => ih hrest (by omega)
      | @group r rs _ hlast hr hmore hm =>
        obtain ⟨g, hg⟩ := Option.ne_none_iff_exists'.mp hr
        simp only [if_neg hlast, if_neg hr]
        rw [shows_before_group hbs hagain hwant hg hmore hm]
        cases hfilter : r.2.filter (r.1 < ·) with
        | nil =>
          apply and_congr_right
          intro _
          apply ih hrest.tail
          simp only [List.length_cons] at hfuel
          omega
        | cons x xs =>
          apply ih (hrest.shrink hfilter)
          simp only [List.length_cons] at hfuel ⊢
          omega

/-- The same of any sorted keys. -/
theorem exists_shows {fuel : ℕ} (hK : K.Pairwise (· ≤ ·)) (hfuel : (G.blocks K).length ≤ fuel) :
    (∃ ts, G.Turns (k + 1) K ts ∧ G.Shows W ts K) ↔ G.Fair W k fuel (G.blocks K) := by
  rw [← shows_iff_fair (blocked_blocks hK) hfuel, flat_blocks]

theorem length_blocks (K : List α) : (G.blocks K).length ≤ K.length := by
  induction K with
  | nil => exact le_rfl
  | cons a as ih =>
    rw [blocks]
    cases hb : G.blocks as with
    | nil => simp
    | cons b bs =>
      rw [hb] at ih
      simp only
      split
      · exact Nat.le_succ_of_le ih
      · exact Nat.succ_le_succ ih

end

end Grouping

end Paging
