import Aloelite.GlobCounts

/-! When `glob` is exact: it raises nothing and yields each path that matches once. -/
namespace Aloelite

open Fallible KeyedRows ForestOrder Divisions

variable {E : Env} {k : Cipher} {db : Db} {mount : MountId} {ctx : MountCtx} {c n : NodeId}
  {t : NodeType} {path pattern base : String} {names rest segs : List String} {fuel D : ℕ}

variable {takes : NodeType → Bool}

/-- Each path that matches is there by one chain of placements, and its names divide among
the segments in one way. -/
def DividesOnce (db : Db) (c : NodeId) (segs : List String) : Prop :=
  ∀ names n t, Seen db c names n t → GlobMatches segs names t →
    copies db (endsIn segs) c names = 1 ∧
      ∀ ps ps', Divides isStars fitsSegment segs names ps →
      Divides isStars fitsSegment segs names ps' → ps = ps'

/-- The base is a container and nothing below it matches in two ways; a pattern of no
segments, which matches the base alone, is asked of nothing. -/
def GlobClear (db : Db) (mountPoint : NodeId) (path pattern : String) : Prop :=
  if splitPath pattern = [] then ∀ top, resolve db mountPoint path ≠ .ok top
  else ∃ c, resolve db mountPoint path = .ok ⟨c, .container⟩ ∧ DividesOnce db c (splitPath pattern)

theorem beneath_container (hbase : resolve db n path = .ok ⟨c, .container⟩) {m : NodeId} :
    Beneath db n path names m t ↔ Seen db c names m t := by
  constructor
  · rintro ⟨top, htop, h⟩
    obtain rfl := Except.ok.inj (hbase.symm.trans htop)
    rcases h with ⟨rfl, rfl, rfl⟩ | ⟨-, hseen⟩
    · exact Seen.root
    · exact hseen
  · intro hseen
    exact ⟨_, hbase, Or.inr ⟨rfl, hseen⟩⟩

theorem globMatches_nil : GlobMatches [] names t ↔ names = [] := by
  simp only [GlobMatches, divides_nil, endsIn, List.getLast?_nil]
  constructor
  · rintro ⟨⟨pieces, -, hnames⟩, -⟩
    exact hnames
  · intro hnames
    exact ⟨⟨[], rfl, hnames⟩, by simp⟩

/-- A path is yielded where it is there and matches. -/
theorem count_pos_iff : 0 < copies db (endsIn segs) c names * ways isStars fitsSegment segs names ↔
    ∃ n t, Seen db c names n t ∧ GlobMatches segs names t := by
  rw [CanonicallyOrderedAdd.mul_pos, copies_pos_iff, ways_pos_iff]
  constructor
  · rintro ⟨⟨n, t, hseen, hends⟩, hdivides⟩
    exact ⟨n, t, hseen, hdivides, hends⟩
  · rintro ⟨n, t, hseen, hdivides, hends⟩
    exact ⟨⟨n, t, hseen, hends⟩, hdivides⟩

/-- Nothing is yielded twice where every path that matches is there once and divides in
one way. -/
theorem dividesOnce_iff : DividesOnce db c segs ↔
    ∀ names, copies db (endsIn segs) c names * ways isStars fitsSegment segs names ≤ 1 := by
  constructor
  · intro h names
    by_contra hmany
    obtain ⟨n, t, hseen, hmatches⟩ :=
      count_pos_iff.mp
        (by omega : 0 < copies db (endsIn segs) c names * ways isStars fitsSegment segs names)
    obtain ⟨hcopies, hone⟩ := h names n t hseen hmatches
    rw [hcopies, Nat.one_mul] at hmany
    exact hmany (ways_le_one_iff.mpr hone)
  · intro h names n t hseen hmatches
    have hcopies : 0 < copies db (endsIn segs) c names :=
      copies_pos_iff.mpr ⟨n, t, hseen, hmatches.2⟩
    have hways := ways_pos_iff.mpr hmatches.1
    have hle := h names
    refine ⟨?_, ways_le_one_iff.mp ?_⟩
    · have := Nat.le_mul_of_pos_right (copies db (endsIn segs) c names) hways
      omega
    · exact (Nat.le_mul_of_pos_left _ hcopies).trans hle

theorem sum_filter_le_one {p : ListedRow → Prop} [DecidablePred p] {f : ListedRow → ℕ}
    {rows : List ListedRow} (hone : (rows.filter p).length ≤ 1) (hf : ∀ r, f r ≤ 1) :
    (rows.map (fun r => if p r then f r else 0)).sum ≤ 1 := by
  induction rows with
  | nil => exact Nat.zero_le 1
  | cons r rows ih =>
    rw [List.map_cons, List.sum_cons]
    by_cases hr : p r
    · rw [List.filter_cons_of_pos (by simpa using hr), List.length_cons] at hone
      have hnone : rows.filter p = [] := List.length_eq_zero_iff.mp (by omega)
      have hrest : (rows.map (fun r => if p r then f r else 0)).sum = 0 := by
        rw [List.sum_eq_zero_iff_forall_eq_nat]
        intro m hm
        obtain ⟨r', hr', rfl⟩ := List.mem_map.mp hm
        exact if_neg (by simpa using List.filter_eq_nil_iff.mp hnone r' hr')
      rw [if_pos hr, hrest, Nat.add_zero]
      exact hf r
    · rw [List.filter_cons_of_neg (by simpa using hr)] at hone
      rw [if_neg hr, Nat.zero_add]
      exact ih hone

theorem copies_le_one (hdistinct : db.placements.Nodup) : copies db takes c names ≤ 1 := by
  induction names generalizing c with
  | nil =>
    rw [copies]
    split <;> omega
  | cons name names ih =>
    have hone : ((shownRows db c).filter (fun r => r.name = name)).length ≤ 1 := by
      have hboth := visible_atMostOne hdistinct c name
      rw [shownRows, List.filter_filter]
      convert hboth using 4
      rw [Bool.and_comm, Bool.decide_and, Bool.decide_eq_true]
    rw [copies_cons]
    apply sum_filter_le_one hone
    intro r
    rw [rowCopies]
    split
    · exact ih
    · split <;> omega

/-- Where no node is placed twice under one name, a pattern with one `**` matches in one
way at most. -/
theorem dividesOnce_of_single (hdistinct : db.placements.Nodup) (hsegs : segs.countP isStars ≤ 1) :
    DividesOnce db c segs := by
  rw [dividesOnce_iff]
  intro names
  exact Nat.mul_le_mul (copies_le_one hdistinct) (ways_le_one hsegs)

/-- What `glob` yields from a container. -/
theorem glob_counts (hg : Globbed E k db mount ctx) (htree : Acyclic db.Child) {next : String}
    (hsegs : splitPath pattern = next :: rest) (hlegible : Legible path)
    (hbase : resolve db ctx.mountPoint path = .ok ⟨c, .container⟩) :
    ∃ chains : List (List String),
      Gives (AloelitePath.glob E k db mount path pattern) (chains.map (pathBelow path)) ∧
      ∀ names, chains.count names =
        copies db (endsIn (splitPath pattern)) c names * ways isStars fitsSegment
          (splitPath pattern) names := by
  obtain ⟨D, hD⟩ := shallow_of_acyclic htree c
  have hcur : resolve db ctx.mountPoint (listingPath path) = .ok ⟨c, .container⟩ := by
    rw [← hbase]
    exact resolve_splitPath (splitPath_listingPath path)
  have hwhole : Legible (listingPath path) := by
    rw [Legible, splitPath_listingPath]
    exact hlegible
  obtain ⟨chains, hchains, hcount⟩ :=
    AloelitePath.walk_counts hg (listingPath path) c next rest D hwhole hcur
      (listingPath_listingPath path) hD (Nat.lt_succ_self _)
  have hbelow : pathBelow (listingPath path) = pathBelow path :=
    funext (fun _ => pathBelow_listingPath)
  rw [hbelow] at hchains
  refine ⟨chains, ⟨rest.length + D + 1, ?_⟩, ?_⟩
  · rw [AloelitePath.glob, hsegs]
    exact hchains
  · rw [hsegs]
    exact hcount

/-- Where no name and not the base holds a NUL, `glob` ends and yields exactly the paths at or
below its base that match, each once, just where the base is a container and each of them is
there once and matches in one way. -/
theorem glob_exact_iff (hm : requireMount E k db mount false = .ok ctx) (htree : Acyclic db.Child)
    (hnames : ∀ e ∈ db.activeEdges, IsName e.name) (hlegible : Legible path) :
    GlobExact E k db mount ctx.mountPoint path pattern ↔
      GlobClear db ctx.mountPoint path pattern := by
  have hg : Globbed E k db mount ctx := ⟨hm, hnames⟩
  cases hsegs : splitPath pattern with
  | nil =>
    have hnothing : AloelitePath.glob E k db mount path pattern = fun _ => Yields.nothing := by
      funext fuel
      rw [AloelitePath.glob, hsegs]
    rw [GlobClear, if_pos hsegs]
    constructor
    · rintro ⟨ys, ⟨fuel, hfuel⟩, -, hall⟩ top htop
      rw [hnothing] at hfuel
      obtain rfl : [] = ys := congrArg Yields.paths hfuel
      have hbase : pathBelow path [] ∈ ([] : List String) := (hall _).mpr
        ⟨[], top.node, top.type, ⟨top, htop, Or.inl ⟨rfl, rfl, rfl⟩⟩,
          by rw [hsegs]; exact globMatches_nil.mpr rfl, rfl⟩
      cases hbase
    · intro hnone
      refine ⟨[], ⟨0, by rw [hnothing]; rfl⟩, List.nodup_nil, ?_⟩
      intro q
      constructor
      · intro hq
        cases hq
      · rintro ⟨names, n, t, ⟨top, htop, -⟩, -⟩
        exact absurd htop (hnone top)
  | cons next rest =>
    rw [GlobClear, if_neg (by rw [hsegs]; exact List.cons_ne_nil next rest)]
    by_cases hbase : ∃ c, resolve db ctx.mountPoint path = .ok ⟨c, .container⟩
    swap
    · -- the listing of the base raises, so the walk does not end
      constructor
      · rintro ⟨ys, ⟨fuel, hfuel⟩, -⟩
        have hcur : ∀ c, resolve db ctx.mountPoint (listingPath path) ≠ .ok ⟨c, .container⟩ := by
          intro c hc
          rw [resolve_splitPath (splitPath_listingPath path)] at hc
          exact hbase ⟨c, hc⟩
        obtain ⟨e, he⟩ := AloelitePath.iterdir_raises hm hcur
        rw [AloelitePath.glob, hsegs] at hfuel
        exact absurd (congrArg Yields.ending hfuel) (AloelitePath.walk_raises he)
      · rintro ⟨c, hc, -⟩
        exact absurd ⟨c, hc⟩ hbase
    obtain ⟨c, hc⟩ := hbase
    -- how often a chain is yielded is how many ways it matches in
    obtain ⟨chains, hgives, hcount⟩ := glob_counts hg htree hsegs hlegible hc
    have hmem : ∀ names, names ∈ chains ↔ ∃ n t, Seen db c names n t ∧
        GlobMatches (splitPath pattern) names t := by
      intro names
      rw [← List.count_pos_iff, hcount, count_pos_iff]
    have hdistinct : chains.Nodup ↔ DividesOnce db c (splitPath pattern) := by
      rw [List.nodup_iff_count_le_one, dividesOnce_iff]
      exact forall_congr' (fun names => by rw [hcount])
    constructor
    · rintro ⟨ys, hys, hnodup, -⟩
      obtain rfl := AloelitePath.gives_unique hgives hys
      exact ⟨c, hc, hdistinct.mp (hnodup.of_map _)⟩
    · rintro ⟨c', hc', honce⟩
      obtain rfl : c = c' := congrArg Resolved.node (Except.ok.inj (hc.symm.trans hc'))
      refine ⟨_, hgives, (hdistinct.mpr honce).map_on ?_, ?_⟩
      · intro names hin names' hin' heq
        obtain ⟨n, t, hseen, -⟩ := (hmem names).mp hin
        obtain ⟨n', t', hseen', -⟩ := (hmem names').mp hin'
        exact pathBelow_injective (hseen.segments (hg.meets c)) (hseen'.segments (hg.meets c)) heq
      · intro q
        rw [List.mem_map]
        constructor
        · rintro ⟨names, hin, rfl⟩
          obtain ⟨n, t, hseen, hmatches⟩ := (hmem names).mp hin
          exact ⟨names, n, t, (beneath_container hc).mpr hseen, hmatches, rfl⟩
        · rintro ⟨names, n, t, hbeneath, hmatches, rfl⟩
          exact ⟨names, (hmem names).mpr ⟨n, t, (beneath_container hc).mp hbeneath, hmatches⟩, rfl⟩

/-- An entry in a container in the root. -/
def globbedRun : List Label :=
  [⟨.counting 0, 0, .createVolume none 128 none .none⟩,
    ⟨.counting 1, 0, .mount { volume := 0 }⟩,
    ⟨.counting 2, 0, .request 1 (.createContainer "a")⟩,
    ⟨.counting 4, 0, .request 1 (.createEntry "a/x" [7])⟩]

theorem acyclic_of_lt (h : ∀ e ∈ db.activeEdges, e.fromId < e.toId) : Acyclic db.Child := by
  have hlt : ∀ a b, Relation.TransGen db.Child a b → a < b := by
    intro a b hab
    induction hab with
    | single hr =>
      obtain ⟨e, he, rfl, rfl⟩ := hr
      exact h e he
    | tail _ hr ih =>
      obtain ⟨e, he, rfl, rfl⟩ := hr
      exact ih.trans (h e he)
  exact fun a ha => lt_irrefl a (hlt a a ha)

theorem glob_exact_globbed :
    let db := (globbedRun.foldl (step Crypto.xorStream Msgpack.refusing) {}).db
    GlobExact (.counting 9) .identity db 1 0 "/" "**/x" := by
  intro db
  have hmount : requireMount (.counting 9) .identity db 1 false = .ok ⟨1, 0, 0, .none⟩ := by
    decide +kernel
  have htree : Acyclic db.Child := acyclic_of_lt (by decide +kernel)
  refine (glob_exact_iff hmount htree (by decide +kernel) (by decide)).mpr ?_
  rw [GlobClear, if_neg (by decide +kernel)]
  exact ⟨0, by decide +kernel, dividesOnce_of_single (by decide +kernel) (by decide +kernel)⟩

/-- With two `**` the walk comes to the container twice. -/
theorem glob_yields_twice :
    ∃ s, Reaches Crypto.xorStream Msgpack.refusing (fun _ _ => True) s ∧
      requireMount (.counting 9) .identity s.db 1 false = .ok ⟨1, 0, 0, .none⟩ ∧
      AloelitePath.glob (.counting 9) .identity s.db 1 "/" "**/**" 4 = ⟨["/", "/a", "/a"], .ended⟩ ∧
      ¬ GlobExact (.counting 9) .identity s.db 1 0 "/" "**/**" := by
  have htwice : AloelitePath.glob (.counting 9) .identity
      (globbedRun.foldl (step Crypto.xorStream Msgpack.refusing) {}).db 1 "/" "**/**" 4 =
        ⟨["/", "/a", "/a"], .ended⟩ := by
    decide +kernel
  refine ⟨globbedRun.foldl (step Crypto.xorStream Msgpack.refusing) {},
    reaches_foldl ⟨trivial, trivial, trivial, trivial, trivial⟩, by decide +kernel, htwice, ?_⟩
  rintro ⟨ys, hys, hnodup, -⟩
  obtain rfl := AloelitePath.gives_unique ⟨4, htwice⟩ hys
  exact absurd hnodup (by decide)

end Aloelite
