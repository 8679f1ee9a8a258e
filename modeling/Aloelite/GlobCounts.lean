import Aloelite.GlobTrees

/-! How often each path comes out of a `glob`: once for each way of dividing it among the
segments. -/
namespace Aloelite

open Fallible KeyedRows ForestOrder Divisions

variable {E : Env} {k : Cipher} {db : Db} {mount : MountId} {ctx : MountCtx} {c : NodeId}
  {t : NodeType} {path cur base head : String} {names rest segs : List String} {fuel D : ℕ}

variable {takes : NodeType → Bool}

namespace AloelitePath

open Yields

variable {r : ListedRow} {x : String}

/-! ### How often each path comes -/

theorem count_map_cons {x y : String} {chains : List (List String)} :
    (chains.map (y :: ·)).count (x :: names) = if y = x then chains.count names else 0 := by
  by_cases hyx : y = x
  · subst hyx
    rw [if_pos rfl, List.count_map_of_injective _ _ List.cons_injective]
  · rw [if_neg hyx, List.count_eq_zero]
    intro hmem
    obtain ⟨own, -, hown⟩ := List.mem_map.mp hmem
    exact hyx (List.cons.inj hown).1

/-- A loop over rows yields the paths of each row, below its name. -/
theorem forEach_rows (cur : String) (rows : List ListedRow) (body : String → Yields)
    (f : ListedRow → List String → ℕ)
    (hbody : ∀ r ∈ rows, ∃ chains : List (List String),
      body (truediv cur r.name) =
        ⟨chains.map (fun names => pathBelow cur (r.name :: names)), .ended⟩ ∧
        ∀ names, chains.count names = f r names) :
    ∃ chains : List (List String),
      forEach (rows.map (fun r => truediv cur r.name)) body = ⟨chains.map (pathBelow cur), .ended⟩ ∧
      chains.count [] = 0 ∧
        ∀ x names, chains.count (x :: names) =
          (rows.map (fun r => if r.name = x then f r names else 0)).sum := by
  induction rows with
  | nil => exact ⟨[], rfl, rfl, fun _ _ => rfl⟩
  | cons r rows ih =>
    obtain ⟨own, hown, hcount⟩ := hbody r List.mem_cons_self
    obtain ⟨others, hothers, hnone, hsum⟩ :=
      ih (fun r' hr' => hbody r' (List.mem_cons_of_mem _ hr'))
    refine ⟨own.map (r.name :: ·) ++ others, ?_, ?_, ?_⟩
    · change andThen (body (truediv cur r.name))
          (forEach (rows.map (fun r => truediv cur r.name)) body) = _
      rw [hown, hothers, andThen_of_ended rfl, List.map_append, List.map_map]
      rfl
    · rw [List.count_append, hnone, Nat.add_zero, List.count_eq_zero]
      intro hmem
      obtain ⟨chain, -, hchain⟩ := List.mem_map.mp hmem
      cases hchain
    · intro x names
      rw [List.count_append, count_map_cons, hsum, List.map_cons, List.sum_cons, hcount]

/-- What does not end in a container has something that takes its name. -/
theorem ways_nil_of_leaf (hends : endsIn (head :: rest) t = true) (ht : t ≠ .container) :
    ways isStars fitsSegment (head :: rest) [] = 0 := by
  by_contra hpos
  have hall := wild_of_ways_nil (Nat.pos_of_ne_zero hpos)
  have hlast := hall _ (List.getLast_mem (List.cons_ne_nil head rest))
  rw [endsIn, decide_eq_true_eq, List.getLast?_eq_getLast_of_ne_nil (List.cons_ne_nil head rest)]
    at hends
  rcases hends with hends | hends
  · exact hends (congrArg some (of_decide_eq_true hlast))
  · exact ht hends

theorem endsIn_cons_cons {next : String} :
    endsIn (head :: next :: rest) = endsIn (next :: rest) := by
  funext t
  rw [endsIn, endsIn, List.getLast?_cons_cons]

theorem endsIn_container : endsIn segs .container = true := by
  rw [endsIn, decide_eq_true_eq]
  exact Or.inr rfl

/-- The walk from a container yields the path of a chain of names once for each way
placements lead along them and each way of dividing them among the segments. -/
def Counts (db : Db) (c : NodeId) (cur : String) (segs : List String) (y : Yields) : Prop :=
  ∃ chains : List (List String), y = ⟨chains.map (pathBelow cur), .ended⟩ ∧
    ∀ names, chains.count names =
    copies db (endsIn segs) c names * ways isStars fitsSegment segs names

def WalkCounts (E : Env) (k : Cipher) (db : Db) (mount : MountId) (ctx : MountCtx) (fuel : ℕ) :
    Prop :=
  ∀ cur c head rest D, Legible cur → resolve db ctx.mountPoint cur = .ok ⟨c, .container⟩ →
    listingPath cur = cur → Shallow db c D →
    rest.length + D < fuel → Counts db c cur (head :: rest) (walk E k db mount fuel cur head rest)

/-- One row of the container: the walk goes on in it with `head` and `rest`. -/
theorem goOn_counts (hg : Globbed E k db mount ctx) (hlegible : Legible cur)
    (hcur : resolve db ctx.mountPoint cur = .ok ⟨c, .container⟩) (hD : Shallow db c D)
    (hfuel : rest.length + D ≤ fuel) (ih : WalkCounts E k db mount ctx fuel)
    (hr : r ∈ shownRows db c) :
    ∃ chains : List (List String),
      goOn E k db mount fuel head rest (truediv cur r.name) =
        ⟨chains.map (fun names => pathBelow cur (r.name :: names)), .ended⟩ ∧
        ∀ names, chains.count names =
          rowCopies db (endsIn (head :: rest)) r names * ways isStars fitsSegment
            (head :: rest) names := by
  have hdir : goOn E k db mount fuel head rest (truediv cur r.name) =
      if r.type = .container then walk E k db mount fuel (truediv cur r.name) head rest
        else nothing := by
    simp only [goOn, isDir_row hg hlegible hcur hr, call, decide_eq_true_eq]
  by_cases ht : r.type = .container
  · have hrow := resolve_row hg hlegible hcur hr
    rw [ht] at hrow
    obtain ⟨D', rfl, hD'⟩ := hD.row hr ht
    obtain ⟨chains, hchains, hcount⟩ :=
      ih _ _ head rest D' (legible_row hg hlegible hr) hrow (listingPath_listingPath _) hD'
        (by omega)
    have hbelow : pathBelow (truediv cur r.name) = fun names => pathBelow cur (r.name :: names) :=
      funext (fun names => pathBelow_truediv (hg.segment hr))
    refine ⟨chains, ?_, ?_⟩
    · rw [hdir, if_pos ht, hchains, hbelow]
    · intro names
      rw [hcount, rowCopies, if_pos ht]
  · refine ⟨[], ?_, ?_⟩
    · rw [hdir, if_neg ht]
      rfl
    · intro names
      rw [List.count_nil, rowCopies, if_neg ht]
      by_cases hlast : names = [] ∧ endsIn (head :: rest) r.type = true
      · rw [hlast.1, ways_nil_of_leaf hlast.2 ht, Nat.mul_zero]
      · rw [if_neg hlast, Nat.zero_mul]

/-- Where the stars take the first name. -/
theorem stars_below (hg : Globbed E k db mount ctx) (hlegible : Legible cur)
    (hcur : resolve db ctx.mountPoint cur = .ok ⟨c, .container⟩) (hD : Shallow db c D)
    (hfuel : rest.length + D ≤ fuel) (ih : WalkCounts E k db mount ctx fuel) :
    ∃ chains : List (List String),
      call (iterdir E k db mount cur)
        (fun children => forEach children (goOn E k db mount fuel "**" rest)) =
          ⟨chains.map (pathBelow cur), .ended⟩ ∧
        chains.count [] = 0 ∧
          ∀ x names, chains.count (x :: names) =
            copies db (endsIn ("**" :: rest)) c (x :: names) * ways isStars fitsSegment
              ("**" :: rest) names := by
  obtain ⟨chains, hchains, hnone, hsum⟩ :=
    forEach_rows cur (shownRows db c) (goOn E k db mount fuel "**" rest)
    (fun r names => rowCopies db (endsIn ("**" :: rest)) r names * ways isStars fitsSegment
      ("**" :: rest) names)
    (fun r hr => goOn_counts hg hlegible hcur hD hfuel ih hr)
  refine ⟨chains, ?_, hnone, ?_⟩
  · rw [iterdir_ok hg hcur]
    exact hchains
  · intro x names
    rw [hsum, copies_cons, ← List.sum_map_mul_right]
    congr 1
    apply List.map_congr_left
    intro r hr
    rw [ite_mul, Nat.zero_mul]

theorem stars_counts (hg : Globbed E k db mount ctx) (hlegible : Legible cur)
    (hcur : resolve db ctx.mountPoint cur = .ok ⟨c, .container⟩) (hnorm : listingPath cur = cur)
    (hD : Shallow db c D) (hfuel : rest.length + D ≤ fuel) (ih : WalkCounts E k db mount ctx fuel) :
    Counts db c cur ("**" :: rest) (walk E k db mount (fuel + 1) cur "**" rest) := by
  have hwild : isStars "**" = true := rfl
  obtain ⟨below, hbelow, hnone, hsum⟩ := stars_below hg hlegible hcur hD hfuel ih
  cases rest with
  | nil =>
    refine ⟨[] :: below, ?_, ?_⟩
    · rw [walk_stars_last, hbelow, andThen_of_ended rfl, List.map_cons, pathBelow_nil hnorm]
      rfl
    · intro names
      cases names with
      | nil =>
        rw [List.count_cons_self, hnone, copies, if_pos endsIn_container,
          ways_wild_nil hwild, ways_nil_nil]
      | cons x names =>
        rw [List.count_cons_of_ne (by simp), hsum, ways_wild_cons hwild,
          ways_nil_cons, Nat.zero_add]
  | cons next rest =>
    rw [List.length_cons] at hfuel
    obtain ⟨here, hhere, hcount⟩ := ih cur c next rest D hlegible hcur hnorm hD (by omega)
    refine ⟨here ++ below, ?_, ?_⟩
    · rw [walk_stars, hhere, hbelow, andThen_of_ended rfl, List.map_append]
    · intro names
      rw [List.count_append, hcount]
      cases names with
      | nil => rw [hnone, Nat.add_zero, ways_wild_nil hwild, endsIn_cons_cons]
      | cons x names => rw [hsum, ways_wild_cons hwild, Nat.mul_add, endsIn_cons_cons]

/-- A segment that takes one name: the counts of the rows it fits. -/
theorem segment_counts {y : Yields} {body : String → Yields} (hhead : head ≠ "**")
    (hg : Globbed E k db mount ctx)
    (hcur : resolve db ctx.mountPoint cur = .ok ⟨c, .container⟩)
    (hy : y = call (iterdir E k db mount cur) (fun children => forEach children (fun child =>
      if fnmatch (name child) head then body child else nothing)))
    (hbody : ∀ r ∈ shownRows db c, ∃ chains : List (List String),
      body (truediv cur r.name) =
        ⟨chains.map (fun names => pathBelow cur (r.name :: names)), .ended⟩ ∧
        ∀ names, chains.count names =
          rowCopies db (endsIn (head :: rest)) r names * ways isStars fitsSegment rest names) :
    Counts db c cur (head :: rest) y := by
  have htame : isStars head = false := decide_eq_false hhead
  obtain ⟨chains, hchains, hnone, hsum⟩ := forEach_rows cur (shownRows db c)
    (fun child => if fnmatch (name child) head then body child else nothing)
    (fun r names => if fitsSegment head r.name then
      rowCopies db (endsIn (head :: rest)) r names * ways isStars fitsSegment rest names else 0) (by
      intro r hr
      rw [name_truediv (hg.segment hr)]
      cases hfits : fnmatch r.name head with
      | false => exact ⟨[], rfl, fun names => by simp [fitsSegment, hfits]⟩
      | true =>
        obtain ⟨chains, hchains, hcount⟩ := hbody r hr
        exact ⟨chains, hchains, fun names => by simp [fitsSegment, hfits, hcount]⟩)
  refine ⟨chains, ?_, ?_⟩
  · rw [hy, iterdir_ok hg hcur]
    exact hchains
  · intro names
    cases names with
    | nil => rw [hnone, ways_tame_nil htame, Nat.mul_zero]
    | cons x names =>
      rw [hsum, ways_tame_cons htame, copies_cons, ← List.sum_map_mul_right]
      congr 1
      apply List.map_congr_left
      intro r hr
      by_cases hx : r.name = x
      · rw [if_pos hx, if_pos hx, hx, mul_ite, Nat.mul_zero]
      · rw [if_neg hx, if_neg hx, Nat.zero_mul]

/-- The last segment takes whatever is there under the name. -/
theorem one_counts (hhead : head ≠ "**") (hg : Globbed E k db mount ctx) (hr : r ∈ shownRows db c) :
    ∃ chains : List (List String),
      one (truediv cur r.name) =
        ⟨chains.map (fun names => pathBelow cur (r.name :: names)), .ended⟩ ∧
      ∀ names, chains.count names = rowCopies db (endsIn [head]) r names * ways isStars fitsSegment
        [] names := by
  have hany : endsIn [head] r.type = true := by
    rw [endsIn, decide_eq_true_eq, List.getLast?_singleton]
    exact Or.inl (fun h => hhead (Option.some.inj h))
  refine ⟨[[]], ?_, ?_⟩
  · have hpath : pathBelow (truediv cur r.name) [] = truediv cur r.name :=
      pathBelow_nil (listingPath_listingPath _)
    rw [pathBelow_truediv (hg.segment hr)] at hpath
    rw [List.map_singleton, hpath, one]
  · intro names
    cases names with
    | nil => simp [ways_nil_nil, rowCopies, copies, endsIn_container, hany]
    | cons x names => simp [ways_nil_cons]

theorem walk_counts (hg : Globbed E k db mount ctx) : WalkCounts E k db mount ctx fuel := by
  induction fuel with
  | zero =>
    intro cur c head rest D _ _ _ _ hfuel
    exact absurd hfuel (Nat.not_lt_zero _)
  | succ fuel ih =>
    intro cur c head rest D hlegible hcur hnorm hD hfuel
    have hfuel' : rest.length + D ≤ fuel := by omega
    by_cases hstars : head = "**"
    · subst hstars
      exact stars_counts hg hlegible hcur hnorm hD hfuel' ih
    · cases rest with
      | nil => exact segment_counts hstars hg hcur (walk_last hstars) (fun r hr =>
        one_counts hstars hg hr)
      | cons next rest =>
        rw [List.length_cons] at hfuel'
        apply segment_counts hstars hg hcur (walk_segment hstars)
        intro r hr
        rw [endsIn_cons_cons]
        exact goOn_counts hg hlegible hcur hD (by omega) ih hr

/-! ### A base that cannot be listed -/

theorem iterdir_raises (hm : requireMount E k db mount false = .ok ctx)
    (hcur : ∀ c, resolve db ctx.mountPoint cur ≠ .ok ⟨c, .container⟩) :
    ∃ e, iterdir E k db mount cur = .error e := by
  cases hres : iterdir E k db mount cur with
  | error e => exact ⟨e, rfl⟩
  | ok children =>
    simp only [iterdir, list, bind_eq_ok, pure_eq_ok, refuse_eq_ok,
      decide_eq_false_iff_not, not_not] at hres
    obtain ⟨entries, ⟨m, hm', found, hfound, u, htype, -⟩, -⟩ := hres
    obtain rfl := Except.ok.inj (hm.symm.trans hm')
    refine absurd ?_ (hcur found.node)
    rw [hfound, ← htype]

/-- The walk does not come to its end where listing its base raises. -/
theorem walk_raises {e : FsError} (h : iterdir E k db mount base = .error e) :
    (walk E k db mount fuel base head rest).ending ≠ .ended := by
  have hraised : ∀ body : List String → Yields, call (iterdir E k db mount base) body =
      ⟨[], .raised e⟩ := by
    intro body
    rw [h]
    rfl
  induction fuel generalizing head rest with
  | zero => exact Ending.noConfusion
  | succ fuel ih =>
    by_cases hstars : head = "**"
    · subst hstars
      cases rest with
      | nil =>
        rw [walk_stars_last, hraised, andThen_of_ended rfl]
        exact Ending.noConfusion
      | cons next rest =>
        rw [walk_stars, hraised, andThen, if_neg ih]
        exact ih
    · cases rest with
      | nil =>
        rw [walk_last hstars, hraised]
        exact Ending.noConfusion
      | cons next rest =>
        rw [walk_segment hstars, hraised]
        exact Ending.noConfusion

end AloelitePath

end Aloelite
