import Aloelite.GlobWalk

/-! The tree a `glob` walks, by the rows that paths show, and what its calls find there. -/
namespace Aloelite

open Fallible KeyedRows ForestOrder Divisions

variable {E : Env} {k : Cipher} {db : Db} {mount : MountId} {ctx : MountCtx} {c n : NodeId}
  {t : NodeType} {path pattern cur : String} {names : List String} {D : ℕ}

/-! ### The tree below a container -/

/-- The rows of a container that paths show. -/
def shownRows (db : Db) (c : NodeId) : List ListedRow :=
  (db.listChildren c).filter ListedRow.visible

theorem mem_shownRows {r : ListedRow} : r ∈ shownRows db c ↔ r ∈ db.listChildren c ∧ r.visible =
    true := List.mem_filter

theorem Seen.under {r : ListedRow} (hr : r ∈ shownRows db c) (hc : r.type = .container)
    (h : Seen db r.nodeId names n t) :
    Seen db c (r.name :: names) n t := by
  rw [mem_shownRows] at hr
  induction h with
  | root =>
    have hroot := Seen.child (Seen.root : Seen db c [] c .container) hr.1 hr.2
    rw [hc] at hroot
    exact hroot
  | child hp hrow hvisible ih => exact Seen.child ih hrow hvisible

/-- The first step down. -/
theorem seen_cons {name : String} : Seen db c (name :: names) n t ↔
    ∃ r ∈ shownRows db c, r.name = name ∧
      if r.type = .container then Seen db r.nodeId names n t else names = [] ∧ n = r.nodeId ∧
        t = r.type := by
  constructor
  · intro h
    generalize hwhole : name :: names = whole at h
    induction h generalizing names with
    | root => cases hwhole
    | @child chain p r hp hr hvisible ih =>
      cases chain with
      | nil =>
        obtain ⟨rfl, rfl⟩ := List.cons.inj hwhole
        obtain rfl : p = c := ((hp.functional Seen.root).1)
        refine ⟨r, mem_shownRows.mpr ⟨hr, hvisible⟩, rfl, ?_⟩
        split
        · rename_i hcontainer
          rw [hcontainer]
          exact Seen.root
        · exact ⟨rfl, rfl, rfl⟩
      | cons first chain =>
        obtain ⟨rfl, rfl⟩ := List.cons.inj hwhole
        obtain ⟨r', hr', hname, hrest⟩ := ih rfl
        refine ⟨r', hr', hname, ?_⟩
        split at hrest
        · rename_i hcontainer
          rw [if_pos hcontainer]
          exact Seen.child hrest hr hvisible
        · rename_i hleaf
          exact absurd hrest.2.2.symm hleaf
  · rintro ⟨r, hr, rfl, hrest⟩
    split at hrest
    · rename_i hcontainer
      exact Seen.under hr hcontainer hrest
    · obtain ⟨rfl, rfl, rfl⟩ := hrest
      rw [mem_shownRows] at hr
      exact Seen.child Seen.root hr.1 hr.2

/-- No chain of names below a container is longer. -/
def Shallow (db : Db) (c : NodeId) (D : ℕ) : Prop :=
  ∀ names n t, Seen db c names n t → names.length ≤ D

theorem Shallow.row {r : ListedRow} (h : Shallow db c D) (hr : r ∈ shownRows db c)
    (hc : r.type = .container) :
    ∃ D', D = D' + 1 ∧ Shallow db r.nodeId D' := by
  have hpos : 1 ≤ D := h [r.name] r.nodeId .container (Seen.under hr hc Seen.root)
  refine ⟨D - 1, by omega, ?_⟩
  intro names n t hseen
  have hlong := h (r.name :: names) n t (Seen.under hr hc hseen)
  rw [List.length_cons] at hlong
  omega

theorem Seen.leads (h : Seen db c names n t) : ForestOrder.Leads db.Child names.length c n := by
  induction h with
  | root => exact ForestOrder.Leads.refl c
  | @child chain p r hp hr hvisible ih =>
    obtain ⟨e, he, hfrom, hit, hto, rfl⟩ := mem_directoryListing.mp (mem_listChildren.mp hr)
    rw [List.length_append, List.length_singleton]
    exact ForestOrder.Leads.snoc ih ⟨e, he, hfrom, (Db.nodeId_of_node? hto).symm⟩

theorem shallow_of_acyclic (h : Acyclic db.Child) (c : NodeId) : ∃ D, Shallow db c D := by
  refine ⟨(db.activeEdges.map EdgeRow.toId).toFinset.card, ?_⟩
  intro names n t hseen
  apply Acyclic.leads_le h _ hseen.leads
  rintro x y ⟨e, he, -, rfl⟩
  exact List.mem_toFinset.mpr (List.mem_map_of_mem he)

/-- In how many ways placements lead along the names to a node the pattern takes. -/
def copies (db : Db) (takes : NodeType → Bool) : NodeId → List String → ℕ
  | _, [] => if takes .container then 1 else 0
  | c, name :: names => ((shownRows db c).map (fun r =>
      if r.name = name then
        if r.type = .container then copies db takes r.nodeId names
        else if names = [] ∧ takes r.type then 1 else 0
      else 0)).sum

/-- The same for a row of the container. -/
def rowCopies (db : Db) (takes : NodeType → Bool) (r : ListedRow) (names : List String) : ℕ :=
  if r.type = .container then copies db takes r.nodeId names else if names = [] ∧ takes r.type then
    1 else 0

variable {takes : NodeType → Bool}

theorem copies_cons {name : String} : copies db takes c (name :: names) =
    ((shownRows db c).map (fun r => if r.name = name then
      rowCopies db takes r names else 0)).sum := by
  rw [copies]
  rfl

theorem copies_pos_iff : 0 < copies db takes c names ↔ ∃ n t, Seen db c names n t ∧ takes t =
    true := by
  induction names generalizing c with
  | nil =>
    rw [copies]
    constructor
    · intro h
      refine ⟨c, .container, Seen.root, ?_⟩
      by_contra htakes
      rw [if_neg htakes] at h
      exact absurd h (lt_irrefl 0)
    · rintro ⟨n, t, hseen, htakes⟩
      obtain ⟨-, rfl⟩ := hseen.functional Seen.root
      rw [if_pos htakes]
      exact Nat.one_pos
  | cons name names ih =>
    rw [copies, List.sum_pos_iff_exists_pos_nat]
    constructor
    · rintro ⟨m, hm, hpos⟩
      obtain ⟨r, hr, rfl⟩ := List.mem_map.mp hm
      by_cases hname : r.name = name
      · rw [if_pos hname] at hpos
        by_cases hcontainer : r.type = .container
        · rw [if_pos hcontainer] at hpos
          obtain ⟨n, t, hseen, htakes⟩ := ih.mp hpos
          exact ⟨n, t, seen_cons.mpr ⟨r, hr, hname, by rw [if_pos hcontainer]; exact hseen⟩, htakes⟩
        · rw [if_neg hcontainer] at hpos
          by_cases hlast : names = [] ∧ takes r.type = true
          · exact ⟨r.nodeId, r.type,
              seen_cons.mpr ⟨r, hr, hname, by rw [if_neg hcontainer]; exact ⟨hlast.1, rfl, rfl⟩⟩,
              hlast.2⟩
          · rw [if_neg hlast] at hpos
            exact absurd hpos (lt_irrefl 0)
      · rw [if_neg hname] at hpos
        exact absurd hpos (lt_irrefl 0)
    · rintro ⟨n, t, hseen, htakes⟩
      obtain ⟨r, hr, hname, hrest⟩ := seen_cons.mp hseen
      refine ⟨_, List.mem_map_of_mem hr, ?_⟩
      rw [if_pos hname]
      split at hrest
      · rename_i hcontainer
        rw [if_pos hcontainer]
        exact ih.mpr ⟨n, t, hrest, htakes⟩
      · rename_i hleaf
        obtain ⟨hnil, -, rfl⟩ := hrest
        rw [if_neg hleaf, if_pos ⟨hnil, htakes⟩]
        exact Nat.one_pos

/-! ### What the walk calls -/

/-- A tree that a mount shows and whose names a path can hold. -/
structure Globbed (E : Env) (k : Cipher) (db : Db) (mount : MountId) (ctx : MountCtx) : Prop where
  mounted : requireMount E k db mount false = .ok ctx
  named : ∀ e ∈ db.activeEdges, IsName e.name

theorem Globbed.isName {r : ListedRow} (hg : Globbed E k db mount ctx) (hr : r ∈ shownRows db c) :
    IsName r.name := by
  obtain ⟨e, he, -, hit, -, rfl⟩ :=
    mem_directoryListing.mp (mem_listChildren.mp (mem_shownRows.mp hr).1)
  exact hg.named e he

theorem Globbed.segment {r : ListedRow} (hg : Globbed E k db mount ctx) (hr : r ∈ shownRows db c) :
    IsSegment r.name :=
  (hg.isName hr).1

theorem Globbed.meets (hg : Globbed E k db mount ctx) (c : NodeId) : MeetsSegments db c := by
  intro chain p _ r hr hvisible
  exact hg.isName (mem_shownRows.mpr ⟨hr, hvisible⟩)

theorem listingPath_listingPath (p : String) : listingPath (listingPath p) = listingPath p := by
  rw [listingPath, splitPath_listingPath, listingPath]

theorem pathBelow_nil (hcur : listingPath cur = cur) : pathBelow cur [] = cur := by
  rw [pathBelow, List.append_nil]
  exact hcur

theorem pathBelow_listingPath : pathBelow (listingPath path) names = pathBelow path names := by
  rw [pathBelow, splitPath_listingPath, pathBelow]

theorem resolve_splitPath {a : NodeId} {p q : String} (h : splitPath p = splitPath q) :
    resolve db a p = resolve db a q := by
  rw [resolve, resolve, h]

/-- Different names lead to different paths. -/
theorem pathBelow_injective {names' : List String} (hsegs : ∀ name ∈ names, IsSegment name)
    (hsegs' : ∀ name ∈ names', IsSegment name) (h : pathBelow cur names = pathBelow cur names') :
    names = names' := by
  have hcur := splitPath_isSegment cur
  have hall : ∀ name ∈ splitPath cur ++ names, IsSegment name := fun x hx =>
    (List.mem_append.mp hx).elim (hcur x) (hsegs x)
  have hall' : ∀ name ∈ splitPath cur ++ names', IsSegment name := fun x hx =>
    (List.mem_append.mp hx).elim (hcur x) (hsegs' x)
  have hsplit := congrArg splitPath h
  rw [pathBelow, pathBelow, splitPath_joined hall, splitPath_joined hall'] at hsplit
  exact List.append_cancel_left hsplit

namespace AloelitePath

open Yields

variable {r : ListedRow} {x : String}

theorem splitPath_truediv (hx : IsSegment x) :
    splitPath (truediv cur x) = splitPath cur ++ [x] := by
  rw [truediv, splitPath_listingPath, splitPath_join hx]

theorem pathBelow_truediv (hx : IsSegment x) :
    pathBelow (truediv cur x) names = pathBelow cur (x :: names) := by
  rw [pathBelow, splitPath_truediv hx, pathBelow, List.append_assoc, List.singleton_append]

theorem name_truediv (hx : IsSegment x) : name (truediv cur x) = x := by
  have hsegs : ∀ seg ∈ splitPath cur ++ [x], IsSegment seg := by
    intro seg hseg
    rcases List.mem_append.mp hseg with hseg | hseg
    · exact splitPath_isSegment cur seg hseg
    · rw [List.mem_singleton.mp hseg]
      exact hx
  have hroot : truediv cur x ≠ "/" := by
    intro h
    have hsplit : splitPath (truediv cur x) = splitPath cur ++ [x] := splitPath_truediv hx
    rw [h] at hsplit
    exact List.cons_ne_nil x [] (List.append_eq_nil_iff.mp hsplit.symm).2
  have hchars : (truediv cur x).toList = [] ++ '/' :: relOf (splitPath cur ++ [x]) := by
    rw [truediv, listingPath, splitPath_join hx, String.toList_append, String.toList_intercalate]
    rfl
  rw [name, if_neg hroot, hchars, rpartition, List.splitOn_append_cons_self,
    splitOn_relOf hsegs (by simp), List.map_append,
    List.map_singleton, ← List.append_assoc, List.getLast?_concat, Option.getD_some,
    String.ofList_toList]

theorem iterdir_ok (hg : Globbed E k db mount ctx)
    (hcur : resolve db ctx.mountPoint cur = .ok ⟨c, .container⟩) :
    iterdir E k db mount cur = .ok ((shownRows db c).map (fun r => truediv cur r.name)) := by
  have hlist : list E k db mount cur =
      .ok ((db.listChildren c).map (DirEntry.ofRow (listingPath cur))) := by
    simp [list, hg.mounted, hcur, refuse, Except.bind, bind, pure, Except.pure]
  rw [iterdir, hlist]
  change Except.ok _ = Except.ok _
  rw [List.filter_map, List.map_map]
  rfl

theorem legible_row (hg : Globbed E k db mount ctx) (hlegible : Legible cur)
    (hr : r ∈ shownRows db c) :
    Legible (truediv cur r.name) :=
  hlegible.snoc (hg.isName hr).2 (splitPath_truediv (hg.segment hr))

theorem resolve_row (hg : Globbed E k db mount ctx) (hlegible : Legible cur)
    (hcur : resolve db ctx.mountPoint cur = .ok ⟨c, .container⟩) (hr : r ∈ shownRows db c) :
    resolve db ctx.mountPoint (truediv cur r.name) = .ok ⟨r.nodeId, r.type⟩ := by
  have hseg := hg.segment hr
  have hname := hg.isName hr
  rw [mem_shownRows] at hr
  rw [← (resolve_entryPath hlegible hcur hname hr.1 hr.2).2]
  have hentry : splitPath (DirEntry.ofRow (listingPath cur) r).path = splitPath cur ++ [r.name] :=
    splitPath_entryPath hseg rfl
  apply resolve_splitPath
  rw [splitPath_truediv hseg, hentry]

theorem isDir_row (hg : Globbed E k db mount ctx) (hlegible : Legible cur)
    (hcur : resolve db ctx.mountPoint cur = .ok ⟨c, .container⟩) (hr : r ∈ shownRows db c) :
    isDir E k db mount (truediv cur r.name) = .ok (decide (r.type = .container)) := by
  obtain ⟨-, hit, hhit, -, htype⟩ := row_facts (mem_shownRows.mp hr).1 (mem_shownRows.mp hr).2
  have hstat : stat E k db mount (truediv cur r.name) = .ok hit := by
    simp [stat, statById, hg.mounted, resolve_row hg hlegible hcur hr, hhit, orRaise,
      Except.bind, bind]
  rw [isDir, hstat, ← htype]

end AloelitePath

end Aloelite
