import Aloelite.DownloadPaths

/-! `get -r` stays inside the local directory: it acts at paths of safe names only, and the pruned
paths are those with a name refused on the way. -/
namespace Aloelite

open Fallible KeyedRows

variable {C : Crypto} {E : Env} {k : Cipher} {db : Db} {mount : MountId} {ctx : MountCtx}
  {accepts : List LocalAct → LocalAct → Bool} {c : NodeId} {chain : List String} {name : String}
  {g : Download}

def SafeChain (chain : List String) : Prop := ∀ name ∈ chain, SafePiece name.toList

theorem safeChain_snoc : SafeChain (chain ++ [name]) ↔ SafeChain chain ∧ SafePiece name.toList := by
  constructor
  · intro h
    exact ⟨fun x hx => h x (List.mem_append_left _ hx),
      h name (List.mem_append_right _ (List.mem_singleton_self name))⟩
  · intro h x hx
    rcases List.mem_append.mp hx with hx | hx
    · exact h.1 x hx
    · obtain rfl := List.mem_singleton.mp hx
      exact h.2

/-- The guard on the last name, for a name a path can hold. -/
theorem safePiece_iff (hseg : IsSegment name) :
    SafePiece name.toList ↔
      ¬ (name.toList = ['.'] ∨ name.toList = ['.', '.'] ∨ '/' ∈ name.toList) := by
  constructor
  · rintro ⟨-, hdot, hdots, hslash⟩ (h | h | h)
    · exact hdot h
    · exact hdots h
    · exact hslash h
  · intro h
    rw [not_or, not_or] at h
    exact ⟨hseg.1, h.1, h.2.1, h.2.2⟩

/-- Everything done is at a path of safe names. -/
def SafeLog (g : Download) : Prop := ∀ act ∈ g.log, ∀ piece ∈ act.path, SafePiece piece

/-- A container that is entered was pruned if a name on its way is unsafe. -/
def Barred (g : Download) (chain : List String) : Prop := ¬ SafeChain chain → relOf chain ∈ g.pruned

theorem SafeLog.append {act : LocalAct} {g' : Download} (h : SafeLog g) (hsafe : SafeChain chain)
    (hpath : act.path = chain.map String.toList) (hlog : g'.log = g.log ++ [act]) : SafeLog g' := by
  intro act' hact
  rw [hlog] at hact
  rcases List.mem_append.mp hact with hact | hact
  · exact h act' hact
  · obtain rfl := List.mem_singleton.mp hact
    intro piece hpiece
    rw [hpath] at hpiece
    obtain ⟨name, hname, rfl⟩ := List.mem_map.mp hpiece
    exact hsafe name hname

variable {src : String}

theorem makeDir_safe (hlog : SafeLog g) (hsafe : SafeChain chain) :
    SafeLog (makeDir accepts (chain.map String.toList) g) := by
  rw [makeDir]
  split
  · exact hlog.append hsafe rfl rfl
  · exact hlog

theorem makeDir_pruned {path : List (List Char)} : (makeDir accepts path g).pruned = g.pruned := by
  rw [makeDir]
  split
  · rfl
  · rfl

theorem getFile_safe (hlog : SafeLog g) (hsafe : SafeChain chain) :
    SafeLog (getFile C E k db mount accepts src (chain.map String.toList) g) := by
  rw [getFile]
  split
  · exact hlog
  · dsimp only
    split
    · split
      · exact hlog.append hsafe rfl rfl
      · exact hlog.append hsafe rfl rfl
    · exact hlog

theorem getFile_pruned {path : List (List Char)} :
    (getFile C E k db mount accepts src path g).pruned = g.pruned := by
  rw [getFile]
  split
  · rfl
  · dsimp only
    split
    · split
      · rfl
      · rfl
    · rfl

/-- An entry passed over; of a container the path is remembered. -/
def Download.refused (g : Download) (rel : List Char) (isDir : Bool) : Download :=
  { g with skipped := g.skipped + 1, pruned := if isDir then rel :: g.pruned else g.pruned }

theorem refused_barred {rel : List Char} {isDir : Bool} :
    g.pruned ⊆ (g.refused rel isDir).pruned ∧
      (isDir = true → rel ∈ (g.refused rel isDir).pruned) := by
  cases isDir with
  | false => exact ⟨List.Subset.refl _, fun h => by cases h⟩
  | true => exact ⟨List.subset_cons_self _ _, fun _ => List.mem_cons_self⟩

/-- One entry: what is done for it stays inside, and it is barred with its names. -/
theorem getEntry_safe {e : DirEntry} (hlog : SafeLog g)
    (hsegs : ∀ name ∈ chain ++ [e.name], IsSegment name)
    (hbarred : g.stopped = none → Barred g chain) :
    let g' := getEntry C E k db mount accepts (relOf chain) g e
    SafeLog g' ∧ g.pruned ⊆ g'.pruned ∧ (g'.stopped = none → g.stopped = none) ∧
      (g'.stopped = none → e.isDir = true → Barred g' (chain ++ [e.name])) := by
  have hseg : IsSegment e.name := hsegs _ (List.mem_append_right _ (List.mem_singleton_self _))
  have hrel : childRel (relOf chain) e.name = relOf (chain ++ [e.name]) :=
    childRel_relOf (fun name hname => hsegs name (List.mem_append_left _ hname))
  have hrefused : SafeLog (g.refused (relOf (chain ++ [e.name])) e.isDir) ∧
      g.pruned ⊆ (g.refused (relOf (chain ++ [e.name])) e.isDir).pruned ∧
      ((g.refused (relOf (chain ++ [e.name])) e.isDir).stopped = none → g.stopped = none) ∧
        ((g.refused (relOf (chain ++ [e.name])) e.isDir).stopped = none → e.isDir = true →
          Barred (g.refused (relOf (chain ++ [e.name])) e.isDir) (chain ++ [e.name])) := by
    obtain ⟨hsub, hmem⟩ := @refused_barred g (relOf (chain ++ [e.name])) e.isDir
    exact ⟨hlog, hsub, id, fun _ hdir _ => hmem hdir⟩
  dsimp only
  rw [getEntry, hrel]
  by_cases hrunning : g.stopped.isSome = true
  · rw [if_pos hrunning]
    refine ⟨hlog, List.Subset.refl _, id, ?_⟩
    intro hnone
    rw [hnone] at hrunning
    cases hrunning
  have hnone : g.stopped = none := by simpa using hrunning
  simp only [hrunning, rpartition_relOf hsegs, Bool.false_eq_true, if_false]
  split
  · exact hrefused
  next hopen =>
    have hsafe : SafeChain chain := not_not.mp (mt (hbarred hnone) hopen)
    split
    · exact hrefused
    next hname =>
      have hsafe' : SafeChain (chain ++ [e.name]) :=
        safeChain_snoc.mpr ⟨hsafe, (safePiece_iff hseg).mpr hname⟩
      rw [localPieces_relOf hsegs (by simp)]
      split
      · refine ⟨makeDir_safe hlog hsafe', ?_, fun _ => hnone, fun _ _ hun => absurd hsafe' hun⟩
        rw [makeDir_pruned]
        exact List.Subset.refl _
      next hfile =>
        refine ⟨getFile_safe hlog hsafe', ?_, fun _ => hnone, fun _ hdir => absurd hdir hfile⟩
        rw [getFile_pruned]
        exact List.Subset.refl _

/-- The entries of a listing. -/
theorem getEntries_safe {entries : List DirEntry} (hlog : SafeLog g)
    (hsegs : ∀ e ∈ entries, ∀ name ∈ chain ++ [e.name], IsSegment name)
    (hbarred : g.stopped = none → Barred g chain) :
    let g' := entries.foldl (getEntry C E k db mount accepts (relOf chain)) g
    SafeLog g' ∧ g.pruned ⊆ g'.pruned ∧ (g'.stopped = none → g.stopped = none) ∧
      ∀ e ∈ entries, g'.stopped = none → e.isDir = true → Barred g' (chain ++ [e.name]) := by
  induction entries generalizing g with
  | nil =>
    refine ⟨hlog, List.Subset.refl _, id, ?_⟩
    intro e he
    cases he
  | cons e entries ih =>
    obtain ⟨hlog', hsub, hback, hentry⟩ :=
      @getEntry_safe C E k db mount accepts chain g e hlog (hsegs e List.mem_cons_self) hbarred
    obtain ⟨hlog'', hsub', hback', hrest⟩ :=
      ih hlog' (fun x hx => hsegs x (List.mem_cons_of_mem _ hx))
      (fun hnone hun => hsub (hbarred (hback hnone) hun))
    refine ⟨hlog'', List.Subset.trans hsub hsub', fun hnone => hback (hback' hnone), ?_⟩
    intro x hx hnone hdir hun
    rcases List.mem_cons.mp hx with rfl | hx
    · exact hsub' (hentry (hback' hnone) hdir hun)
    · exact hrest x hx hnone hdir hun

/-- The loop stays inside: the containers in the queue are those their paths lead to, and an
unsafe one is barred while the download runs. -/
structure Inside (db : Db) (ctx : MountCtx) (c : NodeId) (queue : List (List Char × String))
    (g : Download) : Prop where
  log : SafeLog g
  queued : ∀ item ∈ queue, ∃ chain p, item.1 = relOf chain ∧ Seen db c chain p .container ∧
    Legible item.2 ∧ resolve db ctx.mountPoint item.2 = .ok ⟨p, .container⟩ ∧
    (g.stopped = none → Barred g chain)

theorem Inside.turn {item : List Char × String} {queue : List (List Char × String)}
    (hm : requireMount E k db mount false = .ok ctx) (hmeets : MeetsSegments db c)
    (h : Inside db ctx c (item :: queue) g) :
    Inside db ctx c (queue ++ (walkTurn C E k db mount accepts item g).2)
      (walkTurn C E k db mount accepts item g).1 := by
  obtain ⟨chain, p, hrel, hp, hlegible, hcur, hbarred⟩ := h.queued item List.mem_cons_self
  have hrest : ∀ item' ∈ queue, _ :=
    fun item' hitem => h.queued item' (List.mem_cons_of_mem _ hitem)
  have hlist : list E k db mount item.2 =
      .ok ((db.listChildren p).map (DirEntry.ofRow (listingPath item.2))) := by
    rw [list, hm, ok_bind, hcur, ok_bind]
    rfl
  rw [walkTurn]
  by_cases hrunning : g.stopped.isSome = true
  · rw [if_pos hrunning, List.append_nil]
    exact ⟨h.log, hrest⟩
  rw [if_neg hrunning, hlist, hrel]
  dsimp only
  have hshown : ((db.listChildren p).map (DirEntry.ofRow (listingPath item.2))).filter
      DirEntry.visible =
      ((db.listChildren p).filter ListedRow.visible).map (DirEntry.ofRow (listingPath item.2)) := by
    rw [List.filter_map]
    rfl
  rw [hshown]
  have hsegs : ∀ e ∈ ((db.listChildren p).filter ListedRow.visible).map
        (DirEntry.ofRow (listingPath item.2)),
      ∀ name ∈ chain ++ [e.name], IsSegment name := by
    intro e he
    obtain ⟨r, hr, rfl⟩ := List.mem_map.mp he
    obtain ⟨hr, hvisible⟩ := List.mem_filter.mp hr
    exact (Seen.child hp hr hvisible).segments hmeets
  obtain ⟨hlog, hsub, hback, hentries⟩ :=
    @getEntries_safe C E k db mount accepts chain g _ h.log hsegs hbarred
  refine ⟨hlog, ?_⟩
  intro item' hitem
  rcases List.mem_append.mp hitem with hitem | hitem
  · obtain ⟨chain', p', hrel', hp', hlegible', hcur', hbarred'⟩ := hrest item' hitem
    exact ⟨chain', p', hrel', hp', hlegible', hcur', fun hnone hun =>
      hsub (hbarred' (hback hnone) hun)⟩
  · obtain ⟨e, he, rfl⟩ := List.mem_map.mp hitem
    obtain ⟨he, hdir⟩ := List.mem_filter.mp he
    have hbar := hentries e he
    have hrel' := @childRel_relOf chain e.name (hp.segments hmeets)
    obtain ⟨r, hr, rfl⟩ := List.mem_map.mp he
    obtain ⟨hr, hvisible⟩ := List.mem_filter.mp hr
    have ht : r.type = .container := of_decide_eq_true hdir
    have hseen := Seen.child hp hr hvisible
    obtain ⟨hwhole, hpath⟩ :=
      resolve_entryPath hlegible hcur (hmeets chain p hp r hr hvisible) hr hvisible
    rw [ht] at hseen hpath
    exact ⟨chain ++ [r.name], r.nodeId, hrel', hseen, hwhole, hpath, fun hnone => hbar hnone hdir⟩

/-- Whatever the local file system refuses and whatever the engine says of a read: below a
container whose names are whole, nothing is made but at a path of safe names. -/
theorem getTree_inside {turns : ℕ} {queue : List (List Char × String)}
    (hm : requireMount E k db mount false = .ok ctx) (hlegible : Legible src)
    (hsrc : resolve db ctx.mountPoint src = .ok ⟨c, .container⟩) (hmeets : MeetsSegments db c)
    (h : getTree C E k db mount accepts src turns = .ok (queue, g)) : SafeLog g := by
  have hstart : Inside db ctx c [([], src)] { log := [.mkdir []] } := by
    refine ⟨?_, ?_⟩
    · intro act hact piece hpiece
      obtain rfl := List.mem_singleton.mp hact
      cases hpiece
    · intro item hitem
      obtain rfl := List.mem_singleton.mp hitem
      exact ⟨[], c, rfl, Seen.root, hlegible, hsrc, fun _ hun =>
        absurd (fun name hname => by cases hname) hun⟩
  rw [getTree] at h
  split at h
  · cases h
  · split at h
    · cases h
    · split at h
      · have hsweep := Except.ok.inj h
        have hturn : ∀ item queue g, Inside db ctx c (item :: queue) g →
            Inside db ctx c (queue ++ (walkTurn C E k db mount accepts item g).2)
              (walkTurn C E k db mount accepts item g).1 :=
          fun _ _ _ hinside => hinside.turn hm hmeets
        have hinside := Worklist.sweep_invariant hturn turns hstart
        rw [hsweep] at hinside
        exact hinside.log
      · cases h

end Aloelite
