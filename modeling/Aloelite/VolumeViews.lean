import Aloelite.UpwardPaths
import Aloelite.VolumeIsolation

/-! What a client of one volume can see of a file is a function of that volume's share. With
the isolation of the shares, whatever happens elsewhere in the file, its mounts answer alike. -/
namespace Aloelite
open Fallible KeyedRows Portions ForestOrder Relation

variable {C : Crypto} {M : Msgpack} {E : Env} {k : Cipher} {now : Int} {db db' : Db} {s t : Sys}
  {W : VolumeId} {n : NodeId} {mount : MountId} {path name : String} {m : MountCtx}

/-! ### Rows -/

theorem node?_ofVolume (hn : db.home? n = some W) : (db.ofVolume W).node? n = db.node? n := by
  apply lookup_filter_of_key
  intro r _ hid
  exact decide_eq_true (hid ▸ hn)

theorem content?_ofVolume (hn : db.home? n = some W) :
    (db.ofVolume W).content? n = db.content? n := by
  apply lookup_filter_of_key
  intro r _ hid
  exact decide_eq_true (hid ▸ hn)

theorem times?_ofVolume (hn : db.home? n = some W) : (db.ofVolume W).times? n = db.times? n := by
  apply lookup_filter_of_key
  intro r _ hid
  exact decide_eq_true (hid ▸ hn)

theorem volume?_ofVolume : (db.ofVolume W).volume? W = db.volume? W := by
  apply lookup_filter_of_key
  intro v _ hid
  exact decide_eq_true hid

theorem xattrs_ofVolume (hn : db.home? n = some W) :
    (db.ofVolume W).xattrs.filter (fun r => decide (r.nodeId = n)) =
      db.xattrs.filter (fun r => decide (r.nodeId = n)) := by
  apply filter_filter_off
  intro r _ hid
  exact decide_eq_true ((of_decide_eq_true hid).symm ▸ hn)

theorem activeEdges_ofVolume :
    (db.ofVolume W).activeEdges = db.activeEdges.filter (fun e => db.livesIn W e.toId) := by
  show (db.edges.filter (fun e => db.livesIn W e.toId)).filter (fun e => !e.archived) = _
  rw [Db.activeEdges, List.filter_filter, List.filter_filter]
  apply List.filter_congr
  intro e _
  exact Bool.and_comm _ _

/-! ### Content -/

theorem manifest_ofVolume (hn : db.home? n = some W) (v : ℕ) :
    (db.ofVolume W).manifest n v = db.manifest n v := by
  apply filter_filter_off
  intro r _ hkey
  exact decide_eq_true ((of_decide_eq_true hkey).1.symm ▸ hn)

/-- The pool rows that the volume's manifests name are in its share. -/
theorem chunk?_ofVolume {r : VersionRow} (hr : r ∈ db.versions)
    (hn : db.home? r.contentId = some W) :
    (db.ofVolume W).chunk? r.chunkHash = db.chunk? r.chunkHash := by
  apply lookup_filter_of_key
  intro c _ hid
  apply List.any_eq_true.mpr
  exact ⟨r, hr, Bool.and_eq_true_iff.mpr ⟨decide_eq_true hn, decide_eq_true hid.symm⟩⟩

theorem readChunks_ofVolume (hn : db.home? n = some W) (v : ℕ) :
    (db.ofVolume W).readChunks n v = db.readChunks n v := by
  rw [Db.readChunks, Db.readChunks, manifest_ofVolume hn]
  apply List.filterMap_congr
  intro r hr
  obtain ⟨hmem, hid, -⟩ := Db.mem_manifest.mp ((List.mem_insertionSort _).mp hr)
  exact chunk?_ofVolume hmem (hid.symm ▸ hn)

theorem readChunksRange_ofVolume (hn : db.home? n = some W) (v lo hi : ℕ) :
    (db.ofVolume W).readChunksRange n v lo hi = db.readChunksRange n v lo hi := by
  rw [Db.readChunksRange, Db.readChunksRange, manifest_ofVolume hn]
  apply List.filterMap_congr
  intro r hr
  obtain ⟨hmem, hid, -⟩ :=
    Db.mem_manifest.mp (List.mem_of_mem_filter ((List.mem_insertionSort _).mp hr))
  rw [chunk?_ofVolume hmem (hid.symm ▸ hn)]

theorem readContentMeta_ofVolume (hn : db.home? n = some W) :
    readContentMeta (db.ofVolume W) n = readContentMeta db n := by
  rw [readContentMeta, readContentMeta, content?_ofVolume hn]

theorem readContentBytes_ofVolume (hn : db.home? n = some W) :
    readContentBytes C k (db.ofVolume W) n = readContentBytes C k db n := by
  rw [readContentBytes, readContentBytes, content?_ofVolume hn]
  cases db.content? n with
  | none => rfl
  | some c => simp only [readChunks_ofVolume hn]

/-- A reader's stream takes its bytes from the share alone. -/
theorem read_ofVolume {d : Descriptor} (hn : db.home? d.node = some W) (count : Option ℕ) :
    d.read C k (db.ofVolume W) count = d.read C k db count := by
  simp only [Descriptor.read, readContentMeta_ofVolume hn, readChunkRange,
    readChunksRange_ofVolume hn]

/-! ### Paths -/

section

variable (hh : db.Homed)

include hh in
/-- What is placed in a container of the volume. -/
theorem placedIn_ofVolume {q : EdgeRow → Bool} (hn : db.home? n = some W)
    (hq : ∀ e, q e = true → e.fromId = n) :
    (db.ofVolume W).activeEdges.filter q = db.activeEdges.filter q := by
  rw [activeEdges_ofVolume]
  apply filter_filter_off
  intro e he hqe
  have hchild : db.Child n e.toId := ⟨e, he, hq e hqe, rfl⟩
  exact decide_eq_true (hh.child hchild hn)

include hh in
theorem placedUnder_ofVolume (hn : db.home? n = some W) :
    (db.ofVolume W).placedUnder n name = db.placedUnder n name := by
  rw [Db.placedUnder, Db.placedUnder,
    placedIn_ofVolume hh hn (fun e he => (of_decide_eq_true he).1)]
  apply List.filterMap_congr
  intro e he
  obtain ⟨hmem, hkey⟩ := List.mem_filter.mp he
  exact node?_ofVolume (hh.child ⟨e, hmem, (of_decide_eq_true hkey).1, rfl⟩ hn)

include hh in
theorem resolveSegment_ofVolume (hn : db.home? n = some W) :
    (db.ofVolume W).resolveSegment n name = db.resolveSegment n name := by
  rw [Db.resolveSegment, Db.resolveSegment, placedUnder_ofVolume hh hn]

include hh in
theorem walkRows_ofVolume (fuel : ℕ) :
    ∀ (idx : ℕ) (n : NodeId) (type : NodeType) (rest : List Char),
    db.home? n = some W → (db.ofVolume W).walkRows fuel idx n type rest =
      db.walkRows fuel idx n type rest := by
  -- each row stands at a node of the volume, so the next lookup is within the share again
  induction fuel with
  | zero => intros; rfl
  | succ fuel ih =>
    intro idx n type rest hn
    rw [Db.walkRows, Db.walkRows]
    by_cases hgo : rest ≠ [] ∧ type = .container
    · rw [if_pos hgo, if_pos hgo]
      simp only [Db.walkHit_eq_resolveSegment, resolveSegment_ofVolume hh hn]
      cases hhit : db.resolveSegment n (firstSegment rest) with
      | none => rfl
      | some hit =>
        have hhome := hh.child (Db.child_of_resolveSegment hhit).1 hn
        simp only [ih _ _ _ _ hhome]
    · rw [if_neg hgo, if_neg hgo]

theorem nodesBeside_ofVolume (hn : db.home? n = some W) :
    (db.ofVolume W).nodesBeside n = db.nodesBeside n := by
  rw [Db.nodesBeside, Db.nodesBeside, node?_ofVolume hn]
  have hrow : ∀ r ∈ (db.ofVolume W).nodes, (db.ofVolume W).node? r.nodeId = db.node? r.nodeId := by
    intro r hr
    exact node?_ofVolume (of_decide_eq_true (List.mem_filter.mp hr).2)
  have hcongr : (db.ofVolume W).nodes.filter
      (fun r => ((db.ofVolume W).node? r.nodeId).map NodeRow.volumeId =
      (db.node? n).map NodeRow.volumeId) =
      (db.ofVolume W).nodes.filter (fun r => db.home? r.nodeId = db.home? n) := by
    apply List.filter_congr
    intro r hr
    rw [hrow r hr]
    rfl
  rw [hcongr]
  apply congrArg
  apply filter_filter_off
  intro r _ hbeside
  exact decide_eq_true ((of_decide_eq_true hbeside).trans hn)

include hh in
theorem resolve_ofVolume (hn : db.home? n = some W) :
    resolve (db.ofVolume W) n path = resolve db n path := by
  rw [resolve.eq_def, resolve.eq_def]
  split
  · rw [node?_ofVolume hn]
  · rw [walk, walk, Db.resolvePath, Db.resolvePath, nodesBeside_ofVolume hn,
      walkRows_ofVolume hh _ _ _ _ _ hn]

include hh in
theorem winMax_ofVolume (hn : db.home? n = some W) :
    (db.ofVolume W).winMax n name = db.winMax n name := by
  rw [Db.winMax, Db.winMax, placedUnder_ofVolume hh hn]

include hh in
theorem listChildren_ofVolume (hn : db.home? n = some W) :
    (db.ofVolume W).listChildren n = db.listChildren n := by
  rw [Db.listChildren, Db.listChildren, Db.directoryListing, Db.directoryListing,
    placedIn_ofVolume hh hn (fun e he => of_decide_eq_true he)]
  congr 1
  apply List.filterMap_congr
  intro e he
  obtain ⟨hmem, hkey⟩ := List.mem_filter.mp he
  rw [node?_ofVolume (hh.child ⟨e, hmem, of_decide_eq_true hkey, rfl⟩ hn)]
  simp only [winMax_ofVolume hh hn]

theorem newestPlacement_ofVolume (hn : db.home? n = some W) :
    (db.ofVolume W).newestPlacement n = db.newestPlacement n := by
  have hin : ∀ e ∈ db.activeEdges, decide (e.toId = n) = true → db.livesIn W e.toId = true := by
    intro e _ hto
    exact decide_eq_true ((of_decide_eq_true hto).symm ▸ hn)
  rw [Db.newestPlacement, Db.newestPlacement, activeEdges_ofVolume, filter_filter_off hin]
  congr 1
  funext id
  apply find?_within
  intro e he hkey
  exact hin e he (decide_eq_true (of_decide_eq_true hkey).1)

include hh in
theorem isVolumeRoot_ofVolume (hn : db.home? n = some W) :
    (db.ofVolume W).isVolumeRoot n = db.isVolumeRoot n := by
  apply any_within
  intro v hv hroot
  have hhome : db.home? n = some v.volumeId :=
    hh.root v.plan (List.mem_map_of_mem hv) n (of_decide_eq_true hroot)
  exact decide_eq_true (Option.some.inj (hhome.symm.trans hn))

include hh in
theorem upRows_ofVolume (fuel : ℕ) : ∀ n, db.home? n = some W → (db.ofVolume W).upRows fuel n =
    db.upRows fuel n := by
  induction fuel with
  | zero =>
    intro n hn
    rw [Db.upRows, Db.upRows]
    simp only [node?_ofVolume hn, newestPlacement_ofVolume hn, isVolumeRoot_ofVolume hh hn]
  | succ fuel ih =>
    intro n hn
    rw [Db.upRows, Db.upRows]
    simp only [node?_ofVolume hn, newestPlacement_ofVolume hn, isVolumeRoot_ofVolume hh hn]
    -- the node above is the parent of an active placement, so it is of the volume too
    have hup : ∀ e, db.newestPlacement n = some e → (db.ofVolume W).upRows fuel e.fromId =
        db.upRows fuel e.fromId := by
      intro e he
      obtain ⟨hmem, hto⟩ := newestPlacement_spec he
      obtain ⟨V, hfrom, hhome⟩ := hh.edge e (Db.mem_activeEdges.mp hmem).1
      rw [hto, hn] at hhome
      exact ih e.fromId (hhome ▸ hfrom)
    cases hnode : db.node? n with
    | none => rfl
    | some row =>
      cases hplace : db.newestPlacement n with
      | none => rfl
      | some e => simp only [hup e hplace]

include hh in
theorem buildPath_ofVolume {a : NodeId} (hn : db.home? n = some W) :
    buildPath (db.ofVolume W) n a = buildPath db n a := by
  rw [buildPath, buildPath, upRows_ofVolume hh depthCap n hn]

end

/-! ### Calls through a mount of the volume -/

/-- The mount is bound to the volume. -/
def Db.BoundTo (db : Db) (W : VolumeId) (mount : MountId) : Prop :=
  ∃ r, db.mount? mount = some r ∧ r.volumeId = W

section

variable (hh : db.Homed) (hkeyed : KeyedRows.Keyed MountRow.mountId db.mounts)
  (hb : db.BoundTo W mount)

include hkeyed hb in
theorem requireMount_ofVolume {write : Bool} :
    requireMount E k (db.ofVolume W) mount write = requireMount E k db mount write := by
  obtain ⟨r, hr, rfl⟩ := hb
  have hmount : (db.ofVolume r.volumeId).mount? mount = db.mount? mount := by
    apply lookup_filter_of_key
    intro r' hr' hid
    have hfound : db.mount? r'.mountId = some r' := lookup_eq_some_of_mem hkeyed hr'
    rw [hid, hr] at hfound
    exact decide_eq_true (congrArg MountRow.volumeId (Option.some.inj hfound).symm)
  have hvalid : (db.ofVolume r.volumeId).validMount? E.now mount = db.validMount? E.now mount := by
    rw [Db.validMount?, Db.validMount?, hmount]
  rw [requireMount, requireMount, hvalid]
  cases hrow : db.validMount? E.now mount with
  | none => rfl
  | some row =>
    have heq : row = r := Option.some.inj ((Option.filter_eq_some_iff.mp hrow).1.symm.trans hr)
    rw [heq]
    simp only [orRaise, ok_bind, volume?_ofVolume]

include hh hb in
theorem requireMount_anchor {write : Bool} (hm : requireMount E k db mount write = .ok m) :
    db.home? m.mountPoint = some W := by
  obtain ⟨r, hr, rfl⟩ := hb
  obtain ⟨row, volume, hrow, -, -, rfl⟩ := requireMount_ok hm
  have hfound : db.mount? mount = some row := (Option.filter_eq_some_iff.mp hrow).1
  obtain rfl := Option.some.inj (hfound.symm.trans hr)
  exact hh.anchor row (mem_of_lookup hfound)

include hh hkeyed hb in
/-- A call that resolves a path through the mount and then asks about what it found. -/
theorem onFound_ofVolume {α : Type} {f g : Resolved → Except FsError α}
    (hfg : ∀ found, db.home? found.node = some W → f found = g found) :
    (do
      let m ← requireMount E k (db.ofVolume W) mount false
      let found ← resolve (db.ofVolume W) m.mountPoint path
      f found) =
    (do
      let m ← requireMount E k db mount false
      let found ← resolve db m.mountPoint path
      g found) := by
  rw [requireMount_ofVolume hkeyed hb]
  cases hm : requireMount E k db mount false with
  | error e => rfl
  | ok m =>
    have hanchor := requireMount_anchor hh hb hm
    simp only [ok_bind, resolve_ofVolume hh hanchor]
    cases hfound : resolve db m.mountPoint path with
    | error e => rfl
    | ok found => exact hfg found (hh.below (resolve_below hfound) hanchor)

include hh hkeyed hb in
theorem readAll_ofVolume :
    readAll C E k (db.ofVolume W) mount path = readAll C E k db mount path := by
  apply onFound_ofVolume hh hkeyed hb
  intro found hhome
  rw [readContentBytes_ofVolume hhome]

include hh hkeyed hb in
theorem list_ofVolume : list E k (db.ofVolume W) mount path = list E k db mount path := by
  apply onFound_ofVolume hh hkeyed hb
  intro found hhome
  rw [listChildren_ofVolume hh hhome]

include hh hkeyed hb in
theorem stat_ofVolume : stat E k (db.ofVolume W) mount path = stat E k db mount path := by
  apply onFound_ofVolume hh hkeyed hb
  intro found hhome
  rw [statById, statById, requireMount_ofVolume hkeyed hb, node?_ofVolume hhome]

include hh hkeyed hb in
theorem pathOf_ofVolume (hn : db.home? n = some W) :
    pathOf E k (db.ofVolume W) mount n = pathOf E k db mount n := by
  rw [pathOf, pathOf, requireMount_ofVolume hkeyed hb]
  simp only [buildPath_ofVolume hh hn]

end

/-! ### Isolation -/

theorem checkAnyLock_eq (hn : db.home? n = some W) :
    db.checkAnyLock now n = (db.locksOf W now).any (fun lk => lk.nodeId = n) := by
  symm
  apply any_within
  intro lk _ hid
  exact decide_eq_true ((of_decide_eq_true hid).symm ▸ hn)

theorem checkLockHeld_eq (hn : db.home? n = some W) (mount : MountId) :
    db.checkLockHeld now n mount =
      (db.locksOf W now).any (fun lk => lk.nodeId = n ∧ lk.mountId ≠ mount) := by
  symm
  apply any_within
  intro lk _ hboth
  exact decide_eq_true ((of_decide_eq_true hboth).1.symm ▸ hn)

/-- A mount of the volume is answered alike on two files: listings, rows, bytes and paths, the
times and attributes of the volume's nodes, the locks on them, and what its streams read. -/
structure SameAnswers (C : Crypto) (W : VolumeId) (now : Int) (mount : MountId) (db db' : Db) :
    Prop where
  list : ∀ E k path, Aloelite.list E k db' mount path = Aloelite.list E k db mount path
  stat : ∀ E k path, Aloelite.stat E k db' mount path = Aloelite.stat E k db mount path
  readAll : ∀ E k path, Aloelite.readAll C E k db' mount path = Aloelite.readAll C E k db mount path
  pathOf : ∀ E k n, db.home? n = some W → Aloelite.pathOf E k db' mount n =
    Aloelite.pathOf E k db mount n
  times : ∀ n, db.home? n = some W → db'.times? n = db.times? n
  xattrs : ∀ n, db.home? n = some W →
    db'.xattrs.filter (fun r => decide (r.nodeId = n)) =
    db.xattrs.filter (fun r => decide (r.nodeId = n))
  locked : ∀ n t, db.home? n = some W → now ≤ t →
    db'.checkAnyLock t n = db.checkAnyLock t n ∧ db'.checkLockHeld t n mount =
    db.checkLockHeld t n mount
  read : ∀ (d : Descriptor) k count, db.home? d.node = some W → d.read C k db' count =
    d.read C k db count

theorem SameVolume.boundTo (h : SameVolume W now db db')
    (hkeyed : KeyedRows.Keyed MountRow.mountId db'.mounts) (hb : db.BoundTo W mount) :
    db'.BoundTo W mount := by
  obtain ⟨r, hr, hvolume⟩ := hb
  have hmem : r ∈ (db.ofVolume W).mounts :=
    List.mem_filter.mpr ⟨mem_of_lookup hr, decide_eq_true hvolume⟩
  rw [← h.share] at hmem
  have hmem' : r ∈ db'.mounts := List.mem_of_mem_filter hmem
  refine ⟨r, ?_, hvolume⟩
  rw [← key_of_lookup hr]
  exact lookup_eq_some_of_mem hkeyed hmem'

theorem SameVolume.home (h : SameVolume W now db db') (hn : db.home? n = some W) :
    db'.home? n = some W := by
  have hlives : db'.livesIn W n = true := by
    rw [h.lives]
    exact decide_eq_true hn
  exact of_decide_eq_true hlives

/-- Files with the same share of a volume answer its mounts alike. -/
theorem SameVolume.answers (h : SameVolume W now db db') (ho : db.Ordered) (ho' : db'.Ordered)
    (hb : db.BoundTo W mount) :
    SameAnswers C W now mount db db' := by
  have hk := ho.tended.mounts
  have hk' := ho'.tended.mounts
  have hb' := h.boundTo hk' hb
  constructor
  · intro E k path
    rw [← list_ofVolume ho'.homed hk' hb', h.share, list_ofVolume ho.homed hk hb]
  · intro E k path
    rw [← stat_ofVolume ho'.homed hk' hb', h.share, stat_ofVolume ho.homed hk hb]
  · intro E k path
    rw [← readAll_ofVolume ho'.homed hk' hb', h.share, readAll_ofVolume ho.homed hk hb]
  · intro E k n hn
    rw [← pathOf_ofVolume ho'.homed hk' hb' (h.home hn), h.share, pathOf_ofVolume ho.homed hk hb hn]
  · intro n hn
    rw [← times?_ofVolume (h.home hn), h.share, times?_ofVolume hn]
  · intro n hn
    rw [← xattrs_ofVolume (h.home hn), h.share, xattrs_ofVolume hn]
  · intro n t hn ht
    rw [checkAnyLock_eq (h.home hn), checkAnyLock_eq hn, checkLockHeld_eq (h.home hn),
      checkLockHeld_eq hn, h.locks t ht]
    exact ⟨rfl, rfl⟩
  · intro d k count hn
    rw [← read_ofVolume (h.home hn), h.share, read_ofVolume hn]

/-- Volumes of one file are isolated: after any run of steps that are all about other volumes, a
volume's share of every table is what it was, and each of its mounts is answered as before. -/
theorem volume_isolated (hs : Reaches C M Timely s) (hW : (s.db.volume? W).isSome)
    (hrun : GuardedRuns.Run (step C M) (LeavesAlone W) s t) :
    t.db.ofVolume W = s.db.ofVolume W ∧
      ∀ mount, s.db.BoundTo W mount → SameAnswers C W t.clock mount s.db t.db := by
  obtain ⟨hsame, ht, -, -⟩ := run_sameVolume hs hW hrun
  exact ⟨hsame.share, fun mount hb => hsame.answers hs.ordered ht.ordered hb⟩

/-- A file with two volumes, each with a mount; the first holds one entry. -/
def twoVolumesRun : List Label :=
  [⟨.counting 0, 0, .createVolume none 4 none .none⟩,
    ⟨.counting 1, 0, .mount { volume := 0 }⟩,
    ⟨.counting 2, 0, .request 1 (.createEntry "x" [7])⟩,
    ⟨.counting 4, 1, .createVolume none 4 none .none⟩,
    ⟨.counting 5, 1, .mount { volume := 4 }⟩]

/-- In the second volume an entry of the same name is made, locked, overwritten, removed and
pruned. -/
def secondVolumeRun : List Label :=
  [⟨.counting 6, 1, .request 5 (.createEntry "x" [9])⟩,
    ⟨.counting 8, 1, .request 5 (.lock "x" none)⟩,
    ⟨.counting 9, 1, .request 5 (.writeAll "x" [9, 9])⟩,
    ⟨.counting 10, 1, .request 5 (.unlock 8)⟩,
    ⟨.counting 11, 1, .request 5 (.remove "x")⟩,
    ⟨.counting 12, 1, .prune none⟩,
    ⟨.counting 13, 1, .pruneContent (some 4)⟩]

theorem volume_isolated_second :
    readAll Crypto.xorStream (.counting 14) .identity
      (secondVolumeRun.foldl (step Crypto.xorStream Msgpack.refusing)
      (twoVolumesRun.foldl (step Crypto.xorStream Msgpack.refusing) {})).db 1 "x" = .ok [7] := by
  let s := twoVolumesRun.foldl (step Crypto.xorStream Msgpack.refusing) {}
  have hguards : GuardedRuns.Guards (step Crypto.xorStream Msgpack.refusing) Timely {}
      twoVolumesRun := by decide +kernel
  have halone : GuardedRuns.Guards (step Crypto.xorStream Msgpack.refusing)
      (LeavesAlone 0) s secondVolumeRun := by
    decide +kernel
  have hb : s.db.BoundTo 0 1 :=
    ⟨{ mountId := 1, volumeId := 0, mountPoint := 0, state := .active,
       expiresAt := none, access := .rw }, by decide +kernel, rfl⟩
  have hW : (s.db.volume? 0).isSome := by decide +kernel
  have hkept := volume_isolated (reaches_foldl hguards) hW (GuardedRuns.Run.foldl halone)
  have hbefore : readAll Crypto.xorStream (.counting 14) .identity s.db 1 "x" = .ok [7] := by rfl
  exact ((hkept.2 1 hb).readAll (.counting 14) .identity "x").trans hbefore

end Aloelite
