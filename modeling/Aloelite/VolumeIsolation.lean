import Aloelite.LockedNodes
import Aloelite.OtherVolumes

/-! Isolation of the volumes of one file: a run of steps that are all about other volumes leaves
a volume's share of every table as it was, and its valid locks with it. -/
namespace Aloelite
open Fallible KeyedRows Portions ForestOrder Relation

variable {C : Crypto} {M : Msgpack} {E : Env} {k : Cipher} {now : Int} {db db' db'' : Db}
  {tx tx' : Tx} {s t : Sys} {W : VolumeId} {p : NodeId → Bool} {n : NodeId} {mount : MountId}
  {path : String} {op : Op} {c : ConnId} {l : Label}

/-! ### Locks stay within volumes -/

/-- What becomes of the mounts of a file: their ids and volumes stay. -/
theorem Tenure.mounts_kept {P : Prop} {A : MountRow → Prop} (h : Tenure E P A db db') :
    ∀ r ∈ db.mounts, ∃ r' ∈ db'.mounts, r'.mountId = r.mountId ∧ r'.volumeId = r.volumeId := by
  have hamend : ∀ {m : MountId} {f : MountRow → MountRow},
      db'.mounts = amend MountRow.mountId db.mounts m f →
      (∀ r, (f r).mountId = r.mountId) → (∀ r, (f r).volumeId = r.volumeId) →
      ∀ r ∈ db.mounts, ∃ r' ∈ db'.mounts, r'.mountId = r.mountId ∧ r'.volumeId = r.volumeId := by
    intro m f hmounts hid hvolume r hr
    rw [hmounts]
    by_cases heq : r.mountId = m
    · exact ⟨f r, mem_amend.mpr (Or.inr ⟨r, hr, heq, rfl⟩), hid r, hvolume r⟩
    · exact ⟨r, mem_amend.mpr (Or.inl ⟨hr, heq⟩), rfl, rfl⟩
  cases h with
  | mounted row hallowed hnew hmounts hlocks =>
    intro r hr
    rw [hmounts]
    exact ⟨r, List.mem_append_left _ hr, rfl, rfl⟩
  | unmounted m' hmounts hlocks => exact hamend hmounts (fun _ => rfl) (fun _ => rfl)
  | renewedMount m' exp hvalid hmounts hlocks => exact hamend hmounts (fun _ => rfl) (fun _ => rfl)
  | same hmounts hlocks | locked row hmints hid hnew hmount hnode hfree hmounts hlocks
  | renewedLock row exp hrow hvalid hmounts hlocks | dropped q hmounts hlocks =>
    intro r hr
    rw [hmounts]
    exact ⟨r, hr, rfl, rfl⟩

theorem Tenure.locksHomed {P : Prop} {A : MountRow → Prop} (h : Tenure E P A db db')
    (hids : ∃ added, db'.identities = db.identities ++ added) (hlocks : db.LocksHomed)
    (hminted : P → ∀ row, db'.locks = db.locks ++ [row] → db'.LockHomed row) : db'.LocksHomed := by
  -- a lock that was there keeps its mount and its node, and both keep their volume
  have hold : ∀ lk ∈ db.locks, ∀ lk' : LockRow, lk'.mountId = lk.mountId → lk'.nodeId = lk.nodeId →
      db'.LockHomed lk' := by
    intro lk hlk lk' hmount hnode
    obtain ⟨r, hr, hid, hhome⟩ := hlocks lk hlk
    obtain ⟨r', hr', hid', hvolume⟩ := h.mounts_kept r hr
    refine ⟨r', hr', hid'.trans (hid.trans hmount.symm), ?_⟩
    rw [hnode, hvolume]
    exact home?_persists hids hhome
  intro lk' hlk'
  cases h with
  | locked row hmints hid hnew hmount hnode hfree hmounts hall =>
    have hrow := hminted hmints row hall
    rw [hall] at hlk'
    rcases List.mem_append.mp hlk' with hlk' | hlk'
    · exact hold lk' hlk' lk' rfl rfl
    · exact List.mem_singleton.mp hlk' ▸ hrow
  | renewedLock row exp hrow hvalid hmounts hall =>
    rw [hall] at hlk'
    rcases mem_amend.mp hlk' with ⟨hlk', -⟩ | ⟨lk, hlk, -, rfl⟩
    · exact hold lk' hlk' lk' rfl rfl
    · exact hold lk hlk _ rfl rfl
  | dropped q hmounts hall =>
    rw [hall] at hlk'
    exact hold lk' (List.mem_of_mem_filter hlk') lk' rfl rfl
  | same hmounts hall | mounted row hallowed hnew hmounts hall | unmounted m' hmounts hall
  | renewedMount m' exp hvalid hmounts hall =>
    rw [hall] at hlk'
    exact hold lk' hlk' lk' rfl rfl

/-- A node that has just been placed lives in the volume of the mount that placed it. -/
theorem linkChild_home {m : MountCtx} {parent child : NodeId} {name : Option String}
    (h : linkChild E tx m parent child name = .ok tx') : tx'.db.home? child = some m.volume := by
  obtain ⟨db₁, hedge, rfl⟩ := linkChild_ok h
  obtain ⟨from', to', -, hto, -, -, -, -, hvolume, rfl⟩ := Db.createEdge_ok hedge
  have hhome : tx.db.home? child = some to'.volumeId := Db.home?_of_node? hto
  rw [hvolume] at hhome
  exact hhome

theorem openTarget_home {m : MountCtx} {mode : WriteMode} (hh : tx.db.Homed)
    (hm : requireMount E k tx.db mount true = .ok m)
    (h : openTarget C E k tx mount m path mode = .ok (tx', n)) :
    tx'.db.home? n = some m.volume := by
  simp only [openTarget] at h
  split at h
  next found hfound =>
    simp only [bind_eq_ok, pure_eq_ok, Prod.mk.injEq] at h
    obtain ⟨u, -, rfl, rfl⟩ := h
    exact hh.resolve hm hfound
  next =>
    split at h
    · cases h
    · simp only [createEntry, createLeaf, bind_eq_ok, pure_eq_ok, Prod.mk.injEq] at h
      obtain ⟨m', hm', parent, -, u, -, ⟨tx₁, node⟩, -, tx₂, -, tx₃, hlink, rfl, rfl⟩ := h
      obtain rfl := Except.ok.inj (hm.symm.trans hm')
      exact linkChild_home hlink
  next => cases h

theorem requireMount_row {write : Bool} {m : MountCtx}
    (h : requireMount E k db mount write = .ok m) :
    ∃ r ∈ db.mounts, r.mountId = mount ∧ r.volumeId = m.volume := by
  obtain ⟨row, volume, hrow, -, -, rfl⟩ := requireMount_ok h
  have hfound : db.mount? mount = some row := (Option.filter_eq_some_iff.mp hrow).1
  exact ⟨row, mem_of_lookup hfound, key_of_lookup hfound, rfl⟩

/-- A lock that a step adds is on a node of the volume of the mount that takes it. -/
theorem exec_lockHomed (hs : s.db.Sound) (hh : s.db.Homed) (hop : op.mintsLock) :
    ∀ row, (exec C M E s c op).1.db.locks = s.db.locks ++ [row] →
      (exec C M E s c op).1.db.LockHomed row := by
  have hsame : ∀ row, s.db.locks = s.db.locks ++ [row] → s.db.LockHomed row :=
    fun row heq => absurd (List.self_eq_append_right.mp heq) (List.cons_ne_nil _ _)
  cases op with
  | request mount r =>
    cases r with
    | lock path ttlMs =>
      refine transact_db (P := fun db => ∀ row, db.locks = s.db.locks ++ [row] → db.LockHomed row)
        (fun _ _ => rfl) hsame ?_
      intro tx reply h row hrow
      obtain ⟨lid, h, -⟩ := asReply_ok h
      obtain ⟨m, found, hm, hfound, -, -, -, -, hdb⟩ := lock_ok h
      obtain ⟨r, hr, hid, hvolume⟩ := requireMount_row hm
      have hhome : s.db.home? found.node = some m.volume := hh.resolve hm hfound
      rw [hdb] at hrow ⊢
      obtain rfl := List.singleton_inj.mp (List.append_cancel_left hrow)
      exact ⟨r, hr, hid, hvolume ▸ hhome⟩
    | _ => exact hop.elim
  | openWrite mount path mode supplied =>
    refine transact_db (P := fun db => ∀ row, db.locks = s.db.locks ++ [row] → db.LockHomed row)
      (fun _ _ => rfl) hsame ?_
    intro tx d h row hrow
    obtain ⟨m, tx₁, lid, hm, htarget, hlock, -⟩ := openWrite_ok h
    obtain ⟨hmounts, hlocks, -⟩ := openTarget_sessions hs.linked hm htarget
    have hhome : tx₁.db.home? d.node = some m.volume := openTarget_home hh hm htarget
    rcases writerLock_ok hlock with ⟨-, rfl, -⟩ | ⟨-, -, -, -, -, -, rfl⟩
    · have heq : s.db.locks = s.db.locks ++ [row] := hlocks.symm.trans hrow
      exact absurd (List.self_eq_append_right.mp heq) (List.cons_ne_nil _ _)
    · obtain ⟨r, hr, hid, hvolume⟩ := requireMount_row hm
      have hnew : tx₁.db.locks ++
          [{ lockId := lid, mountId := mount, nodeId := d.node, expiresAt := none }] =
          tx₁.db.locks ++ [row] := hrow.trans (congrArg (· ++ [row]) hlocks.symm)
      obtain rfl := List.singleton_inj.mp (List.append_cancel_left hnew)
      exact ⟨r, hmounts ▸ hr, hid, hvolume ▸ hhome⟩
  | _ => exact hop.elim

/-- In every reachable file a lock is held through a mount of its node's volume. -/
theorem Reaches.locksHomed {guard : Sys → Label → Prop} (h : Reaches C M guard s) :
    s.db.LocksHomed := by
  have hall : s.db.Sound ∧ s.db.Homed ∧ s.db.LocksHomed := by
    refine GuardedRuns.Run.invariant (P := fun s : Sys => s.db.Sound ∧ s.db.Homed ∧ s.db.LocksHomed)
      ?_ h ?_
    · intro s l _ hs
      obtain ⟨hsound, hhomed, hlocks⟩ := hs
      have hten : Tenure l.env l.op.mintsLock (l.op.admits l.env s.db) s.db (step C M s l).db :=
        exec_tenure hsound
      have heffect : Effect C l.env s l.op (step C M s l).db := exec_effect hsound.linked
      have hids := heffect.identities hsound
      exact ⟨step_sound hsound, exec_homed hsound hhomed,
        hten.locksHomed hids hlocks (exec_lockHomed hsound hhomed)⟩
    · refine ⟨empty_sound, empty_homed, ?_⟩
      intro lk hlk
      cases hlk
  exact hall.2.2

/-! ### One step -/

/-- Whether a node lives in the volume. -/
def Db.livesIn (db : Db) (W : VolumeId) (n : NodeId) : Bool := decide (db.home? n = some W)

/-- The volume's part of the file. -/
def Db.ofVolume (db : Db) (W : VolumeId) : Db := db.share W (db.livesIn W)

/-- The locks that are valid at `now` on nodes of the volume. -/
def Db.locksOf (db : Db) (W : VolumeId) (now : Int) : List LockRow :=
  (db.validLocks now).filter (fun lk => db.livesIn W lk.nodeId)

/-- The volume is as it was, and so are its locks from `now` on. -/
structure SameVolume (W : VolumeId) (now : Int) (db db' : Db) : Prop where
  lives : db'.livesIn W = db.livesIn W
  share : db'.ofVolume W = db.ofVolume W
  locks : ∀ t, now ≤ t → db'.locksOf W t = db.locksOf W t

theorem SameVolume.refl (W : VolumeId) (now : Int) (db : Db) : SameVolume W now db db :=
  ⟨rfl, rfl, fun _ _ => rfl⟩

theorem SameVolume.trans {now' : Int} (h : SameVolume W now db db')
    (h' : SameVolume W now' db' db'') (hle : now ≤ now') :
    SameVolume W now' db db'' :=
  ⟨h'.lives.trans h.lives, h'.share.trans h.share, fun t ht =>
    (h'.locks t ht).trans (h.locks t (hle.trans ht))⟩

/-- No node has come to live in the volume. -/
theorem Avoids.lives (h : Steps (Avoids W p) now db db') :
    ∀ n, db'.home? n = some W → db.home? n = some W := by
  induction h with
  | refl => exact fun _ hn => hn
  | tail _ hstep ih =>
    obtain ⟨st, hst, hexec⟩ := hstep
    intro n hn
    apply ih n
    by_cases ht : Table.identities ∈ st.touches
    · cases st with
      | createNode row modifiedAt =>
        obtain ⟨hnone, -, rfl⟩ := Db.createNode_ok hexec
        by_cases heq : row.nodeId = n
        · rw [Db.home?, Db.node?, ← heq, lookup_append_self hnone] at hn
          exact absurd (Option.some.inj hn) hst.2
        · rw [← hn]
          exact congrArg (Option.map NodeRow.volumeId) (lookup_append_of_ne heq).symm
      | pruneNodes V => exact hst.elim
      | _ => simp [Stmt.touches] at ht
    · rw [home?_congr ((Stmt.exec_agreeOff hexec).identities ht)] at hn
      exact hn

theorem livesIn_eq (h : Steps (Avoids W p) now db db') : db'.livesIn W = db.livesIn W := by
  funext n
  apply decide_eq_decide.mpr
  exact ⟨Avoids.lives h n, home?_persists (Avoids.identities h)⟩

/-- The mount of a lock on the volume's nodes is found among the volume's own mounts. -/
theorem mount?_ofVolume {lk : LockRow} (hkeyed : KeyedRows.Keyed MountRow.mountId db.mounts)
    (hlock : db.LockHomed lk) (hlives : db.livesIn W lk.nodeId = true) :
    (db.ofVolume W).mount? lk.mountId = db.mount? lk.mountId := by
  obtain ⟨r, hr, hid, hhome⟩ := hlock
  have hvolume : r.volumeId = W := Option.some.inj (hhome.symm.trans (of_decide_eq_true hlives))
  apply lookup_filter_of_key
  intro r' hr' hid'
  have heq : r' = r := eq_of_key_eq hkeyed hr' hr (hid'.trans hid.symm)
  exact decide_eq_true (heq ▸ hvolume)

theorem locksOf_eq (hkeyed : KeyedRows.Keyed MountRow.mountId db.mounts) (hlocks : db.LocksHomed)
    (t : Int) :
    db.locksOf W t = (db.locks.filter (fun lk => db.livesIn W lk.nodeId)).filter
      ((db.ofVolume W).lockValid t) := by
  rw [Db.locksOf, Db.validLocks, List.filter_filter, List.filter_filter]
  apply List.filter_congr
  intro lk hlk
  by_cases hlives : db.livesIn W lk.nodeId = true
  · rw [Db.lockValid, Db.lockValid, Db.validMount?, Db.validMount?,
      mount?_ofVolume hkeyed (hlocks lk hlk) hlives, Bool.and_comm]
  · rw [Bool.eq_false_iff.mpr hlives, Bool.false_and, Bool.and_false]

/-- Steps about other nodes leave the volume as it was. -/
theorem SameVolume.of_steps {now' : Int} (h : Steps (Avoids W (db.livesIn W)) now db db')
    (hpool : db.Pooled) (hk : db.Tended) (hk' : db'.Tended) (hlocks : db.LocksHomed)
    (hlocks' : db'.LocksHomed) :
    SameVolume W now' db db' := by
  have hlives := livesIn_eq h
  have hspared := h.spared hpool
  have hshare : db'.ofVolume W = db.ofVolume W := by
    rw [Db.ofVolume, hlives]
    exact hspared.share
  refine ⟨hlives, hshare, ?_⟩
  intro t _
  rw [locksOf_eq hk'.mounts hlocks', locksOf_eq hk.mounts hlocks, hshare, hlives, hspared.locks]

theorem createVolume_avoids {name : Option String} {chunkSize : ℕ} {pin : Option Bytes}
    {mode : EncMode} {v : VolumeId} (hhas : tx.db.Has p) (hW : (tx.db.volume? W).isSome)
    (h : createVolume C E tx name chunkSize pin mode = .ok (tx', v)) :
    Steps (Avoids W p) E.now tx.db tx'.db := by
  simp only [createVolume, Tx.mint, bind_eq_ok] at h
  obtain ⟨tx₁, hvol, tx₂, hnode, tx₃, hroot, h⟩ := h
  -- the id of the new volume is of no volume there was
  have hne : E.uuid ≠ W := by
    obtain ⟨db₁, hexec, -⟩ := Tx.run_ok.mp hvol
    obtain ⟨hnone, -⟩ := Db.createVolume_ok hexec
    intro heq
    rw [← heq, show tx.db.volume? E.uuid = none from hnone] at hW
    cases hW
  have hfirst := run_avoids (W := W) (p := p) hvol hne
  have hfresh : p (E.ids tx₁.idCount) = false := by
    obtain ⟨db₂, hexec, -⟩ := Tx.run_ok.mp hnode
    obtain ⟨hnone, -, -⟩ := Db.createNode_ok hexec
    apply Bool.eq_false_iff.mpr
    intro hp
    have hthere := Avoids.has hfirst hhas _ hp
    rw [show tx₁.db.node? (E.ids tx₁.idCount) = none from hnone] at hthere
    cases hthere
  have hsecond : Steps (Avoids W p) E.now (Tx.mint E tx₁).2.db tx₂.db :=
    run_avoids hnode ⟨hfresh, hne⟩
  have hthird := run_avoids (W := W) (p := p) hroot hne
  have hfounded := (hfirst.trans hsecond).trans hthird
  split at h
  · obtain ⟨rfl, -⟩ := Prod.mk.inj (Except.ok.inj h)
    exact hfounded
  · simp only [bind_eq_ok, pure_eq_ok, Prod.mk.injEq] at h
    obtain ⟨tx₄, hkey, rfl, -⟩ := h
    have hlast : Steps (Avoids W p) E.now { tx₃ with randomCount := tx₃.randomCount + 2 }.db
        tx₄.db := run_avoids hkey hne
    exact hfounded.trans hlast

theorem mount_avoids {args : MountArgs} {mid : MountId} {conn : Conn} (hne : args.volume ≠ W)
    (h : Aloelite.mount C E tx args = .ok (tx', mid, conn)) :
    Steps (Avoids W p) E.now tx.db tx'.db := by
  simp only [Aloelite.mount, bind_eq_ok, pure_eq_ok, Prod.mk.injEq] at h
  obtain ⟨row, -, root, -, anchor, -, u, -, tx₁, hcreate, conn', -, tx₂, hstate, rfl, -⟩ := h
  have hfirst : Steps (Avoids W p) E.now tx.db tx₁.db := run_avoids hcreate hne
  obtain ⟨db₁, hexec, rfl⟩ := Tx.run_ok.mp hcreate
  obtain ⟨hnone, -, rfl⟩ := Db.createMount_ok hexec
  refine hfirst.trans (run_avoids hstate ?_)
  intro r hr hid
  rcases List.mem_append.mp hr with hr | hr
  · exact absurd hid (lookup_eq_none.mp hnone r hr)
  · rw [List.mem_singleton.mp hr]
    exact hne

/-- A step that is not about the volume: requests and streams of other mounts, calls on other
volumes, the prune that takes only locks, and the content prune of one other volume. -/
def Op.Elsewhere (s : Sys) (W : VolumeId) : Op → Prop
  | .request mount r => s.db.OffMount W mount ∧ r.Off s.db W
  | .unmount mount | .openWrite mount _ _ _ => s.db.OffMount W mount
  | .changePin V _ _ => V ≠ W
  | .mount args => args.volume ≠ W
  | .fdFlush fd | .fdClose fd | .fdAbort fd => ∀ f ∈ s.fds[fd]?, s.db.home? f.d.node ≠ some W
  | .pruneContent volume => volume ≠ none ∧ volume ≠ some W
  | .createVolume .. | .openRead .. | .fdRead .. | .fdWrite .. | .fdSeek .. | .prune _ => True

instance (s : Sys) (W : VolumeId) (op : Op) : Decidable (op.Elsewhere s W) := by
  apply Op.casesOn (motive := fun op => Decidable (op.Elsewhere s W)) op <;>
    (intros; delta Op.Elsewhere; infer_instance)

/-- A content prune of another volume keeps every manifest of the volume, and so its pool rows. -/
theorem pruneContent_share {V : VolumeId} (hkeyed : (db.identities.map Prod.fst).Nodup)
    (hne : V ≠ W) :
    ((db.pruneContentVersions now (some V)).pruneContentChunks).ofVolume W = db.ofVolume W := by
  have hkept : ∀ r ∈ db.versions, db.livesIn W r.contentId = true →
      db.survivesPrune now (some V) r = true := by
    intro r _ hlives
    have hhome : db.home? r.contentId = some W := of_decide_eq_true hlives
    have hother : db.nodes.any (fun row => decide (row.nodeId = r.contentId ∧ row.volumeId = V)) =
        false := by
      apply List.any_eq_false.mpr
      intro row hrow hboth
      have hkeys : KeyedRows.Keyed NodeRow.nodeId db.nodes := by
        have hmap : db.identities.map Prod.fst = db.nodes.map NodeRow.nodeId := by
          rw [Db.identities, List.map_map]
          rfl
        rw [hmap] at hkeyed
        exact hkeyed
      obtain ⟨hid, hvolume⟩ := of_decide_eq_true hboth
      have hfound : db.node? row.nodeId = some row := lookup_eq_some_of_mem hkeys hrow
      rw [hid] at hfound
      rw [Db.home?_of_node? hfound, hvolume] at hhome
      exact hne (Option.some.inj hhome)
    rw [Db.survivesPrune, Option.all_some, hother, Bool.not_false, Bool.or_true]
  have hversions : (db.versions.filter (db.survivesPrune now (some V))).filter
      (fun r => db.livesIn W r.contentId) =
      db.versions.filter (fun r => db.livesIn W r.contentId) := filter_filter_off hkept
  have hnamed (c : ChunkRow) : (db.versions.filter (db.survivesPrune now (some V))).any
      (fun r => db.livesIn W r.contentId && r.chunkHash = c.chunkHash) =
        db.versions.any (fun r => db.livesIn W r.contentId && r.chunkHash = c.chunkHash) := by
    apply any_within
    intro r hr hboth
    exact hkept r hr (Bool.and_eq_true_iff.mp hboth).1
  have hchunks : (db.pruneContentVersions now (some V)).pruneContentChunks.chunks.filter
      (fun c => db.versions.any (fun r => db.livesIn W r.contentId && r.chunkHash = c.chunkHash)) =
        db.chunks.filter
          (fun c => db.versions.any (fun r => db.livesIn W r.contentId &&
          r.chunkHash = c.chunkHash)) := by
    apply filter_filter_off
    intro c _ hc
    rw [← hnamed c] at hc
    obtain ⟨r, hr, hboth⟩ := List.any_eq_true.mp hc
    exact List.any_eq_true.mpr ⟨r, hr, (Bool.and_eq_true_iff.mp hboth).2⟩
  have hlives : ((db.pruneContentVersions now (some V)).pruneContentChunks).livesIn W =
      db.livesIn W := rfl
  rw [Db.ofVolume, hlives]
  simp only [Db.share, Db.pruneContentChunks, Db.pruneContentVersions] at hchunks ⊢
  simp only [hnamed, hversions, hchunks, Db.ofVolume, Db.share]

/-- `prune` takes no lock that could be valid at a later time. -/
theorem SameVolume.of_pruneLocks : SameVolume W now db (db.pruneLocks now) := by
  refine ⟨rfl, rfl, ?_⟩
  intro t ht
  have hvalid : (db.pruneLocks now).validLocks t = db.validLocks t := by
    apply filter_filter_off
    intro lk _ hlk
    exact lockValid_mono ht hlk
  rw [Db.locksOf, hvalid]
  rfl

/-- What the isolation of a step rests on, all of it true of every reachable file. -/
structure Db.Ordered (db : Db) : Prop where
  sound : db.Sound
  homed : db.Homed
  pooled : db.Pooled
  tended : db.Tended
  edges : KeyedRows.Keyed EdgeRow.edgeId db.edges
  locks : db.LocksHomed

theorem Reaches.ordered {guard : Sys → Label → Prop} (h : Reaches C M guard s) : s.db.Ordered :=
  ⟨h.sound, h.homed, h.pooled, h.tended, h.edges_keyed, h.locksHomed⟩

variable (ho : s.db.Ordered) (hnamed : ∀ f ∈ s.fds, LockNamed s f)

include ho hnamed in
theorem fdStep_elsewhere {fd : FdId} {f : OpenFile} (hf : f ∈ s.fds)
    (hoff : (∃ fd', op = .fdFlush fd' ∨ op = .fdClose fd' ∨ op = .fdAbort fd') →
      s.db.home? f.d.node ≠ some W) :
    Steps (Avoids W (s.db.livesIn W)) E.now s.db (fdStep C E s fd f op).1.db := by
  have hsame : Steps (Avoids W (s.db.livesIn W)) E.now s.db s.db := ReflTransGen.refl
  -- the lock that a writer gives back is on its own entry
  have hlock : s.db.home? f.d.node ≠ some W → f.d.writable = true →
      ∀ l, f.d.lock = some l → ∀ r ∈ s.db.locks, r.lockId = l → s.db.livesIn W r.nodeId =
      false := by
    intro hhome hw l hl r hr hid
    obtain ⟨l', hl', hon⟩ := hnamed f hf hw
    obtain rfl := Option.some.inj (hl.symm.trans hl')
    have hfound : s.db.lock? r.lockId = some r := lookup_eq_some_of_mem ho.tended.locks hr
    rw [hid] at hfound
    rw [hon r hfound]
    exact decide_eq_false hhome
  cases op with
  | fdFlush fd' =>
    have hhome := hoff ⟨fd', Or.inl rfl⟩
    simp only [fdStep]
    split
    · refine fdTransact_db (P := fun db => Steps (Avoids W (s.db.livesIn W)) E.now s.db db) hsame ?_
      intro tx h
      have hgo : Steps (Avoids W (s.db.livesIn W)) E.now s.begin.db tx.db :=
        flushOneChunk_avoids (decide_eq_false hhome) h
      exact hgo
    · exact hsame
  | fdClose fd' =>
    have hhome := hoff ⟨fd', Or.inr (Or.inl rfl)⟩
    simp only [fdStep]
    split
    · exact hsame
    · refine fdTransact_db (P := fun db => Steps (Avoids W (s.db.livesIn W)) E.now s.db db) hsame ?_
      intro tx h
      have hgo : Steps (Avoids W (s.db.livesIn W)) E.now s.begin.db tx.db :=
        close_avoids (decide_eq_false hhome) (hlock hhome) h
      exact hgo
  | fdAbort fd' =>
    have hhome := hoff ⟨fd', Or.inr (Or.inr rfl)⟩
    simp only [fdStep]
    split
    · exact hsame
    · refine fdTransact_db (P := fun db => Steps (Avoids W (s.db.livesIn W)) E.now s.db db) hsame ?_
      intro tx h
      have hgo : Steps (Avoids W (s.db.livesIn W)) E.now s.begin.db tx.db :=
        abort_avoids (hlock hhome) h
      exact hgo
  | _ =>
    simp only [fdStep]
    split
    · exact hsame
    · first
      | exact hsame
      | (split <;> exact hsame)

include ho hnamed in
/-- A step elsewhere leaves the volume as it was. -/
theorem exec_sameVolume (ho' : (exec C M E s c op).1.db.Ordered) (hW : (s.db.volume? W).isSome)
    (hop : op.Elsewhere s W) :
    SameVolume W E.now s.db (exec C M E s c op).1.db := by
  have hsteps (h : Steps (Avoids W (s.db.livesIn W)) E.now s.db (exec C M E s c op).1.db) :
      SameVolume W E.now s.db (exec C M E s c op).1.db :=
    SameVolume.of_steps h ho.pooled ho.tended ho'.tended ho.locks ho'.locks
  have hsame : Steps (Avoids W (s.db.livesIn W)) E.now s.db s.db := ReflTransGen.refl
  have hlives : ∀ n, s.db.livesIn W n = true → s.db.home? n = some W :=
    fun n hn => of_decide_eq_true hn
  have hhas : s.db.Has (s.db.livesIn W) := by
    intro n hn
    have hhome := hlives n hn
    rw [Db.home?, Option.map_eq_some_iff] at hhome
    obtain ⟨row, hrow, -⟩ := hhome
    rw [hrow]
    rfl
  -- the calls on a descriptor differ only in whether they write, so they share one argument
  have hfd : ∀ fd, ((∃ fd', op = .fdFlush fd' ∨ op = .fdClose fd' ∨ op = .fdAbort fd') →
      ∀ f ∈ s.fds[fd]?, s.db.home? f.d.node ≠ some W) →
      Steps (Avoids W (s.db.livesIn W)) E.now s.db (onFd C E s fd op).1.db := by
    intro fd hoff
    rw [onFd]
    split
    next => exact hsame
    next f hf =>
      exact fdStep_elsewhere ho hnamed (List.mem_of_getElem? hf) (fun hex => hoff hex f hf)
  cases op with
  | request mount r =>
    apply hsteps
    refine transact_db (P := fun db => Steps (Avoids W (s.db.livesIn W)) E.now s.db db)
      (fun _ _ => rfl) hsame ?_
    intro tx reply h
    have hgo : Steps (Avoids W (s.db.livesIn W)) E.now s.begin.db tx.db :=
      request_avoids ⟨ho.homed, hlives, hop.1⟩ hop.2 ho.locks ho.edges ho.tended.locks h
    exact hgo
  | createVolume name chunkSize pin mode =>
    apply hsteps
    refine transact_db (P := fun db => Steps (Avoids W (s.db.livesIn W)) E.now s.db db)
      (fun _ _ => rfl) hsame ?_
    intro tx v h
    have hgo : Steps (Avoids W (s.db.livesIn W)) E.now s.begin.db tx.db :=
      createVolume_avoids hhas hW h
    exact hgo
  | changePin volume oldPin newPin =>
    apply hsteps
    refine transact_db (P := fun db => Steps (Avoids W (s.db.livesIn W)) E.now s.db db)
      (fun _ _ => rfl) hsame ?_
    intro tx reply h
    simp only [asReply, map_eq_ok, Prod.mk.injEq] at h
    obtain ⟨⟨t, u⟩, ⟨t', h, ht⟩, rfl, -⟩ := h
    obtain ⟨rfl, -⟩ := Prod.mk.inj ht
    simp only [changePin, bind_eq_ok] at h
    obtain ⟨row, -, root, -, u, -, key, -, hrun⟩ := h
    have hgo : Steps (Avoids W (s.db.livesIn W)) E.now
        ({ s.begin with randomCount := s.begin.randomCount + 1 } : Tx).db t'.db :=
      run_avoids hrun hop
    exact hgo
  | mount args =>
    apply hsteps
    refine transact_db (P := fun db => Steps (Avoids W (s.db.livesIn W)) E.now s.db db)
      (fun _ _ => rfl) hsame ?_
    intro tx reply h
    have hgo : Steps (Avoids W (s.db.livesIn W)) E.now s.begin.db tx.db := mount_avoids hop h
    exact hgo
  | unmount mount =>
    apply hsteps
    refine transact_db (P := fun db => Steps (Avoids W (s.db.livesIn W)) E.now s.db db)
      (fun _ _ => rfl) hsame ?_
    intro tx reply h
    have hgo : Steps (Avoids W (s.db.livesIn W)) E.now s.begin.db tx.db :=
      run_avoids (noReply_ok h) hop
    exact hgo
  | openRead mount path =>
    apply hsteps
    simp only [exec]
    split <;> exact hsame
  | openWrite mount path mode supplied =>
    apply hsteps
    refine transact_db (P := fun db => Steps (Avoids W (s.db.livesIn W)) E.now s.db db)
      (fun _ _ => rfl) hsame ?_
    intro tx d h
    have habroad : Abroad W (s.db.livesIn W) s.begin.db mount := ⟨ho.homed, hlives, hop⟩
    exact (openWrite_avoids habroad h).1
  | fdRead fd m => exact hsteps (hfd fd (by simp))
  | fdWrite fd data => exact hsteps (hfd fd (by simp))
  | fdFlush fd => exact hsteps (hfd fd (fun _ => hop))
  | fdSeek fd offset whence => exact hsteps (hfd fd (by simp))
  | fdClose fd => exact hsteps (hfd fd (fun _ => hop))
  | fdAbort fd => exact hsteps (hfd fd (fun _ => hop))
  -- on a sound file a prune drops expired locks and nothing else
  | prune volume =>
    refine transact_db (P := fun db => SameVolume W E.now s.db db) (fun _ _ => rfl)
      (SameVolume.refl W E.now s.db) ?_
    intro tx reply h
    rw [prune_shape h ho.sound]
    exact SameVolume.of_pruneLocks
  -- the content prune of another volume spares this one's versions and the chunks they name
  | pruneContent volume =>
    refine transact_db (P := fun db => SameVolume W E.now s.db db) (fun _ _ => rfl)
      (SameVolume.refl W E.now s.db) ?_
    intro tx reply h
    cases volume with
    | none => exact absurd rfl hop.1
    | some V =>
      have hne : V ≠ W := fun heq => hop.2 (congrArg some heq)
      rw [pruneContent_shape h]
      exact ⟨rfl, pruneContent_share ho.sound.keyed hne, fun _ _ => rfl⟩

/-! ### Runs -/

/-- The steps of a run that leaves the volume to itself. -/
def LeavesAlone (W : VolumeId) (s : Sys) (l : Label) : Prop := Timely s l ∧ l.op.Elsewhere s W

instance (W : VolumeId) (s : Sys) (l : Label) : Decidable (LeavesAlone W s l) :=
  inferInstanceAs (Decidable (Timely s l ∧ l.op.Elsewhere s W))

theorem run_sameVolume (hs : Reaches C M Timely s) (hW : (s.db.volume? W).isSome)
    (hrun : GuardedRuns.Run (step C M) (LeavesAlone W) s t) :
    SameVolume W t.clock s.db t.db ∧ Reaches C M Timely t ∧ s.clock ≤ t.clock ∧
      (t.db.volume? W).isSome := by
  refine GuardedRuns.Run.invariant (P := fun t : Sys => SameVolume W t.clock s.db t.db ∧
    Reaches C M Timely t ∧
    s.clock ≤ t.clock ∧ (t.db.volume? W).isSome) ?_ hrun ⟨SameVolume.refl W s.clock s.db, hs,
    le_rfl, hW⟩
  intro u l hl hu
  obtain ⟨hsame, hreach, hclock, hvolume⟩ := hu
  have hreach' : Reaches C M Timely (step C M u l) := GuardedRuns.Run.snoc hreach hl.1
  have hstep : SameVolume W l.env.now u.db (step C M u l).db :=
    exec_sameVolume hreach.ordered hreach.lockNamed hreach'.ordered hvolume hl.2
  have heffect : Effect C l.env u l.op (step C M u l).db := exec_effect hreach.sound.linked
  have hplans := heffect.plans hreach.sound hreach.homed
  exact ⟨hsame.trans hstep hl.1.1, hreach', hclock.trans hl.1.1, hplans.volume hvolume⟩

end Aloelite
