import Aloelite.LockExclusion
import Aloelite.Descriptors
import Aloelite.Retention

/-! ACC-11 over runs: what a step that is not the lock holder's does to a locked
node. The locks of the streams are tied to their entries, so the one way left is a
flush that goes into a version the stream has lost. -/
namespace Aloelite

open Fallible KeyedRows ForestOrder Relation

variable {C : Crypto} {M : Msgpack} {E : Env} {k : Cipher} {now : Int} {db db' : Db} {tx tx' : Tx}
  {s : Sys} {n : NodeId} {a mount : MountId} {path : String} {op : Op} {c : ConnId} {r : LockRow}
  {d : Descriptor} {l : Label}

/-! ### Pruning -/

/-- `prune_content` never drops the committed version, locked or not. -/
theorem survivesPrune_committed {v : ℕ} {row : VersionRow} {volume : Option VolumeId}
    (hc : db.committedVersion row.contentId = some v) (hrow : row ∈ db.versions)
    (hv : row.version = v) : db.survivesPrune now volume row = true := by
  rw [Db.committedVersion, Option.map_eq_some_iff] at hc
  obtain ⟨content, hcontent, heq⟩ := hc
  have hstaged : row.version ∈ db.stagedVersions row.contentId :=
    mem_stagedVersions.mpr ⟨row, hrow, rfl, rfl⟩
  have hretained : db.retainedVersion row.contentId row.version = true := by
    rw [Db.retainedVersion, hcontent]
    simp only [hstaged, heq.trans hv.symm, decide_true, Bool.true_or, Bool.and_self]
  rw [Db.survivesPrune, hretained, Bool.true_or, Bool.true_or]

theorem pruneContent_untouched {volume : Option VolumeId} :
    Untouched db (db.pruneContentVersions now volume).pruneContentChunks n := by
  have hmanifest : ∀ v, db.committedVersion n = some v →
      ((db.pruneContentVersions now volume).pruneContentChunks).manifest n v = db.manifest n v := by
    intro v hc
    show (db.versions.filter _).filter _ = db.versions.filter _
    rw [List.filter_filter]
    apply List.filter_congr
    intro row hrow
    by_cases hkey : row.contentId = n ∧ row.version = v
    · have hkept : db.survivesPrune now volume row = true :=
        survivesPrune_committed (hkey.1 ▸ hc) hrow hkey.2
      simp [hkept]
    · simp [hkey]
  refine ⟨rfl, hmanifest, ?_, rfl, rfl⟩
  intro v hc row hrow
  rw [← hmanifest v hc] at hrow
  exact chunk?_pruneContent (Db.mem_manifest.mp hrow).1

/-! ### Streams -/

theorem claimVersion_spares (hm : d.node = n → tx.db.committedVersion n ≠ some (d.claims tx.db))
    (h : (d.claimVersion E tx).2 = .ok tx') : Steps (Spares n) E.now tx.db tx'.db := by
  rcases (claimVersion_ok h).2 with ⟨-, rfl⟩ | ⟨-, hcarry⟩
  · exact ReflTransGen.refl
  · exact carryLeading_spares hm hcarry

theorem claimed_not_committed (hm : d.node = n → tx.db.committedVersion n ≠ some (d.claims tx.db))
    (h : (d.claimVersion E tx).2 = .ok tx') :
    d.node = n → tx'.db.committedVersion n ≠ some (d.claims tx.db) := by
  have hsame : tx'.db.committedVersion n = tx.db.committedVersion n := by
    have hframe : AgreeOff [.chunks, .versions] tx.db tx'.db := claimVersion_agreeOff h
    rw [Db.committedVersion, Db.committedVersion, Db.content?, Db.content?,
      hframe.contents (by simp)]
  rw [hsame]
  exact hm

theorem flushOneChunk_spares (hm : d.node = n → tx.db.committedVersion n ≠ some (d.claims tx.db))
    (h : (d.flushOneChunk C E k tx).2 = .ok tx') : Steps (Spares n) E.now tx.db tx'.db := by
  obtain ⟨tx₁, hclaim, hstage, -⟩ := flushOneChunk_ok h
  have hclaimed := claimVersion_spares hm hclaim
  have hstaged := Stages.spares (claimed_not_committed hm hclaim) (Tx.stageChunk_steps hstage)
  exact hclaimed.trans hstaged

theorem releaseOwnLock_spares (h : d.releaseOwnLock E tx = .ok tx') :
    Steps (Spares n) E.now tx.db tx'.db := by
  rcases releaseOwnLock_ok h with rfl | ⟨l, -, rfl⟩
  · exact ReflTransGen.refl
  · exact ReflTransGen.single ⟨.releaseLock l, trivial, rfl⟩

theorem close_spares (hm : d.closed = false → d.writable = true → d.requireLock E tx.db = .ok () →
      d.node ≠ n) (h : d.close C E k tx = .ok tx') : Steps (Spares n) E.now tx.db tx'.db := by
  rw [Descriptor.close] at h
  split at h
  · obtain rfl := Except.ok.inj h
    exact ReflTransGen.refl
  next hopen =>
    obtain ⟨hlock, tx₁, tx₂, tx₃, hclaim, hstage, hswap, hrelease⟩ := commit_ok h
    have hne : d.node ≠ n := by
      refine hm ?_ ?_ hlock <;> simp_all
    have hclaimed := claimVersion_spares (fun heq => absurd heq hne) hclaim
    have hstaged := Stages.spares (fun heq => absurd heq hne) (stagePending_steps hstage)
    have hswapped := swap_spares hne hswap
    have hreleased : Steps (Spares n) E.now (tx₃.gives d.node d.stream).db tx'.db :=
      releaseOwnLock_spares hrelease
    exact ((hclaimed.trans hstaged).trans hswapped).trans hreleased

theorem abort_spares (h : d.abort E tx = .ok tx') : Steps (Spares n) E.now tx.db tx'.db := by
  rw [Descriptor.abort] at h
  split at h
  · obtain rfl := Except.ok.inj h
    exact ReflTransGen.refl
  · exact releaseOwnLock_spares h

theorem openWrite_spares {mode : WriteMode} {supplied : Option LockId}
    (h : openWrite C E k tx mount path mode supplied = .ok (tx', d)) (hn : (tx.db.node? n).isSome) :
    Steps (Spares n) E.now tx.db tx'.db := by
  obtain ⟨ctx, tx₁, l, -, htarget, hlock, -⟩ := openWrite_ok h
  have hfirst : Steps (Spares n) E.now tx.db tx₁.db := by
    simp only [openTarget] at htarget
    split at htarget
    · simp only [bind_eq_ok, pure_eq_ok, Prod.mk.injEq] at htarget
      obtain ⟨u, -, rfl, -⟩ := htarget
      exact ReflTransGen.refl
    · split at htarget
      · cases htarget
      · exact createLeaf_spares htarget hn
    · cases htarget
  have hsecond : Steps (Spares n) E.now tx₁.db tx'.db := by
    simp only [writerLock] at hlock
    split at hlock
    · simp only [bind_eq_ok, pure_eq_ok, Prod.mk.injEq] at hlock
      obtain ⟨row, -, u, -, rfl, -⟩ := hlock
      exact ReflTransGen.refl
    · simp only [bind_eq_ok, pure_eq_ok, Prod.mk.injEq] at hlock
      obtain ⟨u, -, tx₂, hrun, rfl, -⟩ := hlock
      exact run_spares hrun trivial
  exact hfirst.trans hsecond

/-! ### Steps of other mounts -/

/-- The steps that are not the mount `a`'s: the requests of other mounts, the streams
whose lock is not one of `a`'s, the calls that are no mount's. -/
def Op.foreign (s : Sys) (a : MountId) : Op → Prop
  | .request m _ | .openRead m _ | .openWrite m _ _ _ => m ≠ a
  | .fdRead fd _ | .fdWrite fd _ | .fdFlush fd | .fdSeek fd _ _ | .fdClose fd | .fdAbort fd =>
    ∀ f l r, s.fds[fd]? = some f → f.d.lock = some l → s.db.lock? l = some r → r.mountId ≠ a
  | _ => True

/-- A flush does not go into what is by then the committed version of its entry. -/
def OffCommitted (s : Sys) (op : Op) : Prop :=
  ∀ fd f v, op = .fdFlush fd → s.fds[fd]? = some f → f.d.version = some v →
    s.db.committedVersion f.d.node ≠ some v

theorem checkLockHeld_of_other (hr : r ∈ db.locks) (hv : db.lockValid now r = true)
    (hne : mount ≠ r.mountId) : db.checkLockHeld now r.nodeId mount = true := by
  rw [Db.checkLockHeld, List.any_eq_true]
  refine ⟨r, List.mem_filter.mpr ⟨hr, hv⟩, ?_⟩
  simpa using fun heq => hne heq.symm

/-- A stream that is not `a`'s and may commit is not on a node that `a` holds. -/
theorem node_ne_of_foreign {f : OpenFile} {fd : FdId} (hex : Exclusive s.db E.now)
    (hnamed : LockNamed s f) (hf : s.fds[fd]? = some f) (hr : r ∈ s.db.locks)
    (hv : s.db.lockValid E.now r = true)
    (hforeign : ∀ f l r', s.fds[fd]? = some f → f.d.lock = some l → s.db.lock? l = some r' →
      r'.mountId ≠ r.mountId)
    (hw : f.d.writable = true) (hlock : f.d.requireLock E s.db = .ok ()) : f.d.node ≠ r.nodeId := by
  intro hnode
  obtain ⟨l, hl, hon⟩ := hnamed hw
  rw [Descriptor.requireLock, hl] at hlock
  simp only [refuse_eq_ok, Bool.not_eq_false'] at hlock
  obtain ⟨r', hr', hv'⟩ := getLockValid_iff.mp hlock
  have hsame : r'.mountId = r.mountId :=
    hex r' (mem_of_lookup hr') r hr hv' hv ((hon r' hr').trans hnode)
  exact hforeign f l r' hf hl hr' hsame

variable (hs : s.db.Sound) (hp : s.db.Pooled) (hk : Keyed EdgeRow.edgeId s.db.edges)
  (hex : Exclusive s.db E.now) (hnamed : ∀ f ∈ s.fds, LockNamed s f)
  (hr : r ∈ s.db.locks) (hv : s.db.lockValid E.now r = true) (hn : (s.db.node? r.nodeId).isSome)

include hp hex hnamed hr hv hn in
theorem fdStep_untouched {fd : FdId} {f : OpenFile} (hf : s.fds[fd]? = some f)
    (hforeign : ∀ f l r', s.fds[fd]? = some f → f.d.lock = some l → s.db.lock? l = some r' →
      r'.mountId ≠ r.mountId)
    (hoff : ∀ v, (∃ fd, op = .fdFlush fd) → f.d.version = some v →
      s.db.committedVersion f.d.node ≠ some v) :
    Untouched s.db (fdStep C E s fd f op).1.db r.nodeId := by
  have hsame := Untouched.refl s.db r.nodeId
  have hspares : ∀ {db : Db}, Steps (Spares r.nodeId) E.now s.db db → Untouched s.db db r.nodeId :=
    fun h => h.untouched hn hp
  cases op with
  | fdFlush fd' =>
    simp only [fdStep]
    split
    · refine fdTransact_db (P := fun db => Untouched s.db db r.nodeId) hsame ?_
      intro tx h
      refine hspares (flushOneChunk_spares ?_ h)
      rintro hnode hc
      cases hversion : f.d.version with
      | none =>
        have hlt := lt_nextVersion hc
        rw [Descriptor.claims, hversion, hnode] at hlt
        exact absurd hlt (lt_irrefl _)
      | some v =>
        rw [Descriptor.claims, hversion] at hc
        exact hoff v ⟨fd', rfl⟩ hversion (hnode ▸ hc)
    · exact hsame
  | fdClose fd' =>
    simp only [fdStep]
    split
    · exact hsame
    · refine fdTransact_db (P := fun db => Untouched s.db db r.nodeId) hsame ?_
      intro tx h
      refine hspares (close_spares ?_ h)
      intro _ hw hlock
      exact node_ne_of_foreign hex (hnamed f (List.mem_of_getElem? hf)) hf hr hv hforeign hw hlock
  | fdAbort fd' =>
    simp only [fdStep]
    split
    · exact hsame
    · refine fdTransact_db (P := fun db => Untouched s.db db r.nodeId) hsame ?_
      intro tx h
      exact hspares (abort_spares h)
  | _ =>
    simp only [fdStep]
    split
    · exact hsame
    · first
      | exact hsame
      | (split <;> exact hsame)

include hs hp hk hex hnamed hr hv hn in
/-- A step of another mount leaves a locked node untouched. -/
theorem exec_untouched (hforeign : op.foreign s r.mountId) (hoff : OffCommitted s op) :
    Untouched s.db (exec C M E s c op).1.db r.nodeId := by
  have hsame := Untouched.refl s.db r.nodeId
  have hspares : ∀ {db : Db}, Steps (Spares r.nodeId) E.now s.db db → Untouched s.db db r.nodeId :=
    fun h => h.untouched hn hp
  have hoffTables : ∀ {db : Db} {ts : List Table}, AgreeOff ts s.db db → .contents ∉ ts →
      .versions ∉ ts → .chunks ∉ ts → .nodes ∉ ts → .edges ∉ ts → Untouched s.db db r.nodeId := by
    intro db ts h h₁ h₂ h₃ h₄ h₅
    exact Untouched.of_agreeOff h (fun ht => absurd ht h₁) (fun ht => absurd ht h₂)
      (fun ht => absurd ht h₃) (fun ht => absurd ht h₄) (fun ht => absurd ht h₅)
  have hfd : ∀ fd,
      (∀ f l r', s.fds[fd]? = some f → f.d.lock = some l → s.db.lock? l = some r' →
        r'.mountId ≠ r.mountId) →
      (∀ fd', op = .fdFlush fd' → fd' = fd) →
      Untouched s.db (onFd C E s fd op).1.db r.nodeId := by
    intro fd hother hflush
    rw [onFd]
    split
    next => exact hsame
    next f hf =>
      refine fdStep_untouched hp hex hnamed hr hv hn hf hother ?_
      intro v hop hversion
      obtain ⟨fd', hop⟩ := hop
      exact hoff fd' f v hop (by rw [hflush fd' hop]; exact hf) hversion
  -- what writes to the node or its content asks `check_lock_held` first; the rest spares both
  cases op with
  | request mount req =>
    refine transact_db (P := fun db => Untouched s.db db r.nodeId) (fun _ _ => rfl) hsame ?_
    intro tx reply h
    have hheld := checkLockHeld_of_other hr hv hforeign
    exact hspares (request_spares hheld hk h hn)
  | createVolume name chunkSize pin mode =>
    refine transact_db (P := fun db => Untouched s.db db r.nodeId) (fun _ _ => rfl) hsame ?_
    intro tx v h
    obtain ⟨-, -, -, hnodes, -, hframe, -, -⟩ := createVolume_shape h
    refine Untouched.of_agreeOff hframe (by simp) (by simp) (by simp) ?_ (by simp)
    intro _
    obtain ⟨row, hrow⟩ := Option.isSome_iff_exists.mp hn
    have hkept : tx.db.node? r.nodeId = some row := by
      rw [Db.node?, hnodes]
      exact lookup_append_of_some hrow _
    rw [hkept, hrow]
  | changePin volume oldPin newPin =>
    refine transact_db (P := fun db => Untouched s.db db r.nodeId) (fun _ _ => rfl) hsame ?_
    intro tx reply h
    simp only [asReply, map_eq_ok, Prod.mk.injEq] at h
    obtain ⟨⟨t, u⟩, ⟨t', h, ht⟩, rfl, -⟩ := h
    obtain ⟨rfl, -⟩ := Prod.mk.inj ht
    simp only [changePin, bind_eq_ok] at h
    obtain ⟨row, -, root, -, u, -, key, -, hrun⟩ := h
    obtain ⟨db₁, hexec, rfl⟩ := Tx.run_ok.mp hrun
    refine hoffTables (Stmt.exec_agreeOff hexec) ?_ ?_ ?_ ?_ ?_ <;> simp [Stmt.touches]
  | mount args =>
    refine transact_db (P := fun db => Untouched s.db db r.nodeId) (fun _ _ => rfl) hsame ?_
    intro tx reply h
    simp only [Aloelite.mount, bind_eq_ok, pure_eq_ok, Prod.mk.injEq] at h
    obtain ⟨row, -, root, -, anchor, -, u, -, tx₁, hcreate, conn', -, tx₂, hstate, rfl, -⟩ := h
    have hfirst : Steps (Spares r.nodeId) E.now s.db tx₁.db := run_spares hcreate trivial
    exact hspares (hfirst.trans (run_spares hstate trivial))
  | unmount mount =>
    refine transact_db (P := fun db => Untouched s.db db r.nodeId) (fun _ _ => rfl) hsame ?_
    intro tx reply h
    exact hspares (run_spares (noReply_ok h) trivial)
  | openRead mount path =>
    simp only [exec]
    split <;> exact hsame
  | openWrite mount path mode lock =>
    refine transact_db (P := fun db => Untouched s.db db r.nodeId) (fun _ _ => rfl) hsame ?_
    intro tx d h
    exact hspares (openWrite_spares h hn)
  | fdRead fd m => exact hfd fd hforeign (by simp)
  | fdWrite fd data => exact hfd fd hforeign (by simp)
  | fdFlush fd => exact hfd fd hforeign (fun fd' h => (Op.fdFlush.inj h).symm)
  | fdSeek fd offset whence => exact hfd fd hforeign (by simp)
  | fdClose fd => exact hfd fd hforeign (by simp)
  | fdAbort fd => exact hfd fd hforeign (by simp)
  | prune volume =>
    refine transact_db (P := fun db => Untouched s.db db r.nodeId) (fun _ _ => rfl) hsame ?_
    intro tx reply h
    rw [prune_shape h hs]
    exact ⟨rfl, fun _ _ => rfl, fun _ _ _ _ => rfl, rfl, rfl⟩
  | pruneContent volume =>
    refine transact_db (P := fun db => Untouched s.db db r.nodeId) (fun _ _ => rfl) hsame ?_
    intro tx reply h
    rw [pruneContent_shape h]
    exact pruneContent_untouched

/-! ### Runs -/

/-- No step loses a node: what has no placement left is still placed by an archived
edge or is a root. -/
theorem Effect.node_persists (h : Effect C E s op db) (hs : s.db.Sound)
    (hn : (s.db.node? n).isSome) : (db.node? n).isSome := by
  cases h with
  | strides h => exact node?_isSome_persists h.identities hn
  | founding h =>
    obtain ⟨-, -, -, hnodes, -⟩ := createVolume_shape h
    obtain ⟨row, hrow⟩ := Option.isSome_iff_exists.mp hn
    have hkept : lookup NodeRow.nodeId (s.db.nodes ++ [foundedRoot E s.begin]) n = some row :=
      lookup_append_of_some hrow _
    rw [Db.node?, hnodes]
    exact Option.isSome_iff_exists.mpr ⟨row, hkept⟩
  | prune h =>
    rw [prune_shape h hs]
    exact hn
  | pruneContent h =>
    rw [pruneContent_shape h]
    exact hn

/-- Every lock is on a node. -/
def Db.LocksPlaced (db : Db) : Prop := ∀ r ∈ db.locks, (db.node? r.nodeId).isSome

theorem Tenure.locksPlaced {P : Prop} {A : MountRow → Prop} (h : Tenure E P A db db')
    (hplaced : db.LocksPlaced) (hnodes : ∀ n, (db.node? n).isSome → (db'.node? n).isSome) :
    db'.LocksPlaced := by
  intro r' hr'
  have hold : ∀ r ∈ db.locks, r.nodeId = r'.nodeId → (db'.node? r'.nodeId).isSome :=
    fun r hr heq => heq ▸ hnodes _ (hplaced r hr)
  cases h with
  | locked row hmints hid hnew hmount hnode hfree hmounts hlocks =>
    rw [hlocks] at hr'
    rcases List.mem_append.mp hr' with hr' | hr'
    · exact hold r' hr' rfl
    · rw [List.mem_singleton.mp hr']
      exact hnode
  | renewedLock row exp hrow hvalid hmounts hlocks =>
    rw [hlocks] at hr'
    rcases mem_amend.mp hr' with ⟨hr', -⟩ | ⟨r₀, hr₀, -, rfl⟩
    · exact hold r' hr' rfl
    · exact hold r₀ hr₀ rfl
  | dropped p hmounts hlocks =>
    rw [hlocks] at hr'
    exact hold r' (List.mem_of_mem_filter hr') rfl
  | same hmounts hlocks | mounted row hallowed hnew hmounts hlocks | unmounted m' hmounts hlocks
  | renewedMount m' exp hvalid hmounts hlocks =>
    rw [hlocks] at hr'
    exact hold r' hr' rfl

theorem Reaches.locksPlaced {guard : Sys → Label → Prop} (h : Reaches C M guard s) :
    s.db.LocksPlaced := by
  have hboth : s.db.Sound ∧ s.db.LocksPlaced := by
    refine GuardedRuns.Run.invariant (P := fun s : Sys => s.db.Sound ∧ s.db.LocksPlaced) ?_ h ?_
    · intro s l _ hs
      have hten : Tenure l.env l.op.mintsLock (l.op.admits l.env s.db) s.db (step C M s l).db :=
        exec_tenure hs.1
      refine ⟨step_sound hs.1, hten.locksPlaced hs.2 ?_⟩
      intro n hn
      exact (exec_effect hs.1.linked).node_persists hs.1 hn
    · refine ⟨empty_sound, ?_⟩
      intro r hr
      cases hr
  exact hboth.2

/-- What a run takes for granted: a clock that never goes back, lock ids that are not
minted twice. -/
def Timely (s : Sys) (l : Label) : Prop := ClockForward s l ∧ FreshLockIds s l

instance (s : Sys) (l : Label) : Decidable (Timely s l) :=
  inferInstanceAs (Decidable (ClockForward s l ∧ FreshLockIds s l))

theorem Reaches.lockNamed (h : Reaches C M Timely s) : ∀ f ∈ s.fds, LockNamed s f := by
  have hall : s.db.Sound ∧ s.db.Tended ∧ ∀ f ∈ s.fds, LockNamed s f := by
    refine GuardedRuns.Run.invariant
      (P := fun s : Sys => s.db.Sound ∧ s.db.Tended ∧ ∀ f ∈ s.fds, LockNamed s f) ?_ h ?_
    · intro s l hguard hs
      obtain ⟨hsound, htended, hnamed⟩ := hs
      have hten : Tenure l.env l.op.mintsLock (l.op.admits l.env s.db) s.db (step C M s l).db :=
        exec_tenure hsound
      refine ⟨step_sound hsound, hten.tended htended, ?_⟩
      exact exec_lockNamed hsound htended hguard.2 hnamed
    · refine ⟨empty_sound, empty_tended, ?_⟩
      intro f hf
      cases hf
  exact hall.2.2

/-- ACC-11: a step that is not the holder's, and does not flush into a committed
version, leaves a locked node as it is, its bytes included. -/
theorem locked_node_untouched (h : Reaches C M Timely s) (hl : Timely s l) (hr : r ∈ s.db.locks)
    (hv : s.db.lockValid l.env.now r = true) (hforeign : l.op.foreign s r.mountId)
    (hoff : OffCommitted s l.op) :
    Untouched s.db (step C M s l).db r.nodeId ∧ ((step C M s l).db.node? r.nodeId).isSome ∧
      ∀ k, readContentBytes C k (step C M s l).db r.nodeId =
        readContentBytes C k s.db r.nodeId := by
  have hclock : Reaches C M ClockForward s := GuardedRuns.Run.weaken (fun _ _ hg => hg.1) h
  have hex : Exclusive s.db l.env.now := hclock.exclusive hl.1
  have hn : (s.db.node? r.nodeId).isSome := h.locksPlaced r hr
  have huntouched : Untouched s.db (step C M s l).db r.nodeId :=
    exec_untouched h.sound h.pooled h.edges_keyed hex h.lockNamed hr hv hn hforeign hoff
  exact ⟨huntouched, huntouched.exists hn, fun k => huntouched.readContentBytes⟩

/-- Two mounts of a volume with one-byte chunks. The second, whose lease is 5 ms, has
a stream with one chunk flushed and one to go when its lease ends; its chunk is
pruned, and the first mount locks the entry. -/
def lostStreamRun : List Label :=
  [⟨.counting 0, 0, .createVolume none 1 none .none⟩,
    ⟨.counting 1, 0, .mount { volume := 0 }⟩,
    ⟨.counting 2, 1, .mount { volume := 0, ttlMs := some 5, allowOverlap := true }⟩,
    ⟨.counting 3, 0, .request 1 (.createEntry "x" [])⟩,
    ⟨.counting 5, 1, .openWrite 2 "x" .truncate none⟩,
    ⟨.counting 6, 1, .fdWrite 0 [9, 9]⟩,
    ⟨.counting 7, 1, .fdFlush 0⟩,
    ⟨.counting 8 6000000, 0, .pruneContent none⟩,
    ⟨.counting 9 6000000, 0, .request 1 (.lock "x" none)⟩]

theorem lostStreamRun_guards :
    GuardedRuns.Guards (step Crypto.xorStream Msgpack.refusing) Timely {} lostStreamRun := by
  decide +kernel

/-- The lost stream's second flush claims no committed version yet. -/
theorem locked_node_untouched_lost :
    readContentBytes Crypto.xorStream .identity (step Crypto.xorStream Msgpack.refusing
      (lostStreamRun.foldl (step Crypto.xorStream Msgpack.refusing) {})
      ⟨.counting 10 7000000, 1, .fdFlush 0⟩).db 3 = .ok [] := by
  let s := lostStreamRun.foldl (step Crypto.xorStream Msgpack.refusing) {}
  let l : Label := ⟨.counting 10 7000000, 1, .fdFlush 0⟩
  let r : LockRow := { lockId := 9, mountId := 1, nodeId := 3, expiresAt := none }
  have hl : Timely s l := by decide +kernel
  have hr : r ∈ s.db.locks := by decide +kernel
  have hv : s.db.lockValid l.env.now r = true := by decide +kernel
  have hforeign : l.op.foreign s r.mountId := by
    intro f lock row hf hlock hrow
    cases hf
    cases hlock
    cases hrow
    decide
  have hoff : OffCommitted s l.op := by
    intro fd f v hop hf hversion
    cases hop
    cases hf
    cases hversion
    decide +kernel
  have hkept := locked_node_untouched (reaches_foldl lostStreamRun_guards) hl hr hv hforeign hoff
  have hbefore : readContentBytes Crypto.xorStream .identity s.db r.nodeId = .ok [] := by rfl
  exact (hkept.2.2 .identity).trans hbefore

/-- The holder writes one byte, which commits the version number the prune freed. The
next flush of the stream whose lease has ended adds its chunk to it. -/
theorem lost_stream_flushes_into_locked :
    ∃ s l r, Reaches Crypto.xorStream Msgpack.refusing Timely s ∧ Timely s l ∧ r ∈ s.db.locks ∧
      s.db.lockValid l.env.now r = true ∧ l.op.foreign s r.mountId ∧
      readContentBytes Crypto.xorStream .identity s.db r.nodeId = .ok [8] ∧
      readContentBytes Crypto.xorStream .identity (step Crypto.xorStream Msgpack.refusing s l).db
        r.nodeId = .ok [8, 9] := by
  let ls : List Label :=
    lostStreamRun ++ [⟨.counting 10 6000000, 0, .request 1 (.writeAll "x" [8])⟩]
  let s := ls.foldl (step Crypto.xorStream Msgpack.refusing) {}
  let l : Label := ⟨.counting 11 7000000, 1, .fdFlush 0⟩
  let r : LockRow := { lockId := 9, mountId := 1, nodeId := 3, expiresAt := none }
  have hguards : GuardedRuns.Guards (step Crypto.xorStream Msgpack.refusing) Timely {} ls := by
    decide +kernel
  refine ⟨s, l, r, reaches_foldl hguards, by decide +kernel, by decide +kernel, by decide +kernel,
    ?_, by rfl, by rfl⟩
  intro f lock row hf hlock hrow
  cases hf
  cases hlock
  cases hrow
  decide

end Aloelite
