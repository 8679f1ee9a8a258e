import Aloelite.Readback

/-! What pruning shows to those at work: nothing to readers, nothing to a writer whose
lock is valid, and nothing is left for a second round. -/
namespace Aloelite

open Fallible KeyedRows

variable {C : Crypto} {M : Msgpack} {E E' : Env} {k : Cipher} {db : Db} {s : Sys} {c : ConnId}
  {op : Op} {n : NodeId} {v : ℕ} {now : Int} {volume : Option VolumeId} {f : OpenFile} {fd : FdId}
  {l : Label}

/-! ### A second round -/

theorem keepsRank_mono {keep : Option Int} {r r' : ℕ} (hle : r ≤ r')
    (h : Db.keepsRank keep r' = true) :
    Db.keepsRank keep r = true := by
  cases keep with
  | none => rfl
  | some n =>
    simp only [Db.keepsRank, decide_eq_true_eq] at h ⊢
    omega

theorem stagedVersions_prune :
    (db.pruneContentVersions now volume).pruneContentChunks.stagedVersions n ⊆
      db.stagedVersions n := by
  intro v hv
  obtain ⟨r, hr, hid, hver⟩ := mem_stagedVersions.mp hv
  exact mem_stagedVersions.mpr ⟨r, List.mem_of_mem_filter hr, hid, hver⟩

/-- A version that is retained is so all the more once others are gone. -/
theorem retainedVersion_prune {r : VersionRow}
    (hr : r ∈ (db.pruneContentVersions now volume).versions)
    (h : db.retainedVersion r.contentId r.version = true) :
    (db.pruneContentVersions now volume).pruneContentChunks.retainedVersion r.contentId r.version =
      true := by
  have hstaged : r.version ∈ (db.pruneContentVersions now volume).pruneContentChunks.stagedVersions
      r.contentId :=
    mem_stagedVersions.mpr ⟨r, hr, rfl, rfl⟩
  cases hc : db.content? r.contentId with
  | none =>
    rw [Db.retainedVersion, hc] at h
    cases h
  | some row =>
    have hc' : (db.pruneContentVersions now volume).pruneContentChunks.content? r.contentId =
        some row := hc
    have hrank : (db.pruneContentVersions now volume).pruneContentChunks.rankBelow r.contentId
        row.version r.version ≤
        db.rankBelow r.contentId row.version r.version := by
      have hnodup : ((db.pruneContentVersions now volume).pruneContentChunks.stagedVersions
          r.contentId).Nodup :=
        List.nodup_dedup _
      refine ((hnodup.filter _).subperm ?_).length_le
      intro v hv
      obtain ⟨hv, hkey⟩ := List.mem_filter.mp hv
      exact List.mem_filter.mpr ⟨stagedVersions_prune hv, hkey⟩
    rw [Db.retainedVersion, hc] at h
    rw [Db.retainedVersion, hc']
    simp only [Bool.and_eq_true, Bool.or_eq_true, decide_eq_true_eq] at h ⊢
    refine ⟨hstaged, h.2.imp id ?_⟩
    exact fun hbelow => ⟨hbelow.1, keepsRank_mono hrank hbelow.2⟩

theorem pruneContentVersions_of_kept (h : ∀ r ∈ db.versions, db.survivesPrune now volume r = true) :
    db.pruneContentVersions now volume = db := by
  rw [Db.pruneContentVersions, List.filter_eq_self.mpr h]

theorem pruneContentChunks_again :
    db.pruneContentChunks.pruneContentChunks = db.pruneContentChunks := by
  simp only [Db.pruneContentChunks, List.filter_filter, Bool.and_self]

/-- A second round with the same scope at the same time finds nothing. -/
theorem pruneContent_again :
    ((db.pruneContentVersions now volume).pruneContentChunks.pruneContentVersions now
      volume).pruneContentChunks =
      (db.pruneContentVersions now volume).pruneContentChunks := by
  rw [pruneContentVersions_of_kept, pruneContentChunks_again]
  intro r hr
  have hsurvives : db.survivesPrune now volume r = true := (List.mem_filter.mp hr).2
  rw [Db.survivesPrune, Bool.or_eq_true, Bool.or_eq_true] at hsurvives
  rw [Db.survivesPrune, Bool.or_eq_true, Bool.or_eq_true]
  exact hsurvives.imp (Or.imp (retainedVersion_prune hr) id) id

/-! ### Readers -/

/-- The two prunes. -/
def Op.prunes : Op → Prop
  | .prune _ | .pruneContent _ => True
  | _ => False

/-- What a prune leaves of the file. -/
inductive Pruned (E : Env) (s : Sys) : Db → Prop
  | same : Pruned E s s.db
  | locks : Pruned E s (s.db.pruneLocks E.now)
  | content (volume : Option VolumeId) : Pruned E s
    (s.db.pruneContentVersions E.now volume).pruneContentChunks

theorem exec_pruned (hs : s.db.Sound) (hop : op.prunes) : Pruned E s (exec C M E s c op).1.db := by
  cases op with
  | prune volume =>
    refine transact_db (P := fun db => Pruned E s db) (fun _ _ => rfl) Pruned.same ?_
    intro tx r h
    have hsound : s.begin.db.Sound := hs
    rw [prune_shape h hsound]
    exact Pruned.locks
  | pruneContent volume => exact Pruned.content volume
  | _ => exact hop.elim

/-- What `read_all` depends on. -/
theorem readAll_congr {db' : Db} (hnodes : db'.nodes = db.nodes) (hedges : db'.edges = db.edges)
    (hmounts : db'.mounts = db.mounts) (hvolumes : db'.volumes = db.volumes)
    (hbytes : ∀ n, readContentBytes C k db' n = readContentBytes C k db n) (mount : MountId)
    (path : String) :
    readAll C E k db' mount path = readAll C E k db mount path := by
  simp only [readAll, requireMount, Db.validMount?, Db.mount?, Db.volume?, hmounts, hvolumes,
    hbytes,
    resolve_congr hnodes hedges]

/-- What a prune owes to those at work. -/
structure Invisible (C : Crypto) (E : Env) (s : Sys) (db : Db) : Prop where
  reads : ∀ (E' : Env) (k : Cipher) (mount : MountId) (path : String),
    readAll C E' k db mount path = readAll C E' k s.db mount path
  pooled : ∀ r ∈ db.versions, (db.chunk? r.chunkHash).isSome
  staged : ∀ f ∈ s.fds, f.Live s.db E.now → ∀ r ∈ s.db.versions, r.contentId = f.d.node →
    r ∈ db.versions

theorem Pruned.invisible (h : Pruned E s db) (hp : s.db.Pooled)
    (hnamed : ∀ f ∈ s.fds, LockNamed s f) :
    Invisible C E s db := by
  cases h with
  | same => exact ⟨fun _ _ _ _ => rfl, hp, fun _ _ _ _ hr _ => hr⟩
  | locks =>
    refine ⟨fun E' k mount path => ?_, hp, fun _ _ _ _ hr _ => hr⟩
    have hnodes : (s.db.pruneLocks E.now).nodes = s.db.nodes := rfl
    exact readAll_congr hnodes rfl rfl rfl (fun _ => rfl) mount path
  | content volume =>
    refine ⟨?_, ?_, ?_⟩
    · intro E' k mount path
      have huntouched : ∀ n,
          Untouched s.db (s.db.pruneContentVersions E.now volume).pruneContentChunks n :=
        fun n => pruneContent_untouched
      have hbytes : ∀ n,
          readContentBytes C k (s.db.pruneContentVersions E.now volume).pruneContentChunks n =
          readContentBytes C k s.db n := fun n => (huntouched n).readContentBytes
      have hnodes : (s.db.pruneContentVersions E.now volume).pruneContentChunks.nodes =
          s.db.nodes := rfl
      exact readAll_congr hnodes rfl rfl rfl hbytes mount path
    · intro r hr
      rw [chunk?_pruneContent hr]
      exact hp r (List.mem_of_mem_filter hr)
    · intro f hf hlive r hr hnode
      have hlocked := hlive.locked (hnamed f hf)
      refine List.mem_filter.mpr ⟨hr, ?_⟩
      rw [Db.survivesPrune, hnode, hlocked, Bool.or_true, Bool.true_or]

/-- A prune of content right after a prune of content removes nothing. -/
theorem exec_pruneContent_again {c' : ConnId} (hnow : E'.now = E.now) :
    (exec C M E' (exec C M E s c (.pruneContent volume)).1 c' (.pruneContent volume)).1.db =
        (exec C M E s c (.pruneContent volume)).1.db ∧
      (exec C M E' (exec C M E s c (.pruneContent volume)).1 c' (.pruneContent volume)).2 =
        .ok (.pruned 0 0) := by
  have hdb : (exec C M E s c (.pruneContent volume)).1.db =
      (s.db.pruneContentVersions E.now volume).pruneContentChunks := rfl
  generalize (exec C M E s c (.pruneContent volume)).1 = s' at hdb
  have hsame : (s'.db.pruneContentVersions E'.now volume).pruneContentChunks = s'.db := by
    rw [hdb, hnow]
    exact pruneContent_again
  have hversions : (s'.db.pruneContentVersions E'.now volume).pruneContentChunks.versions =
      s'.db.versions :=
    congrArg Db.versions hsame
  have hchunks : (s'.db.pruneContentVersions E'.now volume).pruneContentChunks.chunks =
      s'.db.chunks :=
    congrArg Db.chunks hsame
  refine ⟨hsame, ?_⟩
  show Except.ok (Reply.pruned (s'.db.versions.length -
    (s'.db.pruneContentVersions E'.now volume).pruneContentChunks.versions.length)
      (s'.db.chunks.length - (s'.db.pruneContentVersions E'.now
        volume).pruneContentChunks.chunks.length)) = _
  rw [hversions, hchunks, Nat.sub_self, Nat.sub_self]

/-- As long as no writer that has lost its lock flushes into a version that is someone
else's by now, pruning is invisible, and a close commits the rows its writer staged or
carried. -/
theorem pruning_invisible (hC : C.KeepsLength) (h : Reaches C M Apart s) :
    (∀ E c op, op.prunes → Invisible C E s (exec C M E s c op).1.db) ∧
      (∀ (E E' : Env) c c' volume, E'.now = E.now →
        (exec C M E' (exec C M E s c (.pruneContent volume)).1 c' (.pruneContent volume)).1.db =
            (exec C M E s c (.pruneContent volume)).1.db ∧
          (exec C M E' (exec C M E s c (.pruneContent volume)).1 c' (.pruneContent volume)).2 =
            .ok (.pruned 0 0)) ∧
      ∀ l fd f, Apart s l → l.op = .fdClose fd → s.fds[fd]? = some f → f.d.writable = true →
        f.d.closed = false → (exec C M l.env s l.conn l.op).2 = .ok .done →
        ∃ f' v, (step C M s l).fds[fd]? = some f' ∧
          (step C M s l).db.committedVersion f.d.node = some v ∧
          (step C M s l).db.manifest f.d.node v = f'.rows := by
  have horderly : Reaches C M (Orderly (Reading.lengths (C := C)) M) s :=
    GuardedRuns.Run.weaken (fun _ _ hl => hl.orderly hC) h
  refine ⟨?_, fun E E' c c' volume hnow => exec_pruneContent_again hnow, ?_⟩
  · intro E c op hop
    exact (exec_pruned horderly.sound hop).invisible horderly.pooled horderly.named
  · intro l fd f hl hop hf hw hopen hok
    obtain ⟨E, c, op⟩ := l
    obtain rfl : op = .fdClose fd := hop
    obtain ⟨f', v, hself, hversion, hmanifest, -, -⟩ :=
      horderly.writers.close horderly (hl.orderly hC) hf hw hopen hok
    exact ⟨f', v, hself, hversion, hmanifest⟩

theorem pruning_invisible_appended :
    readAll Crypto.xorStream (.counting 11) .identity
      (exec Crypto.xorStream Msgpack.refusing (.counting 10)
        (appendedRun.foldl (step Crypto.xorStream Msgpack.refusing) {}) 0 (.pruneContent none)).1.db
          1 "x" =
      .ok [7, 8, 9, 1, 5, 6, 7] := by
  let s := appendedRun.foldl (step Crypto.xorStream Msgpack.refusing) {}
  have hguards : GuardedRuns.Guards (step Crypto.xorStream Msgpack.refusing) Apart {}
      appendedRun := by
    decide +kernel
  obtain ⟨hinvisible, -, -⟩ := pruning_invisible xorStream_keepsLength (reaches_foldl hguards)
  have hprunes : (Op.pruneContent none).prunes := trivial
  have hread := (hinvisible (.counting 10) 0 _ hprunes).reads (.counting 11) .identity 1 "x"
  have hbefore : readAll Crypto.xorStream (.counting 11) .identity s.db 1 "x" =
      .ok [7, 8, 9, 1, 5, 6, 7] := by
    rfl
  exact hread.trans hbefore

/-- The prune comes between a writer that has lost its lease and one that appends: it
frees the version number of the first, the second claims it, and the close of the
second commits a third chunk that is neither staged nor carried by it. -/
theorem prune_lets_close_commit_foreign :
    ∃ s l, Reaches Crypto.xorStream Msgpack.refusing Timely s ∧ Timely s l ∧ l.op = .fdClose 1 ∧
      (s.fds[1]?).map (fun f => (f.d.node, f.rows.length, f.d.pending)) = some (3, 2, []) ∧
      (∀ f ∈ s.fds[1]?, f.Live s.db l.env.now) ∧
      (exec Crypto.xorStream Msgpack.refusing l.env s l.conn l.op).2 = .ok .done ∧
      (step Crypto.xorStream Msgpack.refusing s l).db.committedVersion 3 = some 2 ∧
      ((step Crypto.xorStream Msgpack.refusing s l).db.manifest 3 2).length = 3 := by
  let ls : List Label :=
    [⟨.counting 0, 0, .createVolume none 1 none .none⟩,
      ⟨.counting 1, 0, .mount { volume := 0 }⟩,
      ⟨.counting 2, 1, .mount { volume := 0, ttlMs := some 5, allowOverlap := true }⟩,
      ⟨.counting 3, 0, .request 1 (.createEntry "x" [1])⟩,
      ⟨.counting 5, 1, .openWrite 2 "x" .truncate none⟩,
      ⟨.counting 6, 1, .fdWrite 0 [9, 9, 9]⟩,
      ⟨.counting 7, 1, .fdFlush 0⟩,
      ⟨.counting 8, 1, .fdFlush 0⟩,
      ⟨.counting 9 6000000, 0, .pruneContent none⟩,
      ⟨.counting 10 6000000, 0, .openWrite 1 "x" .append none⟩,
      ⟨.counting 11 6000000, 0, .fdWrite 1 [8]⟩,
      ⟨.counting 12 6000000, 0, .fdFlush 1⟩,
      ⟨.counting 13 7000000, 1, .fdFlush 0⟩]
  let s := ls.foldl (step Crypto.xorStream Msgpack.refusing) {}
  let l : Label := ⟨.counting 14 7000000, 0, .fdClose 1⟩
  have hguards : GuardedRuns.Guards (step Crypto.xorStream Msgpack.refusing) Timely {} ls := by
    decide +kernel
  exact ⟨s, l, reaches_foldl hguards,
    by decide +kernel, rfl, by decide +kernel, by decide +kernel, by rfl,
    by decide +kernel, by decide +kernel⟩

end Aloelite
