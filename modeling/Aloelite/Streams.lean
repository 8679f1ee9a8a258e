import Aloelite.VersionRows

/-! A writer at work. While its lock is valid its version holds what it has flushed,
its pending buffer the rest, and a flush goes through. -/
namespace Aloelite

open Fallible KeyedRows Relation Numbered Pieces Patches

variable {C : Crypto} {M : Msgpack} {σ : Type} {R : Reading C σ} {V : VolumeId} {E : Env}
  {k : Cipher} {db db' : Db} {tx tx' tx₁ : Tx} {n : NodeId} {v i count src : ℕ} {data : Bytes}
  {f : OpenFile} {d d' : Descriptor} {w : ℕ → Prop} {mount : MountId} {path : String}

/-- Before the first flush: the chunks to carry are still there. -/
structure Unclaimed (R : Reading C σ) (db : Db) (f : OpenFile) : Prop where
  carryDone : f.d.carryDone = false
  index : f.d.chunkIndex = f.d.carryFull
  rows : f.rows = []
  empty : f.d.cs = 0 → f.d.carryFull = 0
  source : 0 < f.d.cs → HoldsFirst R f.d.volume db f.d.node f.d.carrySrc f.d.carryFull
    (pieces f.d.cs ((f.d.stream.map R.glance).take f.d.flushed))

/-- After it: the claimed version consists of the writer's own rows and holds what it
has flushed. With a chunk size of zero the flush loop never ends. -/
structure Claimed (R : Reading C σ) (db : Db) (f : OpenFile) (v : ℕ) : Prop where
  carryDone : f.d.carryDone = true
  started : v ≠ 0
  staged : f.rows ≠ []
  below : ∀ r ∈ f.rows, r.chunkIndex < f.d.chunkIndex
  rows : db.manifest f.d.node v = f.rows
  uncommitted : db.committedVersion f.d.node ≠ some v
  endless : f.d.cs = 0 → f.d.writing = true
  holds : 0 < f.d.cs → Holds R f.d.volume db f.d.node v
    (pieces f.d.cs ((f.d.stream.map R.glance).take f.d.flushed))

/-- What a writer has made of its stream so far. -/
structure Streaming (R : Reading C σ) (db : Db) (f : OpenFile) : Prop where
  home : db.home? f.d.node = some f.d.volume
  entry : ∃ c, db.committedVersion f.d.node = some c
  cs : f.d.cs = chunkSizeOf db f.d.volume
  length : f.d.stream.length = f.d.flushed + f.d.pending.length
  pending : f.d.pending.map R.glance = (f.d.stream.map R.glance).drop f.d.flushed
  flushed : f.d.flushed = f.d.chunkIndex * f.d.cs
  waiting : f.d.writing = true → f.d.cs ≤ f.d.pending.length
  resting : f.d.writing = false → f.d.pending.length < f.d.cs ∨ f.d.pending = []
  unclaimed : f.d.version = none → Unclaimed R db f
  claimed : ∀ v, f.d.version = some v → Claimed R db f v

/-! ### Opening -/

/-- A leaf just created is of its mount's volume. -/
theorem createLeaf_born {type : NodeType}
    (hcreate : createLeaf C E k tx mount path type data = .ok (tx', n)) :
    ∃ m, requireMount E k tx.db mount true = .ok m ∧ tx'.db.home? n = some m.volume ∧
      tx'.db.nodeType? n = some type := by
  simp only [createLeaf, bind_eq_ok, pure_eq_ok, Prod.mk.injEq] at hcreate
  obtain ⟨m, hm, p, -, u, -, ⟨tx₁, node⟩, hnew, tx₂, hput, tx₃, hlink, rfl, rfl⟩ := hcreate
  obtain ⟨-, db₁, hrow, rfl⟩ := newNode_ok hnew
  obtain ⟨hnone, -, rfl⟩ := Db.createNode_ok hrow
  let row : NodeRow := { nodeId := node, type := type, name := p.name, createdAt := E.now,
                         volumeId := m.volume, metadata := .empty }
  have hself : lookup NodeRow.nodeId (tx.db.nodes ++ [row]) node = some row :=
    lookup_append_self (r := row) hnone
  have hfilled := (Fills.agreeOff (putInitialContent_steps hput)).identities (by decide)
  have hlinked : tx₃.db.identities = tx₂.db.identities :=
    (linkChild_calm hlink).off.identities (by decide)
  have hids := hlinked.trans hfilled
  refine ⟨m, hm, ?_, ?_⟩
  · rw [home?_congr hids]
    show (lookup NodeRow.nodeId (tx.db.nodes ++ [row]) node).map NodeRow.volumeId = some m.volume
    rw [hself]
    rfl
  · rw [Db.nodeType?_eq, hids, ← Db.nodeType?_eq]
    show (lookup NodeRow.nodeId (tx.db.nodes ++ [row]) node).map NodeRow.type = some type
    rw [hself]
    rfl

theorem openTarget_stored {m : MountCtx} {mode : WriteMode} (hk : R.FitsMount E k tx.db mount)
    (hh : tx.db.Homed) (h : tx.Stored R) (hm : requireMount E k tx.db mount true = .ok m)
    (htarget : openTarget C E k tx mount m path mode = .ok (tx', n))
    (hal : R.wary = true → tx'.aliased = false) :
    tx'.Stored R ∧ tx'.db.home? n = some m.volume ∧ ∃ c, tx'.db.content? n = some c := by
  simp only [openTarget] at htarget
  split at htarget
  next found hfound =>
    simp only [bind_eq_ok, pure_eq_ok, refuse_eq_ok, Prod.mk.injEq, decide_eq_false_iff_not]
      at htarget
    obtain ⟨u, hleaf, rfl, rfl⟩ := htarget
    obtain ⟨hhome, c, hc, -⟩ := h.leaf hh hm hfound hleaf
    exact ⟨h, hhome, c, hc⟩
  next =>
    split at htarget
    · cases htarget
    · obtain ⟨m', hm', hhome, htype⟩ := createLeaf_born htarget
      obtain rfl := Except.ok.inj (hm.symm.trans hm')
      have hstored := createLeaf_stored hk h htarget hal
      have hsome := hstored.2 n _ (by simp) htype (by decide)
      exact ⟨hstored, hhome, Option.isSome_iff_exists.mp hsome⟩
  next => cases htarget

theorem writerLock_calm {supplied : Option LockId} {l : LockId}
    (h : writerLock E tx mount n supplied = .ok (tx', l)) : Calm tx tx' := by
  simp only [writerLock] at h
  split at h
  · simp only [bind_eq_ok, pure_eq_ok, Prod.mk.injEq] at h
    obtain ⟨row, -, u, -, rfl, -⟩ := h
    exact Calm.refl tx
  · simp only [bind_eq_ok, pure_eq_ok, Prod.mk.injEq] at h
    obtain ⟨u, -, tx₁, hrun, rfl, -⟩ := h
    exact run_calm hrun trivial

/-- A writer just opened has its stream: nothing, or the content it appends to. -/
theorem openWrite_streaming {mode : WriteMode} {supplied : Option LockId} {c : ConnId}
    (hk : R.FitsMount E k tx.db mount) (hh : tx.db.Homed) (h : tx.Stored R)
    (hopen : openWrite C E k tx mount path mode supplied = .ok (tx', d))
    (hal : R.wary = true → tx'.aliased = false) :
    tx'.Stored R ∧ Streaming R tx'.db { conn := c, d := d } := by
  obtain ⟨m, tx₁, l, hm, htarget, hlock, -, hvolume, hcs, -, -, hwriting,
    hversion, hcarry, hmode⟩ :=
    openWrite_ok hopen
  have hcalm := writerLock_calm hlock
  have hal₁ : R.wary = true → tx₁.aliased = false := by
    rw [← hcalm.aliased]
    exact hal
  obtain ⟨hstored₁, hhome₁, c₁, hc₁⟩ := openTarget_stored hk hh h hm htarget hal₁
  have hstored := hstored₁.calm hcalm
  have hhome : tx'.db.home? d.node = some d.volume := by
    rw [hcalm.home, hvolume]
    exact hhome₁
  have hentry : ∃ c, tx'.db.content? d.node = some c := by
    rw [← Option.isSome_iff_exists, content?_isSome_of_meta (hcalm.contents d.node), hc₁]
    rfl
  obtain ⟨row, hrow⟩ := hentry
  have hkept := hstored.1.committed hhome hrow
  rw [← hvolume] at hcs
  have hfits : R.Fits k d.volume := hvolume ▸ hk true m hm
  have hpointer : ∃ v, tx'.db.committedVersion d.node = some v :=
    ⟨row.version, by rw [Db.committedVersion, hrow]; rfl⟩
  have hclaimed : ∀ v, d.version = some v → Claimed R tx'.db { conn := c, d := d } v := by
    intro v hv
    rw [hversion] at hv
    cases hv
  have hbusy : ∀ P : Prop, d.writing = true → P := by
    intro P hw
    rw [hwriting] at hw
    cases hw
  refine ⟨hstored, ?_⟩
  -- opened to truncate, the stream starts empty; to append, it starts with the content, whose
  -- full chunks are carried and whose tail is pending
  rcases hmode with ⟨-, -, hfull, hindex, hflushed, hpending, -, hstream⟩ |
    ⟨-, hzero, srcVersion, size, hmeta, htail, hsrc, hfull, hindex, hflushed, -, hstream⟩
  · refine ⟨hhome, hpointer, hcs, ?_, ?_, ?_, hbusy _, fun _ => Or.inr hpending,
      fun _ => ?_, hclaimed⟩
    · rw [hstream, hflushed, hpending]
      rfl
    · rw [hstream, hpending]
      exact List.drop_nil.symm
    · rw [hflushed, hindex, Nat.zero_mul]
    · refine ⟨hcarry, hindex.trans hfull.symm, rfl, fun _ => hfull, fun _ => ?_⟩
      have hnone : (tx'.db.manifest d.node d.carrySrc).filter
          (fun r => r.chunkIndex < d.carryFull) = [] := by
        rw [List.filter_eq_nil_iff, hfull]
        intro r _ hlt
        exact Nat.not_lt_zero _ (of_decide_eq_true hlt)
      show Matches R d.volume tx'.db ((tx'.db.manifest d.node d.carrySrc).filter _) _
      rw [hnone, hstream, List.map_nil, List.take_nil, pieces_nil, numbered_nil]
      exact ⟨[], List.Perm.refl _, List.Forall₂.nil⟩
  · have hpos : 0 < d.cs := Nat.pos_of_ne_zero hzero
    have hcs' : chunkSizeOf tx'.db d.volume = d.cs := hcs.symm
    obtain ⟨rfl, rfl⟩ : row.version = srcVersion ∧ row.size = size := by
      have hboth := (readContentMeta_of_content hrow).symm.trans hmeta
      exact ⟨congrArg Prod.fst hboth, congrArg Prod.snd hboth⟩
    have hrest := hkept.readTail hfits hcs' hpos htail
    have hsize : d.stream.length = row.size := by rw [hstream, hkept.size]
    have hle : d.flushed ≤ row.size := hflushed ▸ Nat.div_mul_le_self _ _
    have htaillen : d.pending.length = row.size - d.flushed := by
      have hmapped := congrArg List.length hrest
      rw [List.length_map, List.length_drop, List.length_map, ← hkept.size, ← hflushed] at hmapped
      exact hmapped
    have hshort : d.pending.length < d.cs := by
      have hmod := Nat.mod_lt row.size hpos
      have hsplit := Nat.div_add_mod' row.size d.cs
      omega
    refine ⟨hhome, hpointer, hcs, ?_, ?_, ?_, hbusy _, fun _ => Or.inl hshort,
      fun _ => ?_, hclaimed⟩
    · show d.stream.length = d.flushed + d.pending.length
      omega
    · show d.pending.map R.glance = (d.stream.map R.glance).drop d.flushed
      rw [hrest, hstream, hflushed]
    · rw [hflushed, hindex]
    · refine ⟨hcarry, hindex.trans hfull.symm, rfl, fun heq => absurd heq hzero, fun _ => ?_⟩
      have hfirst := hkept.holds.first d.carryFull
      rw [hcs', ← hsrc, ← hstream, take_pieces hpos] at hfirst
      · rw [hflushed, ← hfull]
        exact hfirst
      · rw [List.length_map, hsize, hfull]
        exact Nat.div_mul_le_self _ _

/-! ### Steps of others -/

/-- Chunks `0 .. count - 1` are all there, so no row can be added below `count`. -/
theorem HoldsFirst.full {chunks : List (List σ)} (h : HoldsFirst R V db n v count chunks)
    (hlen : chunks.length = count) (hi : i < count) : ∃ r ∈ db.manifest n v, r.chunkIndex = i := by
  obtain ⟨rows, hperm, hall⟩ := h
  have hmem : ∃ x, (i, x) ∈ numbered 0 chunks := exists_mem_numbered (Nat.zero_le i) (by omega)
  obtain ⟨x, hx⟩ := hmem
  obtain ⟨r, hr, hidx, -⟩ := exists_of_forall₂_right hall hx
  exact ⟨r, (List.mem_filter.mp (hperm.mem_iff.mpr hr)).1, hidx⟩

theorem HoldsFirst.steady {chunks : List (List σ)} (h : HoldsFirst R V db n v count chunks)
    (hlen : chunks.length = count) (hs : Steady w n db db') (hk : db'.RowsKeyed) :
    HoldsFirst R V db' n v count chunks := by
  obtain ⟨added, hrows, -⟩ := hs.rows
  have hnodup : (db.rowsOf n ++ added).Nodup := by
    rw [← hrows]
    exact (List.Nodup.of_map _ hk).filter _
  -- a row added below `count` would share its place with an old one
  have hnil : (added.filter (fun r => r.version = v)).filter (fun r => r.chunkIndex < count) =
      [] := by
    rw [List.filter_filter, List.filter_eq_nil_iff]
    intro r hr hkey
    simp only [Bool.and_eq_true, decide_eq_true_eq] at hkey
    obtain ⟨r₀, hr₀, hidx⟩ := h.full hlen hkey.1
    rw [manifest_eq_rowsOf] at hr₀
    obtain ⟨hold, hver⟩ := List.mem_filter.mp hr₀
    have hmem : ∀ x ∈ db.rowsOf n ++ added, x ∈ db'.versions ∧ x.contentId = n := by
      intro x hx
      rw [← hrows] at hx
      obtain ⟨hx, hid⟩ := List.mem_filter.mp hx
      exact ⟨hx, by simpa using hid⟩
    obtain ⟨hin, hid⟩ := hmem r (List.mem_append_right _ hr)
    obtain ⟨hin₀, hid₀⟩ := hmem r₀ (List.mem_append_left _ hold)
    have hsame : r₀ = r := by
      refine hk.inj hin₀ hin ?_
      rw [VersionRow.place, VersionRow.place, hid, hid₀, hkey.2, hidx, show r₀.version =
        v by simpa using hver]
    exact List.disjoint_of_nodup_append hnodup (hsame ▸ hold) hr
  have heq : (db'.manifest n v).filter (fun r => r.chunkIndex < count) =
      (db.manifest n v).filter (fun r => r.chunkIndex < count) := by
    rw [manifest_eq_rowsOf, manifest_eq_rowsOf, hrows, List.filter_append, List.filter_append, hnil,
      List.append_nil]
  rw [HoldsFirst, heq]
  refine Matches.mono h ?_
  intro r hr ch hch
  refine hs.chunks r ?_ ch hch
  have hmem := List.mem_of_mem_filter hr
  rw [manifest_eq_rowsOf] at hmem
  exact List.mem_of_mem_filter hmem

/-- A writer is undisturbed by a step that writes other versions. -/
theorem Streaming.steady (h : Streaming R db f) (hs : Steady w f.d.node db db') (hk : db'.RowsKeyed)
    (hw : ∀ v, f.d.version = some v → ¬ w v) (hhome : db'.home? f.d.node = some f.d.volume)
    (hcs : chunkSizeOf db' f.d.volume = chunkSizeOf db f.d.volume) : Streaming R db' f := by
  refine ⟨hhome, ?_, h.cs.trans hcs.symm, h.length, h.pending, h.flushed, h.waiting,
    h.resting, ?_, ?_⟩
  · obtain ⟨c, hc⟩ := h.entry
    obtain ⟨c', hc', -⟩ := hs.pointer c hc
    exact ⟨c', hc'⟩
  · intro hv
    have hu := h.unclaimed hv
    refine ⟨hu.carryDone, hu.index, hu.rows, hu.empty, fun hpos => ?_⟩
    refine (hu.source hpos).steady ?_ hs hk
    have hlen : ((f.d.stream.map R.glance).take f.d.flushed).length = f.d.carryFull * f.d.cs := by
      have hle := h.length
      rw [List.length_take, List.length_map, ← hu.index, ← h.flushed]
      omega
    exact length_pieces_of_mul hpos hlen
  · intro v hv
    have hc := h.claimed v hv
    have hman := hs.manifest (hw v hv)
    refine ⟨hc.carryDone, hc.started, hc.staged, hc.below, hman.trans hc.rows, ?_,
      hc.endless, fun hpos => ?_⟩
    · obtain ⟨c, hver⟩ := h.entry
      obtain ⟨c', hc', rfl | hwritten⟩ := hs.pointer c hver
      · rw [hc', ← hver]
        exact hc.uncommitted
      · rw [hc']
        intro heq
        exact hw v hv (Option.some.inj heq ▸ hwritten)
    · refine HoldsAt.frame (hc.holds hpos) hman ?_
      intro r hr ch hch
      rw [manifest_eq_rowsOf] at hr
      exact hs.chunks r (List.mem_of_mem_filter hr) ch hch

/-! ### Its own writes -/

/-- The in-memory half of `write`. -/
theorem Streaming.absorb (h : Streaming R db f) (habs : f.d.absorb data = .ok d')
    (hidle : f.d.writing = false) : Streaming R db { f with d := d' } := by
  obtain ⟨-, -, ⟨-, rfl⟩ | ⟨hdata, hpos, rfl⟩⟩ := absorb_ok habs
  · exact h
  have hlen := h.length
  have hsplit : (f.d.stream.take f.d.flushed).length = f.d.flushed := by
    rw [List.length_take]
    omega
  have hstream : patch 0 f.d.stream f.d.pos data =
      f.d.stream.take f.d.flushed ++ patch 0 (f.d.stream.drop f.d.flushed)
        (f.d.pos - f.d.flushed) data := by
    have hpatch : patch 0 (f.d.stream.take f.d.flushed ++ f.d.stream.drop f.d.flushed) f.d.pos
        data =
        f.d.stream.take f.d.flushed ++ patch 0 (f.d.stream.drop f.d.flushed)
          (f.d.pos - (f.d.stream.take f.d.flushed).length) data :=
      patch_append_of_le (hsplit.le.trans hpos)
    rw [List.take_append_drop, hsplit] at hpatch
    exact hpatch
  -- what is flushed already stays at the front of the stream
  have hfront : ((patchWindow f.d.stream f.d.pos data).map R.glance).take f.d.flushed =
      (f.d.stream.map R.glance).take f.d.flushed := by
    have hshow : patchWindow f.d.stream f.d.pos data = patch 0 f.d.stream f.d.pos data := rfl
    rw [hshow, hstream, List.map_append,
      List.take_left' (by rw [List.length_map, hsplit]), List.map_take]
  refine ⟨h.home, h.entry, h.cs, ?_, ?_, h.flushed, ?_, ?_, ?_, ?_⟩
  · show (patch 0 f.d.stream f.d.pos data).length =
      f.d.flushed + (patch 0 f.d.pending (f.d.pos - f.d.flushed) data).length
    rw [length_patch, length_patch]
    omega
  · show (patch 0 f.d.pending (f.d.pos - f.d.flushed) data).map R.glance =
      ((patch 0 f.d.stream f.d.pos data).map R.glance).drop f.d.flushed
    rw [hstream, List.map_append, List.drop_left' (by rw [List.length_map, hsplit]), map_patch,
      map_patch,
      h.pending, List.map_drop]
  · intro hwrite
    simpa using hwrite
  · intro hrest
    have hlt : ¬ f.d.cs ≤ (patchWindow f.d.pending (f.d.pos - f.d.flushed) data).length := by
      simpa using hrest
    exact Or.inl (not_le.mp hlt)
  · intro hv
    have hu := h.unclaimed hv
    refine ⟨hu.carryDone, hu.index, hu.rows, hu.empty, fun hcs => ?_⟩
    rw [hfront]
    exact hu.source hcs
  · intro v hv
    have hc := h.claimed v hv
    refine ⟨hc.carryDone, hc.started, hc.staged, hc.below, hc.rows, hc.uncommitted, fun hzero => ?_,
      fun hcs => ?_⟩
    · exact absurd (hc.endless hzero) (by rw [hidle]; simp)
    · rw [hfront]
      exact hc.holds hcs

theorem Streaming.repositioned (h : Streaming R db f) (pos : ℕ) :
    Streaming R db { f with d := { f.d with pos := pos } } :=
  ⟨h.home, h.entry, h.cs, h.length, h.pending, h.flushed, h.waiting, h.resting,
    fun hv => ⟨(h.unclaimed hv).carryDone, (h.unclaimed hv).index, (h.unclaimed hv).rows,
      (h.unclaimed hv).empty, (h.unclaimed hv).source⟩,
    fun v hv => ⟨(h.claimed v hv).carryDone, (h.claimed v hv).started, (h.claimed v hv).staged,
      (h.claimed v hv).below, (h.claimed v hv).rows, (h.claimed v hv).uncommitted,
      (h.claimed v hv).endless, (h.claimed v hv).holds⟩⟩

/-! ### Flushes go through -/

theorem insertChunkRef_total {row : VersionRow} (hn : (db.node? row.contentId).isSome)
    (hc : (db.chunk? row.chunkHash).isSome) (hkey : ∀ r ∈ db.versions, r.place ≠ row.place) :
    db.insertChunkRef row = .ok { db with versions := db.versions ++ [row] } := by
  have hfree : db.versions.any (fun r => r.contentId = row.contentId ∧ r.version = row.version ∧
      r.chunkIndex = row.chunkIndex) = false := by
    rw [List.any_eq_false]
    intro r hr heq
    simp only [decide_eq_true_eq] at heq
    refine hkey r hr ?_
    rw [VersionRow.place, VersionRow.place, heq.1, heq.2.1, heq.2.2]
  have hnode : (db.node? row.contentId).isNone = false := by
    rw [Option.isNone_eq_false_iff]
    exact hn
  have hchunk : (db.chunk? row.chunkHash).isNone = false := by
    rw [Option.isNone_eq_false_iff]
    exact hc
  simp only [Db.insertChunkRef, hfree, hnode, hchunk, refuse]
  rfl

/-- Rows with places of their own, for a node and chunks that are there. -/
theorem insertRefs_total {rows : List VersionRow} (hn : ∀ r ∈ rows, (db.node? r.contentId).isSome)
    (hc : ∀ r ∈ rows, (db.chunk? r.chunkHash).isSome) (hrows : (rows.map VersionRow.place).Nodup)
    (hfree : ∀ r ∈ db.versions, ∀ r' ∈ rows, r.place ≠ r'.place) :
    ∃ db', db.insertRefs rows = .ok db' := by
  induction rows generalizing db with
  | nil => exact ⟨db, rfl⟩
  | cons row rows ih =>
    have hfirst := insertChunkRef_total (hn row List.mem_cons_self) (hc row List.mem_cons_self)
      (fun r hr => hfree r hr row List.mem_cons_self)
    rw [List.map_cons, List.nodup_cons] at hrows
    have hrest : ∃ db', Db.insertRefs { db with versions := db.versions ++ [row] } rows =
        .ok db' := by
      refine ih (fun r hr => hn r (List.mem_cons_of_mem _ hr))
        (fun r hr => hc r (List.mem_cons_of_mem _ hr))
        hrows.2 ?_
      intro r hr r' hr' heq
      rcases List.mem_append.mp hr with hr | hr
      · exact hfree r hr r' (List.mem_cons_of_mem _ hr') heq
      · rw [List.mem_singleton.mp hr] at heq
        exact hrows.1 (heq ▸ List.mem_map_of_mem hr')
    obtain ⟨db', hdb'⟩ := hrest
    refine ⟨db', ?_⟩
    rw [Db.insertRefs, List.foldlM_cons, hfirst]
    exact hdb'

/-- Carrying into a version without rows goes through. -/
theorem carryLeading_total (hk : tx.db.RowsKeyed) (hp : tx.db.Pooled) (hn : (tx.db.node? n).isSome)
    (hempty : tx.db.manifest n v = []) : ∃ tx', carryLeading E tx n v src count = .ok tx' := by
  rw [carryLeading]
  split
  · have hinsert : ∃ db', tx.db.insertRefs (Db.carriedRefs ((tx.db.manifest n src).filter
        (fun r => 0 ≤ r.chunkIndex ∧ r.chunkIndex ≤ count - 1)) n v) = .ok db' := by
      have hsub : ∀ r ∈ (tx.db.manifest n src).filter
          (fun r => 0 ≤ r.chunkIndex ∧ r.chunkIndex ≤ count - 1),
          r ∈ tx.db.versions ∧ r.contentId = n ∧ r.version = src :=
        fun r hr => Db.mem_manifest.mp (List.mem_of_mem_filter hr)
      refine insertRefs_total ?_ ?_ ?_ ?_
      · intro r hr
        obtain ⟨r₀, -, rfl⟩ := List.mem_map.mp hr
        exact hn
      · exact hp.carried (fun r hr => (hsub r hr).1)
      · -- the places of the carried rows differ where the old ones did
        rw [Db.carriedRefs, List.map_map]
        refine List.Nodup.map_on ?_ (((List.Nodup.of_map _ hk).filter _).filter _)
        intro a ha b hb heq
        obtain ⟨hina, hida, hvera⟩ := hsub a ha
        obtain ⟨hinb, hidb, hverb⟩ := hsub b hb
        have hidx : a.chunkIndex = b.chunkIndex := (Prod.mk.inj (Prod.mk.inj heq).2).2
        refine hk.inj hina hinb ?_
        rw [VersionRow.place, VersionRow.place, hida, hidb, hvera, hverb, hidx]
      · intro r hr r' hr' heq
        obtain ⟨r₀, -, rfl⟩ := List.mem_map.mp hr'
        have hid : r.contentId = n := (Prod.mk.inj heq).1
        have hver : r.version = v := (Prod.mk.inj (Prod.mk.inj heq).2).1
        have hmem : r ∈ tx.db.manifest n v := Db.mem_manifest.mpr ⟨hr, hid, hver⟩
        rw [hempty] at hmem
        cases hmem
    obtain ⟨db', hdb'⟩ := hinsert
    exact ⟨{ tx with db := db' }, Tx.run_ok.mpr ⟨db', hdb', rfl⟩⟩
  · exact ⟨tx, rfl⟩

/-- Staging at an index that is free goes through. -/
theorem stageChunk_total (hn : (tx.db.node? n).isSome)
    (hfree : ∀ r ∈ tx.db.manifest n v, r.chunkIndex ≠ i) :
    ∃ tx', tx.stageChunk C E k n v i data = .ok tx' := by
  obtain ⟨added, hadd, -⟩ := upsertChunk_pool tx.db (sealedChunk C E k tx data)
  have hchunk : ((tx.db.upsertChunk (sealedChunk C E k tx data)).chunk?
      (sealedChunk C E k tx data).chunkHash).isSome := by
    cases hch : tx.db.chunk? (sealedChunk C E k tx data).chunkHash with
    | some ch =>
      have hsame : tx.db.upsertChunk (sealedChunk C E k tx data) = tx.db := by
        simp [Db.upsertChunk, hch]
      rw [hsame, hch]
      rfl
    | none =>
      have hnew : tx.db.upsertChunk (sealedChunk C E k tx data) =
          { tx.db with chunks := tx.db.chunks ++ [sealedChunk C E k tx data] } := by
        simp [Db.upsertChunk, hch]
      have hself : lookup ChunkRow.chunkHash (tx.db.chunks ++ [sealedChunk C E k tx data])
          (sealedChunk C E k tx data).chunkHash = some (sealedChunk C E k tx data) :=
            lookup_append_self hch
      rw [hnew, Db.chunk?, hself]
      rfl
  have hinsert : ∃ db', (tx.db.upsertChunk (sealedChunk C E k tx data)).insertChunkRef
      ⟨n, v, i, (sealedChunk C E k tx data).chunkHash⟩ = .ok db' := by
    refine ⟨_, insertChunkRef_total ?_ hchunk ?_⟩
    · rw [hadd]
      exact hn
    · rw [hadd]
      intro r hr heq
      have hid : r.contentId = n := (Prod.mk.inj heq).1
      have hver : r.version = v := (Prod.mk.inj (Prod.mk.inj heq).2).1
      exact hfree r (Db.mem_manifest.mpr ⟨hr, hid, hver⟩) (Prod.mk.inj (Prod.mk.inj heq).2).2
  obtain ⟨db', hdb'⟩ := hinsert
  refine ⟨{ tx with
    db := db'
    randomCount := tx.randomCount + 1
    aliased := tx.aliased || Tx.aliases C k tx.db (sealedChunk C E k tx data).data data }, ?_⟩
  simp only [Tx.stageChunk, bind_eq_ok]
  exact ⟨_, Tx.run_ok.mpr ⟨_, rfl, rfl⟩, Tx.run_ok.mpr ⟨db', hdb', rfl⟩⟩

/-! ### Flushing -/

theorem carryLeading_grown (h : carryLeading E tx n v src count = .ok tx') :
    Grown C n v tx tx' ∧ tx'.aliased = tx.aliased := by
  rw [carryLeading] at h
  split at h
  · obtain ⟨db', hexec, rfl⟩ := Tx.run_ok.mp h
    exact ⟨carried_grown hexec, rfl⟩
  · obtain rfl := Except.ok.inj h
    exact ⟨Grown.refl tx, rfl⟩

theorem claimVersion_grown (h : (d.claimVersion E tx).2 = .ok tx') :
    Grown C d.node (d.claims tx.db) tx tx' ∧ tx'.aliased = tx.aliased := by
  rcases (claimVersion_ok h).2 with ⟨-, rfl⟩ | ⟨-, hcarry⟩
  · exact ⟨Grown.refl _, rfl⟩
  · exact carryLeading_grown hcarry

theorem carryLeading_below (h : carryLeading E tx n v src count = .ok tx') {added : List VersionRow}
    (hadded : tx'.db.versions = tx.db.versions ++ added) : ∀ r ∈ added, r.chunkIndex < count := by
  rw [carryLeading] at h
  split at h
  next hpos =>
    obtain ⟨db', hexec, rfl⟩ := Tx.run_ok.mp h
    obtain rfl := Db.insertRefs_ok hexec
    obtain rfl := List.append_cancel_left hadded
    intro r hr
    obtain ⟨r₀, hr₀, rfl⟩ := List.mem_map.mp hr
    have hle : 0 ≤ r₀.chunkIndex ∧ r₀.chunkIndex ≤ count - 1 := by
      simpa using (List.mem_filter.mp hr₀).2
    show r₀.chunkIndex < count
    omega
  next =>
    obtain rfl := Except.ok.inj h
    obtain rfl := List.self_eq_append_right.mp hadded
    intro r hr
    cases hr

/-- The version a writer claims has exactly its own rows and is not committed. -/
theorem Streaming.claims (h : Streaming R db f) :
    db.manifest f.d.node (f.d.claims db) = f.rows ∧
      db.committedVersion f.d.node ≠ some (f.d.claims db) ∧ f.d.claims db ≠ 0 := by
  rw [Descriptor.claims]
  cases hv : f.d.version with
  | none =>
    rw [(h.unclaimed hv).rows]
    exact ⟨manifest_nextVersion, committedVersion_ne_nextVersion, nextVersion_pos⟩
  | some v =>
    have hc := h.claimed v hv
    exact ⟨hc.rows, hc.uncommitted, hc.started⟩

theorem Grown.manifest_self (h : Grown C n v tx tx') :
    tx'.db.manifest n v = tx.db.manifest n v ++ Sys.addedRows tx.db tx'.db := by
  obtain ⟨added, hrows, hkey⟩ := h.rows
  rw [manifest_append_self hrows hkey, Sys.addedRows, hrows, List.drop_left]

/-- A claim goes through. -/
theorem Streaming.claim_total (h : Streaming R tx.db f) (hk : tx.db.RowsKeyed) (hp : tx.db.Pooled) :
    ∃ tx', (f.d.claimVersion E tx).2 = .ok tx' := by
  cases hv : f.d.version with
  | none =>
    have hu := h.unclaimed hv
    have hcarry : ∃ tx',
        carryLeading E tx f.d.node (tx.db.nextVersion f.d.node) f.d.carrySrc f.d.carryFull =
        .ok tx' := carryLeading_total hk hp (Db.node?_isSome_of_home h.home) manifest_nextVersion
    obtain ⟨tx', hcarry⟩ := hcarry
    refine ⟨tx', ?_⟩
    simp only [Descriptor.claimVersion, hv, hu.carryDone, Option.getD_none, hcarry]
    rfl
  | some v =>
    refine ⟨tx, ?_⟩
    simp only [Descriptor.claimVersion, (h.claimed v hv).carryDone, if_true]

/-- After the claim the version holds what was flushed, with indices below the next
one. -/
theorem Streaming.claim (h : Streaming R tx.db f) (hclaim : (f.d.claimVersion E tx).2 = .ok tx₁) :
    (∀ r ∈ tx₁.db.manifest f.d.node (f.d.claims tx.db), r.chunkIndex < f.d.chunkIndex) ∧
      ((R.wary = true → tx₁.aliased = false) → 0 < f.d.cs →
        Holds R f.d.volume tx₁.db f.d.node (f.d.claims tx.db)
          (pieces f.d.cs ((f.d.stream.map R.glance).take f.d.flushed))) := by
  obtain ⟨hrows, -, -⟩ := h.claims
  rcases (claimVersion_ok hclaim).2 with ⟨hdone, rfl⟩ | ⟨hdone, hcarry⟩
  · cases hv : f.d.version with
    | none =>
      rw [(h.unclaimed hv).carryDone] at hdone
      cases hdone
    | some v =>
      have hc := h.claimed v hv
      have hclaims : f.d.claims tx₁.db = v := by rw [Descriptor.claims, hv]; rfl
      rw [hclaims] at hrows ⊢
      refine ⟨?_, fun _ => hc.holds⟩
      rw [hrows]
      exact hc.below
  · cases hv : f.d.version with
    | some v =>
      rw [(h.claimed v hv).carryDone] at hdone
      cases hdone
    | none =>
      have hu := h.unclaimed hv
      have hgrown : Grown C f.d.node (f.d.claims tx.db) tx tx₁ := (carryLeading_grown hcarry).1
      obtain ⟨added, hadded, -⟩ := hgrown.rows
      have hman := hgrown.manifest_self
      rw [hrows, hu.rows, List.nil_append, Sys.addedRows, hadded, List.drop_left] at hman
      refine ⟨?_, fun hal hpos => ?_⟩
      · rw [hman, hu.index]
        exact carryLeading_below hcarry hadded
      · have hnone : f.d.carryFull = 0 →
            pieces f.d.cs ((f.d.stream.map R.glance).take f.d.flushed) = [] := by
          intro hzero
          rw [h.flushed, hu.index, hzero, Nat.zero_mul, List.take_zero, pieces_nil]
        have hstaged := carryLeading_staged hcarry (fun _ => hu.source hpos) hnone hal
        have hempty : HoldsAt R f.d.volume tx.db f.d.node (f.d.claims tx.db) [] := by
          refine holdsAt_nil ?_
          rw [hrows, hu.rows]
        have hholds := hstaged.holdsAt hempty
        rw [List.nil_append] at hholds
        exact hholds

/-- The chunk of a flush, after what was flushed before. -/
theorem Streaming.holds_next (h : Streaming R tx.db f) (hw : f.d.writing = true) (hpos : 0 < f.d.cs)
    (hholds : Holds R f.d.volume tx₁.db f.d.node v
      (pieces f.d.cs ((f.d.stream.map R.glance).take f.d.flushed)))
    (hstaged : Staged R f.d.volume f.d.node v
      [(f.d.chunkIndex, (f.d.pending.take f.d.cs).map R.glance)] tx₁ tx') :
    Holds R f.d.volume tx'.db f.d.node v
      (pieces f.d.cs ((f.d.stream.map R.glance).take (f.d.flushed + f.d.cs))) := by
  have hlen := h.length
  have hfull : f.d.cs ≤ f.d.pending.length := h.waiting hw
  have hnext : ((f.d.stream.map R.glance).drop f.d.flushed).take f.d.cs =
      (f.d.pending.take f.d.cs).map R.glance := by rw [← h.pending, List.map_take]
  have hnextlen : ((f.d.pending.take f.d.cs).map R.glance).length = f.d.cs := by
    rw [List.length_map, List.length_take]
    omega
  have hone : [(f.d.chunkIndex, (f.d.pending.take f.d.cs).map R.glance)] =
      numbered f.d.chunkIndex (pieces f.d.cs ((f.d.pending.take f.d.cs).map R.glance)) := by
    rw [pieces_of_le (List.ne_nil_of_length_pos (by omega)) hnextlen.le]
    rfl
  have hfront : ((f.d.stream.map R.glance).take f.d.flushed).length = f.d.chunkIndex * f.d.cs := by
    rw [List.length_take, List.length_map, ← h.flushed]
    omega
  have hwhole := hstaged.holdsAt hholds
  rw [hone, numbered_pieces_append hpos hfront, ← hnext, ← List.take_add] at hwhole
  exact hwhole

theorem flushOneChunk_of_ok (hclaim : (d.claimVersion E tx).2 = .ok tx₁)
    (hstage : tx₁.stageChunk C E k d.node (d.claims tx.db) d.chunkIndex (d.pending.take d.cs) =
      .ok tx') :
    (d.flushOneChunk C E k tx).2 = .ok tx' := by
  have hd := (claimVersion_ok hclaim).1
  have hbind : ((d.claimVersion E tx).2.bind fun tx₁ =>
      tx₁.stageChunk C E k (d.claimVersion E tx).1.node ((d.claimVersion E tx).1.version.getD 0)
        (d.claimVersion E tx).1.chunkIndex
        ((d.claimVersion E tx).1.pending.take (d.claimVersion E tx).1.cs)) = .ok tx' := by
    rw [hd, hclaim]
    exact hstage
  simp only [Descriptor.flushOneChunk, hbind]

/-- The flush of a live writer goes through and leaves a live writer one chunk
further. -/
theorem Streaming.flush (h : Streaming R tx.db f) (hw : f.d.writing = true)
    (hk : R.Fits k f.d.volume) (ha : tx.db.Addressed C) (hkeyed : tx.db.RowsKeyed)
    (hp : tx.db.Pooled) :
    ∃ tx', (f.d.flushOneChunk C E k tx).2 = .ok tx' ∧
      (f.d.flushOneChunk C E k tx).1.version = some (f.d.claims tx.db) ∧
      ((R.wary = true → tx'.aliased = false) → Streaming R tx'.db
        ⟨f.conn, (f.d.flushOneChunk C E k tx).1, f.rows ++ Sys.addedRows tx.db tx'.db⟩) := by
  -- what the writer has claimed so far is its own and not committed
  obtain ⟨hrows, hcommitted, hstarted⟩ := h.claims
  obtain ⟨tx₁, hclaim⟩ : ∃ tx₁, (f.d.claimVersion E tx).2 = .ok tx₁ := h.claim_total hkeyed hp
  obtain ⟨hgrown, hflag⟩ : Grown C f.d.node (f.d.claims tx.db) tx tx₁ ∧ tx₁.aliased = tx.aliased :=
    claimVersion_grown hclaim
  obtain ⟨hbelow, hholds⟩ := h.claim hclaim
  have hnode : (tx₁.db.node? f.d.node).isSome := Db.node?_isSome_of_home (hgrown.home.trans h.home)
  obtain ⟨tx', hstage⟩ : ∃ tx', tx₁.stageChunk C E k f.d.node (f.d.claims tx.db) f.d.chunkIndex
      (f.d.pending.take f.d.cs) = .ok tx' :=
    stageChunk_total hnode (fun r hr => (hbelow r hr).ne)
  have hflush := flushOneChunk_of_ok hclaim hstage
  obtain ⟨-, -, -, hd⟩ := flushOneChunk_ok hflush
  refine ⟨tx', hflush, by rw [hd], fun hal => ?_⟩
  have hchunk : Grown C f.d.node (f.d.claims tx.db) tx₁ tx' := stageChunk_grown hstage
  have hboth := hgrown.trans hchunk
  have hman := hboth.manifest_self
  rw [hrows] at hman
  have hlast := hchunk.manifest_self
  -- the flush adds one row, at the next index and under the claimed version
  have hindex : Sys.addedRows tx₁.db tx'.db =
      [⟨f.d.node, f.d.claims tx.db, f.d.chunkIndex,
      (sealedChunk C E k tx₁ (f.d.pending.take f.d.cs)).chunkHash⟩] := by
    rw [Sys.addedRows, (stageChunk_ok hstage).1, List.drop_left]
  have hfull : f.d.cs ≤ f.d.pending.length := h.waiting hw
  have hlen := h.length
  rw [hd]
  refine ⟨(hboth.home).trans h.home, ?_, h.cs.trans hboth.chunkSize.symm, ?_, ?_,
    ?_, ?_, ?_, ?_, ?_⟩
  · obtain ⟨c, hc⟩ := h.entry
    refine ⟨c, ?_⟩
    rw [Db.committedVersion, hboth.content]
    exact hc
  · show f.d.stream.length = f.d.flushed + f.d.cs + (f.d.pending.drop f.d.cs).length
    rw [List.length_drop]
    omega
  · show (f.d.pending.drop f.d.cs).map R.glance =
        (f.d.stream.map R.glance).drop (f.d.flushed + f.d.cs)
    rw [List.map_drop, h.pending, List.drop_drop]
  · show f.d.flushed + f.d.cs = (f.d.chunkIndex + 1) * f.d.cs
    rw [Nat.add_mul, Nat.one_mul, h.flushed]
  · intro hwrite
    simpa using hwrite
  · intro hrest
    have hlt : ¬ f.d.cs ≤ (f.d.pending.drop f.d.cs).length := by simpa using hrest
    exact Or.inl (not_le.mp hlt)
  · intro hv
    cases hv
  · intro v hv
    obtain rfl := Option.some.inj hv
    refine ⟨rfl, hstarted, ?_, ?_, hman, ?_, ?_, ?_⟩
    · rw [hman.symm.trans hlast, hindex]
      exact List.append_ne_nil_of_right_ne_nil _ (List.cons_ne_nil _ _)
    · intro r hr
      rw [hman.symm.trans hlast, hindex] at hr
      show r.chunkIndex < f.d.chunkIndex + 1
      rcases List.mem_append.mp hr with hr | hr
      · exact (hbelow r hr).trans (Nat.lt_succ_self _)
      · rw [List.mem_singleton.mp hr]
        exact Nat.lt_succ_self _
    · rw [Db.committedVersion, hboth.content]
      exact hcommitted
    · intro hzero
      have hcs : f.d.cs = 0 := hzero
      show decide (f.d.cs ≤ (f.d.pending.drop f.d.cs).length) = true
      rw [hcs]
      exact decide_eq_true (Nat.zero_le _)
    · intro hpos
      have hstaged := stageChunk_staged hk (hgrown.addressed ha) hstage hal
      exact h.holds_next hw hpos (hholds hstaged.aliased hpos) hstaged

/-! ### Committing -/

theorem stagePending_grown (h : d.stagePending C E k tx v = .ok tx') : Grown C d.node v tx tx' := by
  rw [Descriptor.stagePending] at h
  split at h
  · obtain rfl := Except.ok.inj h
    exact Grown.refl tx
  · exact stageChunk_grown h

theorem releaseOwnLock_calm (h : d.releaseOwnLock E tx = .ok tx') : Calm tx tx' := by
  rw [Descriptor.releaseOwnLock.eq_def] at h
  split at h
  · exact run_calm h trivial
  · obtain rfl := Except.ok.inj h
    exact Calm.refl tx

/-- After the last chunk the version holds the whole stream. -/
theorem Streaming.holds_all (h : Streaming R tx.db f) (hpos : 0 < f.d.cs)
    (hidle : f.d.writing = false)
    (hk : R.Fits k f.d.volume) (ha : tx₁.db.Addressed C)
    (hholds : (R.wary = true → tx₁.aliased = false) → Holds R f.d.volume tx₁.db f.d.node v
      (pieces f.d.cs ((f.d.stream.map R.glance).take f.d.flushed)))
    (hstage : f.d.stagePending C E k tx₁ v = .ok tx') (hal : R.wary = true → tx'.aliased = false) :
    Holds R f.d.volume tx'.db f.d.node v (pieces f.d.cs (f.d.stream.map R.glance)) := by
  have hlen := h.length
  have hsplit : (f.d.stream.map R.glance).take f.d.flushed ++ f.d.pending.map R.glance =
      f.d.stream.map R.glance := by rw [h.pending, List.take_append_drop]
  rw [Descriptor.stagePending] at hstage
  split at hstage
  next hnone =>
    obtain rfl := Except.ok.inj hstage
    rw [hnone, List.map_nil, List.append_nil] at hsplit
    rw [← hsplit]
    exact hholds hal
  next hsome =>
    have hshort : f.d.pending.length < f.d.cs := (h.resting hidle).resolve_right hsome
    have hstaged := stageChunk_staged hk ha hstage hal
    have hone : [(f.d.chunkIndex, f.d.pending.map R.glance)] =
        numbered f.d.chunkIndex (pieces f.d.cs (f.d.pending.map R.glance)) := by
      rw [pieces_of_le (by simpa using hsome) (by rw [List.length_map]; exact hshort.le)]
      rfl
    have hfront : ((f.d.stream.map R.glance).take f.d.flushed).length =
        f.d.chunkIndex * f.d.cs := by
      rw [List.length_take, List.length_map, ← h.flushed]
      omega
    have hwhole := hstaged.holdsAt (hholds hstaged.aliased)
    rw [hone, numbered_pieces_append hpos hfront, hsplit] at hwhole
    exact hwhole

/-- In chunks of size zero nothing is ever flushed before a commit. -/
theorem Streaming.idle_zero (h : Streaming R db f) (hidle : f.d.writing = false)
    (hzero : f.d.cs = 0) :
    f.d.version = none ∧ f.d.pending = [] ∧ f.d.stream = [] := by
  have hlen := h.length
  have hpending : f.d.pending = [] := by
    rcases h.resting hidle with hlt | hnil
    · omega
    · exact hnil
  refine ⟨?_, hpending, List.length_eq_zero_iff.mp ?_⟩
  · cases hv : f.d.version with
    | none => rfl
    | some v =>
      have hbusy := (h.claimed v hv).endless hzero
      rw [hidle] at hbusy
      cases hbusy
  · rw [hlen, hpending, h.flushed, hzero, Nat.mul_zero, List.length_nil]

theorem Streaming.manifest_zero (h : Streaming R tx.db f) (hidle : f.d.writing = false)
    (hzero : f.d.cs = 0) (hclaim : (f.d.claimVersion E tx).2 = .ok tx₁)
    (hstage : f.d.stagePending C E k tx₁ (f.d.claims tx.db) = .ok tx') :
    tx'.db.manifest f.d.node (f.d.claims tx.db) = [] := by
  obtain ⟨hv, hpending, -⟩ := h.idle_zero hidle hzero
  have hu := h.unclaimed hv
  rw [Descriptor.stagePending, if_pos hpending] at hstage
  obtain rfl := Except.ok.inj hstage
  have hman : tx.db.manifest f.d.node (f.d.claims tx.db) = f.rows := h.claims.1
  rcases (claimVersion_ok hclaim).2 with ⟨-, rfl⟩ | ⟨-, hcarry⟩
  · rw [hman, hu.rows]
  · rw [carryLeading, if_neg (by rw [hu.empty hzero]; exact Nat.lt_irrefl 0)] at hcarry
    obtain rfl := Except.ok.inj hcarry
    rw [hman, hu.rows]

/-- A successful commit makes the writer's own rows the committed version; they hold
the stream. -/
theorem Streaming.commit (h : Streaming R tx.db f) (hidle : f.d.writing = false)
    (hk : R.Fits k f.d.volume) (hs : tx.Stored R) (hcommit : f.d.commit C E k tx = .ok tx')
    (hal : R.wary = true → tx'.aliased = false) :
    tx'.Stored R ∧ tx'.db.committedVersion f.d.node = some (f.d.claims tx.db) ∧
      tx'.db.manifest f.d.node (f.d.claims tx.db) = f.rows ++ Sys.addedRows tx.db tx'.db ∧
      tx'.committed f.d.node = f.d.stream := by
  obtain ⟨hrows, hcommitted, hstarted⟩ := h.claims
  obtain ⟨-, tx₁, tx₂, tx₃, hclaim, hstage, hswap, hrelease⟩ := commit_ok hcommit
  obtain ⟨hgrown₁, -⟩ : Grown C f.d.node (f.d.claims tx.db) tx tx₁ ∧ tx₁.aliased = tx.aliased :=
    claimVersion_grown hclaim
  have hgrown₂ : Grown C f.d.node (f.d.claims tx.db) tx₁ tx₂ := stagePending_grown hstage
  have hboth := hgrown₁.trans hgrown₂
  have hcalm := releaseOwnLock_calm hrelease
  have hal₂ : R.wary = true → tx₂.aliased = false := by
    intro hw
    have hlast := hal hw
    rw [hcalm.aliased] at hlast
    rw [← (Stmt.run_history hswap).2]
    exact hlast
  have hexists := Db.node?_isSome_of_home h.home
  have hmid : tx₂.Stored R := hs.grown hboth hexists hcommitted
  obtain ⟨-, hholds⟩ := h.claim hclaim
  have hlen := h.length
  have hcs₂ : chunkSizeOf tx₂.db f.d.volume = f.d.cs := hboth.chunkSize.trans h.cs.symm
  -- the claimed version holds what was flushed and what was pending: the whole stream
  have hkept : Kept R f.d.volume tx₂.db f.d.node (f.d.claims tx.db)
      (f.d.flushed + f.d.pending.length)
      f.d.stream := by
    refine ⟨hlen.symm, ?_, fun hzero => absurd hzero hstarted, ?_⟩
    all_goals rw [hcs₂]
    all_goals rcases Nat.eq_zero_or_pos f.d.cs with hzero | hpos
    · -- nothing can have been written in chunks of size zero
      right
      exact (h.idle_zero hidle hzero).2.2
    · exact Or.inl hpos
    · rw [(h.idle_zero hidle hzero).2.2, List.map_nil, pieces_nil]
      exact holdsAt_nil (h.manifest_zero hidle hzero hclaim hstage)
    · exact h.holds_all hpos hidle hk (hgrown₁.addressed hs.1.addressed)
        (fun hal₁ => hholds hal₁ hpos)
        hstage hal₂
  have hswapped := hmid.swap hswap (hboth.home.trans h.home) hkept
  have hdb₃ : tx₃.db = tx₂.db.updateContent E.now f.d.node (f.d.claims tx.db)
      (f.d.flushed + f.d.pending.length) := by
    obtain ⟨db₃, hexec, rfl⟩ := Tx.run_ok.mp hswap
    exact (Except.ok.inj hexec).symm
  refine ⟨hswapped.calm hcalm, ?_, ?_, ?_⟩
  · have hpointer : tx'.db.committedVersion f.d.node = tx₃.db.committedVersion f.d.node := by
      have hmeta : (readContentMeta tx'.db f.d.node).map Prod.fst =
          (readContentMeta tx₃.db f.d.node).map Prod.fst := by rw [hcalm.contents]; rfl
      simp only [readContentMeta, Option.map_map] at hmeta
      exact hmeta
    obtain ⟨c, hc⟩ := h.entry
    rw [Db.committedVersion, ← hboth.content, Option.map_eq_some_iff] at hc
    obtain ⟨row, hrow, -⟩ := hc
    rw [hpointer, hdb₃, Db.committedVersion, content?_updateContent, if_pos rfl, hrow]
    rfl
  · have hversions : tx'.db.versions = tx₂.db.versions := by
      have hsame : tx'.db.versions = tx₃.db.versions := hcalm.off.versions (by decide)
      rw [hsame, hdb₃]
      rfl
    have hman := hboth.manifest_self
    rw [hrows] at hman
    rw [Sys.addedRows, hversions, ← Sys.addedRows, ← hman, Db.manifest, hversions]
    rfl
  · rw [hcalm.committed]
    exact Function.update_self ..

end Aloelite
