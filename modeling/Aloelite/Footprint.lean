import Aloelite.Locks
import Aloelite.Containment
import Aloelite.VersionPointers

/-! The footprint of an operation on one node: what it may do while the node's
content, metadata map and placements stay as they are. -/
namespace Aloelite

open Fallible KeyedRows ForestOrder Relation

variable {C : Crypto} {M : Msgpack} {E : Env} {k : Cipher} {L : License} {now : Int}
  {db db' db'' : Db} {tx tx' tx₁ tx₂ : Tx} {s : Sys} {n : NodeId} {mount : MountId}
  {path src dst : String} {st : Stmt} {ts : List Table}

/-! ### The pool's foreign key -/

/-- Every manifest row names a pool row. -/
def Db.Pooled (db : Db) : Prop := ∀ r ∈ db.versions, (db.chunk? r.chunkHash).isSome

theorem chunk?_isSome_append {added : List ChunkRow} (hpool : db'.chunks = db.chunks ++ added)
    {h : Digest} (hsome : (db.chunk? h).isSome) : (db'.chunk? h).isSome := by
  obtain ⟨ch, hch⟩ := Option.isSome_iff_exists.mp hsome
  rw [Db.chunk?, hpool, lookup_append_of_some hch]
  rfl

theorem Db.Pooled.frame (hp : db.Pooled) (hc : db'.chunks = db.chunks)
    (hv : ∀ r ∈ db'.versions, ∃ r₀ ∈ db.versions, r₀.chunkHash = r.chunkHash) : db'.Pooled := by
  intro r hr
  obtain ⟨r₀, hr₀, heq⟩ := hv r hr
  rw [Db.chunk?, hc, ← heq]
  exact hp r₀ hr₀

theorem Db.Pooled.append {rows : List VersionRow} (hp : db.Pooled)
    (hrows : ∀ r ∈ rows, (db.chunk? r.chunkHash).isSome) :
    Db.Pooled { db with versions := db.versions ++ rows } := by
  intro r hr
  rcases List.mem_append.mp hr with hr | hr
  · exact hp r hr
  · exact hrows r hr

theorem Db.Pooled.carried {rows : List VersionRow} {dst : NodeId} {v : ℕ} (hp : db.Pooled)
    (hsub : ∀ r ∈ rows, r ∈ db.versions) :
    ∀ r ∈ Db.carriedRefs rows dst v, (db.chunk? r.chunkHash).isSome := by
  intro r hr
  obtain ⟨r₀, hr₀, rfl⟩ := List.mem_map.mp hr
  exact hp r₀ (hsub r₀ hr₀)

/-- Collecting unreferenced pool rows loses no referenced one. -/
theorem chunk?_pruneContentChunks {r : VersionRow} (hr : r ∈ db.versions) :
    db.pruneContentChunks.chunk? r.chunkHash = db.chunk? r.chunkHash := by
  refine lookup_filter_of_key ?_
  intro ch _ hkey
  rw [List.any_eq_true]
  exact ⟨r, hr, by simp [hkey]⟩

theorem Stmt.pooled (h : st.exec now db = .ok db') (hp : db.Pooled) : db'.Pooled := by
  cases st with
  | upsertChunk row =>
    obtain rfl := Except.ok.inj h
    obtain ⟨added, heq, -⟩ := Db.upsertChunk_eq db row
    rw [heq]
    intro r hr
    exact chunk?_isSome_append rfl (hp r hr)
  | insertChunkRef row =>
    obtain ⟨-, -, hchunk, rfl⟩ := Db.insertChunkRef_ok h
    refine hp.append ?_
    intro r hr
    rw [List.mem_singleton.mp hr]
    exact hchunk
  | copyChunkRefs dst v src w =>
    obtain rfl := Db.insertRefs_ok h
    exact hp.append (hp.carried (fun r hr => (Db.mem_manifest.mp hr).1))
  | copyChunkRefsRange m v w lo hi =>
    obtain rfl := Db.insertRefs_ok h
    exact hp.append (hp.carried (fun r hr => (Db.mem_manifest.mp (List.mem_of_mem_filter hr)).1))
  | pruneContentVersions volume =>
    obtain rfl := Except.ok.inj h
    exact hp.frame rfl (fun r hr => ⟨r, List.mem_of_mem_filter hr, rfl⟩)
  | pruneContentChunks =>
    obtain rfl := Except.ok.inj h
    intro r hr
    have hsame : db.pruneContentChunks.chunk? r.chunkHash = db.chunk? r.chunkHash :=
      chunk?_pruneContentChunks hr
    rw [hsame]
    exact hp r hr
  | pruneNodes volume =>
    obtain ⟨-, -, rfl⟩ := Db.pruneNodes_ok h
    exact hp.frame rfl (fun r hr => ⟨r, List.mem_of_mem_filter hr, rfl⟩)
  | _ =>
    have hframe := Stmt.exec_agreeOff h
    refine hp.frame (hframe.chunks (by simp [touches])) ?_
    rw [hframe.versions (by simp [touches])]
    exact fun r hr => ⟨r, hr, rfl⟩

theorem Steps.pooled {P : Db → Stmt → Prop} (h : Steps P now db db') (hp : db.Pooled) :
    db'.Pooled := by
  induction h with
  | refl => exact hp
  | tail _ hstep ih =>
    obtain ⟨st, -, hexec⟩ := hstep
    exact Stmt.pooled hexec ih

theorem Stride.pooled (h : Stride L now db db') (hp : db.Pooled) : db'.Pooled := by
  cases h with
  | stmt st hst hexec => exact Stmt.pooled hexec hp
  | @birth db₁ db₂ _ row modifiedAt id f hhost hf hrow hfill hedge =>
    have hnode : (Stmt.createNode row modifiedAt).exec now db = .ok db₁ := hrow
    have hplace : (Stmt.createEdge id f row.nodeId row.volumeId none).exec now db₂ = .ok db' :=
      hedge
    exact Stmt.pooled hplace (hfill.pooled (Stmt.pooled hnode hp))

theorem Strides.pooled (h : Strides L now db db') (hp : db.Pooled) : db'.Pooled := by
  induction h with
  | refl => exact hp
  | tail _ hstride ih => exact hstride.pooled ih

theorem Effect.pooled {op : Op} (h : Effect C E s op db) (hs : s.db.Sound) (hp : s.db.Pooled) :
    db.Pooled := by
  cases h with
  | strides h => exact h.pooled hp
  | founding h =>
    obtain ⟨-, -, -, -, -, hframe, -, -⟩ := createVolume_shape h
    refine hp.frame (hframe.chunks (by simp)) ?_
    rw [hframe.versions (by simp)]
    exact fun r hr => ⟨r, hr, rfl⟩
  | prune h =>
    rw [prune_shape h hs]
    exact hp.frame rfl (fun r hr => ⟨r, hr, rfl⟩)
  | @pruneContent volume _ _ h =>
    rw [pruneContent_shape h]
    have hversions : (Stmt.pruneContentVersions volume).exec E.now s.db =
        .ok (s.db.pruneContentVersions E.now volume) := rfl
    have hchunks : Stmt.pruneContentChunks.exec E.now (s.db.pruneContentVersions E.now volume) =
        .ok (s.db.pruneContentVersions E.now volume).pruneContentChunks := rfl
    exact Stmt.pooled hchunks (Stmt.pooled hversions hp)

/-- In every reachable file each manifest row has its chunk in the pool. -/
theorem Reaches.pooled {guard : Sys → Label → Prop} (h : Reaches C M guard s) : s.db.Pooled := by
  have hboth : s.db.Sound ∧ s.db.Pooled := by
    refine GuardedRuns.Run.invariant (P := fun s : Sys => s.db.Sound ∧ s.db.Pooled) ?_ h ?_
    · intro s l _ hs
      exact ⟨step_sound hs.1, (exec_effect hs.1.linked).pooled hs.1 hs.2⟩
    · refine ⟨empty_sound, ?_⟩
      intro r hr
      cases hr
  exact hboth.2

/-! ### Untouched nodes -/

/-- A node's committed version, size, chunks, metadata map and active placements
are as they were. -/
structure Untouched (db db' : Db) (n : NodeId) : Prop where
  content : (db'.content? n).map (fun c => (c.version, c.size)) =
    (db.content? n).map (fun c => (c.version, c.size))
  manifest : ∀ v, db.committedVersion n = some v → db'.manifest n v = db.manifest n v
  pool : ∀ v, db.committedVersion n = some v → ∀ r ∈ db.manifest n v,
    db'.chunk? r.chunkHash = db.chunk? r.chunkHash
  metadata : (db'.node? n).map NodeRow.metadata = (db.node? n).map NodeRow.metadata
  placements : db'.activeEdges.filter (fun e => e.toId = n) =
    db.activeEdges.filter (fun e => e.toId = n)

theorem committedVersion_eq_map : db.committedVersion n =
    ((db.content? n).map (fun c => (c.version, c.size))).map Prod.fst := by
  rw [Option.map_map]
  rfl

theorem Untouched.committedVersion (h : Untouched db db' n) :
    db'.committedVersion n = db.committedVersion n := by
  rw [committedVersion_eq_map, h.content, ← committedVersion_eq_map]

theorem Untouched.refl (db : Db) (n : NodeId) : Untouched db db n :=
  ⟨rfl, fun _ _ => rfl, fun _ _ _ _ => rfl, rfl, rfl⟩

theorem Untouched.trans (h : Untouched db db' n) (h' : Untouched db' db'' n) :
    Untouched db db'' n := by
  refine ⟨h'.content.trans h.content, ?_, ?_, h'.metadata.trans h.metadata,
    h'.placements.trans h.placements⟩
  · intro v hv
    rw [h'.manifest v (h.committedVersion.trans hv), h.manifest v hv]
  · intro v hv r hr
    have hv' := h.committedVersion.trans hv
    rw [h'.pool v hv' r (by rw [h.manifest v hv]; exact hr), h.pool v hv r hr]

theorem Untouched.exists (h : Untouched db db' n) (hn : (db.node? n).isSome) :
    (db'.node? n).isSome := by
  rw [← Option.isSome_map (f := NodeRow.metadata), h.metadata, Option.isSome_map]
  exact hn

/-- The bytes an untouched entry reads as are the same under every cipher. -/
theorem Untouched.readContentBytes (h : Untouched db db' n) :
    readContentBytes C k db' n = readContentBytes C k db n := by
  have hcontent := h.content
  rw [Aloelite.readContentBytes, Aloelite.readContentBytes]
  cases hc : db.content? n with
  | none =>
    rw [hc, Option.map_none, Option.map_eq_none_iff] at hcontent
    rw [hcontent]
  | some c =>
    rw [hc, Option.map_some, Option.map_eq_some_iff] at hcontent
    obtain ⟨c', hc', heq⟩ := hcontent
    obtain ⟨hversion, -⟩ := Prod.mk.inj heq
    have hcommitted : db.committedVersion n = some c.version := by
      rw [Db.committedVersion, hc]
      rfl
    have hchunks : db'.readChunks n c'.version = db.readChunks n c.version := by
      rw [Db.readChunks, Db.readChunks, hversion, h.manifest _ hcommitted]
      apply List.filterMap_congr
      intro r hr
      exact h.pool _ hcommitted r ((List.mem_insertionSort _).mp hr)
    rw [hc']
    simp only [hchunks]

/-- Only the tables that changed are to be looked at. -/
theorem Untouched.of_agreeOff (h : AgreeOff ts db db')
    (hcontents : .contents ∈ ts → (db'.content? n).map (fun c => (c.version, c.size)) =
      (db.content? n).map (fun c => (c.version, c.size)))
    (hversions : .versions ∈ ts → ∀ v, db.committedVersion n = some v →
      db'.manifest n v = db.manifest n v)
    (hchunks : .chunks ∈ ts → ∀ r ∈ db.versions, db'.chunk? r.chunkHash = db.chunk? r.chunkHash)
    (hnodes : .nodes ∈ ts → (db'.node? n).map NodeRow.metadata = (db.node? n).map NodeRow.metadata)
    (hedges : .edges ∈ ts → db'.activeEdges.filter (fun e => e.toId = n) =
      db.activeEdges.filter (fun e => e.toId = n)) : Untouched db db' n := by
  constructor
  · by_cases ht : Table.contents ∈ ts
    · exact hcontents ht
    · rw [Db.content?, Db.content?, h.contents ht]
  · by_cases ht : Table.versions ∈ ts
    · exact hversions ht
    · intro v _
      rw [Db.manifest, Db.manifest, h.versions ht]
  · intro v _ r hr
    by_cases ht : Table.chunks ∈ ts
    · exact hchunks ht r (Db.mem_manifest.mp hr).1
    · rw [Db.chunk?, Db.chunk?, h.chunks ht]
  · by_cases ht : Table.nodes ∈ ts
    · exact hnodes ht
    · rw [Db.node?, Db.node?, h.nodes ht]
  · by_cases ht : Table.edges ∈ ts
    · exact hedges ht
    · rw [Db.activeEdges, Db.activeEdges, h.edges ht]

/-! ### Statements that spare a node -/

/-- The statements that leave a node's content, metadata and placements alone. -/
def Spares (n : NodeId) (db : Db) : Stmt → Prop
  | .createEdge _ _ t _ _ => t ≠ n
  | .archivePlacement _ m _ | .renamePlacement _ m _ _ => m ≠ n
  | .archiveEdge id => ∀ e ∈ db.activeEdges, e.edgeId = id → e.toId ≠ n
  | .archiveSubtree root => n ∉ db.subtreeIds root
  | .createContent m _ _ | .updateContent m _ _ | .setMetadata m _ => m ≠ n
  | .insertChunkRef row => row.contentId = n → db.committedVersion n ≠ some row.version
  | .copyChunkRefs m v _ _ | .copyChunkRefsRange m v _ _ _ =>
    m = n → db.committedVersion n ≠ some v
  | .pruneNodes .. | .pruneContentVersions .. | .pruneContentChunks => False
  | _ => True

theorem placements_archiveWhere {p : EdgeRow → Bool}
    (hp : ∀ e ∈ db.activeEdges, p e = true → e.toId ≠ n) :
    (db.archiveWhere now p).activeEdges.filter (fun e => e.toId = n) =
      db.activeEdges.filter (fun e => e.toId = n) := by
  rw [Db.activeEdges_archiveWhere, List.filter_filter]
  apply List.filter_congr
  intro e he
  by_cases hn : e.toId = n
  · have hnot : p e = false := by
      rw [← Bool.not_eq_true]
      exact fun hpe => hp e he hpe hn
    simp [hn, hnot]
  · simp [hn]

theorem placements_renamePlacement {parent m : NodeId} {old name : String} (hm : m ≠ n) :
    (db.renamePlacement parent m old name).activeEdges.filter (fun e => e.toId = n) =
      db.activeEdges.filter (fun e => e.toId = n) := by
  rw [Db.activeEdges_renamePlacement]
  induction db.activeEdges with
  | nil => rfl
  | cons e edges ih =>
    rw [List.map_cons, List.filter_cons, List.filter_cons, ih]
    by_cases hp : Db.isPlacement parent m old e = true
    · have hto : e.toId = m := by
        simp only [Db.isPlacement, decide_eq_true_eq] at hp
        exact hp.2.1
      simp [hp, hto, hm]
    · simp [hp]

theorem metadata_amend {m : NodeId} {f : NodeRow → NodeRow} (hid : ∀ r, (f r).nodeId = r.nodeId)
    (hf : m = n → ∀ r, (f r).metadata = r.metadata) :
    (lookup NodeRow.nodeId (amend NodeRow.nodeId db.nodes m f) n).map NodeRow.metadata =
      (db.node? n).map NodeRow.metadata := by
  rw [lookup_amend hid]
  by_cases heq : n = m
  · rw [if_pos heq, Option.map_map]
    congr 1
    funext r
    exact hf heq.symm r
  · rw [if_neg heq]
    rfl

theorem manifest_append {rows : List VersionRow} {v : ℕ}
    (hrows : ∀ r ∈ rows, r.contentId = n → r.version ≠ v) :
    Db.manifest { db with versions := db.versions ++ rows } n v = db.manifest n v := by
  rw [Db.manifest, Db.manifest, List.filter_append]
  have hnil : rows.filter (fun r => r.contentId = n ∧ r.version = v) = [] := by
    rw [List.filter_eq_nil_iff]
    intro r hr hkey
    simp only [decide_eq_true_eq] at hkey
    exact hrows r hr hkey.1 hkey.2
  rw [hnil, List.append_nil]

/-- A sparing statement leaves the node untouched. -/
theorem Stmt.untouched (h : st.exec now db = .ok db') (hst : Spares n db st)
    (hn : (db.node? n).isSome) (hp : db.Pooled) : Untouched db db' n := by
  have hframe := Stmt.exec_agreeOff h
  refine Untouched.of_agreeOff hframe ?_ ?_ ?_ ?_ ?_
  · intro ht
    cases st with
    | createContent m version size =>
      obtain ⟨-, -, rfl⟩ := Db.createContent_ok h
      have hne : m ≠ n := hst
      have hlook : lookup ContentRow.nodeId (db.contents ++ [⟨m, version, size, none⟩]) n =
          lookup ContentRow.nodeId db.contents n := lookup_append_of_ne hne
      exact congrArg (Option.map fun c => (c.version, c.size)) hlook
    | updateContent m version size =>
      obtain rfl := Except.ok.inj h
      have hne : n ≠ m := fun heq => hst heq.symm
      rw [content?_updateContent, if_neg hne]
    | setRetentionKeep m keep =>
      obtain rfl := Except.ok.inj h
      rw [content?_setRetentionKeep]
      split
      · rw [Option.map_map]
        rfl
      · rfl
    | pruneNodes volume => exact hst.elim
    | _ => simp [touches] at ht
  · intro ht v hv
    cases st with
    | insertChunkRef row =>
      obtain ⟨-, -, -, rfl⟩ := Db.insertChunkRef_ok h
      refine manifest_append ?_
      intro r hr hnode heq
      rw [List.mem_singleton.mp hr] at hnode heq
      exact hst hnode (heq ▸ hv)
    | copyChunkRefs m w src w' =>
      obtain rfl := Db.insertRefs_ok h
      refine manifest_append ?_
      intro r hr hnode heq
      obtain ⟨r₀, -, rfl⟩ := List.mem_map.mp hr
      have hwv : w = v := heq
      exact hst hnode (hwv ▸ hv)
    | copyChunkRefsRange m w w' lo hi =>
      obtain rfl := Db.insertRefs_ok h
      refine manifest_append ?_
      intro r hr hnode heq
      obtain ⟨r₀, -, rfl⟩ := List.mem_map.mp hr
      have hwv : w = v := heq
      exact hst hnode (hwv ▸ hv)
    | pruneContentVersions volume => exact hst.elim
    | pruneNodes volume => exact hst.elim
    | _ => simp [touches] at ht
  · intro ht r hr
    cases st with
    | upsertChunk row =>
      obtain rfl := Except.ok.inj h
      obtain ⟨added, heq, -⟩ := Db.upsertChunk_eq db row
      obtain ⟨ch, hch⟩ := Option.isSome_iff_exists.mp (hp r hr)
      rw [hch, heq]
      exact lookup_append_of_some hch added
    | pruneContentChunks => exact hst.elim
    | _ => simp [touches] at ht
  · intro ht
    cases st with
    | createNode row modifiedAt =>
      obtain ⟨-, -, rfl⟩ := Db.createNode_ok h
      obtain ⟨r, hr⟩ := Option.isSome_iff_exists.mp hn
      rw [hr, Db.node?, lookup_append_of_some hr]
    | renameNodeIfSole m name =>
      obtain rfl := Except.ok.inj h
      rw [Db.renameNodeIfSole]
      split
      · exact metadata_amend (fun _ => rfl) (fun _ _ => rfl)
      · rfl
    | setOwner m uid gid mode =>
      obtain rfl := Except.ok.inj h
      exact metadata_amend (fun _ => rfl) (fun _ _ => rfl)
    | setMetadata m metadata =>
      obtain rfl := Except.ok.inj h
      exact metadata_amend (fun _ => rfl) (fun heq => absurd heq hst)
    | pruneNodes volume => exact hst.elim
    | _ => simp [touches] at ht
  · intro ht
    cases st with
    | createEdge id f t volume name =>
      obtain ⟨src, dst, -, -, -, -, -, -, -, rfl⟩ := Db.createEdge_ok h
      have hne : t ≠ n := hst
      rw [Db.activeEdges_append _ _ rfl, List.filter_append]
      simp [hne]
    | archivePlacement parent m name =>
      obtain rfl := Except.ok.inj h
      refine placements_archiveWhere ?_
      intro e _ hpe
      simp only [Db.isPlacement, decide_eq_true_eq] at hpe
      rw [hpe.2.1]
      exact hst
    | archiveEdge id =>
      obtain rfl := Except.ok.inj h
      refine placements_archiveWhere ?_
      intro e he hpe
      exact hst e he (by simpa using hpe)
    | archiveSubtree root =>
      obtain rfl := Except.ok.inj h
      refine placements_archiveWhere ?_
      intro e _ hpe heq
      rw [decide_eq_true_eq, heq] at hpe
      exact hst hpe
    | renamePlacement parent m old name =>
      obtain rfl := Except.ok.inj h
      exact placements_renamePlacement hst
    | _ => simp [touches] at ht

theorem Steps.untouched (h : Steps (Spares n) now db db') (hn : (db.node? n).isSome)
    (hp : db.Pooled) : Untouched db db' n := by
  have hall : Untouched db db' n ∧ db'.Pooled := by
    induction h with
    | refl => exact ⟨Untouched.refl db n, hp⟩
    | tail _ hstep ih =>
      obtain ⟨st, hst, hexec⟩ := hstep
      exact ⟨ih.1.trans (Stmt.untouched hexec hst (ih.1.exists hn) ih.2), Stmt.pooled hexec ih.2⟩
  exact hall.1

end Aloelite
