import Aloelite.StoreStatements

/-! What each mutation template does to a file: the guards a successful one has
passed, and the tables it leaves alone. -/
namespace Aloelite

open Fallible KeyedRows

namespace Db

variable {db db' : Db} {now : Int}

theorem createNode_ok {row : NodeRow} {modifiedAt : Option Int}
    (h : db.createNode row modifiedAt = .ok db') :
    db.node? row.nodeId = none ∧ (db.volume? row.volumeId).isSome ∧
      db' = { db with
        nodes := db.nodes ++ [row]
        times := db.times ++
          [{ nodeId := row.nodeId, modifiedAt := modifiedAt.getD row.createdAt }] } := by
  simp [createNode] at h
  obtain ⟨hn, hv, rfl⟩ := h
  exact ⟨hn, by simp [hv], rfl⟩

theorem createEdge_ok {id : EdgeId} {f t : NodeId} {volume : VolumeId} {name : Option String}
    (h : db.createEdge now id f t volume name = .ok db') :
    ∃ src dst, db.node? f = some src ∧ db.node? t = some dst ∧ db.edge? id = none ∧
      src.type = .container ∧ (dst.type = .container → ∀ e ∈ db.activeEdges, e.toId ≠ t) ∧
      src.volumeId = volume ∧ dst.volumeId = volume ∧
      db' = { db with
        edges := db.edges ++ [{ edgeId := id, fromId := f, toId := t, volumeId := volume,
                                name := name.getD dst.name }]
        times := touchCtime now [t] db.times } := by
  simp [createEdge] at h
  obtain ⟨src, hsrc, dst, hdst, hid, hcont, hsingle, ⟨hvs, hvd⟩, -, rfl⟩ := h
  exact ⟨src, dst, hsrc, hdst, hid, hcont, hsingle, hvs, hvd, rfl⟩

theorem createContent_ok {n : NodeId} {version size : ℕ}
    (h : db.createContent n version size = .ok db') :
    db.content? n = none ∧ (db.node? n).isSome ∧
      db' = { db with
        contents := db.contents ++ [{ nodeId := n, version := version, size := size }] } := by
  simp [createContent] at h
  obtain ⟨hc, hn, rfl⟩ := h
  exact ⟨hc, hn, rfl⟩

theorem insertChunkRef_ok {row : VersionRow} (h : db.insertChunkRef row = .ok db') :
    (∀ r ∈ db.versions, r.contentId = row.contentId → r.version = row.version →
      r.chunkIndex ≠ row.chunkIndex) ∧ (db.node? row.contentId).isSome ∧
      (db.chunk? row.chunkHash).isSome ∧ db' = { db with versions := db.versions ++ [row] } := by
  simp [insertChunkRef] at h
  obtain ⟨hkey, hn, hc, rfl⟩ := h
  exact ⟨hkey, hn, hc, rfl⟩

theorem insertRefs_ok {rows : List VersionRow} (h : db.insertRefs rows = .ok db') :
    db' = { db with versions := db.versions ++ rows } := by
  rw [insertRefs] at h
  induction rows generalizing db with
  | nil =>
    have hdb : db = db' := by simpa [List.foldlM] using h
    simp [hdb]
  | cons row rows ih =>
    rw [List.foldlM_cons, bind_eq_ok] at h
    obtain ⟨db₁, hrow, hrows⟩ := h
    obtain ⟨-, -, -, rfl⟩ := insertChunkRef_ok hrow
    rw [ih hrows]
    simp

theorem upsertChunk_eq (db : Db) (row : ChunkRow) :
    ∃ added, db.upsertChunk row = { db with chunks := db.chunks ++ added } ∧
      (added = [] ∨ added = [row] ∧ db.chunk? row.chunkHash = none) := by
  by_cases hc : (db.chunk? row.chunkHash).isSome
  · exact ⟨[], by simp [upsertChunk, hc], Or.inl rfl⟩
  · refine ⟨[row], by simp [upsertChunk, hc], Or.inr ⟨rfl, ?_⟩⟩
    simpa using hc

theorem xattrSet_ok {row : XattrRow} (h : db.xattrSet row = .ok db') :
    (db.node? row.nodeId).isSome ∧ ∃ rows, db' = { db with xattrs := rows } := by
  simp only [xattrSet, bind_eq_ok, refuse_eq_ok] at h
  obtain ⟨u, hn, h⟩ := h
  refine ⟨by simpa using hn, ?_⟩
  split at h
  · exact ⟨_, (Except.ok.inj h).symm⟩
  · exact ⟨_, (Except.ok.inj h).symm⟩

theorem createVolume_ok {row : VolumeRow} (h : db.createVolume row = .ok db') :
    db.volume? row.volumeId = none ∧ db' = { db with volumes := db.volumes ++ [row] } := by
  simp [createVolume] at h
  obtain ⟨hv, rfl⟩ := h
  exact ⟨hv, rfl⟩

theorem linkRoot_ok {v : VolumeId} {root : NodeId} (h : db.linkRoot v root = .ok db') :
    (db.node? root).isSome ∧
      db' = { db with
        volumes := amend VolumeRow.volumeId db.volumes v
          (fun v => { v with rootNodeId := some root }) } := by
  simp [linkRoot] at h
  obtain ⟨-, hn, rfl⟩ := h
  exact ⟨hn, rfl⟩

theorem createMount_ok {row : MountRow} (h : db.createMount row = .ok db') :
    db.mount? row.mountId = none ∧ (db.node? row.mountPoint).isSome ∧
      db' = { db with mounts := db.mounts ++ [row] } := by
  simp [createMount] at h
  obtain ⟨hm, -, hn, rfl⟩ := h
  exact ⟨hm, hn, rfl⟩

theorem createLock_ok {row : LockRow} (h : db.createLock row = .ok db') :
    db.lock? row.lockId = none ∧ (db.node? row.nodeId).isSome ∧
      db' = { db with locks := db.locks ++ [row] } := by
  simp [createLock] at h
  obtain ⟨hl, -, hn, rfl⟩ := h
  exact ⟨hl, hn, rfl⟩

theorem pruneNodes_ok {volume : Option VolumeId} (h : db.pruneNodes volume = .ok db') :
    (∀ e ∈ db.edges, e.fromId ∉ db.prunableNodes volume) ∧
      (∀ m ∈ db.mounts, m.mountPoint ∉ db.prunableNodes volume) ∧
      db' = { db with
        nodes := db.nodes.filter (fun r => r.nodeId ∉ db.prunableNodes volume)
        times := db.times.filter (fun r => r.nodeId ∉ db.prunableNodes volume)
        contents := db.contents.filter (fun r => r.nodeId ∉ db.prunableNodes volume)
        versions := db.versions.filter (fun r => r.contentId ∉ db.prunableNodes volume)
        xattrs := db.xattrs.filter (fun r => r.nodeId ∉ db.prunableNodes volume) } := by
  simp only [pruneNodes, bind_eq_ok, refuse_eq_ok, Except.ok.injEq] at h
  obtain ⟨u, hg, rfl⟩ := h
  simp only [Bool.or_eq_false_iff, List.any_eq_false, decide_eq_true_eq] at hg
  exact ⟨hg.1.1, hg.1.2, rfl⟩

/-! The active placements after each statement that changes them. -/

theorem activeEdges_append (e : EdgeRow) (ts : List TimesRow) (he : e.archived = false) :
    { db with edges := db.edges ++ [e], times := ts }.activeEdges = db.activeEdges ++ [e] := by
  simp [activeEdges, he]

theorem activeEdges_archiveWhere (p : EdgeRow → Bool) :
    (db.archiveWhere now p).activeEdges = db.activeEdges.filter (fun e => !p e) := by
  simp only [activeEdges, archiveWhere]
  induction db.edges with
  | nil => rfl
  | cons e edges ih =>
    rw [List.map_cons]
    by_cases ha : e.archived = true
    · simpa [ha] using ih
    · by_cases hp : p e = true
      · simpa [ha, hp] using ih
      · simpa [ha, hp] using ih

theorem activeEdges_renamePlacement (parent n : NodeId) (old name : String) :
    (db.renamePlacement parent n old name).activeEdges =
      db.activeEdges.map (fun e => if isPlacement parent n old e then
        { e with name := name } else e) := by
  simp only [activeEdges, renamePlacement]
  induction db.edges with
  | nil => rfl
  | cons e edges ih =>
    rw [List.map_cons]
    by_cases ha : e.archived = true
    · simpa [ha] using ih
    · by_cases hp : isPlacement parent n old e = true
      · simpa [ha, hp] using ih
      · simpa [ha, hp] using ih

end Db

/-! ### Frames -/

/-- What a statement can change, apart from the clock columns. `identities` is
the part of `node` that only birth and deletion touch. -/
inductive Table where
  | identities
  | nodes
  | contents
  | chunks
  | versions
  | volumes
  | edges
  | mounts
  | locks
  | xattrs
  deriving DecidableEq, Repr

def NodeRow.identity (r : NodeRow) : NodeId × NodeType × VolumeId × Int :=
  (r.nodeId, r.type, r.volumeId, r.createdAt)

def Db.identities (db : Db) : List (NodeId × NodeType × VolumeId × Int) :=
  db.nodes.map NodeRow.identity

theorem Db.lookup_identities (db : Db) (n : NodeId) :
    lookup Prod.fst db.identities n = (db.node? n).map NodeRow.identity :=
  lookup_map (fun _ => rfl)

theorem Db.nodeType?_eq (db : Db) (n : NodeId) :
    db.nodeType? n = (lookup Prod.fst db.identities n).map (fun i => i.2.1) := by
  rw [db.lookup_identities, Option.map_map]
  rfl

theorem Db.node?_isSome_eq (db : Db) (n : NodeId) :
    (db.node? n).isSome = (lookup Prod.fst db.identities n).isSome := by
  rw [db.lookup_identities, Option.isSome_map]

namespace Stmt

/-- The tables a statement may change. -/
def touches : Stmt → List Table
  | createNode .. => [.identities, .nodes]
  | createEdge .. | archivePlacement .. | archiveEdge .. | archiveSubtree ..
  | renamePlacement .. => [.edges]
  | renameNodeIfSole .. | setOwner .. | setMetadata .. => [.nodes]
  | createContent .. | updateContent .. | setRetentionKeep .. => [.contents]
  | upsertChunk .. | pruneContentChunks => [.chunks]
  | insertChunkRef .. | copyChunkRefs .. | copyChunkRefsRange .. | pruneContentVersions .. =>
    [.versions]
  -- the times stand in no table of this list: every statement may touch them
  | setAtime .. | setModifiedAt .. => []
  | xattrSet .. | xattrRemove .. => [.xattrs]
  | createVolume .. | linkRoot .. | updateVolumeCrypto .. => [.volumes]
  | createMount .. | setMountState .. | renewMount .. => [.mounts]
  | createLock .. | releaseLock .. | renewLock .. | pruneLocks => [.locks]
  | pruneNodes .. => [.identities, .nodes, .contents, .versions, .xattrs]

end Stmt

/-- Two files agree outside the tables of a list. -/
structure AgreeOff (ts : List Table) (db db' : Db) : Prop where
  identities : .identities ∉ ts → db'.identities = db.identities
  nodes : .nodes ∉ ts → db'.nodes = db.nodes
  contents : .contents ∉ ts → db'.contents = db.contents
  chunks : .chunks ∉ ts → db'.chunks = db.chunks
  versions : .versions ∉ ts → db'.versions = db.versions
  volumes : .volumes ∉ ts → db'.volumes = db.volumes
  edges : .edges ∉ ts → db'.edges = db.edges
  mounts : .mounts ∉ ts → db'.mounts = db.mounts
  locks : .locks ∉ ts → db'.locks = db.locks
  xattrs : .xattrs ∉ ts → db'.xattrs = db.xattrs

namespace AgreeOff

variable {ts ts' : List Table} {a b c : Db}

theorem refl (ts : List Table) (a : Db) : AgreeOff ts a a := by
  constructor <;> intro _ <;> rfl

theorem weaken (h : AgreeOff ts a b) (hsub : ts ⊆ ts') : AgreeOff ts' a b where
  identities ht := h.identities (fun hm => ht (hsub hm))
  nodes ht := h.nodes (fun hm => ht (hsub hm))
  contents ht := h.contents (fun hm => ht (hsub hm))
  chunks ht := h.chunks (fun hm => ht (hsub hm))
  versions ht := h.versions (fun hm => ht (hsub hm))
  volumes ht := h.volumes (fun hm => ht (hsub hm))
  edges ht := h.edges (fun hm => ht (hsub hm))
  mounts ht := h.mounts (fun hm => ht (hsub hm))
  locks ht := h.locks (fun hm => ht (hsub hm))
  xattrs ht := h.xattrs (fun hm => ht (hsub hm))

theorem trans (h : AgreeOff ts a b) (h' : AgreeOff ts b c) : AgreeOff ts a c where
  identities ht := (h'.identities ht).trans (h.identities ht)
  nodes ht := (h'.nodes ht).trans (h.nodes ht)
  contents ht := (h'.contents ht).trans (h.contents ht)
  chunks ht := (h'.chunks ht).trans (h.chunks ht)
  versions ht := (h'.versions ht).trans (h.versions ht)
  volumes ht := (h'.volumes ht).trans (h.volumes ht)
  edges ht := (h'.edges ht).trans (h.edges ht)
  mounts ht := (h'.mounts ht).trans (h.mounts ht)
  locks ht := (h'.locks ht).trans (h.locks ht)
  xattrs ht := (h'.xattrs ht).trans (h.xattrs ht)

end AgreeOff

theorem identity_amend (nodes : List NodeRow) (n : NodeId) (f : NodeRow → NodeRow)
    (hf : ∀ r, (f r).identity = r.identity) :
    (amend NodeRow.nodeId nodes n f).map NodeRow.identity = nodes.map NodeRow.identity := by
  rw [amend, List.map_map]
  apply List.map_congr_left
  intro r _
  by_cases hr : r.nodeId = n
  · simp [hr, hf]
  · simp [hr]

theorem agreeOff_amend_nodes {db : Db} {n : NodeId} {f : NodeRow → NodeRow} (ts : List TimesRow)
    (hf : ∀ r, (f r).identity = r.identity) :
    AgreeOff [.nodes] db { db with nodes := amend NodeRow.nodeId db.nodes n f, times := ts } := by
  constructor <;> simp [Db.identities, identity_amend _ _ _ hf]

/-- A statement changes no table it does not name. -/
theorem Stmt.exec_agreeOff {st : Stmt} {now : Int} {db db' : Db} (h : st.exec now db = .ok db') :
    AgreeOff st.touches db db' := by
  cases st with
  | createNode row modifiedAt =>
    obtain ⟨-, -, rfl⟩ := Db.createNode_ok h
    constructor <;> simp [touches]
  | createEdge id f t volume name =>
    obtain ⟨src, dst, -, -, -, -, -, -, -, rfl⟩ := Db.createEdge_ok h
    constructor <;> simp [touches, Db.identities]
  | renameNodeIfSole n name =>
    obtain rfl := Except.ok.inj h
    simp only [Db.renameNodeIfSole]
    split
    · exact agreeOff_amend_nodes _ (fun _ => rfl)
    · constructor <;> simp
  | setOwner n uid gid mode =>
    obtain rfl := Except.ok.inj h
    exact agreeOff_amend_nodes _ (fun _ => rfl)
  | setMetadata n metadata =>
    obtain rfl := Except.ok.inj h
    exact agreeOff_amend_nodes _ (fun _ => rfl)
  | createContent n version size =>
    obtain ⟨-, -, rfl⟩ := Db.createContent_ok h
    constructor <;> simp [touches, Db.identities]
  | upsertChunk row =>
    obtain ⟨added, he, -⟩ := Db.upsertChunk_eq db row
    obtain rfl := Except.ok.inj h
    rw [he]
    constructor <;> simp [touches, Db.identities]
  | insertChunkRef row =>
    obtain ⟨-, -, -, rfl⟩ := Db.insertChunkRef_ok h
    constructor <;> simp [touches, Db.identities]
  | copyChunkRefs dst dstVersion src srcVersion =>
    obtain rfl := Db.insertRefs_ok h
    constructor <;> simp [touches, Db.identities]
  | copyChunkRefsRange n dstVersion srcVersion lo hi =>
    obtain rfl := Db.insertRefs_ok h
    constructor <;> simp [touches, Db.identities]
  | xattrSet row =>
    obtain ⟨-, rows, rfl⟩ := Db.xattrSet_ok h
    constructor <;> simp [touches, Db.identities]
  | createVolume row =>
    obtain ⟨-, rfl⟩ := Db.createVolume_ok h
    constructor <;> simp [touches, Db.identities]
  | linkRoot volume root =>
    obtain ⟨-, rfl⟩ := Db.linkRoot_ok h
    constructor <;> simp [touches, Db.identities]
  | createMount row =>
    obtain ⟨-, -, rfl⟩ := Db.createMount_ok h
    constructor <;> simp [touches, Db.identities]
  | createLock row =>
    obtain ⟨-, -, rfl⟩ := Db.createLock_ok h
    constructor <;> simp [touches, Db.identities]
  | pruneNodes volume =>
    obtain ⟨-, -, rfl⟩ := Db.pruneNodes_ok h
    constructor <;> simp [touches]
  | _ =>
    obtain rfl := Except.ok.inj h
    constructor <;> intro ht <;> first | rfl | exact absurd ht (by simp [touches])

end Aloelite
