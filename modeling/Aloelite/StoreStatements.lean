import Aloelite.StoreQueries

/-! The mutation templates, each with the keys, foreign keys and guard triggers
that can abort it and the touch triggers it fires. `Stmt` names them all, so
that an operation is a list of statements and nothing else changes a file. -/
namespace Aloelite

open Fallible KeyedRows

namespace Db

/-- The ctime half of the touch triggers, for every node of a list. -/
def touchCtime (now : Int) (nodes : List NodeId) (ts : List TimesRow) : List TimesRow :=
  ts.map (fun t => if t.nodeId ∈ nodes then { t with ctime := some now } else t)

/-- `node_touch_content`, `node_touch_name` -/
def touchModified (now : Int) (node : NodeId) (ts : List TimesRow) : List TimesRow :=
  amend TimesRow.nodeId ts node (fun t => { t with modifiedAt := now, ctime := some now })

def createNode (db : Db) (row : NodeRow) (modifiedAt : Option Int) : Except FsError Db := do
  refuse (db.node? row.nodeId).isSome .integrity
  refuse (db.volume? row.volumeId).isNone .integrity
  .ok { db with
    nodes := db.nodes ++ [row]
    times := db.times ++ [{ nodeId := row.nodeId, modifiedAt := modifiedAt.getD row.createdAt }] }

/-- `create_edge`. A missing name takes the node's own (era 3). The guards are
EDGE-4, PI-1 for containers and PI-6. -/
def createEdge (db : Db) (now : Int) (id : EdgeId) (fromId toId : NodeId) (volume : VolumeId)
    (name : Option String) : Except FsError Db := do
  let src ← orRaise (db.node? fromId) .integrity
  let dst ← orRaise (db.node? toId) .integrity
  refuse (db.edge? id).isSome .integrity
  refuse (src.type ≠ .container) .integrity
  refuse (dst.type = .container ∧ (db.activeEdges.any (fun e => e.toId = toId))) .integrity
  refuse (src.volumeId ≠ volume ∨ dst.volumeId ≠ volume) .integrity
  refuse (db.volume? volume).isNone .integrity
  .ok { db with
    edges := db.edges ++ [{ edgeId := id, fromId := fromId, toId := toId, volumeId := volume,
                            name := name.getD dst.name }]
    times := touchCtime now [toId] db.times }

/-- Archive the active edges that satisfy `p`. Archived edges are kept (PI-7). -/
def archiveWhere (db : Db) (now : Int) (p : EdgeRow → Bool) : Db :=
  { db with
    edges := db.edges.map (fun e => if !e.archived && p e then { e with archived := true } else e)
    times := touchCtime now ((db.activeEdges.filter p).map EdgeRow.toId) db.times }

/-- The condition of `archive_placement` and `rename_placement`: the edge the
path walked, found by parent, node and effective name (D-5). -/
def isPlacement (parent node : NodeId) (name : String) (e : EdgeRow) : Bool :=
  e.fromId = parent ∧ e.toId = node ∧ e.name = name

/-- The row count of `archive_placement`. -/
def placementCount (db : Db) (parent node : NodeId) (name : String) : ℕ :=
  (db.activeEdges.filter (isPlacement parent node name)).length

def renamePlacement (db : Db) (parent node : NodeId) (oldName name : String) : Db :=
  { db with
    edges := db.edges.map
      (fun e => if !e.archived && isPlacement parent node oldName e then
        { e with name := name } else e) }

/-- `rename_node_if_sole`, with `node_touch_name` on a name that changes. -/
def renameNodeIfSole (db : Db) (now : Int) (node : NodeId) (name : String) : Db :=
  if (db.activeEdges.filter (fun e => e.toId = node)).length = 1 then
    { db with
      nodes := amend NodeRow.nodeId db.nodes node (fun r => { r with name := name })
      times := if (db.node? node).any (fun r => r.name ≠ name) then touchModified now node db.times
        else db.times }
  else db

def createContent (db : Db) (node : NodeId) (version size : ℕ) : Except FsError Db := do
  refuse (db.content? node).isSome .integrity
  refuse (db.node? node).isNone .integrity
  .ok { db with contents := db.contents ++ [{ nodeId := node, version := version, size := size }] }

/-- `update_content`, with `node_touch_content`. -/
def updateContent (db : Db) (now : Int) (node : NodeId) (version size : ℕ) : Db :=
  { db with
    contents := amend ContentRow.nodeId db.contents node
      (fun r => { r with version := version, size := size })
    times := if (db.content? node).isSome then touchModified now node db.times else db.times }

/-- `upsert_chunk`: `ON CONFLICT(chunk_hash) DO NOTHING` -/
def upsertChunk (db : Db) (row : ChunkRow) : Db :=
  if (db.chunk? row.chunkHash).isSome then db else { db with chunks := db.chunks ++ [row] }

def insertChunkRef (db : Db) (row : VersionRow) : Except FsError Db := do
  refuse (db.versions.any (fun r => r.contentId = row.contentId ∧ r.version = row.version ∧
    r.chunkIndex = row.chunkIndex)) .integrity
  refuse (db.node? row.contentId).isNone .integrity
  refuse (db.chunk? row.chunkHash).isNone .integrity
  .ok { db with versions := db.versions ++ [row] }

/-- The rows that `copy_chunk_refs` and `copy_chunk_refs_range` insert. -/
def carriedRefs (rows : List VersionRow) (dst : NodeId) (dstVersion : ℕ) : List VersionRow :=
  rows.map (fun r => { r with contentId := dst, version := dstVersion })

/-- `INSERT INTO content_version ... SELECT` -/
def insertRefs (db : Db) (rows : List VersionRow) : Except FsError Db :=
  rows.foldlM insertChunkRef db

def setRetentionKeep (db : Db) (node : NodeId) (keep : Option Int) : Db :=
  { db with
    contents := amend ContentRow.nodeId db.contents node
      (fun r => { r with retentionKeep := keep }) }

/-- `set_owner`; NULL leaves a column unchanged. Fires `node_touch_owner`. -/
def setOwner (db : Db) (now : Int) (node : NodeId) (uid gid mode : Option Int) : Db :=
  { db with
    nodes := amend NodeRow.nodeId db.nodes node
      (fun r => { r with uid := uid <|> r.uid, gid := gid <|> r.gid, mode := mode <|> r.mode })
    times := touchCtime now [node] db.times }

def setAtime (db : Db) (node : NodeId) (ts : Int) : Db :=
  { db with times := amend TimesRow.nodeId db.times node (fun t => { t with atime := some ts }) }

def setModifiedAt (db : Db) (node : NodeId) (ts : Int) : Db :=
  { db with times := amend TimesRow.nodeId db.times node (fun t => { t with modifiedAt := ts }) }

def setMetadata (db : Db) (node : NodeId) (metadata : Metadata) : Db :=
  { db with nodes := amend NodeRow.nodeId db.nodes node (fun r => { r with metadata := metadata }) }

/-- `xattr_set`: insert, or replace the value on conflict. -/
def xattrSet (db : Db) (row : XattrRow) : Except FsError Db := do
  refuse (db.node? row.nodeId).isNone .integrity
  if db.xattrs.any (fun r => r.nodeId = row.nodeId ∧ r.name = row.name) then
    .ok { db with
    xattrs := db.xattrs.map
      (fun r => if r.nodeId = row.nodeId ∧ r.name = row.name then row else r) }
  else
    .ok { db with xattrs := db.xattrs ++ [row] }

def xattrRemove (db : Db) (node : NodeId) (name : String) : Db :=
  { db with xattrs := db.xattrs.filter (fun r => !(r.nodeId = node ∧ r.name = name)) }

def createVolume (db : Db) (row : VolumeRow) : Except FsError Db := do
  refuse (db.volume? row.volumeId).isSome .integrity
  .ok { db with volumes := db.volumes ++ [row] }

/-- `link_root`; the column is UNIQUE and references `node`. -/
def linkRoot (db : Db) (volume : VolumeId) (root : NodeId) : Except FsError Db := do
  refuse (db.volumes.any (fun v => v.volumeId ≠ volume ∧ v.rootNodeId = some root)) .integrity
  refuse (db.node? root).isNone .integrity
  .ok { db with
    volumes := amend VolumeRow.volumeId db.volumes volume
      (fun v => { v with rootNodeId := some root }) }

def updateVolumeCrypto (db : Db) (volume : VolumeId) (mode : EncMode)
    (wrappedKey : Bytes × Tag) (wrapNonce : Nonce) : Db :=
  { db with
    volumes := amend VolumeRow.volumeId db.volumes volume
      (fun v => { v with
        encMode := mode, wrappedKey := some wrappedKey, wrapNonce := some wrapNonce }) }

def createMount (db : Db) (row : MountRow) : Except FsError Db := do
  refuse (db.mount? row.mountId).isSome .integrity
  refuse (db.volume? row.volumeId).isNone .integrity
  refuse (db.node? row.mountPoint).isNone .integrity
  .ok { db with mounts := db.mounts ++ [row] }

def setMountState (db : Db) (mount : MountId) (state : MountState) : Db :=
  { db with mounts := amend MountRow.mountId db.mounts mount (fun m => { m with state := state }) }

def renewMount (db : Db) (mount : MountId) (expiresAt : Option Int) : Db :=
  { db with
    mounts := amend MountRow.mountId db.mounts mount
      (fun m => { m with expiresAt := expiresAt }) }

def createLock (db : Db) (row : LockRow) : Except FsError Db := do
  refuse (db.lock? row.lockId).isSome .integrity
  refuse (db.mount? row.mountId).isNone .integrity
  refuse (db.node? row.nodeId).isNone .integrity
  .ok { db with locks := db.locks ++ [row] }

def releaseLock (db : Db) (lock : LockId) : Db :=
  { db with locks := db.locks.filter (fun l => l.lockId ≠ lock) }

def renewLock (db : Db) (lock : LockId) (expiresAt : Option Int) : Db :=
  { db with locks := amend LockRow.lockId db.locks lock (fun l =>
    { l with expiresAt := expiresAt }) }

/-- The nodes `prune_nodes` deletes. -/
def prunableNodes (db : Db) (volume : Option VolumeId) : List NodeId :=
  (db.nodes.filter (fun r => db.isVolatile r.nodeId && volume.all (fun v => r.volumeId = v))).map
    NodeRow.nodeId

/-- `prune_nodes`. Content, manifest and xattr rows cascade; an edge, a mount or
a lock that still names a deleted node aborts the statement. -/
def pruneNodes (db : Db) (volume : Option VolumeId) : Except FsError Db := do
  let gone := db.prunableNodes volume
  refuse (db.edges.any (fun e => e.fromId ∈ gone) || db.mounts.any (fun m => m.mountPoint ∈ gone) ||
    db.locks.any (fun l => l.nodeId ∈ gone)) .integrity
  .ok { db with
    nodes := db.nodes.filter (fun r => r.nodeId ∉ gone)
    times := db.times.filter (fun r => r.nodeId ∉ gone)
    contents := db.contents.filter (fun r => r.nodeId ∉ gone)
    versions := db.versions.filter (fun r => r.contentId ∉ gone)
    xattrs := db.xattrs.filter (fun r => r.nodeId ∉ gone) }

def pruneLocks (db : Db) (now : Int) : Db := { db with locks := db.validLocks now }

/-- Whether `prune_content_versions` leaves a manifest row: its version is
retained, its entry is under a valid lock, or it lies outside the scope. -/
def survivesPrune (db : Db) (now : Int) (volume : Option VolumeId) (r : VersionRow) : Bool :=
  db.retainedVersion r.contentId r.version || db.checkAnyLock now r.contentId ||
    !(volume.all (fun v => db.nodes.any (fun n => n.nodeId = r.contentId ∧ n.volumeId = v)))

def pruneContentVersions (db : Db) (now : Int) (volume : Option VolumeId) : Db :=
  { db with versions := db.versions.filter (db.survivesPrune now volume) }

def pruneContentChunks (db : Db) : Db :=
  { db with
    chunks := db.chunks.filter
      (fun c => db.versions.any (fun r => r.chunkHash = c.chunkHash)) }

end Db

/-- One mutation template with its bound parameters. -/
inductive Stmt where
  | createNode (row : NodeRow) (modifiedAt : Option Int)
  | createEdge (id : EdgeId) (fromId toId : NodeId) (volume : VolumeId) (name : Option String)
  | archivePlacement (parent node : NodeId) (name : String)
  | archiveEdge (id : EdgeId)
  | archiveSubtree (root : NodeId)
  | renamePlacement (parent node : NodeId) (oldName name : String)
  | renameNodeIfSole (node : NodeId) (name : String)
  | createContent (node : NodeId) (version size : ℕ)
  | updateContent (node : NodeId) (version size : ℕ)
  | upsertChunk (row : ChunkRow)
  | insertChunkRef (row : VersionRow)
  | copyChunkRefs (dst : NodeId) (dstVersion : ℕ) (src : NodeId) (srcVersion : ℕ)
  | copyChunkRefsRange (node : NodeId) (dstVersion srcVersion lo hi : ℕ)
  | setRetentionKeep (node : NodeId) (keep : Option Int)
  | setOwner (node : NodeId) (uid gid mode : Option Int)
  | setAtime (node : NodeId) (ts : Int)
  | setModifiedAt (node : NodeId) (ts : Int)
  | setMetadata (node : NodeId) (metadata : Metadata)
  | xattrSet (row : XattrRow)
  | xattrRemove (node : NodeId) (name : String)
  | createVolume (row : VolumeRow)
  | linkRoot (volume : VolumeId) (root : NodeId)
  | updateVolumeCrypto (volume : VolumeId) (mode : EncMode) (wrappedKey : Bytes × Tag)
      (wrapNonce : Nonce)
  | createMount (row : MountRow)
  | setMountState (mount : MountId) (state : MountState)
  | renewMount (mount : MountId) (expiresAt : Option Int)
  | createLock (row : LockRow)
  | releaseLock (lock : LockId)
  | renewLock (lock : LockId) (expiresAt : Option Int)
  | pruneNodes (volume : Option VolumeId)
  | pruneLocks
  | pruneContentVersions (volume : Option VolumeId)
  | pruneContentChunks

namespace Stmt

/-- Run one statement with the clock at `now`. -/
def exec (now : Int) (db : Db) : Stmt → Except FsError Db
  | createNode row modifiedAt => db.createNode row modifiedAt
  | createEdge id fromId toId volume name => db.createEdge now id fromId toId volume name
  | archivePlacement parent node name => .ok (db.archiveWhere now (Db.isPlacement parent node name))
  | archiveEdge id => .ok (db.archiveWhere now (fun e => e.edgeId = id))
  | archiveSubtree root =>
    -- the view's members, whatever their parents: a node linked elsewhere is archived there too
    let members := db.subtreeIds root
    .ok (db.archiveWhere now (fun e => e.toId ∈ members))
  | renamePlacement parent node oldName name => .ok (db.renamePlacement parent node oldName name)
  | renameNodeIfSole node name => .ok (db.renameNodeIfSole now node name)
  | createContent node version size => db.createContent node version size
  | updateContent node version size => .ok (db.updateContent now node version size)
  | upsertChunk row => .ok (db.upsertChunk row)
  | insertChunkRef row => db.insertChunkRef row
  | copyChunkRefs dst dstVersion src srcVersion =>
    db.insertRefs (Db.carriedRefs (db.manifest src srcVersion) dst dstVersion)
  | copyChunkRefsRange node dstVersion srcVersion lo hi =>
    db.insertRefs (Db.carriedRefs
      ((db.manifest node srcVersion).filter (fun r => lo ≤ r.chunkIndex ∧ r.chunkIndex ≤ hi))
      node dstVersion)
  | setRetentionKeep node keep => .ok (db.setRetentionKeep node keep)
  | setOwner node uid gid mode => .ok (db.setOwner now node uid gid mode)
  | setAtime node ts => .ok (db.setAtime node ts)
  | setModifiedAt node ts => .ok (db.setModifiedAt node ts)
  | setMetadata node metadata => .ok (db.setMetadata node metadata)
  | xattrSet row => db.xattrSet row
  | xattrRemove node name => .ok (db.xattrRemove node name)
  | createVolume row => db.createVolume row
  | linkRoot volume root => db.linkRoot volume root
  | updateVolumeCrypto volume mode wrappedKey wrapNonce =>
    .ok (db.updateVolumeCrypto volume mode wrappedKey wrapNonce)
  | createMount row => db.createMount row
  | setMountState mount state => .ok (db.setMountState mount state)
  | renewMount mount expiresAt => .ok (db.renewMount mount expiresAt)
  | createLock row => db.createLock row
  | releaseLock lock => .ok (db.releaseLock lock)
  | renewLock lock expiresAt => .ok (db.renewLock lock expiresAt)
  | pruneNodes volume => db.pruneNodes volume
  | pruneLocks => .ok (db.pruneLocks now)
  | pruneContentVersions volume => .ok (db.pruneContentVersions now volume)
  | pruneContentChunks => .ok db.pruneContentChunks

end Stmt

end Aloelite
