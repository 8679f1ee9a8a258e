import Aloelite.StoreTables

/-! The read templates and views: child lookup, ancestors, subtrees, validity of
mounts and locks, retention. Each is a function of the tables. -/
namespace Aloelite

/-- The bound of the recursive views: `WHERE depth < 256`. -/
def depthCap : ℕ := 256

namespace Db

/-! ### Placement -/

/-- The active edges that place something named `name` in `container`, joined
to the placed nodes. -/
def placedUnder (db : Db) (container : NodeId) (name : String) : List NodeRow :=
  (db.activeEdges.filter (fun e => e.fromId = container ∧ e.name = name)).filterMap
    (fun e => db.node? e.toId)

/-- `resolve_segment`: `ORDER BY node_id DESC LIMIT 1`, the placed node with the greatest
id (NODE-5). -/
def resolveSegment (db : Db) (container : NodeId) (name : String) : Option NodeRow :=
  ((db.placedUnder container name).insertionSort (fun r s => s.nodeId ≤ r.nodeId)).head?

/-- The node joined to a row of `resolve_path`: its id is the `max(node_id)` of the
correlated subquery. -/
def walkHit (db : Db) (container : NodeId) (name : String) : Option NodeRow :=
  ((db.placedUnder container name).map NodeRow.nodeId).max?.bind db.node?

/-- `get_active_parent`: the first active edge into `node`. -/
def getActiveParent (db : Db) (node : NodeId) : Option EdgeRow :=
  db.activeEdges.find? (fun e => e.toId = node)

/-- `check_empty` -/
def checkEmpty (db : Db) (container : NodeId) : Bool :=
  db.activeEdges.any (fun e => e.fromId = container)

/-- The view `node_parent`. -/
def parents (db : Db) (node : NodeId) : List NodeId :=
  (db.activeEdges.filter (fun e => e.toId = node)).map EdgeRow.fromId

/-- The view `node_ancestor` at one node, `fuel` levels up. -/
def ancestorsWithin (db : Db) : ℕ → NodeId → List NodeId
  | 0, _ => []
  | fuel + 1, node => (db.parents node).flatMap (fun p => p :: db.ancestorsWithin fuel p)

def nodeAncestor (db : Db) (node : NodeId) : List NodeId := db.ancestorsWithin depthCap node

/-- `check_cycle` -/
def checkCycle (db : Db) (moving newParent : NodeId) : Bool :=
  moving = newParent ∨ moving ∈ db.nodeAncestor newParent

end Db

/-- A row of the view `subtree` below one root, with the placement's effective
name as `enumerate_subtree` returns it. The root has no edge in the walk. -/
structure SubtreeRow where
  nodeId : NodeId
  parentId : Option NodeId
  edgeId : Option EdgeId
  name : String
  deriving DecidableEq, Repr

namespace SubtreeRow

/-- `ORDER BY edge_id, node_id` within one depth -/
def le (r s : SubtreeRow) : Prop :=
  (r.edgeId.getD 0 < s.edgeId.getD 0) ∨
    (r.edgeId.getD 0 = s.edgeId.getD 0 ∧ r.nodeId ≤ s.nodeId)

instance : DecidableRel le := fun r s =>
  inferInstanceAs (Decidable ((r.edgeId.getD 0 < s.edgeId.getD 0) ∨
    (r.edgeId.getD 0 = s.edgeId.getD 0 ∧ r.nodeId ≤ s.nodeId)))

end SubtreeRow

namespace Db

/-- The placements directly below a row of the walk. -/
def childRows (db : Db) (row : SubtreeRow) : List SubtreeRow :=
  (db.activeEdges.filter (fun e => e.fromId = row.nodeId)).map
    (fun e => ⟨e.toId, some row.nodeId, some e.edgeId, e.name⟩)

/-- The next depth of the walk, in canonical order. -/
def nextLevel (db : Db) (level : List SubtreeRow) : List SubtreeRow :=
  (level.flatMap db.childRows).insertionSort SubtreeRow.le

/-- `fuel` further depths below `level`, top down. -/
def levelsFrom (db : Db) : ℕ → List SubtreeRow → List SubtreeRow
  | 0, level => level
  | fuel + 1, level => level ++ db.levelsFrom fuel (db.nextLevel level)

/-- `enumerate_subtree`: the rows below `root` in the order
(depth, edge_id, node_id), `root` itself first. -/
def enumerateSubtree (db : Db) (root : NodeId) : List SubtreeRow :=
  match db.node? root with
  | none => []
  | some r => db.levelsFrom depthCap [⟨root, none, none, r.name⟩]

/-- The members of the view `subtree` below `root`. -/
def subtreeIds (db : Db) (root : NodeId) : List NodeId :=
  (db.enumerateSubtree root).map SubtreeRow.nodeId

/-! ### Mounts and locks -/

end Db

/-- `expires_at IS NULL OR expires_at > now` -/
def unexpired (now : Int) (expiresAt : Option Int) : Bool :=
  match expiresAt with
  | none => true
  | some t => now < t

namespace Db

/-- The view `valid_mount` -/
def validMount? (db : Db) (now : Int) (m : MountId) : Option MountRow :=
  (db.mount? m).filter (fun r => r.state ≠ .unmounted ∧ unexpired now r.expiresAt)

/-- Membership of a lock row in the view `valid_lock`. -/
def lockValid (db : Db) (now : Int) (l : LockRow) : Bool :=
  (db.validMount? now l.mountId).isSome ∧ unexpired now l.expiresAt

def validLocks (db : Db) (now : Int) : List LockRow := db.locks.filter (db.lockValid now)

/-- `get_lock_valid`; false also when the row is gone. -/
def getLockValid (db : Db) (now : Int) (l : LockId) : Bool :=
  ((db.lock? l).map (db.lockValid now)).getD false

/-- `check_lock_held`: another mount holds a valid lock on the node. -/
def checkLockHeld (db : Db) (now : Int) (node : NodeId) (mount : MountId) : Bool :=
  (db.validLocks now).any (fun l => l.nodeId = node ∧ l.mountId ≠ mount)

/-- `check_any_lock` -/
def checkAnyLock (db : Db) (now : Int) (node : NodeId) : Bool :=
  (db.validLocks now).any (fun l => l.nodeId = node)

/-- `check_lock_held_subtree`: one locked member, if any. -/
def checkLockHeldSubtree (db : Db) (now : Int) (root : NodeId) (mount : MountId) :
    Option NodeId :=
  ((db.validLocks now).find? (fun l => l.mountId ≠ mount ∧ l.nodeId ∈ db.subtreeIds root)).map
    LockRow.nodeId

/-- `check_rw_overlap`: a valid rw mount at, above or below the anchor. -/
def checkRwOverlap (db : Db) (now : Int) (volume : VolumeId) (anchor : NodeId) :
    Option MountId :=
  (db.mounts.find? (fun m => m.state ≠ .unmounted ∧ unexpired now m.expiresAt ∧
    m.volumeId = volume ∧ m.access = .rw ∧
    (m.mountPoint = anchor ∨ m.mountPoint ∈ db.nodeAncestor anchor ∨
      anchor ∈ db.nodeAncestor m.mountPoint))).map MountRow.mountId

/-! ### Content -/

/-- `next_version`: one above the committed pointer and every manifest row. -/
def nextVersion (db : Db) (node : NodeId) : ℕ :=
  max ((db.content? node).map ContentRow.version |>.getD 0)
    ((((db.versions.filter (fun r => r.contentId = node)).map VersionRow.version).max?).getD 0) + 1

/-- `read_chunks_range` before decryption: the manifest rows of one version with
an index in the range, in index order, joined to the pool. -/
def readChunksRange (db : Db) (node : NodeId) (version lo hi : ℕ) : List (ℕ × ChunkRow) :=
  (((db.manifest node version).filter (fun r => lo ≤ r.chunkIndex ∧
    r.chunkIndex ≤ hi)).insertionSort
    (fun r s => r.chunkIndex ≤ s.chunkIndex)).filterMap
      (fun r => (db.chunk? r.chunkHash).map (fun c => (r.chunkIndex, c)))

/-- `read_chunks`: every chunk of one version, in index order. -/
def readChunks (db : Db) (node : NodeId) (version : ℕ) : List ChunkRow :=
  ((db.manifest node version).insertionSort (fun r s => r.chunkIndex ≤ s.chunkIndex)).filterMap
    (fun r => db.chunk? r.chunkHash)

/-- The distinct versions of an entry that have manifest rows. -/
def stagedVersions (db : Db) (node : NodeId) : List ℕ :=
  ((db.versions.filter (fun r => r.contentId = node)).map VersionRow.version).dedup

/-- `row_number() OVER (ORDER BY version DESC)` among the versions below the
committed one. -/
def rankBelow (db : Db) (node : NodeId) (committed version : ℕ) : ℕ :=
  ((db.stagedVersions node).filter (fun v => version ≤ v ∧ v < committed)).length

/-- `keep IS NULL OR rnk <= max(keep - 1, 0)` -/
def keepsRank (keep : Option Int) (rank : ℕ) : Bool :=
  match keep with
  | none => true
  | some n => (rank : Int) ≤ max (n - 1) 0

/-- The view `retained_version` -/
def retainedVersion (db : Db) (node : NodeId) (version : ℕ) : Bool :=
  match db.content? node with
  | none => false
  | some c =>
    decide (version ∈ db.stagedVersions node) &&
      (decide (version = c.version) ||
        (decide (version < c.version) &&
          keepsRank c.retentionKeep (db.rankBelow node c.version version)))

/-! ### Volatile nodes -/

/-- The view `volatile_node` (PI-3). -/
def isVolatile (db : Db) (n : NodeId) : Bool :=
  !(db.edges.any (fun e => e.toId = n)) && !(db.volumes.any (fun v => v.rootNodeId = some n))

end Db

end Aloelite
