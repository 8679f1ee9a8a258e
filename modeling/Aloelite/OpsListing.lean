import Aloelite.Transactions

/-! Listing: the view `directory_listing`, the template `list_children` and the
operation `list` with the path each entry carries; the way back up, `path_of`. -/
namespace Aloelite

open Fallible

/-- A row of `list_children`. -/
structure ListedRow where
  nodeId : NodeId
  name : String
  type : NodeType
  edgeId : EdgeId
  visible : Bool
  deriving DecidableEq, Repr

/-- `ORDER BY edge_id, node_id` -/
def ListedRow.le (r s : ListedRow) : Prop :=
  r.edgeId < s.edgeId ∨ (r.edgeId = s.edgeId ∧ r.nodeId ≤ s.nodeId)

instance : DecidableRel ListedRow.le := fun r s =>
  inferInstanceAs (Decidable (r.edgeId < s.edgeId ∨ (r.edgeId = s.edgeId ∧ r.nodeId ≤ s.nodeId)))

namespace Db

/-- `max(n.node_id) OVER (PARTITION BY ae.from_id, ae.name)` -/
def winMax (db : Db) (container : NodeId) (name : String) : Option NodeId :=
  ((db.placedUnder container name).map NodeRow.nodeId).max?

/-- The rows of `directory_listing` for one container, one an active placement. -/
def directoryListing (db : Db) (container : NodeId) : List ListedRow :=
  (db.activeEdges.filter (fun e => e.fromId = container)).filterMap (fun e =>
    (db.node? e.toId).map (fun n =>
      { nodeId := n.nodeId, name := e.name, type := n.type, edgeId := e.edgeId
        visible := db.winMax container e.name = some n.nodeId }))

/-- `list_children` -/
def listChildren (db : Db) (container : NodeId) : List ListedRow :=
  (db.directoryListing container).insertionSort ListedRow.le

end Db

/-- `DirEntry`; `currentDirectory` is the path `list` was called with, normalized. -/
structure DirEntry where
  node : NodeId
  name : String
  type : NodeType
  visible : Bool
  edge : EdgeId
  currentDirectory : String
  deriving DecidableEq, Repr

/-- `"/" + "/".join(split_path(path))` -/
def listingPath (path : String) : String := "/" ++ "/".intercalate (splitPath path)

/-- `s.rstrip("/")` -/
def rstripSlash (s : String) : String :=
  String.ofList ((s.toList.reverse.dropWhile (· = '/')).reverse)

namespace DirEntry

/-- `DirEntry.path` -/
def path (e : DirEntry) : String := rstripSlash e.currentDirectory ++ "/" ++ e.name

def ofRow (cwd : String) (r : ListedRow) : DirEntry where
  node := r.nodeId
  name := r.name
  type := r.type
  visible := r.visible
  edge := r.edgeId
  currentDirectory := cwd

end DirEntry

/-- `list` -/
def list (E : Env) (k : Cipher) (db : Db) (mount : MountId) (path : String) :
    Except FsError (List DirEntry) := do
  let m ← requireMount E k db mount false
  let found ← resolve db m.mountPoint path
  refuse (found.type ≠ .container) (.notAContainer found.node)
  return (db.listChildren found.node).map (DirEntry.ofRow (listingPath path))

/-! ### The path of a node -/

/-- A row of the template `path_of`, one a level up. -/
structure UpRow where
  nodeId : NodeId
  name : String
  isRoot : Bool
  deriving DecidableEq, Repr

namespace Db

/-- `ORDER BY ae.edge_id DESC LIMIT 1` among the active placements of a node. -/
def newestPlacement (db : Db) (node : NodeId) : Option EdgeRow :=
  ((db.activeEdges.filter (fun e => e.toId = node)).map EdgeRow.edgeId).max?.bind (fun id =>
    db.activeEdges.find? (fun e => e.toId = node ∧ e.edgeId = id))

def isVolumeRoot (db : Db) (node : NodeId) : Bool :=
  db.volumes.any (fun v => v.rootNodeId = some node)

/-- The recursive query `path_of`: from a node up along newest placements, to a volume
root or the depth bound. -/
def upRows (db : Db) : ℕ → NodeId → List UpRow
  | fuel, node =>
    match db.node? node with
    | none => []
    | some n =>
      let up := db.newestPlacement node
      let row : UpRow := ⟨node, (up.map EdgeRow.name).getD n.name, db.isVolumeRoot node⟩
      if row.isRoot then [row]
      else
        match fuel, up with
        | fuel + 1, some e => row :: db.upRows fuel e.fromId
        | _, _ => [row]

end Db

/-- `_build_path`, trimmed at `stopAt`. -/
def buildPath (db : Db) (node stopAt : NodeId) : Except FsError String := do
  let rows := db.upRows depthCap node
  let last ← orRaise rows.getLast? .notFound
  refuse (!last.isRoot) .corrupt
  refuse (!rows.any (fun r => r.nodeId = stopAt)) .notFound
  let names := (rows.takeWhile (fun r => r.nodeId ≠ stopAt)).map UpRow.name
  return "/" ++ "/".intercalate names.reverse

/-- `path_of` -/
def pathOf (E : Env) (k : Cipher) (db : Db) (mount : MountId) (node : NodeId) :
    Except FsError String := do
  let m ← requireMount E k db mount false
  buildPath db node m.mountPoint

/-- `stat_by_id` -/
def statById (E : Env) (k : Cipher) (db : Db) (mount : MountId) (node : NodeId) :
    Except FsError NodeRow := do
  let _ ← requireMount E k db mount false
  orRaise (db.node? node) .notFound

/-- `stat` -/
def stat (E : Env) (k : Cipher) (db : Db) (mount : MountId) (path : String) :
    Except FsError NodeRow := do
  let m ← requireMount E k db mount false
  let found ← resolve db m.mountPoint path
  statById E k db mount found.node

end Aloelite
