import Aloelite.Crypto
import Aloelite.Library.Fallible
import Aloelite.Library.KeyedRows

/-! The tables of `schema.sql`, one list of rows each, and the errors the
engine raises. Rows stand in insertion (rowid) order. -/
namespace Aloelite

/-- NODE-2 -/
inductive NodeType where
  | container
  | entry
  | symlink
  | fifo
  | socket
  deriving DecidableEq, Repr

inductive Access where
  | ro
  | rw
  deriving DecidableEq, Repr

inductive MountState where
  | new
  | active
  | unmounted
  deriving DecidableEq, Repr

/-- NODE-6: the items of a shallow string map, no key twice. The empty map is
stored NULL. -/
abbrev Metadata := { items : List (String × String) // (items.map Prod.fst).Nodup }

def Metadata.empty : Metadata := ⟨[], List.nodup_nil⟩

/-- `node`, less its three clock columns (`TimesRow`): a touch trigger then
leaves this row as it stands. -/
structure NodeRow where
  nodeId : NodeId
  type : NodeType
  name : String
  createdAt : Int
  volumeId : VolumeId
  metadata : Metadata := .empty
  uid : Option Int := none
  gid : Option Int := none
  mode : Option Int := none
  deriving DecidableEq, Repr

/-- The columns of `node` that the touch triggers and utimens write. -/
structure TimesRow where
  nodeId : NodeId
  modifiedAt : Int
  atime : Option Int := none
  ctime : Option Int := none
  deriving DecidableEq, Repr

structure ContentRow where
  nodeId : NodeId
  version : ℕ := 0
  size : ℕ := 0
  retentionKeep : Option Int := none
  deriving DecidableEq, Repr

structure ChunkRow where
  chunkHash : Digest
  data : Bytes
  length : ℕ
  nonce : Nonce
  encTag : Tag
  deriving DecidableEq, Repr

/-- `content_version`, the ordered manifest -/
structure VersionRow where
  contentId : NodeId
  version : ℕ
  chunkIndex : ℕ
  chunkHash : Digest
  deriving DecidableEq, Repr

structure VolumeRow where
  volumeId : VolumeId
  rootNodeId : Option NodeId := none
  name : Option String := none
  createdAt : Int
  chunkSize : ℕ
  encMode : EncMode
  /-- `ct || tag` of the sealed volume key -/
  wrappedKey : Option (Bytes × Tag) := none
  wrapNonce : Option Nonce := none
  deriving DecidableEq, Repr

structure EdgeRow where
  edgeId : EdgeId
  fromId : NodeId
  toId : NodeId
  volumeId : VolumeId
  archived : Bool := false
  name : String
  deriving DecidableEq, Repr

structure MountRow where
  mountId : MountId
  volumeId : VolumeId
  mountPoint : NodeId
  state : MountState := .new
  expiresAt : Option Int
  access : Access
  deriving DecidableEq, Repr

structure LockRow where
  lockId : LockId
  mountId : MountId
  nodeId : NodeId
  expiresAt : Option Int
  deriving DecidableEq, Repr

structure XattrRow where
  nodeId : NodeId
  name : String
  value : Bytes
  deriving DecidableEq, Repr

structure Db where
  nodes : List NodeRow := []
  times : List TimesRow := []
  contents : List ContentRow := []
  chunks : List ChunkRow := []
  versions : List VersionRow := []
  volumes : List VolumeRow := []
  edges : List EdgeRow := []
  mounts : List MountRow := []
  locks : List LockRow := []
  xattrs : List XattrRow := []
  deriving DecidableEq, Repr

/-- The closed error set of `errors.py`, with the context each one carries, and
the faults that reach a caller from below it: `integrity` is sqlite's
IntegrityError (a key, a foreign key or a guard trigger), `operational` its
OperationalError (a busy database), `invalidTag` the AEAD's, `valueError`,
`keyError`, `indexError`, `typeError` and `overflowError` Python's. -/
inductive FsError where
  | notFound
  | notAContainer (node : NodeId)
  | notAnEntry (node : NodeId)
  | nameless
  | wouldCycle (moving newParent : NodeId)
  | alreadyExists (name : String)
  | notEmpty (node : NodeId)
  | mountInvalid (mount : MountId)
  | mountConflict (volume : VolumeId) (conflictingMount : MountId)
  | readOnly (mount : MountId)
  | lockHeld (node : NodeId)
  | lockInvalid
  | encryptionRequired
  | badKey (volume : VolumeId)
  | corrupt
  | unsupported
  | integrity
  | operational
  | invalidTag
  | valueError
  | keyError
  | indexError
  | typeError
  | overflowError
  deriving DecidableEq, Repr

namespace Db

open KeyedRows

def node? (db : Db) (n : NodeId) : Option NodeRow := lookup NodeRow.nodeId db.nodes n

def times? (db : Db) (n : NodeId) : Option TimesRow := lookup TimesRow.nodeId db.times n

def content? (db : Db) (n : NodeId) : Option ContentRow := lookup ContentRow.nodeId db.contents n

def chunk? (db : Db) (h : Digest) : Option ChunkRow := lookup ChunkRow.chunkHash db.chunks h

def volume? (db : Db) (v : VolumeId) : Option VolumeRow := lookup VolumeRow.volumeId db.volumes v

def edge? (db : Db) (e : EdgeId) : Option EdgeRow := lookup EdgeRow.edgeId db.edges e

def mount? (db : Db) (m : MountId) : Option MountRow := lookup MountRow.mountId db.mounts m

def lock? (db : Db) (l : LockId) : Option LockRow := lookup LockRow.lockId db.locks l

/-- The view `active_edge` -/
def activeEdges (db : Db) : List EdgeRow := db.edges.filter (fun e => !e.archived)

/-- The manifest rows of one version of one entry. -/
def manifest (db : Db) (n : NodeId) (version : ℕ) : List VersionRow :=
  db.versions.filter (fun r => r.contentId = n ∧ r.version = version)

/-- The type of a node, as the guard triggers look it up. -/
def nodeType? (db : Db) (n : NodeId) : Option NodeType := (db.node? n).map NodeRow.type

theorem mem_activeEdges {db : Db} {e : EdgeRow} :
    e ∈ db.activeEdges ↔ e ∈ db.edges ∧ e.archived = false := by
  simp [activeEdges]

theorem mem_manifest {db : Db} {n : NodeId} {v : ℕ} {r : VersionRow} :
    r ∈ db.manifest n v ↔ r ∈ db.versions ∧ r.contentId = n ∧ r.version = v := by
  simp [manifest]

end Db

end Aloelite
