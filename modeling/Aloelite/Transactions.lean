import Aloelite.StoreStatements
import Aloelite.Resolve
import Aloelite.Library.Pieces

/-! What an operation runs on inside `Db.txn`: the file, the ids the volume's
mint returns, the random draws. An operation that fails returns no file, which
is the rollback. -/
namespace Aloelite

open Fallible Pieces

/-- What a call takes from outside: one clock reading, the ids the volume's
`MonotonicMint` returns in order, a fresh stateless uuid7, `os.urandom`. -/
structure Env where
  now : Int
  ids : ℕ → ℕ
  uuid : ℕ
  random : ℕ → Bytes
  ids_strictMono : StrictMono ids

/-- Ids from `base` on, one clock reading, no randomness: what the runs on fixed
inputs take. -/
def Env.counting (base : ℕ) (now : Int := 0) : Env where
  now := now
  ids i := base + i
  uuid := base
  random _ := []
  ids_strictMono := fun _ _ h => Nat.add_lt_add_left h base

/-- A transaction in progress. The last two fields are history no operation
reads. `aliased`: some staged chunk met a pool row at its own address that does
not open to it. `committed`: the bytes each entry was last given. -/
structure Tx where
  db : Db
  idCount : ℕ := 0
  randomCount : ℕ := 0
  aliased : Bool := false
  committed : NodeId → Bytes := fun _ => []

/-- `_Mount`: a validated mount. -/
structure MountCtx where
  id : MountId
  mountPoint : NodeId
  volume : VolumeId
  encMode : EncMode
  deriving DecidableEq, Repr

section

variable (C : Crypto) (E : Env) (k : Cipher)

namespace Tx

def run (tx : Tx) (st : Stmt) : Except FsError Tx := do
  let db ← st.exec E.now tx.db
  return { tx with db := db }

/-- `mint.mint()` -/
def mint (tx : Tx) : ℕ × Tx :=
  (E.ids tx.idCount, { tx with idCount := tx.idCount + 1 })

/-- Whether the pool holds a row at the address of `ct` that does not open to
`data`. -/
def aliases (db : Db) (ct data : Bytes) : Bool :=
  (db.chunk? (C.chunkHash ct)).any (fun c => k.decryptChunk C c.data c.nonce c.encTag ≠ some data)

/-- Record what an entry now holds. -/
def gives (tx : Tx) (node : NodeId) (data : Bytes) : Tx :=
  { tx with committed := Function.update tx.committed node data }

/-- `Db.stage_chunk`, and one round of `Db.stage_chunks`: seal, address by the
ciphertext, upsert, reference. -/
def stageChunk (tx : Tx) (node : NodeId) (version index : ℕ) (data : Bytes) :
    Except FsError Tx := do
  let (ct, nonce, tag) := k.encryptChunk C (E.random tx.randomCount) data
  let tx := { tx with
    randomCount := tx.randomCount + 1
    aliased := tx.aliased || aliases C k tx.db ct data }
  let tx ← tx.run E (.upsertChunk
    { chunkHash := C.chunkHash ct, data := ct, length := data.length,
      nonce := nonce, encTag := tag })
  tx.run E (.insertChunkRef
    { contentId := node, version := version, chunkIndex := index, chunkHash := C.chunkHash ct })

/-- Stage consecutive chunks from `index` on. -/
def stageFrom (tx : Tx) (node : NodeId) (version index : ℕ) : List Bytes → Except FsError Tx
  | [] => .ok tx
  | chunk :: chunks => do
    let tx ← tx.stageChunk C E k node version index chunk
    stageFrom tx node version (index + 1) chunks

end Tx

/-- `Db.chunk_size_of` -/
def chunkSizeOf (db : Db) (volume : VolumeId) : ℕ :=
  ((db.volume? volume).map VolumeRow.chunkSize).getD 0

/-- `split_chunks`; a step of zero is a ValueError. -/
def splitChunks (data : Bytes) (chunkSize : ℕ) : Except FsError (List Bytes) := do
  refuse (data ≠ [] ∧ chunkSize = 0) .valueError
  return pieces chunkSize data

/-- `Db.stage_chunks` -/
def Tx.stageChunks (tx : Tx) (node : NodeId) (version : ℕ) (volume : VolumeId) (data : Bytes) :
    Except FsError Tx := do
  let chunks ← splitChunks data (chunkSizeOf tx.db volume)
  tx.stageFrom C E k node version 0 chunks

/-- `Db.read_content_meta`: committed version and size. -/
def readContentMeta (db : Db) (node : NodeId) : Option (ℕ × ℕ) :=
  (db.content? node).map (fun c => (c.version, c.size))

/-- `decrypt_chunk` over pool rows, joined. -/
def openChunks (chunks : List ChunkRow) : Except FsError (List Bytes) :=
  chunks.mapM (fun c => orRaise (k.decryptChunk C c.data c.nonce c.encTag) .invalidTag)

/-- `Db.read_chunk_range` -/
def readChunkRange (db : Db) (node : NodeId) (version lo hi : ℕ) : Except FsError (List Bytes) :=
  openChunks C k ((db.readChunksRange node version lo hi).map Prod.snd)

/-- `Db.read_content_bytes` -/
def readContentBytes (db : Db) (node : NodeId) : Except FsError Bytes :=
  match db.content? node with
  | none => .ok []
  | some c => do
    let parts ← openChunks C k (db.readChunks node c.version)
    return parts.flatten

/-- `_require_mount`: valid, keyed like its volume (ENC-3), writable if asked. -/
def requireMount (db : Db) (mount : MountId) (write : Bool) : Except FsError MountCtx := do
  let row ← orRaise (db.validMount? E.now mount) (.mountInvalid mount)
  let volume ← orRaise (db.volume? row.volumeId) (.mountInvalid mount)
  refuse ((decide (volume.encMode ≠ .none)) ≠ k.encrypts) .encryptionRequired
  refuse (write ∧ row.access = .ro) (.readOnly mount)
  return ⟨mount, row.mountPoint, row.volumeId, volume.encMode⟩

/-- `_require_name` -/
def requireName (name : String) : Except FsError Unit :=
  refuse (name = "") .nameless

/-- Refuse when another mount holds a valid lock on the node (ACC-11). -/
def requireUnlocked (db : Db) (node : NodeId) (mount : MountId) : Except FsError Unit :=
  refuse (db.checkLockHeld E.now node mount) (.lockHeld node)

/-- The transitive form of the lock check, for whole subtrees. -/
def requireSubtreeUnlocked (db : Db) (root : NodeId) (mount : MountId) : Except FsError Unit :=
  match db.checkLockHeldSubtree E.now root mount with
  | none => .ok ()
  | some node => .error (.lockHeld node)

/-- `_new_node` -/
def newNode (tx : Tx) (m : MountCtx) (type : NodeType) (name : String) (createdAt : Option Int)
    (modifiedAt : Option Int) (metadata : Metadata) : Except FsError (Tx × NodeId) := do
  let (id, tx) := tx.mint E
  let tx ← tx.run E (.createNode
    { nodeId := id, type := type, name := name, createdAt := createdAt.getD E.now,
      volumeId := m.volume, metadata := metadata } modifiedAt)
  return (tx, id)

/-- `_link`; a name is given only for a placement unlike the node's own. -/
def linkChild (tx : Tx) (m : MountCtx) (parent child : NodeId) (name : Option String) :
    Except FsError Tx := do
  let (id, tx) := tx.mint E
  tx.run E (.createEdge id parent child m.volume name)

/-- `_put_initial_content`: version 0 and no chunks for empty data, else version
1 staged. -/
def putInitialContent (tx : Tx) (m : MountCtx) (node : NodeId) (data : Bytes) :
    Except FsError Tx := do
  let version := if data = [] then 0 else 1
  let tx ← tx.run E (.createContent node version data.length)
  let tx := tx.gives node data
  if data = [] then return tx else tx.stageChunks C E k node version m.volume data

end

end Aloelite
