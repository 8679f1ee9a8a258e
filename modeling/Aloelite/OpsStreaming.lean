import Aloelite.OpsSession
import Aloelite.OpsStructural
import Aloelite.OpsContent

/-! The streaming descriptor of `descriptor.py` and the two operations that open
one. A write reaches the file one chunk at a time, each in its own transaction. -/
namespace Aloelite

open Fallible

inductive WriteMode where
  | truncate
  | append
  deriving DecidableEq, Repr

inductive Whence where
  | set
  | cur
  | fromEnd
  deriving DecidableEq, Repr

/-- `Descriptor`. `writing` is the program counter of `write`: set while its
flush loop has a full chunk left to stage. -/
structure Descriptor where
  node : NodeId
  volume : VolumeId
  cs : ℕ
  writable : Bool
  lock : Option LockId := none
  ownsLock : Bool := false
  pos : ℕ := 0
  closed : Bool := false
  writing : Bool := false
  /-- the claimed version of a writer; `None` until the first flush or close -/
  version : Option ℕ := none
  carrySrc : ℕ := 0
  carryFull : ℕ := 0
  carryDone : Bool := false
  chunkIndex : ℕ := 0
  flushed : ℕ := 0
  pending : Bytes := []
  /-- history: what the accepted writes make of the content carried over -/
  stream : Bytes := []
  deriving DecidableEq, Repr

section

variable (C : Crypto) (E : Env) (k : Cipher)

def openRead (db : Db) (mount : MountId) (path : String) : Except FsError Descriptor := do
  let m ← requireMount E k db mount false
  let found ← resolve db m.mountPoint path
  refuse (found.type = .container) (.notAnEntry found.node)
  return { node := found.node, volume := m.volume, cs := chunkSizeOf db m.volume,
           writable := false }

/-- The node `open_write` writes to: the one the path resolves to, or a new
empty entry when truncating and nothing is there. -/
def openTarget (tx : Tx) (mount : MountId) (m : MountCtx) (path : String) (mode : WriteMode) :
    Except FsError (Tx × NodeId) :=
  match resolve tx.db m.mountPoint path with
  | .ok found => do
    refuse (found.type = .container) (.notAnEntry found.node)
    return (tx, found.node)
  | .error .notFound =>
    match mode with
    | .append => .error .notFound
    | .truncate => createEntry C E k tx mount path []
  | .error e => .error e

/-- The lock of a writer: the supplied one if it is this mount's lock on this
node, else a minted one. -/
def writerLock (tx : Tx) (mount : MountId) (node : NodeId) (lock : Option LockId) :
    Except FsError (Tx × LockId) :=
  match lock with
  | some supplied => do
    let row ← requireOwnLock E tx.db mount supplied
    refuse (row.nodeId ≠ node) .lockInvalid
    return (tx, supplied)
  | none => do
    requireUnlocked E tx.db node mount
    let tx ← tx.run E (.createLock
      { lockId := E.uuid, mountId := mount, nodeId := node, expiresAt := none })
    return (tx, E.uuid)

def openWrite (tx : Tx) (mount : MountId) (path : String) (mode : WriteMode)
    (lock : Option LockId) :
    Except FsError (Tx × Descriptor) := do
  let m ← requireMount E k tx.db mount true
  let (tx, node) ← openTarget C E k tx mount m path mode
  let (tx, lockId) ← writerLock E tx mount node lock
  let cs := chunkSizeOf tx.db m.volume
  let d : Descriptor :=
    { node := node, volume := m.volume, cs := cs, writable := true, lock := some lockId,
      ownsLock := lock.isNone }
  match mode with
  | .truncate => return (tx, d)
  -- the full chunks are carried over at the first claim; the tail is written anew
  | .append => do
    refuse (cs = 0) .valueError
    let (srcVersion, size) := (readContentMeta tx.db node).getD (0, 0)
    let full := size / cs
    let pending ← readTail C k tx.db node srcVersion size cs
    return (tx, { d with
      carrySrc := srcVersion
      carryFull := full
      chunkIndex := full
      flushed := full * cs
      pending := pending
      pos := size
      stream := tx.committed node })

namespace Descriptor

/-- `read`: the current committed pointer, then the chunks that cover the range.
`none` reads to the end. -/
def read (db : Db) (d : Descriptor) (n : Option ℕ) : Except FsError (Bytes × Descriptor) := do
  refuse d.closed .valueError
  refuse d.writable .unsupported
  -- the pointer is read anew at every call
  let (version, size) := (readContentMeta db d.node).getD (0, 0)
  let start := d.pos
  let stop := match n with
    | none => size
    | some n => min size (start + n)
  if stop ≤ start then return ([], d)
  else do
    refuse (d.cs = 0) .valueError
    let lo := start / d.cs
    let rows ← readChunkRange C k db d.node version lo ((stop - 1) / d.cs)
    let buf := rows.flatten
    return ((buf.take (stop - lo * d.cs)).drop (start - lo * d.cs), { d with pos := stop })

/-- The in-memory half of `write`: the data enters the pending buffer, a gap is
filled with zeros. -/
def absorb (d : Descriptor) (data : Bytes) : Except FsError Descriptor := do
  refuse d.closed .valueError
  refuse (!d.writable) .valueError
  if data = [] then return d
  else do
    refuse (d.pos < d.flushed) .unsupported
    let pending := patchWindow d.pending (d.pos - d.flushed) data
    return { d with
      pending := pending
      pos := d.pos + data.length
      writing := d.cs ≤ pending.length
      stream := patchWindow d.stream d.pos data }

/-- `_claim_version_locked`. What it sets on the descriptor stays set when the
transaction is rolled back. -/
def claimVersion (tx : Tx) (d : Descriptor) : Descriptor × Except FsError Tx :=
  let version := d.version.getD (tx.db.nextVersion d.node)
  let d := { d with version := some version }
  if d.carryDone then (d, .ok tx)
  else
    match carryLeading E tx d.node version d.carrySrc d.carryFull with
    | .ok tx => ({ d with carryDone := true }, .ok tx)
    | .error e => (d, .error e)

/-- `_flush_one_chunk`, one round of the loop of `write`. An exception leaves
the loop with the chunk still pending. -/
def flushOneChunk (tx : Tx) (d : Descriptor) : Descriptor × Except FsError Tx :=
  let (d, claimed) := d.claimVersion E tx
  match claimed.bind (fun tx =>
    tx.stageChunk C E k d.node (d.version.getD 0) d.chunkIndex (d.pending.take d.cs)) with
  | .ok tx =>
    let pending := d.pending.drop d.cs
    ({ d with
      chunkIndex := d.chunkIndex + 1
      flushed := d.flushed + d.cs
      pending := pending
      writing := d.cs ≤ pending.length }, .ok tx)
  | .error e => ({ d with writing := false }, .error e)

def seek (db : Db) (d : Descriptor) (offset : Int) (whence : Whence) :
    Except FsError Descriptor := do
  refuse d.closed .valueError
  let total := if d.writable then d.flushed + d.pending.length
    else ((readContentMeta db d.node).map Prod.snd).getD 0
  let target : Int := match whence with
    | .set => offset
    | .cur => d.pos + offset
    | .fromEnd => total + offset
  refuse (target < 0) .valueError
  return { d with pos := target.toNat }

/-- A minted lock goes with the descriptor; a supplied one stays. -/
def releaseOwnLock (tx : Tx) (d : Descriptor) : Except FsError Tx :=
  match d.ownsLock, d.lock with
  | true, some lock => tx.run E (.releaseLock lock)
  | _, _ => .ok tx

/-- The transaction of `abort`. -/
def abort (tx : Tx) (d : Descriptor) : Except FsError Tx :=
  if d.closed ∨ d.writable = false then .ok tx else d.releaseOwnLock E tx

/-- The lock of a writer has to be valid when it commits. -/
def requireLock (db : Db) (d : Descriptor) : Except FsError Unit :=
  match d.lock with
  | some lock => refuse (!db.getLockValid E.now lock) .lockInvalid
  | none => .ok ()

/-- The last, short chunk. -/
def stagePending (tx : Tx) (d : Descriptor) (version : ℕ) : Except FsError Tx :=
  if d.pending = [] then .ok tx else tx.stageChunk C E k d.node version d.chunkIndex d.pending

/-- The transaction of `close` on a writer: the lock, the claim, the last chunk,
the pointer swap, the release. -/
def commit (tx : Tx) (d : Descriptor) : Except FsError Tx := do
  d.requireLock E tx.db
  let claimed := d.claimVersion E tx
  let version := claimed.1.version.getD 0
  let tx ← claimed.2
  let tx ← d.stagePending C E k tx version
  let tx ← tx.run E (.updateContent d.node version (d.flushed + d.pending.length))
  d.releaseOwnLock E (tx.gives d.node d.stream)

/-- `close`; a reader has nothing to commit. -/
def close (tx : Tx) (d : Descriptor) : Except FsError Tx :=
  if d.closed ∨ d.writable = false then .ok tx else d.commit C E k tx

end Descriptor

end

end Aloelite
