import Aloelite.OpsStreaming
import Aloelite.OpsTree
import Aloelite.Library.GuardedRuns

/-! The engine as one state machine: a file, the connections on it, the open
descriptors. One step is one database transaction of one call. -/
namespace Aloelite

open Fallible

abbrev ConnId := ℕ

/-- A call addressed to a mount. -/
inductive Request where
  | createContainer (path : String)
  | createEntry (path : String) (data : Bytes)
  | createSpecial (path : String) (type : NodeType) (data : Bytes)
  | writeAll (path : String) (data : Bytes)
  | append (path : String) (data : Bytes)
  | writeRange (path : String) (offset : ℕ) (data : Bytes)
  | truncate (path : String) (size : ℕ)
  | rename (path name : String)
  | link (src dst : String)
  | move (src dst : String)
  | remove (path : String)
  | removeRecursive (path : String)
  | copy (src dst : String)
  | pack (path : String)
  | unpack (path : String)
  | setOwner (path : String) (uid gid mode : Option Int)
  | setAtime (node : NodeId) (ts : Int)
  | setMtime (node : NodeId) (ts : Int)
  | setXattr (path name : String) (value : Bytes)
  | removeXattr (path name : String)
  | setMetadata (path : String) (metadata : Metadata)
  | setRetention (path : String) (keep : Option Int)
  | readAll (path : String)
  | lock (path : String) (ttlMs : Option Int)
  | unlock (lock : LockId)
  | renewLock (lock : LockId) (ttlMs : Option Int)
  | renewMount (ttlMs : Option Int)

inductive Reply where
  | done
  | idle
  | node (n : NodeId)
  | bytes (b : Bytes)
  | size (n : ℕ)
  | volume (v : VolumeId)
  | mount (m : MountId)
  | lock (l : LockId)
  | fd (f : FdId)
  | existed (b : Bool)
  | pruned (a b : ℕ)
  deriving DecidableEq, Repr

def noReply (r : Except FsError Tx) : Except FsError (Tx × Reply) :=
  (fun tx => (tx, Reply.done)) <$> r

def asReply {α : Type} (f : α → Reply) (r : Except FsError (Tx × α)) :
    Except FsError (Tx × Reply) :=
  (fun p => (p.1, f p.2)) <$> r

section

variable (C : Crypto) (M : Msgpack) (E : Env) (k : Cipher)

/-- The transaction of a request. -/
def Request.run (tx : Tx) (mount : MountId) : Request → Except FsError (Tx × Reply)
  | createContainer path => asReply .node (Aloelite.createContainer E k tx mount path)
  | createEntry path data => asReply .node (Aloelite.createEntry C E k tx mount path data)
  | createSpecial path type data =>
    asReply .node (Aloelite.createSpecial C E k tx mount path type data)
  | writeAll path data => noReply (Aloelite.writeAll C E k tx mount path data)
  | append path data => asReply .size (Aloelite.append C E k tx mount path data)
  | writeRange path offset data =>
    asReply .size (Aloelite.writeRange C E k tx mount path offset data)
  | truncate path size => noReply (Aloelite.truncate C E k tx mount path size)
  | rename path name => noReply (Aloelite.rename E k tx mount path name)
  | link src dst => noReply (Aloelite.link E k tx mount src dst)
  | move src dst => noReply (Aloelite.move E k tx mount src dst)
  | remove path => noReply (Aloelite.remove E k tx mount path)
  | removeRecursive path => noReply (Aloelite.removeRecursive E k tx mount path)
  | copy src dst => asReply .node (Aloelite.copy E k tx mount src dst)
  | pack path => asReply .node (Aloelite.pack C M E k tx mount path)
  | unpack path => noReply (Aloelite.unpack C M E k tx mount path)
  | setOwner path uid gid mode => noReply (Aloelite.setOwner E k tx mount path uid gid mode)
  | setAtime node ts => noReply (Aloelite.setAtime E k tx mount node ts)
  | setMtime node ts => noReply (Aloelite.setMtime E k tx mount node ts)
  | setXattr path name value => noReply (Aloelite.setXattr E k tx mount path name value)
  | removeXattr path name => asReply .existed (Aloelite.removeXattr E k tx mount path name)
  | setMetadata path metadata => noReply (Aloelite.setMetadata E k tx mount path metadata)
  | setRetention path keep => noReply (Aloelite.setRetention E k tx mount path keep)
  | readAll path => (fun b => (tx, Reply.bytes b)) <$> Aloelite.readAll C E k tx.db mount path
  | lock path ttlMs => asReply .lock (Aloelite.lock E k tx mount path ttlMs)
  | unlock l => noReply (Aloelite.unlock E k tx mount l)
  | renewLock l ttlMs => noReply (Aloelite.renewLock E k tx mount l ttlMs)
  | renewMount ttlMs => noReply (Aloelite.renewMount E k tx mount ttlMs)

/-- `prune`: locks, then nodes, with both row counts. -/
def prune (tx : Tx) (volume : Option VolumeId) : Except FsError (Tx × ℕ × ℕ) := do
  let locks := tx.db.locks.length
  let tx ← tx.run E .pruneLocks
  let lockCount := locks - tx.db.locks.length
  let nodes := tx.db.nodes.length
  let tx ← tx.run E (.pruneNodes volume)
  return (tx, nodes - tx.db.nodes.length, lockCount)

/-- `prune_content`: manifest rows, then pool rows, with both row counts. -/
def pruneContent (tx : Tx) (volume : Option VolumeId) : Except FsError (Tx × ℕ × ℕ) := do
  let versions := tx.db.versions.length
  let tx ← tx.run E (.pruneContentVersions volume)
  let versionCount := versions - tx.db.versions.length
  let chunks := tx.db.chunks.length
  let tx ← tx.run E .pruneContentChunks
  return (tx, versionCount, chunks - tx.db.chunks.length)

end

/-- A descriptor on its connection. `rows` is history: the manifest rows its own
transactions inserted. -/
structure OpenFile where
  conn : ConnId
  d : Descriptor
  rows : List VersionRow := []
  deriving DecidableEq, Repr

/-- The file and its clients. The fields from `aliased` on are history no step
reads: `pointers` are the committed versions each entry has had, newest first,
`keys` and `pins` what each volume was sealed with, `clock` the last reading. -/
structure Sys where
  db : Db := {}
  conns : ConnId → Conn := fun _ => {}
  fds : List OpenFile := []
  aliased : Bool := false
  committed : NodeId → Bytes := fun _ => []
  pointers : NodeId → List ℕ := fun _ => []
  keys : VolumeId → Key := fun _ => []
  pins : VolumeId → Bytes := fun _ => []
  clock : Int := 0

/-- The committed version of an entry. -/
def Db.committedVersion (db : Db) (n : NodeId) : Option ℕ := (db.content? n).map ContentRow.version

namespace Sys

/-- `BEGIN` -/
def begin (s : Sys) : Tx := { db := s.db, aliased := s.aliased, committed := s.committed }

/-- The pointer history after a transaction: a version is added where the
committed one changed. -/
def notePointers (old new : Db) (h : NodeId → List ℕ) (n : NodeId) : List ℕ :=
  match new.committedVersion n with
  | none => h n
  | some v => if old.committedVersion n = some v then h n else v :: h n

/-- `COMMIT` -/
def commit (s : Sys) (tx : Tx) : Sys :=
  { s with
    db := tx.db
    aliased := tx.aliased
    committed := tx.committed
    pointers := notePointers s.db tx.db s.pointers }

/-- Run a transaction; a failed one leaves the state as it was. -/
def transact {α : Type} (s : Sys) (body : Except FsError (Tx × α)) (done : Sys → α → Sys × Reply) :
    Sys × Except FsError Reply :=
  match body with
  | .error e => (s, .error e)
  | .ok (tx, a) => ((done (s.commit tx) a).1, .ok (done (s.commit tx) a).2)

def setConn (s : Sys) (c : ConnId) (conn : Conn) : Sys :=
  { s with conns := Function.update s.conns c conn }

def setFd (s : Sys) (fd : FdId) (f : OpenFile) : Sys := { s with fds := s.fds.set fd f }

/-- The rows a transaction added to the manifest. -/
def addedRows (old new : Db) : List VersionRow := new.versions.drop old.versions.length

/-- Run a transaction of an open descriptor; the descriptor changes in memory
even when the transaction fails. -/
def fdTransact (s : Sys) (fd : FdId) (f : OpenFile) (d : Descriptor) (body : Except FsError Tx) :
    Sys × Except FsError Reply :=
  match body with
  | .error e => (s.setFd fd { f with d := d }, .error e)
  | .ok tx =>
    ((s.commit tx).setFd fd { f with d := d, rows := f.rows ++ addedRows s.db tx.db }, .ok .done)

end Sys

/-- A step on one connection, or on the connection of a descriptor. -/
inductive Op where
  | request (mount : MountId) (r : Request)
  | createVolume (name : Option String) (chunkSize : ℕ) (pin : Option Bytes) (encMode : EncMode)
  | changePin (volume : VolumeId) (oldPin newPin : Bytes)
  | mount (args : MountArgs)
  | unmount (mount : MountId)
  | openRead (mount : MountId) (path : String)
  | openWrite (mount : MountId) (path : String) (mode : WriteMode) (lock : Option LockId)
  | fdRead (fd : FdId) (n : Option ℕ)
  | fdWrite (fd : FdId) (data : Bytes)
  | fdFlush (fd : FdId)
  | fdSeek (fd : FdId) (offset : Int) (whence : Whence)
  | fdClose (fd : FdId)
  | fdAbort (fd : FdId)
  | prune (volume : Option VolumeId)
  | pruneContent (volume : Option VolumeId)

/-- A step with what it takes from outside. -/
structure Label where
  env : Env
  conn : ConnId
  op : Op

section

variable (C : Crypto) (M : Msgpack)

/-- Deciding steps on a descriptor: a descriptor inside the flush loop of `write`
takes nothing but its next flush. -/
def fdStep (E : Env) (s : Sys) (fd : FdId) (f : OpenFile) : Op → Sys × Except FsError Reply
  | .fdFlush _ =>
    -- one turn of `write`'s loop, in a transaction of its own
    if f.d.writing ∧ f.d.closed = false then
      let r := f.d.flushOneChunk C E (s.conns f.conn).cipher s.begin
      s.fdTransact fd f r.1 r.2
    else (s, .ok .idle)
  | op =>
    if f.d.writing then (s, .ok .idle)
    else
      match op with
      | .fdRead _ n =>
        match f.d.read C (s.conns f.conn).cipher s.db n with
        | .error e => (s, .error e)
        | .ok (b, d) => (s.setFd fd { f with d := d }, .ok (.bytes b))
      | .fdWrite _ data =>
        match f.d.absorb data with
        | .error e => (s, .error e)
        | .ok d => (s.setFd fd { f with d := d }, .ok (.size data.length))
      | .fdSeek _ offset whence =>
        match f.d.seek s.db offset whence with
        | .error e => (s, .error e)
        | .ok d => (s.setFd fd { f with d := d }, .ok (.size d.pos))
      | .fdClose _ =>
        -- `_closed` is set whether the transaction goes through or not
        s.fdTransact fd f { f.d with closed := true }
          (f.d.close C E (s.conns f.conn).cipher s.begin)
      | .fdAbort _ => s.fdTransact fd f { f.d with closed := true } (f.d.abort E s.begin)
      | _ => (s, .ok .idle)

/-- `fdStep` on a descriptor that exists. -/
def onFd (E : Env) (s : Sys) (fd : FdId) (op : Op) : Sys × Except FsError Reply :=
  match s.fds[fd]? with
  | none => (s, .ok .idle)
  | some f => fdStep C E s fd f op

/-- One call, or one transaction of a streaming call. -/
def exec (E : Env) (s : Sys) (c : ConnId) (op : Op) : Sys × Except FsError Reply :=
  let k := (s.conns c).cipher
  match op with
  | .request mount r => s.transact (r.run C M E k s.begin mount) (fun s a => (s, a))
  | .createVolume name chunkSize pin mode =>
    s.transact (createVolume C E s.begin name chunkSize pin mode) (fun s v =>
      -- an encrypted volume's key is the first random draw of `create_volume`
      ({ s with
         keys := if pin.isSome then Function.update s.keys v (E.random 0) else s.keys
         pins := Function.update s.pins v (pin.getD []) }, .volume v))
  | .changePin volume oldPin newPin =>
    s.transact (asReply (fun _ => .done)
      ((fun tx => (tx, ())) <$> changePin C E s.begin volume oldPin newPin))
      (fun s a => ({ s with pins := Function.update s.pins volume newPin }, a))
  | .mount args =>
    s.transact (Aloelite.mount C E s.begin args) (fun s a => (s.setConn c a.2, .mount a.1))
  | .unmount mount =>
    s.transact (noReply (unmount E s.begin mount))
      (fun s a => (s.setConn c ((s.conns c).afterUnmount mount), a))
  -- a reader opens without a transaction
  | .openRead mount path =>
    match openRead E k s.db mount path with
    | .error e => (s, .error e)
    | .ok d => ({ s with fds := s.fds ++ [{ conn := c, d := d }] }, .ok (.fd s.fds.length))
  | .openWrite mount path mode lock =>
    s.transact (openWrite C E k s.begin mount path mode lock) (fun s' d =>
      ({ s' with fds := s.fds ++ [{ conn := c, d := d }] }, .fd s.fds.length))
  -- a descriptor keeps the connection it was opened on
  | .fdRead fd _ => onFd C E s fd op
  | .fdWrite fd _ => onFd C E s fd op
  | .fdFlush fd => onFd C E s fd op
  | .fdSeek fd _ _ => onFd C E s fd op
  | .fdClose fd => onFd C E s fd op
  | .fdAbort fd => onFd C E s fd op
  | .prune volume =>
    s.transact (prune E s.begin volume) (fun s a => (s, .pruned a.1 a.2))
  | .pruneContent volume =>
    s.transact (pruneContent E s.begin volume) (fun s a => (s, .pruned a.1 a.2))

/-- The state after a step; the clock reading is noted. -/
def step (s : Sys) (l : Label) : Sys :=
  { (exec C M l.env s l.conn l.op).1 with clock := l.env.now }

/-- Every state the engine reaches from an empty file by steps that meet
`guard`. -/
def Reaches (guard : Sys → Label → Prop) (s : Sys) : Prop :=
  GuardedRuns.Run (step C M) guard {} s

theorem reaches_foldl {C : Crypto} {M : Msgpack} {guard : Sys → Label → Prop} {ls : List Label}
    (h : GuardedRuns.Guards (step C M) guard {} ls) : Reaches C M guard (ls.foldl (step C M) {}) :=
  GuardedRuns.Run.foldl h

end

end Aloelite
