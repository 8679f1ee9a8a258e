import Aloelite.Transactions

/-! Session and locking operations of `operations.py`: volumes, mounts, locks. -/
namespace Aloelite

open Fallible

/-- `db.active_session`, as far as the engine reads it. -/
structure Session where
  mountId : MountId
  volume : VolumeId
  encMode : EncMode
  deriving DecidableEq, Repr

/-- The part of a `Db` handle that outlives a transaction. -/
structure Conn where
  cipher : Cipher := .identity
  session : Option Session := none
  deriving DecidableEq, Repr

section

variable (C : Crypto) (E : Env) (k : Cipher)

/-- `_now_ns() + ttl_ms * 1_000_000` -/
def expiry (now : Int) (ttlMs : Option Int) : Option Int :=
  ttlMs.map (fun ttl => now + ttl * 1000000)

/-- `create_volume`. The root container comes with the volume; with a pin the
volume key is drawn and sealed under the key the pin derives. -/
def createVolume (tx : Tx) (name : Option String) (chunkSize : ℕ) (pin : Option Bytes)
    (encMode : EncMode) : Except FsError (Tx × VolumeId) := do
  let mode := if pin.isSome then encMode else .none
  let vid := E.uuid
  let tx ← tx.run E (.createVolume
    { volumeId := vid, name := name, createdAt := E.now, chunkSize := chunkSize, encMode := mode })
  let (root, tx) := tx.mint E
  let tx ← tx.run E (.createNode
    { nodeId := root, type := .container, name := "/", createdAt := E.now, volumeId := vid } none)
  let tx ← tx.run E (.linkRoot vid root)
  match pin with
  | none => return (tx, vid)
  | some pin =>
    -- the PIN's key wraps the volume key; only the wrapped one is stored
    let unlockKey := C.deriveUnlockKey pin (C.volumeHash vid root)
    let volumeKey := E.random tx.randomCount
    let wrapNonce := E.random (tx.randomCount + 1)
    let tx ← { tx with randomCount := tx.randomCount + 2 }.run E
      (.updateVolumeCrypto vid mode (C.encrypt unlockKey wrapNonce volumeKey) wrapNonce)
    return (tx, vid)

/-- `unwrap_volume_key` with the key a pin derives; `none` is an invalid tag. -/
def unlockVolume (volume : VolumeRow) (root : NodeId) (pin : Bytes) : Option Key :=
  volume.wrappedKey.bind (fun wrapped => volume.wrapNonce.bind (fun nonce =>
    C.decrypt (C.deriveUnlockKey pin (C.volumeHash volume.volumeId root)) nonce wrapped.1
      wrapped.2))

/-- `change_pin`: the volume key is sealed anew, itself unchanged. -/
def changePin (tx : Tx) (volume : VolumeId) (oldPin newPin : Bytes) : Except FsError Tx := do
  let row ← orRaise (tx.db.volume? volume) .notFound
  let root ← orRaise row.rootNodeId .notFound
  refuse (row.encMode = .none) .encryptionRequired
  let volumeKey ← orRaise (unlockVolume C row root oldPin) (.badKey volume)
  let wrapNonce := E.random tx.randomCount
  let unlockKey := C.deriveUnlockKey newPin (C.volumeHash volume root)
  { tx with randomCount := tx.randomCount + 1 }.run E
    (.updateVolumeCrypto volume row.encMode (C.encrypt unlockKey wrapNonce volumeKey) wrapNonce)

/-- The cipher and session a mount installs once its row is written. -/
def unlockMount (volume : VolumeRow) (root : NodeId) (mid : MountId) (pin : Option Bytes) :
    Except FsError Conn :=
  match volume.encMode, pin with
  | .none, none => .ok { cipher := .identity, session := none }
  | .none, some _ => .error .encryptionRequired
  | _, none => .error .encryptionRequired
  | mode, some pin => do
    let volumeKey ← orRaise (unlockVolume C volume root pin) (.badKey volume.volumeId)
    return { cipher := Cipher.ofVolume C volumeKey volume.volumeId mode
             session := some { mountId := mid, volume := volume.volumeId, encMode := mode } }

structure MountArgs where
  volume : VolumeId
  path : String := "/"
  ttlMs : Option Int := none
  pin : Option Bytes := none
  access : Access := .rw
  allowOverlap : Bool := false
  deriving DecidableEq, Repr

/-- The admission check of `mount` (D-4). -/
def requireNoOverlap (db : Db) (args : MountArgs) (anchor : NodeId) : Except FsError Unit :=
  if args.access = .rw ∧ args.allowOverlap = false then
    match db.checkRwOverlap E.now args.volume anchor with
    | none => .ok ()
    | some clash => .error (.mountConflict args.volume clash)
  else .ok ()

/-- `mount`; returns the mount id and what it installs on the connection. -/
def mount (tx : Tx) (args : MountArgs) : Except FsError (Tx × MountId × Conn) := do
  let row ← orRaise (tx.db.volume? args.volume) .notFound
  let root ← orRaise row.rootNodeId .notFound
  let anchor ← resolve tx.db root args.path
  requireNoOverlap E tx.db args anchor.node
  let mid := E.uuid
  let tx ← tx.run E (.createMount
    { mountId := mid, volumeId := args.volume, mountPoint := anchor.node,
      expiresAt := expiry E.now args.ttlMs, access := args.access })
  let conn ← unlockMount C row root mid args.pin
  let tx ← tx.run E (.setMountState mid .active)
  return (tx, mid, conn)

/-- `unmount` inside its transaction. -/
def unmount (tx : Tx) (mount : MountId) : Except FsError Tx :=
  tx.run E (.setMountState mount .unmounted)

/-- `unmount` after its transaction: only the mount whose session is active
takes the cipher down. -/
def Conn.afterUnmount (conn : Conn) (mount : MountId) : Conn :=
  match conn.session with
  | some s => if s.mountId = mount then {} else conn
  | none => conn

def renewMount (tx : Tx) (mount : MountId) (ttlMs : Option Int) : Except FsError Tx := do
  let _ ← requireMount E k tx.db mount false
  tx.run E (.renewMount mount (expiry E.now ttlMs))

/-! ### Locking -/

/-- `_require_own_lock`: valid, and held by this mount. -/
def requireOwnLock (db : Db) (mount : MountId) (lock : LockId) : Except FsError LockRow := do
  let row ← orRaise (db.lock? lock) .lockInvalid
  refuse (!db.lockValid E.now row) .lockInvalid
  refuse (row.mountId ≠ mount) (.lockHeld row.nodeId)
  return row

/-- `lock`: refused if any valid lock exists on the node, the caller's own
included. -/
def lock (tx : Tx) (mount : MountId) (path : String) (ttlMs : Option Int) :
    Except FsError (Tx × LockId) := do
  let m ← requireMount E k tx.db mount false
  let found ← resolve tx.db m.mountPoint path
  refuse (tx.db.checkAnyLock E.now found.node) (.lockHeld found.node)
  let tx ← tx.run E (.createLock
    { lockId := E.uuid, mountId := mount, nodeId := found.node, expiresAt := expiry E.now ttlMs })
  return (tx, E.uuid)

def unlock (tx : Tx) (mount : MountId) (lock : LockId) : Except FsError Tx := do
  let _ ← requireMount E k tx.db mount false
  let _ ← requireOwnLock E tx.db mount lock
  tx.run E (.releaseLock lock)

def renewLock (tx : Tx) (mount : MountId) (lock : LockId) (ttlMs : Option Int) :
    Except FsError Tx := do
  let _ ← requireMount E k tx.db mount false
  let _ ← requireOwnLock E tx.db mount lock
  tx.run E (.renewLock lock (expiry E.now ttlMs))

end

end Aloelite
