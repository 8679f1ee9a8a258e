import Aloelite.Dav
import Aloelite.OpsListing
import Aloelite.VolumeStore

/-! The manager: `api.py` over the records, the FUSE threads of `engine/supervisor.py`, and the
direct sessions it shares with `dav.py` and `s3.py`. -/
namespace Aloelite

open VolumeStore (JsonVolumeStore FilesystemRecord)

/-- How volume ids are written. -/
structure IdSpelling where
  text : VolumeId → String
  read : String → Option VolumeId
  read_eq_some : ∀ name v, read name = some v ↔ text v = name

structure ManagerConfig where
  aloeliteRoot : String
  mntDir : String
  cookieAuth : Bool

/-- A thread that serves a FUSE mount, with what `fuse_main` holds meanwhile. -/
structure FuseThread where
  mountpoint : String
  volume : String
  path : String
  conn : ConnId
  mount : MountId
  deriving DecidableEq, Repr

/-- What becomes of a FUSE thread while `mount` waits for it; a thread that is late is told
to stop, and joins or does not. -/
inductive FuseStart where
  | noDirectory
  | ready
  | exited
  | late (joined : Bool)
  deriving DecidableEq, Repr

/-- `lingering` are the threads stopped that have not ended. -/
structure Manager where
  front : DavFront
  store : JsonVolumeStore
  threads : List FuseThread := []
  lingering : List FuseThread := []

/-- The body of `POST /volumes`. -/
structure CreateBody where
  name : String
  encrypted : Bool := false
  pin : Option Bytes := none
  fsId : Option String := none

/-- The body of `POST /volumes/<id>/mount`. -/
structure MountBody where
  direct : Bool := false
  pin : Option Bytes := none
  persist : Bool := false
  mountName : Option String := none
  pinEnv : Option String := none
  pinFile : Option String := none

/-- What a client shows to `DELETE /volumes/<id>/mount`; `csrf` says that the header is there. -/
structure Detach where
  token : Option Token := none
  all : Bool := false
  csrf : Bool := true

/-- An Aloelite file that is uploaded, with the creation times of its volumes. -/
structure Upload where
  file : Sys
  filename : String
  createdAt : VolumeId → Rat

/-- The ids and the time a call draws. -/
structure Drawn where
  volumes : ℕ → String
  fs : String
  now : Rat

inductive ManagerCall where
  | create (body : CreateBody) (w : Drawn)
  | upload (u : Upload) (w : Drawn)
  | delete (vid : String) (joined : Bool)
  | mount (vid : String) (body : MountBody) (start : FuseStart)
  | unmount (vid : String) (client : Detach) (joined : Bool)
  | dav (vid : String) (pin : Option Bytes)
  | s3 (bucket : String) (mayAccess : Bool)
  /-- what handlers and threads ask of the engine -/
  | work (path : String) (ls : List Label)
  | shutdown (late : List String)

/-- A call and what it takes from outside. -/
structure ManagerLabel where
  call : ManagerCall
  draws : Draws

def reservedBuckets : List String :=
  ["admin", "filesystems", "health", "volumes", "dav", "static", "s3"]

def DavRefusal.status : DavRefusal → ℕ
  | .fault status => status
  | .raised _ => 500

/-- How `mount_volume` answers an error. -/
def ManagerError.mountStatus : ManagerError → ℕ
  | .alreadyMounted => 409
  | .notMounted => 409
  | .badPin => 400
  | .encryptionMismatch => 400
  | .mountFailed _ => 500
  | .notAuthorized => 500

section

variable (C : Crypto) (M : Msgpack) (ids : IdSpelling) (hash : Bytes → Bytes) (cfg : ManagerConfig)
  (d : Draws)

/-! ### `fuse_main` -/

/-- `_find_or_create_volume`: the first of the volumes of a name. -/
def findOrCreateVolume (s : Sys) (c : ConnId) (name : String) (pin : Option Bytes) :
    Sys × Except FsError VolumeId :=
  match s.db.volumes.find? (fun v => v.name = some name) with
  | some v => (s, .ok v.volumeId)
  | none =>
    match exec C M d.create s c (.createVolume (some name) 1048576 pin .convergent) with
    | (s, .ok (.volume v)) => (s, .ok v)
    | (s, .ok _) => (s, .error .corrupt)
    | (s, .error e) => (s, .error e)

/-- `fuse_main` up to its loop. The id it found goes through `Aloelite.mount`, which takes it
for a name first. -/
def fuseMount (s : Sys) (c : ConnId) (name : String) (pin : Option Bytes) :
    Sys × Except FsError MountId :=
  match findOrCreateVolume C M d s c name pin with
  | (s, .error e) => (s, .error e)
  | (s, .ok v) =>
    match resolveVolume ids.read s.db (ids.text v) with
    | none => (s, .error .notFound)
    | some v =>
      match exec C M d.mount s c (.mount { volume := v, ttlMs := some 300000, pin := pin }) with
      | (s, .ok (.mount m)) => (s, .ok m)
      | (s, .ok _) => (s, .error .corrupt)
      | (s, .error e) => (s, .error e)

namespace Manager

variable (m : Manager) (rec : VolumeStore.VolumeRecord)

/-- `_gated` -/
def gated : Bool := cfg.cookieAuth && rec.encrypted

def isUnlocked (vid : String) : Bool := (m.front.reg.sessions vid).isSome

/-- The record as the registry takes it. -/
def opened (path : String) : VolumeRecord := { id := rec.id, name := rec.name, sqlitePath := path }

def setReg (reg : DirectSessionRegistry) : Manager := { m with front.reg := reg }

/-- `store.put` -/
def put : Manager := { m with store := (m.store.put rec false).1 }

/-- The record of a direct session. -/
def markDirect : VolumeStore.VolumeRecord :=
  { rec with mounted := true, mountpoint := none, frontend := some "direct" }

/-- The record once nothing is mounted. -/
def cleared : VolumeStore.VolumeRecord :=
  { rec with mounted := false, mountpoint := none, frontend := none, autoMount := false }

/-! ### `MountSupervisor` -/

def mountpointFor (name : String) : String := rstripSlash cfg.mntDir ++ "/" ++ name

/-- `_resolve_mountpoint` -/
def resolveMountpoint : String :=
  match rec.mountpoint with
  | some mp => if mp = "" then mountpointFor cfg rec.id else mp
  | none => mountpointFor cfg rec.id

/-- What a thread that ends does: its engine mount goes. -/
def fuseEnd (files : String → Sys) (t : FuseThread) : String → Sys :=
  Function.update files t.path (exec C M d.unmount (files t.path) t.conn (.unmount t.mount)).1

def setFiles (files : String → Sys) : Manager := m.setReg { m.front.reg with files := files }

/-- `supervisor.mount`; the status is that of `mount_volume`. -/
def supervisorMount (pin : Option Bytes) (name : String) (start : FuseStart) :
    Manager × Except ℕ String :=
  match m.store.sqlitePathOf rec with
  | .error _ => (m, .error 500)
  | .ok path =>
    let mountpoint := mountpointFor cfg name
    if m.threads.any (fun t => t.mountpoint = mountpoint) then (m, .error 409)
    -- `os.makedirs` or `os.chmod` raises
    else if start = .noDirectory then (m, .error 500)
    else
      let reg := m.front.reg
      let c := reg.opened
      let s := (reg.files path).setConn c {}
      let m := m.setReg { reg with opened := reg.opened + 1 }
      match fuseMount C M ids d s c rec.name pin with
      | (s, .error e) =>
        let m := m.setFiles (Function.update m.front.reg.files path s)
        match start with
        -- the probe timed out before the thread failed: `MountTimeout`
        | .late _ => (m, .error 503)
        | _ => (m, .error (ManagerError.ofMount e).mountStatus)
      | (s, .ok mount) =>
        let t : FuseThread :=
          { mountpoint := mountpoint, volume := rec.id, path := path, conn := c, mount := mount }
        let m := m.setFiles (Function.update m.front.reg.files path s)
        match start with
        | .ready => ({ m with threads := m.threads ++ [t] }, .ok mountpoint)
        -- `join` gives up on the thread, which serves on although it is forgotten
        | .late false => ({ m with lingering := m.lingering ++ [t] }, .error 503)
        | .late true => (m.setFiles (fuseEnd C M d m.front.reg.files t), .error 503)
        | _ => (m.setFiles (fuseEnd C M d m.front.reg.files t), .error 500)

/-- A thread of the table is stopped. -/
def stop (t : FuseThread) (joined : Bool) : Manager :=
  let m := { m with threads := m.threads.filter (fun t' => t'.mountpoint ≠ t.mountpoint) }
  if joined then m.setFiles (fuseEnd C M d m.front.reg.files t)
  else
    { m with
      lingering := m.lingering ++ [t]
      store := (m.store.addPendingUnmount t.mountpoint false).1 }

/-- `supervisor.unmount`; `none` is `NotMounted`. The checkpoint at its end asks for the file
of the record. -/
def supervisorUnmount (joined : Bool) : Option (Manager × Except ℕ Unit) :=
  match m.threads.find? (fun t => t.mountpoint = resolveMountpoint cfg rec) with
  | none => none
  | some t =>
    let m := m.stop C M d t joined
    match m.store.sqlitePathOf rec with
    | .error _ => some (m, .error 500)
    | .ok _ => some (m, .ok ())

/-! ### `api.py` -/

/-- `Aloelite(path).create_volume(.., ensure_unique=True)`, on a connection of its own. -/
def createInFile (path name : String) (pin : Option Bytes) : Manager × Except FsError Unit :=
  let reg := m.front.reg
  let c := reg.opened
  -- opening a path that is not there makes an empty file
  let s := (reg.files path).setConn c {}
  let m := m.setReg { reg with opened := reg.opened + 1 }
  if (resolveVolumeName s.db name).isSome then (m, .error .corrupt)
  else
    match exec C M d.create s c (.createVolume (some name) 1048576 pin .convergent) with
    | (s, .ok _) => (m.setFiles (Function.update m.front.reg.files path s), .ok ())
    | (s, .error e) => (m.setFiles (Function.update m.front.reg.files path s), .error e)

def create (body : CreateBody) (w : Drawn) : Manager × ℕ :=
  if body.name = "" then (m, 400)
  else if body.encrypted ≠ body.pin.isSome then (m, 400)
  else
    let rec' (fsId : String) : VolumeStore.VolumeRecord :=
      { id := w.volumes 0, name := body.name, fsId := fsId, encrypted := body.encrypted,
        createdAt := w.now
        mounted := false, mountpoint := none }
    match body.fsId with
    -- a new filesystem: its file is made first, then its record
    | none =>
      let path := cfg.aloeliteRoot ++ "/" ++ w.fs ++ ".sqlite"
      match m.createInFile C M d path body.name body.pin with
      | (m, .error _) => (m, 500)
      | (m, .ok ()) =>
        let fsr : FilesystemRecord :=
          { id := w.fs, displayName := body.name, sqlitePath := path, createdAt := w.now }
        (({ m with store := (m.store.putFs fsr false).1 } : Manager).put (rec' w.fs), 201)
    -- an existing one: the name must be free among its records
    | some fsId =>
      match m.store.getFs fsId with
      | none => (m, 404)
      | some fsr =>
        if (m.store.volumesOf fsId).any (fun v => v.name = body.name) then (m, 409)
        else
          match m.createInFile C M d fsr.sqlitePath body.name body.pin with
          | (m, .error _) => (m, 500)
          | (m, .ok ()) => (m.put (rec' fsId), 201)

/-- The record `import_filesystem` makes for a volume of the file. -/
def imported (u : Upload) (w : Drawn) (row : VolumeRow) (i : ℕ) : VolumeStore.VolumeRecord where
  id := w.volumes i
  name := match row.name with
    | some name => if name = "" then String.ofList ((ids.text row.volumeId).toList.take 8) else name
    | none => String.ofList ((ids.text row.volumeId).toList.take 8)
  fsId := w.fs
  encrypted := decide (row.encMode ≠ .none)
  createdAt := u.createdAt row.volumeId
  mounted := false
  mountpoint := none

/-- `import_filesystem` -/
def upload (u : Upload) (w : Drawn) : Manager × ℕ :=
  let path := cfg.aloeliteRoot ++ "/" ++ w.fs ++ ".sqlite"
  let fsr : FilesystemRecord :=
    { id := w.fs, displayName := u.filename, sqlitePath := path, createdAt := w.now }
  let m := m.setFiles (Function.update m.front.reg.files path u.file)
  let m := { m with store := (m.store.putFs fsr false).1 }
  -- a record for every volume of the file, under a new record id
  (u.file.db.volumes.zipIdx.foldl (fun m row => m.put (imported ids u w row.1 row.2)) m, 201)

/-- The session or the thread `delete_volume` ends; that there is none is no matter. -/
def release (joined : Bool) : Manager :=
  if rec.frontend = some "direct" then m.setReg (m.front.reg.lock C M d (opened rec "")).1
  else
    match m.supervisorUnmount C M cfg d rec joined with
    | none => m
    | some (m, _) => m

def delete (vid : String) (joined : Bool) : Manager × ℕ :=
  match m.store.get vid with
  | none => (m, 404)
  | some rec =>
    let m := if rec.mounted then m.release C M cfg d rec joined else m
    match m.store.sqlitePathOf rec with
    | .error _ => (m, 500)
    | .ok path =>
      let m := { m with store := (m.store.delete vid false).1 }
      if m.store.volumesOf rec.fsId = [] then
        let m := m.setFiles (Function.update m.front.reg.files path {})
        ({ m with store := (m.store.deleteFs rec.fsId false).1 }, 204)
      else (m, 204)

/-- The direct branch of `mount_volume`. -/
def mountDirect (body : MountBody) : Manager × ℕ :=
  if body.persist then (m, 400)
  else if gated cfg rec && m.isUnlocked rec.id then
    match m.front.reg.attach C M ids.read d (opened rec "") body.pin with
    | (reg, .error e) => (m.setReg reg, e.mountStatus)
    | (reg, .ok _) => ((m.setReg reg).put (markDirect rec), 200)
  else
    match m.store.sqlitePathOf rec with
    | .error _ => (m, 500)
    | .ok path =>
      match m.front.reg.unlock C M ids.read d (opened rec path) body.pin with
      | (reg, .error e) => (m.setReg reg, e.mountStatus)
      | (reg, .ok _) => ((m.setReg reg).put (markDirect rec), 200)

/-- A string of a body that is there and not empty. -/
def given : Option String → Option String := fun s => s.filter (fun s => s ≠ "")

/-- The record of a FUSE mount. -/
def markFuse (mountpoint : String) : VolumeStore.VolumeRecord :=
  { rec with mounted := true, mountpoint := some mountpoint, frontend := some "fuse" }

/-- The FUSE branch of `mount_volume`. -/
def mountFuse (body : MountBody) (start : FuseStart) : Manager × ℕ :=
  match m.supervisorMount C M ids cfg d rec body.pin ((given body.mountName).getD rec.id) start with
  | (m, .error status) => (m, status)
  | (m, .ok mountpoint) =>
    if body.persist then
      if rec.encrypted && (given body.pinEnv).isNone && (given body.pinFile).isNone then
        (m.put (markFuse rec mountpoint), 400)
      else
        (m.put { markFuse rec mountpoint with
          autoMount := true, mountName := body.mountName, pinEnv := body.pinEnv, pinFile :=
            body.pinFile }, 200)
    else (m.put (markFuse rec mountpoint), 200)

def mount (vid : String) (body : MountBody) (start : FuseStart) : Manager × ℕ :=
  match m.store.get vid with
  | none => (m, 404)
  | some rec => if body.direct then m.mountDirect C M ids cfg d rec body
    else m.mountFuse C M ids cfg d rec body start

/-- `unmount_volume` on a direct session: the client's mount, or all of them; `none` where
the record is to be cleared. -/
def unmountDirect (client : Detach) : Manager × Option ℕ :=
  match if gated cfg rec && !client.all then client.token else none with
  | some token =>
    if client.csrf then
      match m.front.reg.detach C M d (opened rec "") token with
      | (reg, .error .notAuthorized) => (m.setReg reg, some 401)
      | (reg, .error _) => (m.setReg reg, some 404)
      | (reg, .ok false) => (m.setReg reg, some 200)
      | (reg, .ok true) => (m.setReg reg, none)
    else (m, some 403)
  | none =>
    match m.front.reg.lock C M d (opened rec "") with
    | (reg, .error _) => (m.setReg reg, some 404)
    | (reg, .ok ()) => (m.setReg reg, none)

def unmount (vid : String) (client : Detach) (joined : Bool) : Manager × ℕ :=
  match m.store.get vid with
  | none => (m, 404)
  | some rec =>
    if rec.frontend = some "direct" then
      match m.unmountDirect C M cfg d rec client with
      | (m, some status) => (m, status)
      | (m, none) => (m.put (cleared rec), 204)
    else
      match m.supervisorUnmount C M cfg d rec joined with
      | none => (m, 404)
      | some (m, .error status) => (m, status)
      | some (m, .ok ()) => (m.put (cleared rec), 204)

/-! ### `dav.py` and `s3.py` -/

/-- `_mark_mounted` -/
def markMounted : Manager :=
  if rec.mounted && rec.frontend = some "direct" then m else m.put (markDirect rec)

/-- `_require_volume` -/
def requireVolume (vid : String) : Except ℕ VolumeStore.VolumeRecord :=
  match m.store.get vid with
  | some rec => .ok rec
  | none =>
    match m.store.list.filter (fun r => r.name = vid) with
    | [] => .error 404
    | [rec] => .ok rec
    | _ => .error 409

/-- `_session_token` hands out what was there before, and marks nothing. -/
def remembered (pin : Option Bytes) : Bool :=
  m.isUnlocked rec.id && (!rec.encrypted || (pin.bind (m.front.pins.get hash rec.id)).isSome)

/-- A WebDAV request up to its handler, whose answer `200` stands for. -/
def dav (vid : String) (pin : Option Bytes) : Manager × ℕ :=
  match m.requireVolume vid with
  | .error status => (m, status)
  | .ok rec =>
    match m.store.sqlitePathOf rec with
    | .error _ => (m, 500)
    | .ok path =>
      match m.front.sessionToken C M ids.read hash d (opened rec path) rec.encrypted pin with
      | (front, .error refusal) => ({ m with front := front }, refusal.status)
      | (front, .ok token) =>
        let found := m.remembered hash rec pin
        let m := { m with front := front }
        -- the record is marked where a session was opened or joined, not on what was remembered
        let m := if found then m else m.markMounted rec
        match m.front.reg.session rec.id (token.map Option.some) with
        | .error e => (m, (DavRefusal.translate e).status)
        | .ok _ => (m, 200)

/-- An S3 request up to its handler; `mayAccess` is what its key may do. -/
def s3 (bucket : String) (mayAccess : Bool) : Manager × ℕ :=
  if bucket ∈ reservedBuckets then (m, 400)
  else
    match m.store.list.find? (fun r => r.name = bucket) with
    | none => (m, 404)
    | some rec =>
      if !mayAccess then (m, 403)
      else if m.isUnlocked rec.id then (m.markMounted rec, 200)
      -- S3 has no way to give a PIN, so an encrypted volume has to be unlocked elsewhere
      else if rec.encrypted then (m, 403)
      else
        match m.store.sqlitePathOf rec with
        | .error _ => (m, 500)
        | .ok path =>
          match m.front.reg.unlock C M ids.read d (opened rec path) none with
          | (reg, .ok _) => ((m.setReg reg).markMounted rec, 200)
          -- another thread won; its session is as good
          | (reg, .error .alreadyMounted) => ((m.setReg reg).markMounted rec, 200)
          | (reg, .error _) => (m.setReg reg, 500)

/-! ### The end -/

/-- `supervisor.shutdown` and then that of the registry; `late` are the mountpoints whose
threads do not join. -/
def shutdown (late : List String) : Manager :=
  let m := m.threads.foldl (fun m t => m.stop C M d t (t.mountpoint ∉ late)) m
  let m := m.store.list.foldl (fun m rec =>
    if rec.mounted then m.put { rec with mounted := false, mountpoint := none } else m) m
  let reg := m.store.list.foldl (fun reg rec => (reg.lock C M d (opened rec "")).1) m.front.reg
  m.setReg { reg with sessions := fun _ => none }

/-- A call with its status. -/
def serve : ManagerCall → Manager × ℕ
  | .create body w => m.create C M cfg d body w
  | .upload u w => m.upload ids cfg u w
  | .delete vid joined => m.delete C M cfg d vid joined
  | .mount vid body start => m.mount C M ids cfg d vid body start
  | .unmount vid client joined => m.unmount C M cfg d vid client joined
  | .dav vid pin => m.dav C M ids hash d vid pin
  | .s3 bucket mayAccess => m.s3 C M ids d bucket mayAccess
  | .work path ls =>
    (m.setFiles (Function.update m.front.reg.files path
      (ls.foldl (step C M) (m.front.reg.files path))), 200)
  | .shutdown late => (m.shutdown C M d late, 200)

def step (l : ManagerLabel) : Manager := (m.serve C M ids hash cfg l.draws l.call).1

end Manager

end

end Aloelite
