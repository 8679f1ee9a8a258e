import Aloelite.Engine

/-! The direct frontend `engine/direct.py`: the registry of unlocked volumes, a connection
for each and an engine mount for each client. -/
namespace Aloelite

/-- A client's token: what the cookie carries. -/
abbrev Token := Bytes

/-- `VolumeRecord`, with the file `sqlite_path_of` finds for it. -/
structure VolumeRecord where
  id : String
  name : String
  sqlitePath : String
  deriving DecidableEq, Repr

inductive ManagerError where
  | alreadyMounted
  | notMounted
  | notAuthorized
  | badPin
  | encryptionMismatch
  | mountFailed (e : FsError)
  deriving DecidableEq, Repr

/-- How the registry reports an error of the engine's `mount`. -/
def ManagerError.ofMount : FsError → ManagerError
  | .badKey _ => .badPin
  | .encryptionRequired => .encryptionMismatch
  | e => .mountFailed e

/-- `DirectSession`: the connection `fs` by its file and number, the primary mount, and
the clients' mounts by token. -/
structure DirectSession where
  path : String
  conn : ConnId
  mount : MountId
  clients : List (Token × MountId)
  primaryToken : Token
  deriving DecidableEq, Repr

/-- `DirectSessionRegistry` over the files; `opened` counts the connections made. -/
structure DirectSessionRegistry where
  files : String → Sys
  opened : ConnId := 0
  sessions : String → Option DirectSession := fun _ => none

/-- What a call takes from outside: the surroundings of its engine calls, and the token
drawn if it hands one out. -/
structure Draws where
  create : Env
  mount : Env
  unmount : Env
  token : Token

section

variable (C : Crypto) (M : Msgpack)

/-! ### `Aloelite.mount` -/

/-- The later of two volumes, by `(created_at, id)`. -/
def VolumeRow.later (v w : VolumeRow) : VolumeRow :=
  if v.createdAt < w.createdAt ∨ (v.createdAt = w.createdAt ∧ v.volumeId < w.volumeId) then w else v

/-- `max(matches, key=lambda v: (v.created_at, v.id))` -/
def latestVolume : List VolumeRow → Option VolumeRow
  | [] => none
  | v :: vs => some (vs.foldl VolumeRow.later v)

/-- `resolve_volume_name`: the latest of the volumes of a name. -/
def resolveVolumeName (db : Db) (name : String) : Option VolumeId :=
  (latestVolume (db.volumes.filter (fun v => v.name = some name))).map VolumeRow.volumeId

/-- The volume `mount` is called on: by name, else the one whose id the name spells;
`spelt` reads an id. -/
def resolveVolume (spelt : String → Option VolumeId) (db : Db) (name : String) : Option VolumeId :=
  match resolveVolumeName db name with
  | some v => some v
  | none => (spelt name).filter (fun v => (db.volume? v).isSome)

/-- `ops.mount` on the root, overlap allowed. -/
def mountVolume (d : Draws) (s : Sys) (c : ConnId) (v : VolumeId) (pin : Option Bytes) :
    Sys × Except FsError MountId :=
  match exec C M d.mount s c (.mount { volume := v, pin := pin, allowOverlap := true }) with
  | (s, .ok (.mount m)) => (s, .ok m)
  | (s, .ok _) => (s, .error .corrupt)
  | (s, .error e) => (s, .error e)

/-- `Aloelite.mount`. A volume that is not there is made, if asked; it stays when the
mount fails. -/
def fsMount (spelt : String → Option VolumeId) (d : Draws) (s : Sys) (c : ConnId) (name : String)
    (pin : Option Bytes) (create : Bool) : Sys × Except FsError MountId :=
  match resolveVolume spelt s.db name with
  | some v => mountVolume C M d s c v pin
  | none =>
    if create then
      match exec C M d.create s c (.createVolume (some name) 1048576 pin .convergent) with
      | (s, .ok (.volume v)) => mountVolume C M d s c v pin
      | (s, .ok _) => (s, .error .corrupt)
      | (s, .error e) => (s, .error e)
    else (s, .error .notFound)

namespace DirectSessionRegistry

variable (spelt : String → Option VolumeId) (d : Draws) (record : VolumeRecord)
  (g : DirectSessionRegistry)

def setFile (g : DirectSessionRegistry) (path : String) (s : Sys) : DirectSessionRegistry :=
  { g with files := Function.update g.files path s }

def setSession (g : DirectSessionRegistry) (id : String) (entry : Option DirectSession) :
    DirectSessionRegistry :=
  { g with sessions := Function.update g.sessions id entry }

/-- `unlock`: a connection of its own, and the first client's mount, which is the primary
one. -/
def unlock (pin : Option Bytes) : DirectSessionRegistry × Except ManagerError Token :=
  match g.sessions record.id with
  | some _ => (g, .error .alreadyMounted)
  | none =>
    let c := g.opened
    let g := { g with opened := g.opened + 1 }
    match fsMount C M spelt d ((g.files record.sqlitePath).setConn c {}) c record.name pin true with
    | (s, .error e) => (g.setFile record.sqlitePath s, .error (.ofMount e))
    | (s, .ok m) =>
      let entry : DirectSession :=
        { path := record.sqlitePath, conn := c, mount := m, clients := [(d.token, m)],
          primaryToken := d.token }
      ((g.setFile record.sqlitePath s).setSession record.id (some entry), .ok d.token)

/-- `attach`: a mount of its own for one more client. -/
def attach (pin : Option Bytes) : DirectSessionRegistry × Except ManagerError Token :=
  match g.sessions record.id with
  | none => (g, .error .notMounted)
  | some entry =>
    match fsMount C M spelt d (g.files entry.path) entry.conn record.name pin false with
    | (s, .error e) => (g.setFile entry.path s, .error (.ofMount e))
    | (s, .ok m) =>
      let clients := entry.clients.filter (fun p => p.1 ≠ d.token) ++ [(d.token, m)]
      ((g.setFile entry.path s).setSession record.id (some { entry with clients := clients }),
        .ok d.token)

/-- `_client_key`, with the mount found; an empty token finds none. -/
def clientMount (entry : DirectSession) (token : Token) : Option MountId :=
  if token = [] then none else (entry.clients.find? (fun p => p.1 = token)).map Prod.snd

/-- `detach`: the client's mount goes; what `unmount` does to the connection is undone
while other clients are left. -/
def detach (token : Token) : DirectSessionRegistry × Except ManagerError Bool :=
  match g.sessions record.id with
  | none => (g, .error .notMounted)
  | some entry =>
    match clientMount entry token with
    | none => (g, .error .notAuthorized)
    | some m =>
      let clients := entry.clients.filter (fun p => p.1 ≠ token)
      -- `unmount` drops the connection's cipher, which the other clients' mounts still need
      let saved := (g.files entry.path).conns entry.conn
      let s := (exec C M d.unmount (g.files entry.path) entry.conn (.unmount m)).1
      if clients = [] then ((g.setFile entry.path s).setSession record.id none, .ok true)
      else
        ((g.setFile entry.path (s.setConn entry.conn saved)).setSession record.id
          (some { entry with clients := clients }),
          .ok false)

/-- `lock`: every client's mount goes. -/
def lock : DirectSessionRegistry × Except ManagerError Unit :=
  match g.sessions record.id with
  | none => (g, .error .notMounted)
  | some entry =>
    let s := entry.clients.foldl (fun s p => (exec C M d.unmount s entry.conn (.unmount p.2)).1)
      (g.files entry.path)
    ((g.setFile entry.path s).setSession record.id none, .ok ())

/-- `session`: `none` is a token left out, `some none` a cookie that is not there. -/
def session (id : String) (token : Option (Option Token)) : Except ManagerError MountId :=
  match g.sessions id with
  | none => .error .notMounted
  | some entry =>
    match token with
    | none => .ok entry.mount
    | some token =>
      match token.bind (clientMount entry) with
      | none => .error .notAuthorized
      | some m => .ok m

end DirectSessionRegistry

/-! ### Calls -/

inductive RegistryCall where
  | unlock (pin : Option Bytes)
  | attach (pin : Option Bytes)
  | detach (token : Token)
  | lock
  | session (token : Option (Option Token))

/-- What a call hands out: a token, whether the last client left, a mount. -/
inductive RegistryReply where
  | token (t : Token)
  | last (b : Bool)
  | mount (m : MountId)
  | done
  deriving DecidableEq, Repr

namespace RegistryCall

open DirectSessionRegistry

def run (spelt : String → Option VolumeId) (d : Draws) (record : VolumeRecord)
    (g : DirectSessionRegistry) :
    RegistryCall → DirectSessionRegistry × Except ManagerError RegistryReply
  | .unlock pin => (g.unlock C M spelt d record pin).map id (Except.map .token)
  | .attach pin => (g.attach C M spelt d record pin).map id (Except.map .token)
  | .detach token => (g.detach C M d record token).map id (Except.map .last)
  | .lock => (g.lock C M d record).map id (Except.map (fun _ => .done))
  | .session token => (g, (g.session record.id token).map .mount)

end RegistryCall

end

end Aloelite
