import Aloelite.Library.Dicts

/-! The records of the manager, `engine/store.py`: held in memory, and written whole to one
JSON file after each change. -/
namespace Aloelite.VolumeStore

open KeyedRows Dicts

/-- One backing file. -/
structure FilesystemRecord where
  id : String
  displayName : String
  sqlitePath : String
  createdAt : Rat
  deriving DecidableEq, Repr

/-- One row of volume metadata. -/
structure VolumeRecord where
  id : String
  name : String
  fsId : String
  encrypted : Bool
  createdAt : Rat
  mounted : Bool
  mountpoint : Option String
  frontend : Option String := none
  autoMount : Bool := false
  mountName : Option String := none
  pinEnv : Option String := none
  pinFile : Option String := none
  deriving DecidableEq, Repr

/-- What a store holds: two dictionaries and the side list of mountpoints. -/
structure Records where
  filesystems : List FilesystemRecord := []
  volumes : List VolumeRecord := []
  pending : List String := []
  deriving DecidableEq, Repr

/-- A volume of the first schema: its own path, and no `fs_id` that counts. -/
structure OldVolume where
  sqlitePath : String
  fields : VolumeRecord
  deriving DecidableEq, Repr

/-- The JSON file, by its schema version. -/
inductive StoreFile where
  | v1 (filesystems : List FilesystemRecord) (volumes : List OldVolume) (pending : List String)
  | v2 (payload : Records)
  deriving DecidableEq, Repr

inductive StoreError where
  | write
  | stillHasVolumes (fsId : String)
  | key (fsId : String)
  deriving DecidableEq, Repr

/-- `JsonVolumeStore` with the file at its path. -/
structure JsonVolumeStore where
  mem : Records := {}
  disk : Option StoreFile := none
  deriving DecidableEq, Repr

/-! ### Persistence -/

/-- What is written: the keys of both objects are sorted. -/
def Records.payload (m : Records) : Records where
  filesystems := m.filesystems.mergeSort (fun a b => decide (a.id ≤ b.id))
  volumes := m.volumes.mergeSort (fun a b => decide (a.id ≤ b.id))
  pending := m.pending

/-- The records so far, and `by_path` of `_migrate_v1_locked`. -/
structure Migration where
  records : Records
  byPath : List (String × String) := []

/-- One volume of the loop of `_migrate_v1_locked`; `fresh` is the id drawn for its file. -/
def Migration.step (g : Migration) (rec : OldVolume) (fresh : String) : Migration :=
  match lookup Prod.fst g.byPath rec.sqlitePath with
  | some (_, fsId) =>
    { g with
      records.volumes :=
        assign VolumeRecord.id g.records.volumes { rec.fields with fsId := fsId } }
  | none =>
    -- the first volume of a file names its filesystem
    let fsr : FilesystemRecord :=
      { id := fresh, displayName := if rec.fields.name = "" then fresh else rec.fields.name
        sqlitePath := rec.sqlitePath, createdAt := rec.fields.createdAt }
    { byPath := g.byPath ++ [(rec.sqlitePath, fresh)]
      records := { g.records with
        filesystems := assign FilesystemRecord.id g.records.filesystems fsr
        volumes := assign VolumeRecord.id g.records.volumes { rec.fields with fsId := fresh } } }

/-- `_migrate_v1_locked`; `draw` are the ids drawn. -/
def migrateV1 (m : Records) (volumes : List OldVolume) (draw : ℕ → String) : Records :=
  (volumes.zipIdx.foldl (fun g rec => g.step rec.1 (draw rec.2))
    { records := m : Migration }).records

/-- What `_load` reads. -/
def load (draw : ℕ → String) : Option StoreFile → Records
  | none => {}
  | some (.v1 filesystems volumes pending) =>
    migrateV1 { filesystems := assigned FilesystemRecord.id filesystems,
                pending := pending } volumes draw
  | some (.v2 p) =>
    { filesystems := assigned FilesystemRecord.id p.filesystems
      volumes := assigned VolumeRecord.id p.volumes
      pending := p.pending }

namespace JsonVolumeStore

/-- `_flush_locked`: a write that fails leaves the file that was there. -/
def flush (s : JsonVolumeStore) (fails : Bool) : JsonVolumeStore × Except StoreError Unit :=
  if fails then (s, .error .write) else ({ s with disk := some (.v2 s.mem.payload) }, .ok ())

/-- The constructor: `_load`, which writes the file unless it is there in the second
schema. -/
def openStore (draw : ℕ → String) (disk : Option StoreFile) (fails : Bool) :
    Except StoreError JsonVolumeStore :=
  let s : JsonVolumeStore := { mem := load draw disk, disk := disk }
  match disk with
  | some (.v2 _) => .ok s
  | _ =>
    match s.flush fails with
    | (_, .error e) => .error e
    | (s, .ok _) => .ok s

/-! ### The interface -/

variable (s : JsonVolumeStore)

def get (id : String) : Option VolumeRecord := lookup VolumeRecord.id s.mem.volumes id

def put (rec : VolumeRecord) (fails : Bool) : JsonVolumeStore × Except StoreError Unit :=
  flush { s with mem.volumes := assign VolumeRecord.id s.mem.volumes rec } fails

def delete (id : String) (fails : Bool) : JsonVolumeStore × Except StoreError Unit :=
  if (s.get id).isSome then
    flush { s with mem.volumes := discard VolumeRecord.id s.mem.volumes id } fails
  else (s, .ok ())

def list : List VolumeRecord := s.mem.volumes

def getFs (id : String) : Option FilesystemRecord := lookup FilesystemRecord.id s.mem.filesystems id

def putFs (rec : FilesystemRecord) (fails : Bool) : JsonVolumeStore × Except StoreError Unit :=
  flush { s with mem.filesystems := assign FilesystemRecord.id s.mem.filesystems rec } fails

/-- Refused while volumes still name the filesystem. -/
def deleteFs (id : String) (fails : Bool) : JsonVolumeStore × Except StoreError Unit :=
  if s.mem.volumes.any (fun v => v.fsId = id) then (s, .error (.stillHasVolumes id))
  else if (s.getFs id).isSome then
    flush { s with mem.filesystems := discard FilesystemRecord.id s.mem.filesystems id } fails
  else (s, .ok ())

def listFs : List FilesystemRecord := s.mem.filesystems

def volumesOf (fsId : String) : List VolumeRecord := s.mem.volumes.filter (fun v => v.fsId = fsId)

def sqlitePathOf (rec : VolumeRecord) : Except StoreError String :=
  match s.getFs rec.fsId with
  | none => .error (.key rec.fsId)
  | some fsr => .ok fsr.sqlitePath

def addPendingUnmount (mountpoint : String) (fails : Bool) :
    JsonVolumeStore × Except StoreError Unit :=
  if mountpoint ∈ s.mem.pending then (s, .ok ())
  else flush { s with mem.pending := s.mem.pending ++ [mountpoint] } fails

def listPendingUnmounts : List String := s.mem.pending

def clearPendingUnmount (mountpoint : String) (fails : Bool) :
    JsonVolumeStore × Except StoreError Unit :=
  if mountpoint ∈ s.mem.pending then
    flush { s with mem.pending := s.mem.pending.erase mountpoint } fails
  else (s, .ok ())

def close (fails : Bool) : JsonVolumeStore × Except StoreError Unit := flush s fails

end JsonVolumeStore

/-- A call of the interface. -/
inductive StoreCall where
  | get (id : String)
  | put (rec : VolumeRecord)
  | delete (id : String)
  | list
  | getFs (id : String)
  | putFs (rec : FilesystemRecord)
  | deleteFs (id : String)
  | listFs
  | volumesOf (fsId : String)
  | sqlitePathOf (rec : VolumeRecord)
  | addPendingUnmount (mountpoint : String)
  | listPendingUnmounts
  | clearPendingUnmount (mountpoint : String)
  | close

inductive StoreReply where
  | done
  | volume (rec : Option VolumeRecord)
  | volumes (recs : List VolumeRecord)
  | filesystem (rec : Option FilesystemRecord)
  | filesystems (recs : List FilesystemRecord)
  | path (p : String)
  | mountpoints (mps : List String)
  deriving DecidableEq, Repr

/-- A call; `fails` says whether the write fails, if it comes to one. -/
def StoreCall.run (s : JsonVolumeStore) (fails : Bool) :
    StoreCall → JsonVolumeStore × Except StoreError StoreReply
  | .get id => (s, .ok (.volume (s.get id)))
  | .put rec => (s.put rec fails).map id (Except.map (fun _ => .done))
  | .delete id => (s.delete id fails).map (fun s => s) (Except.map (fun _ => .done))
  | .list => (s, .ok (.volumes s.list))
  | .getFs id => (s, .ok (.filesystem (s.getFs id)))
  | .putFs rec => (s.putFs rec fails).map id (Except.map (fun _ => .done))
  | .deleteFs id => (s.deleteFs id fails).map (fun s => s) (Except.map (fun _ => .done))
  | .listFs => (s, .ok (.filesystems s.listFs))
  | .volumesOf fsId => (s, .ok (.volumes (s.volumesOf fsId)))
  | .sqlitePathOf rec => (s, (s.sqlitePathOf rec).map .path)
  | .addPendingUnmount mp => (s.addPendingUnmount mp fails).map id (Except.map (fun _ => .done))
  | .listPendingUnmounts => (s, .ok (.mountpoints s.listPendingUnmounts))
  | .clearPendingUnmount mp => (s.clearPendingUnmount mp fails).map id (Except.map (fun _ => .done))
  | .close => (s.close fails).map id (Except.map (fun _ => .done))

end Aloelite.VolumeStore
