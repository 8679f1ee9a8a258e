import Aloelite.StoreTables
import Aloelite.Library.GuardedRuns
import Aloelite.Library.Reruns

/-! Opening a file of an older schema era: the statements that `Db.open` carries out one
after the other, each its own transaction, and what they make of a file when the process may
die between any two of them and open the file again. -/
namespace Aloelite

/-! ### The file -/

/-- A value of the storage. -/
inductive SqlValue where
  | null
  | integer (z : ℤ)
  | text (s : String)
  | blob (b : Bytes)
  deriving DecidableEq, Repr

/-- A row, column by column. -/
abbrev SqlRow := String → SqlValue

structure SqlTable where
  columns : Finset String
  rows : List SqlRow

/-- What a file holds: its tables, the texts of its other objects, and `user_version`. `old`
lists the names it came with, whatever has become of them. -/
@[ext] structure EraFile where
  tables : String → Option SqlTable
  indexes : String → Option String
  triggers : String → Option String
  views : String → Option String
  userVersion : ℕ
  old : List String

def SCHEMA_ERA : ℕ := 3

/-- `_NS_BOUND` -/
def NS_BOUND : ℤ := 10 ^ 15

/-- The largest integer of the storage. -/
def MAX_INTEGER : ℤ := 2 ^ 63 - 1

/-- The columns that `_migrate_to_era2` adds, with what their rows hold then. -/
def ADDED : List (String × String × SqlValue) :=
  [("node", "uid", .null), ("node", "gid", .null), ("node", "mode", .null),
    ("node", "atime", .null), ("node", "ctime", .null),
    ("edge", "name", .null), ("mount", "access", .text "rw"), ("mount", "principal", .null)]

/-- The columns it rescales. -/
def TIMES : List (String × String) :=
  [("node", "created_at"), ("node", "modified_at"), ("volume", "created_at"),
    ("mount", "created_at"), ("mount", "expires_at"),
    ("lock", "created_at"), ("lock", "expires_at")]

/-- The tables of every era. -/
def BASE_TABLES : List String :=
  ["node", "content", "content_chunk", "content_version", "volume", "edge", "mount", "lock"]

/-- A statement of the opening. `addColumn` stands with its check of `_column_exists`. -/
inductive EraStmt where
  | addColumn (table column : String) (value : SqlValue)
  | scaleTimes (table column : String)
  | dropIndex (name : String)
  | nameEdges
  | dropTrigger (name : String)
  | dropView (name : String)
  | createTable (name : String) (columns : Finset String)
  | createIndex (name table : String) (columns : Finset String)
  | createTrigger (name : String)
  | createView (name : String)
  | recreateView (name : String)
  | stamp
  deriving DecidableEq

/-- Why a statement or the opening fails. -/
inductive EraFault where
  | noSuchTable
  | noSuchColumn
  | overflow
  | unsupported
  deriving DecidableEq, Repr

/-! ### The statements -/

/-- `"column" * 1000000` where the column is positive and below the bound. -/
def rescale : SqlValue → SqlValue
  | .integer z => if 0 < z ∧ z < NS_BOUND then .integer (z * 1000000) else .integer z
  | v => v

/-- The product is no integer of the storage, and a strict table refuses it. -/
def overflows : SqlValue → Bool
  | .integer z => 0 < z ∧ z < NS_BOUND ∧ MAX_INTEGER < z * 1000000
  | _ => false

namespace SqlTable

/-- `ALTER TABLE ... ADD COLUMN`, unless the column is there. -/
def addColumn (T : SqlTable) (c : String) (v : SqlValue) : SqlTable :=
  if c ∈ T.columns then T
  else { columns := insert c T.columns, rows := T.rows.map (fun r => Function.update r c v) }

/-- The rescaling of a column. -/
def rescaled (T : SqlTable) (c : String) : SqlTable :=
  { T with rows := T.rows.map (fun r => Function.update r c (rescale (r c))) }

end SqlTable

namespace EraFile

/-- `coalesce((SELECT n.name FROM node n WHERE n.node_id = edge.to_id), edge.to_id)` -/
def inherited (f : EraFile) (toId : SqlValue) : SqlValue :=
  match (f.tables "node").bind (fun T => T.rows.find? (fun r => r "node_id" = toId)) with
  | some r => if r "name" = .null then toId else r "name"
  | none => toId

/-- The update of `_migrate_to_era3` on one row. -/
def nameEdge (f : EraFile) (r : SqlRow) : SqlRow :=
  if r "name" = .null then Function.update r "name" (f.inherited (r "to_id")) else r

def setTable (f : EraFile) (t : String) (T : SqlTable) : EraFile :=
  { f with tables := Function.update f.tables t (some T) }

@[simp] theorem setTable_self (f : EraFile) (t : String) (T : SqlTable) :
    (f.setTable t T).tables t = some T := by
  simp [setTable]

theorem setTable_ne (f : EraFile) {t u : String} (T : SqlTable) (h : u ≠ t) :
    (f.setTable t T).tables u = f.tables u := by
  simp [setTable, h]

section

variable (text : String → String)

/-- A statement; `text` is what the schema says of an object. -/
def exec : EraStmt → EraFile → Except EraFault EraFile
  | .addColumn t c v, f =>
    match f.tables t with
    | some T => .ok (f.setTable t (T.addColumn c v))
    | none => .error .noSuchTable
  | .scaleTimes t c, f =>
    match f.tables t with
    | some T =>
      if c ∉ T.columns then .error .noSuchColumn
      -- SQLite's product past 64 bits is a float, which the strict table refuses
      else if T.rows.any (fun r => overflows (r c)) then .error .overflow
      else .ok (f.setTable t (T.rescaled c))
    | none => .error .noSuchTable
  | .dropIndex n, f => .ok { f with indexes := Function.update f.indexes n none }
  -- an edge without a name takes its child's
  | .nameEdges, f =>
    match f.tables "edge", f.tables "node" with
    | some T, some _ =>
      if "name" ∉ T.columns then .error .noSuchColumn
      else .ok (f.setTable "edge" { T with rows := T.rows.map f.nameEdge })
    | _, _ => .error .noSuchTable
  | .dropTrigger n, f => .ok { f with triggers := Function.update f.triggers n none }
  | .dropView n, f => .ok { f with views := Function.update f.views n none }
  -- the script's statements say `IF NOT EXISTS`
  | .createTable t cs, f => .ok (if (f.tables t).isSome then f else f.setTable t ⟨cs, []⟩)
  | .createIndex n t cs, f =>
    if (f.indexes n).isSome then .ok f
    else
      match f.tables t with
      | some T => if cs ⊆ T.columns then
        .ok { f with indexes := Function.update f.indexes n (some (text n)) }
          else .error .noSuchColumn
      | none => .error .noSuchTable
  | .createTrigger n, f =>
    .ok (if (f.triggers n).isSome then f
      else { f with triggers := Function.update f.triggers n (some (text n)) })
  | .createView n, f =>
    .ok (if (f.views n).isSome then f
      else { f with views := Function.update f.views n (some (text n)) })
  | .recreateView n, f => .ok { f with views := Function.update f.views n (some (text n)) }
  | .stamp, f => .ok { f with userVersion := SCHEMA_ERA }

end

end EraFile

/-! ### The opening -/

/-- `_migrate_to_era2` -/
def migrateToEra2 : List EraStmt :=
  ADDED.map (fun p => .addColumn p.1 p.2.1 p.2.2) ++ TIMES.map (fun p => .scaleTimes p.1 p.2) ++
    [.dropIndex "edge_active_placement"]

/-- `_migrate_to_era3` -/
def migrateToEra3 : List EraStmt := [.nameEdges]

/-- The steps of `_MIGRATIONS` above an era. -/
def migrations (era : ℕ) : List EraStmt :=
  (if era < 2 then migrateToEra2 else []) ++ (if era < 3 then migrateToEra3 else [])

/-- The script `schema.sql`. Its view `directory_listing` is dropped and made again in one
transaction. -/
def schemaScript : List EraStmt :=
  [.createTable "node" {"node_id", "type", "name", "created_at", "modified_at", "volume_id",
    "metadata", "uid", "gid", "mode", "atime", "ctime"},
    .createTable "content" {"node_id", "version", "size", "content_hash", "retention_keep"},
    .createTable "content_chunk" {"chunk_hash", "data", "length", "N_c", "enc_tag"},
    .createTable "content_version" {"content_id", "version", "chunk_index", "chunk_hash", "proof"},
    .createIndex "content_version_chunk" "content_version" {"chunk_hash"},
    .createTable "volume" {"volume_id", "root_node_id", "name", "created_at", "api_version",
    "chunk_size", "wm_ts", "wm_seq", "enc_mode",
      "wrapped_key", "wrap_nonce"},
    .createTable "edge" {"edge_id", "from_id", "to_id", "volume_id", "archived", "name"},
    .createTrigger "node_guard_type", .createTrigger "node_guard_type_upd",
    .createTrigger "edge_guard_from_type",
    .createTrigger "edge_guard_name", .createTrigger "edge_guard_single_parent",
    .createTrigger "edge_guard_single_parent_upd",
    .createTrigger "edge_guard_volume", .createTrigger "node_touch_content",
    .createTrigger "node_touch_name",
    .createTrigger "node_touch_owner", .createTrigger "edge_touch_ctime",
    .createTrigger "edge_touch_ctime_arch",
    .createTable "mount" {"mount_id", "volume_id", "mount_point", "state", "expires_at",
    "created_at", "N_m", "access", "principal"},
    .createTable "lock" {"lock_id", "mount_id", "node_id", "read_count", "write_count",
    "expires_at", "created_at"},
    .createTrigger "mount_guard_access", .createTrigger "mount_guard_access_upd",
    .createTable "xattr" {"node_id", "name", "value"},
    .createIndex "edge_from_active" "edge" {"from_id"},
    .createIndex "edge_from_name" "edge" {"from_id", "name", "to_id"},
    .createIndex "edge_to_active" "edge" {"to_id"}, .createIndex "edge_to_any" "edge" {"to_id"},
    .createIndex "edge_volume" "edge" {"volume_id"}, .createIndex "lock_mount" "lock" {"mount_id"},
    .createView "active_edge", .createView "node_parent", .createView "node_ancestor",
    .createView "subtree",
    .recreateView "directory_listing", .createView "volatile_node", .createView "detached_node",
    .createView "retained_version",
    .createView "valid_mount", .createView "valid_lock", .createView "prunable_lock",
    .createView "mount_lock",
    .createView "health_anomaly"]

/-- What the schema has of a name. -/
def schemaTable (t : String) : Option (Finset String) :=
  schemaScript.findSome? (fun s => match s with
    | .createTable u cs => if u = t then some cs else none
    | _ => none)

def schemaIndex (n : String) : Bool :=
  schemaScript.any (fun s => match s with | .createIndex u _ _ => u = n | _ => false)

def schemaTrigger (n : String) : Bool :=
  schemaScript.any (fun s => match s with | .createTrigger u => u = n | _ => false)

def schemaView (n : String) : Bool :=
  schemaScript.any (fun s => match s with | .createView u | .recreateView u => u = n | _ => false)

/-- The names of its tables, triggers and views. -/
def schemaNames : List String :=
  schemaScript.filterMap (fun s => match s with
    | .createTable n _ | .createTrigger n | .createView n | .recreateView n => some n
    | _ => none)

namespace EraFile

/-- The names under which a table, a trigger or a view may stand. -/
def known (f : EraFile) : List String := f.old ++ schemaNames

/-- No table yet. -/
def fresh (f : EraFile) : Bool := f.known.all (fun n => (f.tables n).isNone)

/-- The drops of the derived objects, triggers first. The source lists them after the
migrations, which leave them as they are. -/
def drops (f : EraFile) : List EraStmt :=
  (f.known.filter (fun n => (f.triggers n).isSome)).map .dropTrigger ++
    (f.known.filter (fun n => (f.views n).isSome)).map .dropView

/-- What an opening carries out. -/
def statements (f : EraFile) : List EraStmt :=
  (if f.userVersion < SCHEMA_ERA then
    (if f.fresh then [] else migrations f.userVersion) ++ f.drops else []) ++ schemaScript ++
    [.stamp]

variable (text : String → String)

/-- `Db.open`, as far as it changes the file. -/
def openFile (f : EraFile) : Except EraFault EraFile :=
  if SCHEMA_ERA < f.userVersion then .error .unsupported else Reruns.run (exec text) f.statements f

/-- What an opening leaves that dies after `k` statements, or fails before. -/
def crash (f : EraFile) (k : ℕ) : EraFile :=
  if SCHEMA_ERA < f.userVersion then f else Reruns.cut (exec text) (f.statements.take k) f

end EraFile

/-! ### What a migrated file is -/

/-- The value of an added column in an older row. -/
def addedValue (t c : String) : Option SqlValue :=
  (ADDED.find? (fun p => p.1 = t ∧ p.2.1 = c)).map (fun p => p.2.2)

def addedColumns (t : String) : Finset String :=
  ((ADDED.filter (fun p => p.1 = t)).map (fun p => p.2.1)).toFinset

namespace EraFile

/-- A row under the current schema, of a table with columns `cs`: the times of a first-era file in
the other unit, the name that the placement was found under, the added columns, and everything else
as it was. -/
def settledRow (scale : SqlValue → SqlValue) (era : ℕ) (f : EraFile) (t : String)
    (cs : Finset String) (r : SqlRow) : SqlRow := fun c =>
  if era < 2 ∧ (t, c) ∈ TIMES then scale (r c)
  else if t = "edge" ∧ c = "name" then
    (if c ∈ cs ∧ r c ≠ .null then r c else f.inherited (r "to_id"))
  else
    match addedValue t c with
    | some v => if c ∈ cs then r c else v
    | none => r c

def settledTable (scale : SqlValue → SqlValue) (era : ℕ) (f : EraFile) (t : String) (T : SqlTable) :
  SqlTable where
  columns := T.columns ∪ addedColumns t
  rows := T.rows.map (f.settledRow scale era t T.columns)

/-- The file under the current schema. -/
def settled (text : String → String) (scale : SqlValue → SqlValue) (era : ℕ) (f : EraFile) :
  EraFile where
  tables t :=
    match f.tables t with
    | some T => some (f.settledTable scale era t T)
    | none => (schemaTable t).map (fun cs => ⟨cs, []⟩)
  indexes n :=
    if era < 2 ∧ n = "edge_active_placement" then none
      else (f.indexes n).or (if schemaIndex n then some (text n) else none)
  triggers n := if schemaTrigger n then some (text n) else none
  views n := if schemaView n then some (text n) else none
  userVersion := SCHEMA_ERA
  old := f.old

/-- The same instant in nanoseconds. -/
def inNanoseconds : SqlValue → SqlValue
  | .integer z => .integer (z * 1000000)
  | v => v

/-- What an older file should become. -/
def upgraded (text : String → String) (f : EraFile) : EraFile :=
  f.settled text inNanoseconds f.userVersion

/-- A file of an older era: the base tables are there in the shape of the schema, but for
the columns that are added, placements lead somewhere, and its derived objects are known. -/
structure Shaped (era : ℕ) (f : EraFile) : Prop where
  version : f.userVersion = era
  there : ∀ t ∈ BASE_TABLES, (f.tables t).isSome
  columns : ∀ t T, f.tables t = some T → ∀ cs, schemaTable t = some cs → ∀ c ∈ cs, c ∈ T.columns ∨
    era < 2 ∧ c ∈ addedColumns t
  triggers : ∀ n, (f.triggers n).isSome → n ∈ f.known
  views : ∀ n, (f.views n).isSome → n ∈ f.known
  placed : ∀ T, f.tables "edge" = some T → ∀ r ∈ T.rows, r "to_id" ≠ .null

/-- A time that a second rescaling leaves alone: none, zero, milliseconds that are large
enough and fit, or nanoseconds. -/
def FineTime (v : SqlValue) : Prop :=
  ∀ z, v = .integer z → z = 0 ∨ (10 ^ 9 ≤ z ∧ z * 1000000 ≤ MAX_INTEGER) ∨ NS_BOUND ≤ z

structure Fine (era : ℕ) (f : EraFile) : Prop extends Shaped era f where
  times : era < 2 → ∀ p ∈ TIMES, ∀ T, f.tables p.1 = some T → ∀ r ∈ T.rows, FineTime (r p.2)

/-- What the opening of an older file carries out before it stamps it. -/
def Allowed (era : ℕ) : EraStmt → Prop
  | .addColumn t c v => era < 2 ∧ (t, c, v) ∈ ADDED
  | .scaleTimes t c => era < 2 ∧ (t, c) ∈ TIMES
  | .dropIndex n => era < 2 ∧ n = "edge_active_placement"
  | .stamp => False
  | .nameEdges | .dropTrigger _ | .dropView _ => True
  | s => s ∈ schemaScript

end EraFile

end Aloelite
