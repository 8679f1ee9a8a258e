import Aloelite.Transactions

/-! Structural operations of `operations.py`: creation, naming, placement and
annotation of single nodes. -/
namespace Aloelite

open Fallible

section

variable (C : Crypto) (E : Env) (k : Cipher)

def createContainer (tx : Tx) (mount : MountId) (path : String) : Except FsError (Tx × NodeId) := do
  let m ← requireMount E k tx.db mount true
  let p ← resolveParent tx.db m.mountPoint path
  requireName p.name
  let (tx, node) ← newNode E tx m .container p.name none none .empty
  let tx ← linkChild E tx m p.container node none
  return (tx, node)

/-- The common body of `_create_entry_internal` and `create_special`: a leaf
with its content, placed last. -/
def createLeaf (tx : Tx) (mount : MountId) (path : String) (type : NodeType) (data : Bytes) :
    Except FsError (Tx × NodeId) := do
  let m ← requireMount E k tx.db mount true
  let p ← resolveParent tx.db m.mountPoint path
  requireName p.name
  let (tx, node) ← newNode E tx m type p.name none none .empty
  let tx ← putInitialContent C E k tx m node data
  let tx ← linkChild E tx m p.container node none
  return (tx, node)

def createEntry (tx : Tx) (mount : MountId) (path : String) (data : Bytes) :
    Except FsError (Tx × NodeId) :=
  createLeaf C E k tx mount path .entry data

def createSpecial (tx : Tx) (mount : MountId) (path : String) (type : NodeType) (data : Bytes) :
    Except FsError (Tx × NodeId) := do
  refuse (type = .container ∨ type = .entry) .unsupported
  createLeaf C E k tx mount path type data

/-- `rename`: the placement the path walked; the node's own name follows while
it is the only one. -/
def rename (tx : Tx) (mount : MountId) (path name : String) : Except FsError Tx := do
  let m ← requireMount E k tx.db mount true
  requireName name
  let p ← resolveParent tx.db m.mountPoint path
  let found ← resolve tx.db m.mountPoint path
  requireUnlocked E tx.db found.node mount
  let tx ← tx.run E (.renamePlacement p.container found.node p.name name)
  tx.run E (.renameNodeIfSole found.node name)

/-- `link`: one more placement of a leaf. -/
def link (tx : Tx) (mount : MountId) (src dst : String) : Except FsError Tx := do
  let m ← requireMount E k tx.db mount true
  let found ← resolve tx.db m.mountPoint src
  refuse (found.type = .container) (.notAnEntry found.node)
  requireUnlocked E tx.db found.node mount
  let p ← resolveParent tx.db m.mountPoint dst
  requireName p.name
  refuse (tx.db.resolveSegment p.container p.name).isSome (.alreadyExists p.name)
  let nodeName := (tx.db.node? found.node).map NodeRow.name
  linkChild E tx m p.container found.node (if nodeName = some p.name then none else some p.name)

/-- `move`: archive the placement the source path walked, place the node under
the destination's parent by the destination's final name. -/
def move (tx : Tx) (mount : MountId) (src dst : String) : Except FsError Tx := do
  let m ← requireMount E k tx.db mount true
  let found ← resolve tx.db m.mountPoint src
  requireUnlocked E tx.db found.node mount
  let srcParent ← resolveParent tx.db m.mountPoint src
  let p ← resolveParent tx.db m.mountPoint dst
  requireName p.name
  refuse (found.type = .container ∧ tx.db.checkCycle found.node p.container)
    (.wouldCycle found.node p.container)
  refuse (tx.db.placementCount srcParent.container found.node srcParent.name = 0) .notFound
  let tx ← tx.run E (.archivePlacement srcParent.container found.node srcParent.name)
  let renamed := (tx.db.node? found.node).any (fun r => r.name ≠ p.name)
  let tx ← linkChild E tx m p.container found.node (if renamed then some p.name else none)
  if renamed then tx.run E (.renameNodeIfSole found.node p.name) else return tx

/-- `set_owner`; the mode is masked to `0o7777`. -/
def setOwner (tx : Tx) (mount : MountId) (path : String) (uid gid mode : Option Int) :
    Except FsError Tx := do
  let m ← requireMount E k tx.db mount true
  let found ← resolve tx.db m.mountPoint path
  tx.run E (.setOwner found.node uid gid (mode.map (· % 4096)))

def setAtime (tx : Tx) (mount : MountId) (node : NodeId) (ts : Int) : Except FsError Tx := do
  let _ ← requireMount E k tx.db mount true
  tx.run E (.setAtime node ts)

/-- `set_mtime` -/
def setMtime (tx : Tx) (mount : MountId) (node : NodeId) (ts : Int) : Except FsError Tx := do
  let _ ← requireMount E k tx.db mount true
  tx.run E (.setModifiedAt node ts)

def setXattr (tx : Tx) (mount : MountId) (path name : String) (value : Bytes) :
    Except FsError Tx := do
  let m ← requireMount E k tx.db mount true
  let found ← resolve tx.db m.mountPoint path
  tx.run E (.xattrSet { nodeId := found.node, name := name, value := value })

/-- `remove_xattr`, with whether the attribute existed. -/
def removeXattr (tx : Tx) (mount : MountId) (path name : String) : Except FsError (Tx × Bool) := do
  let m ← requireMount E k tx.db mount true
  let found ← resolve tx.db m.mountPoint path
  let existed := tx.db.xattrs.any (fun r => r.nodeId = found.node ∧ r.name = name)
  let tx ← tx.run E (.xattrRemove found.node name)
  return (tx, existed)

def setMetadata (tx : Tx) (mount : MountId) (path : String) (metadata : Metadata) :
    Except FsError Tx := do
  let m ← requireMount E k tx.db mount true
  let found ← resolve tx.db m.mountPoint path
  requireUnlocked E tx.db found.node mount
  tx.run E (.setMetadata found.node metadata)

def setRetention (tx : Tx) (mount : MountId) (path : String) (keep : Option Int) :
    Except FsError Tx := do
  let m ← requireMount E k tx.db mount true
  let found ← resolve tx.db m.mountPoint path
  refuse (found.type = .container) (.notAnEntry found.node)
  tx.run E (.setRetentionKeep found.node keep)

/-- `read_all` -/
def readAll (db : Db) (mount : MountId) (path : String) : Except FsError Bytes := do
  let m ← requireMount E k db mount false
  let found ← resolve db m.mountPoint path
  refuse (found.type = .container) (.notAnEntry found.node)
  readContentBytes C k db found.node

end

end Aloelite
