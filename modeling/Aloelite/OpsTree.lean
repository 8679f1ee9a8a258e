import Aloelite.PackFormat
import Aloelite.Transactions

/-! Removal, copy, pack and unpack: the operations of `operations.py` that act
on whole subtrees. -/
namespace Aloelite

open Fallible

section

variable (C : Crypto) (M : Msgpack) (E : Env) (k : Cipher)

/-- `remove`: a leaf or an empty container loses the placement the path
walked. -/
def remove (tx : Tx) (mount : MountId) (path : String) : Except FsError Tx := do
  let m ← requireMount E k tx.db mount true
  let found ← resolve tx.db m.mountPoint path
  requireUnlocked E tx.db found.node mount
  refuse (found.type = .container ∧ tx.db.checkEmpty found.node) (.notEmpty found.node)
  let p ← resolveParent tx.db m.mountPoint path
  refuse (tx.db.placementCount p.container found.node p.name = 0) .notFound
  tx.run E (.archivePlacement p.container found.node p.name)

def removeRecursive (tx : Tx) (mount : MountId) (path : String) : Except FsError Tx := do
  let m ← requireMount E k tx.db mount true
  let found ← resolve tx.db m.mountPoint path
  requireSubtreeUnlocked E tx.db found.node mount
  tx.run E (.archiveSubtree found.node)

/-! ### Copy -/

/-- The map from the nodes of a walk to what was made for them; a node met
again is mapped anew. -/
abbrev IdMap (α : Type) := List (NodeId × α)

/-- `idmap[node]`; a node never met is a KeyError. -/
def IdMap.find {α : Type} (ids : IdMap α) (node : NodeId) : Except FsError α :=
  orRaise ((List.find? (fun p => p.1 = node) ids).map Prod.snd) .keyError

/-- The content of a copy: the committed version's chunks by reference. -/
def copyContent (tx : Tx) (src dst : NodeId) : Except FsError Tx := do
  let (version, size) := (readContentMeta tx.db src).getD (0, 0)
  let tx ← tx.run E (.createContent dst version size)
  let tx := tx.gives dst (tx.committed src)
  if 0 < version then tx.run E (.copyChunkRefs dst version src version) else return tx

/-- The content of a copied row; a container has none. -/
def fillCopy (tx : Tx) (type : NodeType) (src dst : NodeId) : Except FsError Tx :=
  if type = .container then .ok tx else copyContent E tx src dst

/-- Where a copied row is placed: the root at the destination, the rest under the
copy of its parent. -/
def copyParent (dst : Parent) (ids : IdMap NodeId) (r : SubtreeRow) : Except FsError NodeId :=
  match r.parentId with
  | none => .ok dst.container
  | some old => ids.find old

/-- One round of the loop of `copy`. -/
def copyRow (m : MountCtx) (dst : Parent) (s : Tx × IdMap NodeId) (r : SubtreeRow) :
    Except FsError (Tx × IdMap NodeId) := do
  let info ← orRaise (s.1.db.node? r.nodeId) .corrupt
  let name := if r.parentId.isNone then dst.name else r.name
  let parent ← copyParent dst s.2 r
  let (tx, new) ← newNode E s.1 m info.type name (some info.createdAt)
    ((s.1.db.times? r.nodeId).map TimesRow.modifiedAt) info.metadata
  let tx ← fillCopy E tx info.type r.nodeId new
  let tx ← linkChild E tx m parent new none
  return (tx, (r.nodeId, new) :: s.2)

/-- `copy`: every placement of the source subtree, top down, each as a new
node. -/
def copy (tx : Tx) (mount : MountId) (src dst : String) : Except FsError (Tx × NodeId) := do
  let m ← requireMount E k tx.db mount true
  let found ← resolve tx.db m.mountPoint src
  let p ← resolveParent tx.db m.mountPoint dst
  requireName p.name
  let s ← (tx.db.enumerateSubtree found.node).foldlM (copyRow E m p) (tx, [])
  -- the walk's first row is the root, met last in the map
  let root ← orRaise s.2.getLast? .corrupt
  return (s.1, root.2)

/-! ### Pack -/

/-- The attributes of a node in name order, as `pack` collects them. -/
def xattrItems (db : Db) (node : NodeId) : List (String × Bytes) :=
  ((db.xattrs.filter (fun r => r.nodeId = node)).insertionSort (fun r s => r.name ≤ s.name)).map
    (fun r => (r.name, r.value))

/-- The map entry of one row of the walk. -/
def packNode (db : Db) (info : NodeRow) (p : Int) (name : String) (data : Option Bytes) :
    PackNode :=
  let xattrs := xattrItems db info.nodeId
  { p := p
    t := info.type.value
    n := name
    c := some info.createdAt
    m := (db.times? info.nodeId).map TimesRow.modifiedAt
    u := info.uid
    g := info.gid
    o := info.mode
    x := if info.metadata.1 = [] then none
      else some (info.metadata.1.map (fun kv => (.str kv.1, .str kv.2)))
    xa := if xattrs = [] then none else some xattrs
    rk := if info.type = .container then none
      else (db.content? info.nodeId).bind ContentRow.retentionKeep
    d := data }

/-- `p`: -1 for the root, else the index of the row's parent. -/
def packParent (index : IdMap ℕ) (r : SubtreeRow) : Except FsError Int :=
  match r.parentId with
  | none => .ok (-1)
  | some old => (fun i : ℕ => (i : Int)) <$> index.find old

/-- `d`: the payload of a leaf. -/
def packData (db : Db) (info : NodeRow) : Except FsError (Option Bytes) :=
  if info.type = .container then .ok none else some <$> readContentBytes C k db info.nodeId

/-- One round of the loop of `pack`. -/
def packRow (db : Db) (s : List PackNode × IdMap ℕ) (r : SubtreeRow) :
    Except FsError (List PackNode × IdMap ℕ) := do
  let info ← orRaise (db.node? r.nodeId) .corrupt
  let index : IdMap ℕ := (r.nodeId, s.1.length) :: s.2
  let p ← packParent index r
  let data ← packData C k db info
  return (s.1 ++ [packNode db info p r.name data], index)

def packNodes (db : Db) (root : NodeId) : Except FsError (List PackNode) := do
  let s ← (db.enumerateSubtree root).foldlM (packRow C k db) ([], [])
  return s.1

def pack (tx : Tx) (mount : MountId) (path : String) : Except FsError (Tx × NodeId) := do
  let m ← requireMount E k tx.db mount true
  let found ← resolve tx.db m.mountPoint path
  refuse (found.type ≠ .container) (.notAContainer found.node)
  requireSubtreeUnlocked E tx.db found.node mount
  let placement ← orRaise (tx.db.getActiveParent found.node) .notFound
  let cont ← orRaise (tx.db.node? found.node) .corrupt
  let nodes ← packNodes C k tx.db found.node
  let blob ← orRaise (encodePack M nodes) .valueError
  let tx ← tx.run E (.archiveSubtree found.node)
  let (tx, packed) ← newNode E tx m .entry cont.name none none .empty
  let tx ← putInitialContent C E k tx m packed blob
  let tx ← linkChild E tx m placement.fromId packed none
  return (tx, packed)

/-! ### Unpack -/

/-- `_meta_to_json` on the map of a decoded node, the last item of a key kept. The metadata
of a node are texts here: a value of another kind passes, but is not shown. -/
def metadataOf (x : Option (List (Value × Value))) : Except FsError Metadata := do
  let pairs := x.getD []
  refuse (!(Value.map pairs).jsonable jsonMaxDepth) .typeError
  let items := pairs.filterMap (fun kv => match kv with
    | (.str key, .str value) => some (key, value)
    | _ => none)
  return ⟨items.pwFilter (fun a b => a.1 ≠ b.1), List.pairwise_map.mpr (List.pairwise_pwFilter _)⟩

/-- Binding to SQLite's columns: an integer that does not fit in 64 bits overflows. -/
def bindInts (is : List (Option Int)) : Except FsError Unit :=
  refuse (is.any (fun i => i.any (fun i => i < -2 ^ 63 ∨ 2 ^ 63 ≤ i))) .overflowError

/-- `idmap[p]` over the nodes made so far; any other index is a KeyError. -/
def nodeAt (ids : List NodeId) (p : Int) : Except FsError NodeId :=
  orRaise (if 0 ≤ p then ids[p.toNat]? else none) .keyError

def unpackTarget (parent : NodeId) (ids : List NodeId) (p : Int) : Except FsError NodeId :=
  if p = -1 then .ok parent else nodeAt ids p

/-- The payload of a restored leaf. -/
def fillUnpacked (tx : Tx) (m : MountCtx) (type : NodeType) (node : NodeId) (d : Option Bytes) :
    Except FsError Tx :=
  if type = .container then .ok tx else putInitialContent C E k tx m node (d.getD [])

/-- `u`, `g` and `o`, when any is set. -/
def restoreOwner (tx : Tx) (pn : PackNode) (node : NodeId) : Except FsError Tx :=
  if pn.u.isSome ∨ pn.g.isSome ∨ pn.o.isSome then do
    bindInts [pn.u, pn.g]
    tx.run E (.setOwner node pn.u pn.g (pn.o.map (· % 4096)))
  else .ok tx

/-- `xa`, one attribute after another. -/
def restoreXattrs (tx : Tx) (pn : PackNode) (node : NodeId) : Except FsError Tx :=
  (pn.xa.getD []).foldlM
    (fun tx kv => tx.run E (.xattrSet { nodeId := node, name := kv.1, value := kv.2 })) tx

/-- `rk`, on leaves. -/
def restoreRetention (tx : Tx) (pn : PackNode) (type : NodeType) (node : NodeId) :
    Except FsError Tx :=
  if pn.rk.isSome ∧ type ≠ .container then do
    bindInts [pn.rk]
    tx.run E (.setRetentionKeep node pn.rk)
  else .ok tx

/-- One round of the loop of `unpack`. -/
def unpackNode (m : MountCtx) (parent : NodeId) (s : Tx × List NodeId) (pn : PackNode) :
    Except FsError (Tx × List NodeId) := do
  let type ← orRaise (NodeType.ofValue pn.t) .valueError
  let target ← unpackTarget parent s.2 pn.p
  let metadata ← metadataOf pn.x
  bindInts [pn.c, pn.m]
  let (tx, new) ← newNode E s.1 m type pn.n pn.c pn.m metadata
  let tx ← fillUnpacked C E k tx m type new pn.d
  let tx ← linkChild E tx m target new none
  let tx ← restoreOwner E tx pn new
  let tx ← restoreXattrs E tx pn new
  let tx ← restoreRetention E tx pn type new
  return (tx, s.2 ++ [new])

def unpack (tx : Tx) (mount : MountId) (path : String) : Except FsError Tx := do
  let m ← requireMount E k tx.db mount true
  let found ← resolve tx.db m.mountPoint path
  refuse (found.type = .container) (.notAnEntry found.node)
  requireUnlocked E tx.db found.node mount
  let blob ← readContentBytes C k tx.db found.node
  let nodes ← decodePack M blob
  let placement ← orRaise (tx.db.getActiveParent found.node) .notFound
  let tx ← tx.run E (.archiveEdge placement.edgeId)
  let s ← nodes.foldlM (unpackNode C E k m placement.fromId) (tx, [])
  return s.1

end

end Aloelite
