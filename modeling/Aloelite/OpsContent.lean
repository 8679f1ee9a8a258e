import Aloelite.Transactions

/-! Whole-content operations of `operations.py`. Each stages one new version
and swaps the committed pointer in the same transaction. -/
namespace Aloelite

open Fallible Pieces

section

variable (C : Crypto) (E : Env) (k : Cipher)

/-- The opening of every content write: a leaf, not locked by another mount. -/
def openContent (db : Db) (mount : MountId) (path : String) :
    Except FsError (MountCtx × NodeId) := do
  let m ← requireMount E k db mount true
  let found ← resolve db m.mountPoint path
  refuse (found.type = .container) (.notAnEntry found.node)
  requireUnlocked E db found.node mount
  return (m, found.node)

def writeAll (tx : Tx) (mount : MountId) (path : String) (data : Bytes) : Except FsError Tx := do
  let (m, node) ← openContent E k tx.db mount path
  let version := tx.db.nextVersion node
  let tx ← tx.stageChunks C E k node version m.volume data
  let tx ← tx.run E (.updateContent node version data.length)
  return tx.gives node data

/-- `copy_chunk_refs_range` over the first `count` chunks, when there are any. -/
def carryLeading (tx : Tx) (node : NodeId) (dstVersion srcVersion count : ℕ) : Except FsError Tx :=
  if 0 < count then tx.run E (.copyChunkRefsRange node dstVersion srcVersion 0 (count - 1))
    else .ok tx

/-- The partial final chunk of a version of `size` bytes; nothing when every chunk
is full. -/
def readTail (db : Db) (node : NodeId) (version size cs : ℕ) : Except FsError Bytes :=
  if 0 < size % cs then do
    let rows ← readChunkRange C k db node version (size / cs) (size / cs)
    return rows.head?.getD []
  else .ok []

/-- The answer of `append` and `write_range` to empty data: the size, no write. -/
def currentSize (db : Db) (mount : MountId) (path : String) : Except FsError ℕ := do
  let m ← requireMount E k db mount true
  let found ← resolve db m.mountPoint path
  refuse (found.type = .container) (.notAnEntry found.node)
  return ((readContentMeta db found.node).map Prod.snd).getD 0

def append (tx : Tx) (mount : MountId) (path : String) (data : Bytes) : Except FsError (Tx × ℕ) :=
  if data = [] then do
    let size ← currentSize E k tx.db mount path
    return (tx, size)
  else do
    let (m, node) ← openContent E k tx.db mount path
    let cs := chunkSizeOf tx.db m.volume
    refuse (cs = 0) .valueError
    let (srcVersion, size) := (readContentMeta tx.db node).getD (0, 0)
    let newVersion := tx.db.nextVersion node
    let full := size / cs
    let tx ← carryLeading E tx node newVersion srcVersion full
    -- the last, short chunk is sealed again together with the new bytes
    let tail ← readTail C k tx.db node srcVersion size cs
    let tx ← tx.stageFrom C E k node newVersion full (pieces cs (tail ++ data))
    let tx ← tx.run E (.updateContent node newVersion (size + data.length))
    return (tx.gives node (tx.committed node ++ data), size + data.length)

/-- The window buffer of `write_range`, patched: the old chunks of the window,
zeros up to the offset, the data over them. -/
def patchWindow (buf : Bytes) (offset : ℕ) (data : Bytes) : Bytes :=
  let buf := buf ++ List.replicate (offset - buf.length) 0
  buf.take offset ++ data ++ buf.drop (offset + data.length)

/-- The chunks above a write window, carried by reference when there are any. -/
def carryTrailing (tx : Tx) (node : NodeId) (dstVersion srcVersion hi : ℕ) (srcLast : Int) :
    Except FsError Tx :=
  if (hi : Int) < srcLast then
    tx.run E (.copyChunkRefsRange node dstVersion srcVersion (hi + 1) srcLast.toNat)
  else .ok tx

/-- The old bytes of a window of chunks; nothing when it lies past the end. -/
def readWindow (db : Db) (node : NodeId) (version lo : ℕ) (hi : Int) : Except FsError Bytes :=
  if (lo : Int) ≤ hi then do
    let rows ← readChunkRange C k db node version lo hi.toNat
    return rows.flatten
  else .ok []

def writeRange (tx : Tx) (mount : MountId) (path : String) (offset : ℕ) (data : Bytes) :
    Except FsError (Tx × ℕ) :=
  if data = [] then do
    let size ← currentSize E k tx.db mount path
    return (tx, size)
  else do
    let (m, node) ← openContent E k tx.db mount path
    let cs := chunkSizeOf tx.db m.volume
    refuse (cs = 0) .valueError
    let (srcVersion, size) := (readContentMeta tx.db node).getD (0, 0)
    let endOffset := offset + data.length
    let newSize := max size endOffset
    let newVersion := tx.db.nextVersion node
    let hi := (endOffset - 1) / cs
    -- the window reaches down to the chunk of the prior end of file
    let windowLo := min (offset / cs) (size / cs)
    let srcLast : Int := if 0 < size then ((size - 1) / cs : ℕ) else -1
    let tx ← carryLeading E tx node newVersion srcVersion windowLo
    let tx ← carryTrailing E tx node newVersion srcVersion hi srcLast
    let buf ← readWindow C k tx.db node srcVersion windowLo (min (hi : Int) srcLast)
    let window := patchWindow buf (offset - windowLo * cs) data
    let tx ← tx.stageFrom C E k node newVersion windowLo (pieces cs window)
    let tx ← tx.run E (.updateContent node newVersion newSize)
    return (tx.gives node (patchWindow (tx.committed node) offset data), newSize)

/-- What `truncate` leaves: cut, or padded with zeros. -/
def resized (data : Bytes) (size : ℕ) : Bytes :=
  data.take size ++ List.replicate (size - data.length) 0

/-- The shrinking half of `truncate`: full chunks by reference, the final one cut
and staged anew. -/
def shrinkTo (tx : Tx) (node : NodeId) (newVersion srcVersion cs size : ℕ) : Except FsError Tx := do
  let full := size / cs
  let tx ← carryLeading E tx node newVersion srcVersion full
  if 0 < size % cs then do
    let rows ← readChunkRange C k tx.db node srcVersion full full
    let chunk ← orRaise rows.head? .indexError
    tx.stageChunk C E k node newVersion full (chunk.take (size % cs))
  else return tx

/-- The growing half of `truncate`: full chunks by reference, the old tail and
zeros staged anew. -/
def growTo (tx : Tx) (node : NodeId) (newVersion srcVersion cs cur size : ℕ) :
    Except FsError Tx := do
  let full := cur / cs
  let tx ← carryLeading E tx node newVersion srcVersion full
  let tail ← readTail C k tx.db node srcVersion cur cs
  let pad := tail ++ List.replicate (size - full * cs - tail.length) 0
  tx.stageFrom C E k node newVersion full (pieces cs pad)

def truncate (tx : Tx) (mount : MountId) (path : String) (size : ℕ) : Except FsError Tx := do
  let (m, node) ← openContent E k tx.db mount path
  let cs := chunkSizeOf tx.db m.volume
  let (srcVersion, cur) := (readContentMeta tx.db node).getD (0, 0)
  if size = cur then return tx
  else do
    refuse (cs = 0) .valueError
    let newVersion := tx.db.nextVersion node
    let tx ← if size < cur then shrinkTo C E k tx node newVersion srcVersion cs size
      else growTo C E k tx node newVersion srcVersion cs cur size
    let tx ← tx.run E (.updateContent node newVersion size)
    return tx.gives node (resized (tx.committed node) size)

end

end Aloelite
