import Aloelite.Library.Machine
import Aloelite.Library.Pieces
import Aloelite.Crypto

/-! Content writes of the Rust engine (`ops/content.rs`, `descriptor.rs`) over one leaf
and the descriptors open on it, with the integer types of the source. The statements of
the database succeed unless a key is taken twice; version numbers do not run out. -/
namespace Aloelite.Rust

open Machine Outcome Pieces

/-- Where the engine is compiled to: `usize` has 32 or 64 bits. -/
inductive Target
  | wasm32
  | native
  deriving DecidableEq

def i64 : IntType := ⟨64, true, by decide⟩

def u64 : IntType := ⟨64, false, by decide⟩

def Target.usize : Target → IntType
  | .wasm32 => ⟨32, false, by decide⟩
  | .native => u64

/-- `isize::MAX`, the most bytes a vector or a slice can hold. -/
def Target.isizeMax (t : Target) : ℕ := 2 ^ (t.usize.bits - 1) - 1

/-- The errors of `errors.rs` that these operations answer or pass on. -/
inductive FsError
  | notFound (msg : String)
  | notAContainer (node : String)
  | notAnEntry (node : String)
  | mountInvalid (msg : String)
  | mountPointArchived (node : String)
  | readOnly
  | encryptionRequired (msg : String)
  | lockHeld (node : String)
  | lockInvalid (msg : String)
  | corrupt (msg : String)
  | unsupported (msg : String)
  | usage (msg : String)
  | sqlite (msg : String)
  deriving DecidableEq

/-- A row of `content_version`, joined with its chunk. -/
structure ChunkRef where
  version : ℤ
  index : ℤ
  data : Bytes
  deriving DecidableEq

/-- One leaf: its `content` row, the manifest rows of all its versions, and the chunk
size of its volume. -/
structure Leaf where
  node : String
  volume : String
  chunkSize : ℤ
  version : ℤ
  size : ℤ
  refs : List ChunkRef
  deriving DecidableEq

namespace Leaf

variable (L : Leaf) (v i lo hi : ℤ)

/-- `next_version` -/
def allocVersion : ℤ := max L.version ((L.refs.map ChunkRef.version).foldr max 0) + 1

/-- The chunk at one place of a version; the primary key allows no second one. -/
def chunk : Option Bytes := (L.refs.find? (fun r => r.version = v ∧ r.index = i)).map ChunkRef.data

/-- `read_chunks_range`: the chunks of a range of places, in order. -/
def readChunkRange : List Bytes :=
  (List.range (hi + 1 - lo).toNat).filterMap (fun k : ℕ => L.chunk v (lo + k))

/-- `first_chunk`: nothing when there is none. -/
def firstChunk (t : Target) : Outcome FsError Bytes :=
  toVec t.isizeMax ((L.readChunkRange v i i).head?.getD [])

/-- The chunk at a place, when the size does not end on a chunk. -/
def tail (t : Target) (rest : ℤ) : Outcome FsError Bytes :=
  if 0 < rest then L.firstChunk v i t else done []

def stageChunk (data : Bytes) : Outcome FsError Leaf :=
  if (L.chunk v i).isSome then refused (.sqlite "UNIQUE constraint failed")
  else done { L with refs := L.refs ++ [⟨v, i, data⟩] }

/-- `copy_chunk_refs_range`: the rows of a version between two places. -/
def carry (dst : ℤ) : Outcome FsError Leaf :=
  let rows := L.refs.filter (fun r => r.version = v ∧ lo ≤ r.index ∧ r.index ≤ hi)
  if ∃ r ∈ rows, (L.chunk dst r.index).isSome then refused (.sqlite "UNIQUE constraint failed")
  else done { L with refs := L.refs ++ rows.map (fun r => { r with version := dst }) }

/-- `update_content` -/
def swapPointer : Leaf := { L with version := v, size := i }

end Leaf

/-- What `require_mount`, `resolve` and `lock_held` find of the caller's mount and path. -/
structure Access where
  refusal : Option FsError
  container : Bool
  held : Bool
  deriving DecidableEq

section

variable (B : Build) (t : Target)

/-- `leaf` -/
def findLeaf (a : Access) (L : Leaf) : Outcome FsError Unit :=
  match a.refusal with
  | some e => refused e
  | none => if a.container then refused (.notAnEntry L.node) else done ()

def writableLeaf (a : Access) (L : Leaf) : Outcome FsError Unit := do
  findLeaf a L
  if a.held then refused (.lockHeld L.node) else done ()

def chunkSizeOf (L : Leaf) : Outcome FsError ℤ :=
  let volume := L.volume
  if 0 < L.chunkSize then B.cast t.usize L.chunkSize
  else refused (.corrupt s!"volume {volume} has no chunk size")

/-- `split_chunks`, with its assertion. -/
def splitChunks (bytes : Bytes) (cs : ℤ) : Outcome FsError (List Bytes) :=
  if 0 < cs then done (pieces cs.toNat bytes) else panicked

/-- The loop of `stage_from`. -/
def stageAll (L : Leaf) (version index : ℤ) : List Bytes → Outcome FsError Leaf
  | [] => done L
  | chunk :: rest => do
    let L ← L.stageChunk version index chunk
    let index ← B.arith i64 (index + 1)
    stageAll L version index rest

def stageFrom (L : Leaf) (version index : ℤ) (bytes : Bytes) (cs : ℤ) : Outcome FsError Leaf := do
  let chunks ← splitChunks bytes cs
  stageAll B L version index chunks

/-- `if full > 0 { carry(.., 0, full - 1) }` -/
def carryLeading (L : Leaf) (dst src full : ℤ) : Outcome FsError Leaf :=
  if 0 < full then do
    let hi ← B.arith i64 (full - 1)
    L.carry src 0 hi dst
  else done L

/-- `if src_last > hi { carry(.., hi + 1, src_last) }` -/
def carryTrailing (L : Leaf) (dst src hi srcLast : ℤ) : Outcome FsError Leaf :=
  if hi < srcLast then do
    let above ← B.arith i64 (hi + 1)
    L.carry src above srcLast dst
  else done L

/-- The place of the last chunk, or -1. -/
def lastIndex (size cs : ℤ) : Outcome FsError ℤ :=
  if 0 < size then do
    let last ← B.arith i64 (size - 1)
    return last.tdiv cs
  else done (-1)

/-- The answer of `append` and `write_range` to empty data. -/
def sizeOf (a : Access) (L : Leaf) : Outcome FsError (Leaf × ℤ) := do
  findLeaf a L
  let size ← B.cast u64 (max L.size 0)
  return (L, size)

def append (a : Access) (L : Leaf) (data : Bytes) : Outcome FsError (Leaf × ℤ) :=
  if data = [] then sizeOf B a L
  else do
    writableLeaf a L
    let csOf ← chunkSizeOf B t L
    let cs ← B.cast i64 csOf
    let newVersion := L.allocVersion
    let full := L.size.tdiv cs
    let carried ← carryLeading B L newVersion L.version full
    -- rebuild from the old partial tail and the new data
    let tail ← carried.tail L.version full t (L.size.tmod cs)
    let tail ← extendFromSlice t.isizeMax tail data
    let csBack ← B.cast t.usize cs
    let staged ← stageFrom B carried newVersion full tail csBack
    let len ← B.cast i64 data.length
    let newSize ← B.arith i64 (L.size + len)
    let answer ← B.cast u64 newSize
    return (staged.swapPointer newVersion newSize, answer)

/-- The buffer into which the chunks of a window are read. -/
def readWindow (chunks : List Bytes) : Outcome FsError Bytes :=
  chunks.foldlM (fun buf chunk => extendFromSlice t.isizeMax buf chunk) []

/-- `if n > buf.len() { buf.resize(n, 0) }` -/
def fillTo (buf : Bytes) (n : ℤ) : Outcome FsError Bytes :=
  if buf.length < n then resize t.isizeMax buf n 0 else done buf

/-- The window of `write_range`: zeros up to both ends, and the data over them. -/
def patchWindow (buf data : Bytes) (start stop : ℤ) : Outcome FsError Bytes := do
  let filled ← fillTo t buf start
  let filled ← fillTo t filled stop
  copyFromSlice filled data start stop

def writeRange (a : Access) (L : Leaf) (offset : ℤ) (data : Bytes) : Outcome FsError (Leaf × ℤ) :=
  if data = [] then sizeOf B a L
  else do
    writableLeaf a L
    let csOf ← chunkSizeOf B t L
    let cs ← B.cast i64 csOf
    let offset ← B.cast i64 offset
    let len ← B.cast i64 data.length
    let stop ← B.arith i64 (offset + len)
    let newSize := max L.size stop
    let newVersion := L.allocVersion
    let lastByte ← B.arith i64 (stop - 1)
    let hi := lastByte.tdiv cs
    -- the window reaches down to the chunk of the prior end of file
    let windowLo := min (offset.tdiv cs) (L.size.tdiv cs)
    let srcLast ← lastIndex B L.size cs
    let below ← carryLeading B L newVersion L.version windowLo
    let carried ← carryTrailing B below newVersion L.version hi srcLast
    let base ← B.arith i64 (windowLo * cs)
    -- past the prior end there is no chunk to read
    let winSrcHi := min hi srcLast
    let buf ← readWindow t (if windowLo ≤ winSrcHi then
      carried.readChunkRange L.version windowLo winSrcHi else [])
    let startAt ← B.arith i64 (offset - base)
    let startAt ← B.cast t.usize startAt
    let stopAt ← B.arith i64 (stop - base)
    let stopAt ← B.cast t.usize stopAt
    let window ← patchWindow t buf data startAt stopAt
    let csBack ← B.cast t.usize cs
    let staged ← stageFrom B carried newVersion windowLo window csBack
    let answer ← B.cast u64 newSize
    return (staged.swapPointer newVersion newSize, answer)

/-- The shrinking half of `truncate`. -/
def shrink (L : Leaf) (cs newVersion size : ℤ) : Outcome FsError Leaf := do
  let full := size.tdiv cs
  let carried ← carryLeading B L newVersion L.version full
  let rest := size.tmod cs
  if 0 < rest then do
    let chunk ← carried.firstChunk L.version full t
    let rest ← B.cast t.usize rest
    let chunk ← sliceUpTo chunk rest
    carried.stageChunk newVersion full chunk
  else done carried

/-- The growing half of `truncate`. -/
def grow (L : Leaf) (cs newVersion size : ℤ) : Outcome FsError Leaf := do
  let full := L.size.tdiv cs
  let carried ← carryLeading B L newVersion L.version full
  let pad ← carried.tail L.version full t (L.size.tmod cs)
  let base ← B.arith i64 (full * cs)
  let length ← B.arith i64 (size - base)
  let length ← B.cast t.usize length
  let pad ← resize t.isizeMax pad length 0
  let csBack ← B.cast t.usize cs
  stageFrom B carried newVersion full pad csBack

def truncate (a : Access) (L : Leaf) (size : ℤ) : Outcome FsError (Leaf × ℤ) := do
  writableLeaf a L
  let csOf ← chunkSizeOf B t L
  let cs ← B.cast i64 csOf
  let size ← B.cast i64 size
  if size = L.size then return (L, 0)
  else do
    let newVersion := L.allocVersion
    let staged ← if size < L.size then shrink B t L cs newVersion size
      else grow B t L cs newVersion size
    return (staged.swapPointer newVersion size, 0)

end

inductive Whence
  | start
  | current
  | stop
  deriving DecidableEq

inductive WriteMode
  | truncating
  | appending
  deriving DecidableEq

/-- A `Descriptor`. Its lock is looked at only when it is closed. -/
structure Descriptor where
  writable : Bool
  chunkSize : ℤ
  pos : ℤ
  closed : Bool
  version : ℤ
  size : ℤ
  newVersion : Option ℤ
  carrySrc : ℤ
  carryFull : ℤ
  carryDone : Bool
  chunkIndex : ℤ
  flushed : ℤ
  pending : Bytes
  deriving DecidableEq

/-- `Descriptor::reader`, at a committed size. -/
def Descriptor.reader (chunkSize version size : ℤ) : Descriptor :=
  ⟨false, chunkSize, 0, false, version, size, none, 0, 0, true, 0, 0, []⟩

/-- A number under which nothing is open. -/
def Descriptor.unused : Descriptor := { Descriptor.reader 1 0 0 with closed := true }

/-- A leaf and the descriptors on it. -/
structure Sys where
  leaf : Leaf
  fds : ℕ → Descriptor

/-- A call in the state it starts from: it leaves a state even when it refuses. -/
abbrev Call (α : Type) := Outcome (FsError × Sys) α

namespace Sys

variable (B : Build) (t : Target) (s : Sys) (k : ℕ)

def setFd (d : Descriptor) : Sys := { s with fds := Function.update s.fds k d }

/-- `db.txn`: what the transaction did to the leaf is rolled back when it refuses. -/
def txn {α : Type} : Outcome FsError α → Call α
  | done r => done r
  | refused e => refused (e, s)
  | panicked => panicked

def onLeaf (x : Outcome FsError (Leaf × ℤ)) : Call (Sys × ℤ) := do
  let (L, answer) ← s.txn x
  return ({ s with leaf := L }, answer)

/-- `check_open` and `check_writable` -/
def check (writing : Bool) : Call Unit :=
  if (s.fds k).closed then refused (.usage "descriptor is closed", s)
  else if writing ∧ ¬(s.fds k).writable then refused (.usage "descriptor is read-only", s)
  else done ()

/-- `refresh`, with the size cast to `u64`. -/
def refresh : Call Sys := do
  let size ← B.cast u64 (max s.leaf.size 0)
  return s.setFd k { s.fds k with version := s.leaf.version, size := size }

/-- The chunks an appending writer carries, unless it has carried them. -/
def carryOver (version : ℤ) : Call Leaf :=
  let d := s.fds k
  if d.carryDone then done s.leaf
  else if 0 < d.carryFull then do
    let count ← B.cast i64 d.carryFull
    let hi ← B.arith i64 (count - 1)
    (s.setFd k { d with newVersion := some version }).txn (s.leaf.carry d.carrySrc 0 hi version)
  else done s.leaf

/-- `claim_version_locked`: the version and the leaf with the carried chunks. What it
notes in the descriptor stays even when the transaction around it is rolled back. -/
def claimVersion : Call (Sys × ℤ) := do
  let d := s.fds k
  let version := d.newVersion.getD s.leaf.allocVersion
  let carried ← s.carryOver B k version
  return ({ s with leaf := carried }.setFd k
    { d with newVersion := some version, carryDone := true }, version)

/-- A chunk staged under the version that is claimed; a refusal undoes the carried
chunks as well. -/
def stage (chunk : Bytes) : Call (Sys × ℤ) := do
  let (u, version) ← s.claimVersion B k
  let index ← B.cast i64 (s.fds k).chunkIndex
  let L ← { u with leaf := s.leaf }.txn (u.leaf.stageChunk version index chunk)
  return ({ u with leaf := L }, version)

def flushOneChunk : Call Sys := do
  let cs ← B.cast t.usize (s.fds k).chunkSize
  let (chunk, pending) ← drainUpTo (s.fds k).pending cs
  let (u, _) ← (s.setFd k { s.fds k with pending := pending }).stage B k chunk
  let index ← B.arith u64 ((u.fds k).chunkIndex + 1)
  let flushed ← B.arith u64 ((u.fds k).flushed + (u.fds k).chunkSize)
  return u.setFd k { u.fds k with chunkIndex := index, flushed := flushed }

/-- The loop of `write`; a chunk size of 0 would keep it going for ever. -/
def flushChunks : ℕ → Sys → Call Sys
  | 0, s => if (s.fds k).chunkSize ≤ (s.fds k).pending.length then panicked else done s
  | n + 1, s =>
    if (s.fds k).chunkSize ≤ (s.fds k).pending.length then do
      let u ← s.flushOneChunk B t k
      flushChunks n u
    else done s

/-- The part of `write` that only changes the descriptor. -/
def absorb (data : Bytes) : Call Sys := do
  let d := s.fds k
  let len ← B.cast u64 data.length
  let stop ← B.arith u64 (d.pos + len)
  if d.pos < d.flushed then
    refused (.unsupported
      "write into an already-flushed region is not supported (streaming writer is sequential)", s)
  else
    let lo ← B.arith u64 (d.pos - d.flushed)
    let lo ← B.cast t.usize lo
    let hi ← B.arith u64 (stop - d.flushed)
    let hi ← B.cast t.usize hi
    let pending ← patchWindow t d.pending data lo hi |> s.txn
    return s.setFd k { d with pending := pending, pos := stop }

def write (data : Bytes) : Call (Sys × ℤ) := do
  s.check k true
  if data = [] then return (s, 0)
  else do
    let u ← s.absorb B t k data
    let u ← flushChunks B t k (u.fds k).pending.length u
    return (u, data.length)

/-- `self.flushed + self.pending.len() as u64` of a writer, and a reader's size. -/
def total (d : Descriptor) : Call ℤ :=
  if d.writable then do
    let len ← B.cast u64 d.pending.length
    B.arith u64 (d.flushed + len)
  else done d.size

/-- A reader looks where the content ends now. -/
def refreshForEnd (whence : Whence) : Call Sys :=
  if ¬(s.fds k).writable ∧ whence = .stop then s.refresh B k else done s

/-- `seek`, whose sum is taken in `i128`. -/
def seek (offset : ℤ) (whence : Whence) : Call (Sys × ℤ) := do
  s.check k false
  let u ← s.refreshForEnd B k whence
  let d := u.fds k
  let total ← total B d
  let base := match whence with
    | .start => 0
    | .current => d.pos
    | .stop => total
  if base + offset < 0 then refused (.usage "negative seek position", u)
  else do
    let pos ← B.cast u64 (base + offset)
    return (u.setFd k { d with pos := pos }, pos)

/-- The last chunk of a writer, when it is not empty. -/
def stageLast : Call (Sys × ℤ) :=
  if (s.fds k).pending = [] then s.claimVersion B k else s.stage B k (s.fds k).pending

/-- The transaction of `commit`, on a lock that is found valid or not. -/
def commit (valid : Bool) (msg : String) : Call Sys := do
  let size ← total B (s.fds k)
  if valid then do
    let (u, version) ← s.stageLast B k
    let size ← B.cast i64 size
    return { u with leaf := u.leaf.swapPointer version size }
  else refused (.lockInvalid msg, s)

/-- `close`: whatever `commit` answers, the descriptor is closed. -/
def close (valid : Bool) (msg : String) : Call (Sys × ℤ) :=
  if (s.fds k).closed then return (s, 0)
  else
    let shut (u : Sys) : Sys := u.setFd k { u.fds k with closed := true }
    if (s.fds k).writable then
      match s.commit B k valid msg with
      | done u => done (shut u, 0)
      | refused (e, u) => refused (e, shut u)
      | panicked => panicked
    else return (shut s, 0)

def openRead (a : Access) : Call (Sys × ℤ) := do
  s.txn (findLeaf a s.leaf)
  let cs ← s.txn (chunkSizeOf B t s.leaf)
  let size ← B.cast u64 (max s.leaf.size 0)
  let cs ← B.cast u64 cs
  return (s.setFd k (Descriptor.reader cs s.leaf.version size), 0)

/-- `open_write` of a leaf that exists, under a lock of its own or one that is supplied. -/
def openWrite (a : Access) (mode : WriteMode) : Call (Sys × ℤ) := do
  s.txn (writableLeaf a s.leaf)
  let cs ← s.txn (chunkSizeOf B t s.leaf)
  let cs ← B.cast u64 cs
  match mode with
  | .truncating => return (s.setFd k ⟨true, cs, 0, false, 0, 0, none, 0, 0, false, 0, 0, []⟩, 0)
  | .appending => do
    let size ← B.cast u64 (max s.leaf.size 0)
    let full := size.tdiv cs
    let idx ← B.cast i64 full
    -- only a short last chunk is read back
    let pending ← s.txn (s.leaf.tail s.leaf.version idx t (if 0 < size then size.tmod cs else 0))
    let flushed ← B.arith u64 (full * cs)
    return (s.setFd k ⟨true, cs, size, false, 0, 0, none, s.leaf.version, full, false,
      full, flushed, pending⟩, 0)

end Sys

/-- The calls on a leaf and its descriptors, with what the database finds for each. -/
inductive Op
  | truncate (a : Access) (size : ℤ)
  | writeRange (a : Access) (offset : ℤ) (data : Bytes)
  | append (a : Access) (data : Bytes)
  | openRead (a : Access) (k : ℕ)
  | openWrite (a : Access) (k : ℕ) (mode : WriteMode)
  | seek (k : ℕ) (offset : ℤ) (whence : Whence)
  | write (k : ℕ) (data : Bytes)
  | close (k : ℕ) (valid : Bool) (msg : String)
  deriving DecidableEq

def Sys.call (B : Build) (t : Target) (s : Sys) : Op → Call (Sys × ℤ)
  | .truncate a size => s.onLeaf (Rust.truncate B t a s.leaf size)
  | .writeRange a offset data => s.onLeaf (Rust.writeRange B t a s.leaf offset data)
  | .append a data => s.onLeaf (Rust.append B t a s.leaf data)
  | .openRead a k => s.openRead B t k a
  | .openWrite a k mode => s.openWrite B t k a mode
  | .seek k offset whence => s.seek B k offset whence
  | .write k data => s.write B t k data
  | .close k valid msg => s.close B k valid msg

end Aloelite.Rust
