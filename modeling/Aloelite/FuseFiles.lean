import Aloelite.Fuse
import Aloelite.Library.Extents

/-! Open files of the daemon `fuse.py`: the table of handles, the overlay of dirty extents
that the random-access handles of an inode share, and the requests that go through them.
Appends and overlays keep a path and follow it when they commit; readers and streaming
writers keep a descriptor. -/
namespace Aloelite

open Attempts Attempt Fallible

abbrev FileHandle := ℕ

/-- `_OpenFile`. `node` is history: what the path was taken from. -/
structure Overlay where
  path : String
  refs : ℕ
  size : ℕ
  extents : List (ℕ × Bytes) := []
  dirty : ℕ := 0
  node : NodeId

/-- The `mode` of a handle with what goes with it. The overlay of an `rw` handle is the one
of its inode. -/
inductive HandleMode where
  | w (fd : FdId) (pos : ℕ)
  | r (fd : FdId)
  | a (buf : Bytes)
  | rw
  deriving DecidableEq, Repr

/-- A handle. `node` is history: the node of the inode when the handle was opened. -/
structure Handle where
  path : String
  inode : Inode
  mode : HandleMode
  node : NodeId
  deriving DecidableEq, Repr

/-- What a call of the engine finds: the steps others have taken since the call before, its
clock reading and ids, and whether it gives up on a busy database. -/
structure Moment where
  env : Env
  others : List Label := []
  busy : Bool := false

/-- The daemon with its tables `_open`, in the order of opening, and `_files`. `turn` counts
the calls of the engine. -/
structure FileDaemon where
  base : Daemon
  opened : List (FileHandle × Handle) := []
  files : Inode → Option Overlay := fun _ => none
  fh : FileHandle := 0
  turn : ℕ := 0

/-- What `setattr` is asked to change. -/
structure SetAttr where
  mode : Option ℕ := none
  uid : Option Int := none
  gid : Option Int := none
  mtime : Option Int := none
  atime : Option Int := none
  size : Option ℕ := none

/-- The requests on files, and `create` with the handle it opens. -/
inductive FileRequest where
  | create (parent : Inode) (name : String) (mode flags : ℕ)
  | opening (inode : Inode) (flags : ℕ)
  | getattr (inode : Inode)
  | setattr (inode : Inode) (attr : SetAttr) (fh : Option FileHandle)
  | read (fh : FileHandle) (off size : ℕ)
  | write (fh : FileHandle) (off : ℕ) (data : Bytes)
  | flush (fh : FileHandle)
  | fsync (fh : FileHandle)
  | release (fh : FileHandle)

inductive FileReply where
  | fh (fh : FileHandle)
  | created (fh : FileHandle) (node : NodeId)
  | attr (node : NodeId) (size : ℕ)
  | bytes (b : Bytes)
  | written (n : ℕ)
  | done
  deriving DecidableEq, Repr

abbrev FileHandler (α : Type) := Attempt FileDaemon FsError α

/-- The engine when a call comes to it. -/
def Moment.meet (C : Crypto) (M : Msgpack) (m : Moment) (s : Sys) : Sys :=
  m.others.foldl (step C M) s

/-- `_APPEND_BATCH` -/
def APPEND_BATCH : ℕ := 1 <<< 20

/-- `_DIRTY_FLUSH` -/
def DIRTY_FLUSH : ℕ := 32 <<< 20

namespace Overlay

/-- `sum(len(b) for _, b in self.extents)` -/
def held (extents : List (ℕ × Bytes)) : ℕ := (extents.map (fun e => e.2.length)).sum

/-- The overlay after the first half of `write`, before it may be flushed. -/
def taking (o : Overlay) (off : ℕ) (data : Bytes) : Overlay :=
  { o with
    extents := Extents.write o.extents off data
    dirty := held (Extents.write o.extents off data)
    size := max o.size (Extents.stop (Extents.absorb (off, data) o.extents).2) }

end Overlay

namespace FileDaemon

def handle? (d : FileDaemon) (fh : FileHandle) : Option Handle :=
  (d.opened.find? (fun p => p.1 = fh)).map Prod.snd

/-- A handle entered under a new number. -/
def enter (d : FileDaemon) (fh : FileHandle) (h : Handle) : FileDaemon :=
  { d with opened := d.opened ++ [(fh, h)] }

def setMode (d : FileDaemon) (fh : FileHandle) (mode : HandleMode) : FileDaemon :=
  { d with
    opened := d.opened.map (fun p => if p.1 = fh then (p.1, { p.2 with mode := mode }) else p) }

def drop (d : FileDaemon) (fh : FileHandle) : FileDaemon :=
  { d with opened := d.opened.filter (fun p => p.1 ≠ fh) }

def setOverlay (d : FileDaemon) (inode : Inode) (o : Option Overlay) : FileDaemon :=
  { d with files := Function.update d.files inode o }

end FileDaemon

namespace AloeFuse

section

variable (C : Crypto) (M : Msgpack) (T : ℕ → Moment) (a : AloeFuse)

/-- What the handlers of names do, beside the tables of open files. -/
def onBase {α : Type} (x : Handler α) : FileHandler α := fun d =>
  let r := x d.base
  ({ d with base := r.1 }, r.2)

/-- A call of the engine, in the moment that comes for it. -/
def engine {α : Type} (x : Env → Handler α) : FileHandler α := fun d =>
  let met := { d with base.sys := (T d.turn).meet C M d.base.sys, turn := d.turn + 1 }
  if (T d.turn).busy then (met, .error .operational) else onBase (x (T d.turn).env) met

/-- One that may write. -/
def send (op : Op) : FileHandler Reply := engine C M T (fun E => a.call C M E op)

/-- One that only reads. -/
def see {α : Type} (f : Env → Cipher → Db → Except FsError α) : FileHandler α :=
  engine C M T (fun E => a.look (f E))

/-- `self._open[fh]` -/
def handleOf (fh : FileHandle) : FileHandler Handle :=
  ask (fun d => orRaise (d.handle? fh) .keyError)

/-- The overlay of an inode that has a random-access handle. -/
def overlayOf (inode : Inode) : FileHandler Overlay :=
  ask (fun d => orRaise (d.files inode) .corrupt)

/-- A call of the engine that opens a descriptor. -/
def callFd (op : Op) : FileHandler FdId := do
  match ← a.send C M T op with
  | .fd fd => return fd
  | _ => ask (fun _ => .error .corrupt)

/-- `_next_fh` -/
def nextFh : FileHandler FileHandle := fun d => ({ d with fh := d.fh + 1 }, .ok (d.fh + 1))

/-- `self.m.stat(path).size` -/
def sizeAt (path : String) : FileHandler ℕ :=
  a.see C M T (fun E k db => do
    let row ← stat E k db a.mount path
    return ((db.content? row.nodeId).map ContentRow.size).getD 0)

/-! ### Overlays -/

/-- The loop of `_OpenFile.flush`. -/
def flushExtents (path : String) : List (ℕ × Bytes) → FileHandler Unit
  | [] => pure ()
  | e :: es => do
    let _ ← a.send C M T (.request a.mount (.writeRange path e.1 e.2))
    flushExtents path es

/-- `_OpenFile.flush` -/
def overlayFlush (inode : Inode) (o : Overlay) : FileHandler Unit := do
  a.flushExtents C M T o.path o.extents
  alter (fun d => d.setOverlay inode (some { o with extents := [], dirty := 0 }))

/-- `_OpenFile.write` -/
def overlayWrite (inode : Inode) (o : Overlay) (off : ℕ) (data : Bytes) : FileHandler Unit := do
  alter (fun d => d.setOverlay inode (some (o.taking off data)))
  if DIRTY_FLUSH ≤ (o.taking off data).dirty then a.overlayFlush C M T inode (o.taking off data)
  else pure ()

/-- The committed part of a window. -/
def committedWindow (path : String) (off stop committed : ℕ) : FileHandler Bytes :=
  if off < committed then do
    let r ← a.see C M T (fun E k db => do
      let r ← openRead E k db a.mount path
      r.seek db off .set)
    let got ← a.see C M T (fun _ k db => r.read C k db (some (min stop committed - off)))
    return got.1
  else pure []

/-- `_OpenFile.read` -/
def overlayRead (o : Overlay) (off n : ℕ) : FileHandler Bytes := do
  let stop := min (off + n) o.size
  if stop ≤ off then return []
  else do
    let committed ← a.sizeAt C M T o.path
    let got ← a.committedWindow C M T o.path off stop committed
    return Extents.overlay 0 off stop (got ++ List.replicate (stop - off - got.length) 0) o.extents

/-- `_OpenFile.truncate` -/
def overlayTruncate (inode : Inode) (o : Overlay) (size : ℕ) : FileHandler Unit := do
  a.overlayFlush C M T inode o
  let _ ← a.send C M T (.request a.mount (.truncate o.path size))
  alter (fun d => d.setOverlay inode (some { o with extents := [], dirty := 0, size := size }))

/-- `_openfile` -/
def openfile (inode : Inode) (path : String) (node : NodeId) : FileHandler Overlay := do
  match ← ask (fun d => .ok (d.files inode)) with
  | some o =>
    alter (fun d => d.setOverlay inode (some { o with refs := o.refs + 1 }))
    return { o with refs := o.refs + 1 }
  | none =>
    let size ← a.sizeAt C M T path
    let o : Overlay := { path := path, refs := 1, size := size, node := node }
    alter (fun d => d.setOverlay inode (some o))
    return o

/-- `_drop_openfile` -/
def dropOpenfile (inode : Inode) : FileHandler Unit :=
  alter (fun d => d.setOverlay inode ((d.files inode).bind (fun o =>
    if o.refs ≤ 1 then none else some { o with refs := o.refs - 1 })))

/-! ### Appends -/

/-- `_append_commit` of what a handle holds. -/
def appendCommit (path : String) (buf : Bytes) : FileHandler Unit :=
  if buf = [] then pure ()
  else do
    let _ ← a.send C M T (.request a.mount (.append path buf))

/-- The first loop of `_settle`. -/
def settleAppends (inode : Inode) : List (FileHandle × Handle) → FileHandler Unit
  | [] => pure ()
  | (fh, h) :: hs => do
    match h.mode with
    | .a buf =>
      if h.inode = inode ∧ buf ≠ [] then do
        a.appendCommit C M T h.path buf
        alter (fun d => d.setMode fh (.a []))
      else pure ()
    | _ => pure ()
    settleAppends inode hs

/-- `_settle` -/
def settle (inode : Inode) : FileHandler Unit := do
  let hs ← ask (fun d => .ok d.opened)
  a.settleAppends C M T inode hs
  match ← ask (fun d => .ok (d.files inode)) with
  | some o => if o.dirty ≠ 0 then a.overlayFlush C M T inode o else pure ()
  | none => pure ()

/-! ### Streams -/

/-- Whether a descriptor is in the loop of its `write`. -/
def busy (s : Sys) (fd : FdId) : Bool := (s.fds[fd]?).any (fun f => f.d.writing)

/-- The loop of `Descriptor.write`, as long as it has full chunks. -/
def drain (fd : FdId) : ℕ → FileHandler Unit
  | 0 => pure ()
  | fuel + 1 => do
    if ← ask (fun d => .ok (busy d.base.sys fd)) then do
      let _ ← a.send C M T (.fdFlush fd)
      drain fd fuel
    else pure ()

/-- `Descriptor.write`: every round of the loop takes at least one byte off what is
pending. -/
def streamWrite (fd : FdId) (data : Bytes) : FileHandler Unit := do
  let _ ← a.send C M T (.fdWrite fd data)
  let pending ← ask (fun d =>
    .ok (((d.base.sys.fds[fd]?).map (fun f => f.d.pending.length)).getD 0))
  a.drain C M T fd (pending + 1)

/-! ### Requests -/

/-- The bytes buffered for appending to an inode. -/
def appending (d : FileDaemon) (inode : Inode) : ℕ :=
  (d.opened.map (fun p => match p.2.mode with
    | .a buf => if p.2.inode = inode then buf.length else 0
    | _ => 0)).sum

/-- The furthest position of the streaming writers of an inode. -/
def streamed (d : FileDaemon) (inode : Inode) : ℕ :=
  (d.opened.map (fun p => match p.2.mode with
    | .w _ pos => if p.2.inode = inode then pos else 0
    | _ => 0)).foldr max 0

/-- The size `getattr` reports over the committed one. -/
def shownSize (d : FileDaemon) (inode : Inode) (committed : ℕ) : ℕ :=
  max (max (committed + appending d inode) (streamed d inode))
    (((d.files inode).map Overlay.size).getD 0)

def getattr (inode : Inode) : FileHandler FileReply := do
  let node ← onBase (nodeOf inode)
  let size ← a.see C M T (fun E k db => do
    let row ← statById E k db a.mount node
    return if row.type = .container then 0 else ((db.content? node).map ContentRow.size).getD 0)
  ask (fun d => .ok (.attr node (shownSize d inode size)))

/-- `open`, by the access bits and the bits for truncating and appending. -/
def opening (inode : Inode) (flags : ℕ) : FileHandler FileReply := do
  let path ← engine C M T (fun E => a.path E inode)
  let node ← ask (fun d => .ok ((d.base.n inode).getD 0))
  if flags &&& 0o3 = 0 then
    let fd ← a.callFd C M T (.openRead a.mount path)
    let fh ← nextFh
    alter (fun d => d.enter fh ⟨path, inode, .r fd, node⟩)
    return .fh fh
  -- write-only and truncating streams; write-only and appending is batched; the rest is random
  else if flags &&& 0o3 = 0o1 ∧ flags &&& 0o1000 ≠ 0 then
    let fd ← a.callFd C M T (.openWrite a.mount path .truncate none)
    let fh ← nextFh
    alter (fun d => d.enter fh ⟨path, inode, .w fd 0, node⟩)
    return .fh fh
  else if flags &&& 0o3 = 0o1 ∧ flags &&& 0o2000 ≠ 0 then
    let fh ← nextFh
    alter (fun d => d.enter fh ⟨path, inode, .a [], node⟩)
    return .fh fh
  else
    let fh ← nextFh
    -- one overlay for all random-access handles of an inode
    let o ← a.openfile C M T inode path node
    if flags &&& 0o1000 ≠ 0 then a.overlayTruncate C M T inode o 0 else pure ()
    alter (fun d => d.enter fh ⟨path, inode, .rw, node⟩)
    return .fh fh

def read (fh : FileHandle) (off size : ℕ) : FileHandler FileReply := do
  let h ← handleOf fh
  match h.mode with
  | .r fd =>
    a.settle C M T h.inode
    let _ ← a.send C M T (.fdSeek fd off .set)
    match ← a.send C M T (.fdRead fd (some size)) with
    | .bytes b => return .bytes b
    | _ => ask (fun _ => .error .corrupt)
  | .rw =>
    let o ← overlayOf h.inode
    let b ← a.overlayRead C M T o off size
    return .bytes b
  | _ => ask (fun _ => .error .unsupported)

def write (fh : FileHandle) (off : ℕ) (data : Bytes) : FileHandler FileReply := do
  let h ← handleOf fh
  match h.mode with
  | .a buf =>
    alter (fun d => d.setMode fh (.a (buf ++ data)))
    -- the batch is committed once it is long enough, wherever `off` says it goes
    if APPEND_BATCH ≤ (buf ++ data).length then do
      a.appendCommit C M T h.path (buf ++ data)
      alter (fun d => d.setMode fh (.a []))
    else pure ()
    return .written data.length
  | .w fd pos =>
    -- a stream takes bytes in order only
    if off = pos then do
      a.streamWrite C M T fd data
      alter (fun d => d.setMode fh (.w fd (pos + data.length)))
      return .written data.length
    else ask (fun _ => .error .unsupported)
  | .rw =>
    let o ← overlayOf h.inode
    a.overlayWrite C M T h.inode o off data
    return .written data.length
  | .r _ => ask (fun _ => .error .unsupported)

/-- The size part of `setattr`. -/
def setSize (inode : Inode) (size : ℕ) (fh : Option FileHandle) : FileHandler Unit := do
  let h ← ask (fun d => .ok (fh.bind d.handle?))
  match h.map Handle.mode with
  | some (.w _ pos) => ask (fun _ => refuse (size < pos) .unsupported)
  | some .rw =>
    let o ← overlayOf ((h.map Handle.inode).getD inode)
    a.overlayTruncate C M T ((h.map Handle.inode).getD inode) o size
  | some (.r _) => ask (fun _ => .error .unsupported)
  | _ =>
    let path ← engine C M T (fun E => a.path E inode)
    let _ ← a.send C M T (.request a.mount (.truncate path size))

def setattr (inode : Inode) (attr : SetAttr) (fh : Option FileHandle) : FileHandler FileReply := do
  if attr.mode.isSome ∨ attr.uid.isSome ∨ attr.gid.isSome then
    let path ← engine C M T (fun E => a.path E inode)
    let _ ← a.send C M T (.request a.mount
      (.setOwner path attr.uid attr.gid (attr.mode.map (fun m => ((m &&& 0o7777 : ℕ) : Int)))))
  else pure ()
  match attr.mtime with
  | some ts =>
    let node ← onBase (nodeOf inode)
    let _ ← a.send C M T (.request a.mount (.setMtime node ts))
  | none => pure ()
  match attr.atime with
  | some ts =>
    let node ← onBase (nodeOf inode)
    let _ ← a.send C M T (.request a.mount (.setAtime node ts))
  | none => pure ()
  -- the size last: a refused owner or time leaves it alone
  match attr.size with
  | some size => a.setSize C M T inode size fh
  | none => pure ()
  a.getattr C M T inode

/-- `flush`, and `fsync`. A streaming writer is closed and goes on as a random-access
handle. -/
def flush (fh : FileHandle) : FileHandler FileReply := do
  match ← ask (fun d => .ok (d.handle? fh)) with
  | none => return .done
  | some h =>
    match h.mode with
    | .rw =>
      let o ← overlayOf h.inode
      a.overlayFlush C M T h.inode o
    | .a buf =>
      a.appendCommit C M T h.path buf
      alter (fun d => d.setMode fh (.a []))
    | .w fd _ =>
      -- the close is what commits a stream, so a later write needs another kind of handle
      let _ ← a.send C M T (.fdClose fd)
      let _ ← a.openfile C M T h.inode h.path h.node
      alter (fun d => d.setMode fh .rw)
    | .r _ => pure ()
    return .done

def release (fh : FileHandle) : FileHandler FileReply := do
  match ← ask (fun d => .ok (d.handle? fh)) with
  | none => return .done
  | some h =>
    -- the handle is gone whatever the commit below answers
    alter (fun d => d.drop fh)
    match h.mode with
    | .w fd _ =>
      let _ ← a.send C M T (.fdClose fd)
    | .r fd =>
      let _ ← a.send C M T (.fdClose fd)
    | .rw =>
      let o ← overlayOf h.inode
      a.overlayFlush C M T h.inode o
      dropOpenfile h.inode
    | .a buf => a.appendCommit C M T h.path buf
    return .done

/-- `create`, with the handle it opens. -/
def createOpen (parent : Inode) (name : String) (mode flags : ℕ) : FileHandler FileReply := do
  let base ← engine C M T (fun E => a.path E parent)
  let path := childPath base name
  let node ← engine C M T (fun E => a.make C M E (.request a.mount (.createEntry path [])))
  let perms := mode &&& 0o7777
  if perms ≠ 0 ∧ perms ≠ 0o666 then
    let _ ← a.send C M T (.request a.mount
      (.setOwner path none none (some (perms : Int))))
  else pure ()
  onBase (a.remember node)
  let fh ← nextFh
  if flags &&& 0o2000 ≠ 0 then
    alter (fun d => d.enter fh ⟨path, a.ino node, .a [], node⟩)
  else if flags &&& 0o3 = 0o2 then
    let _ ← a.openfile C M T (a.ino node) path node
    alter (fun d => d.enter fh ⟨path, a.ino node, .rw, node⟩)
  else
    let fd ← a.callFd C M T (.openWrite a.mount path .truncate none)
    alter (fun d => d.enter fh ⟨path, a.ino node, .w fd 0, node⟩)
  let _ ← a.see C M T (fun E k db => statById E k db a.mount node)
  return .created fh node

/-- The handler of a request. -/
def serve : FileRequest → FileHandler FileReply
  | .create parent name mode flags => a.createOpen C M T parent name mode flags
  | .opening inode flags => a.opening C M T inode flags
  | .getattr inode => a.getattr C M T inode
  | .setattr inode attr fh => a.setattr C M T inode attr fh
  | .read fh off size => a.read C M T fh off size
  | .write fh off data => a.write C M T fh off data
  | .flush fh | .fsync fh => a.flush C M T fh
  | .release fh => a.release C M T fh

end

end AloeFuse

end Aloelite
