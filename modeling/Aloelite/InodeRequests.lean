import Aloelite.FuseFiles
import Aloelite.FuseNames
import Aloelite.FlushFailures
import Aloelite.Library.Tallies

/-! The inode tables of the two daemons beside the kernel that counts references: every entry a
reply names is a reference, and a `forget` gives references back. -/
namespace Aloelite

open Attempts Attempt Fallible Tallies

/-- The two tables of a daemon as one. -/
def Daemon.tally (d : Daemon) : Tally Inode NodeId := ⟨d.nlookup, d.n⟩

namespace AloeFuse

section

variable (C : Crypto) (M : Msgpack) (E : ℕ → Env) (a : AloeFuse)

/-! ### The other daemon -/

/-- What `open_handle` asks of the engine. -/
def openHandle (path : String) (flags : ℕ) : Handler Unit := do
  if flags &&& 0o3 = 0 then
    let _ ← a.call C M (E 3) (.openRead a.mount path)
  else if flags &&& 0o3 = 0o1 ∧ flags &&& 0o1000 ≠ 0 then
    let _ ← a.call C M (E 3) (.openWrite a.mount path .truncate none)
  else if flags &&& 0o3 = 0o1 ∧ flags &&& 0o2000 ≠ 0 then
    pure ()
  else
    let _ ← a.look (fun k db => stat (E 3) k db a.mount path)
    only (flags &&& 0o1000 ≠ 0) (do
      let _ ← a.call C M (E 4) (.request a.mount (.truncate path 0)))

/-- `create` of the Rust daemon. -/
def createRust (parent : Inode) (name : String) (mode flags : ℕ) : Handler FuseReply := do
  let base ← a.path (E 0) parent
  let path := childPath base name
  let node ← a.make C M (E 1) (.request a.mount (.createEntry path []))
  let perms := mode &&& 0o7777
  only (perms ≠ 0 ∧ perms ≠ 0o666) (do
    let _ ← a.call C M (E 2) (.request a.mount (.setOwner path none none (some (perms : Int)))))
  a.remember node
  a.openHandle C M E path flags
  let _ ← a.look (fun k db => statById (E 5) k db a.mount node)
  return .attr node

/-- `link` of the Rust daemon, which follows the source first. -/
def linkRust (inode newParent : Inode) (newName : String) : Handler FuseReply := do
  let src ← a.path (E 0) inode
  let base ← a.path (E 1) newParent
  let _ ← a.call C M (E 2) (.request a.mount (.link src (childPath base newName)))
  let node ← nodeOf inode
  let _ ← a.look (fun k db => statById (E 3) k db a.mount node)
  return .attr node

/-- The handler of a request in either daemon. -/
def handleBy (port : Port) (r : FuseRequest) : Handler FuseReply :=
  match port, r with
  | .rust, .create parent name mode flags => a.createRust C M E parent name mode flags
  | .rust, .link inode newParent newName => a.linkRust C M E inode newParent newName
  | _, r => a.handle C M E r

/-- The loop of `readdir` over the entries of a snapshot, each looked up once, with what it
lists; `room` is how many of them the buffer of the reply takes. -/
def emit : (ℕ → Env) → ℕ → List DirEntry → Daemon → Daemon × List DirEntry
  | _, _, [], d => (d, [])
  | E, room, e :: es, d =>
    match statById (E 0) (d.sys.conns a.conn).cipher d.sys.db a.mount e.node with
    | .error _ => emit (fun i => E (i + 1)) room es d
    | .ok _ =>
      let d := { d with n := Function.update d.n (a.ino e.node) (some e.node) }
      match room with
      | 0 => (d, [])
      | room + 1 =>
        let rest := emit (fun i => E (i + 1)) room es d
        (rest.1, e :: rest.2)

/-- What `opendir` takes a snapshot of. -/
def snapshot (inode : Inode) : Handler (List DirEntry) := do
  let base ← a.path (E 0) inode
  let entries ← a.look (fun k db => list (E 1) k db a.mount base)
  return entries.filter DirEntry.visible

/-! ### Requests that enter a node -/

theorem modeAlone_nodup (mode : ℕ) : ([("mode", octal (mode &&& 0o7777))].map Prod.fst).Nodup :=
  List.nodup_singleton _

/-- What a request does before it enters a node in the tables: the path and the node. -/
def making : FuseRequest → Handler (String × NodeId)
  | .lookup parent name => do
    let base ← a.path (E 0) parent
    let info ← a.look (fun k db => stat (E 1) k db a.mount (childPath base name))
    return (childPath base name, info.nodeId)
  | .mkdir parent name mode => do
    let base ← a.path (E 0) parent
    let node ← a.make C M (E 1) (.request a.mount (.createContainer (childPath base name)))
    -- a directory's mode goes into its metadata, an entry's into its owner row
    only (mode &&& 0o7777 ≠ 0 ∧ mode &&& 0o7777 ≠ 0o777) (do
      let _ ← a.call C M (E 2) (.request a.mount
        (.setMetadata (childPath base name) ⟨[("mode", octal (mode &&& 0o7777))],
        modeAlone_nodup mode⟩)))
    return (childPath base name, node)
  | .create parent name mode _ => do
    let base ← a.path (E 0) parent
    let node ← a.make C M (E 1) (.request a.mount (.createEntry (childPath base name) []))
    only (mode &&& 0o7777 ≠ 0 ∧ mode &&& 0o7777 ≠ 0o666) (do
      let _ ← a.call C M (E 2) (.request a.mount
        (.setOwner (childPath base name) none none (some ((mode &&& 0o7777 : ℕ) : Int)))))
    return (childPath base name, node)
  | .symlink parent name target => do
    let base ← a.path (E 0) parent
    let node ← a.make C M (E 1)
      (.request a.mount (.createSpecial (childPath base name) .symlink target))
    return (childPath base name, node)
  | .mknod parent name mode => do
    let base ← a.path (E 0) parent
    -- fifos and sockets are special nodes, all else is an empty entry
    let op ← ask (fun _ => a.mknodOp (childPath base name) mode)
    let node ← a.make C M (E 1) op
    only (mode &&& 0o7777 ≠ 0) (do
      let _ ← a.call C M (E 2) (.request a.mount
        (.setOwner (childPath base name) none none (some ((mode &&& 0o7777 : ℕ) : Int)))))
    return (childPath base name, node)
  | _ => ask (fun _ => .error .unsupported)

/-- What it does after. -/
def completing (port : Port) : FuseRequest → String × NodeId → Handler Unit
  -- a lookup has looked already
  | .lookup _ _, _ => pure ()
  | .create _ _ _ flags, x =>
    match port with
    | .rust => do
      a.openHandle C M E x.1 flags
      let _ ← a.look (fun k db => statById (E 5) k db a.mount x.2)
    | .python => do
      if flags &&& 0o2000 ≠ 0 then pure ()
      else if flags &&& 0o3 = 0o2 then
        let _ ← a.look (fun k db => stat (E 3) k db a.mount x.1)
      else
        let _ ← a.call C M (E 3) (.openWrite a.mount x.1 .truncate none)
      let _ ← a.look (fun k db => statById (E 4) k db a.mount x.2)
  | .symlink _ _ _, x => do
    let _ ← a.look (fun k db => statById (E 2) k db a.mount x.2)
  | _, x => do
    let _ ← a.look (fun k db => statById (E 3) k db a.mount x.2)

end

end AloeFuse

/-- Which of its calls writes the source of a link, and which the new directory. -/
def Port.srcTurn : Port → ℕ
  | .python => 1
  | .rust => 0

def Port.dirTurn : Port → ℕ
  | .python => 0
  | .rust => 1

/-- The requests whose reply names a node that the daemon enters: all that answer an entry
but `link` and the names `.` and `..`. -/
def FuseRequest.enters : FuseRequest → Prop
  | .lookup _ name => name ≠ "." ∧ name ≠ ".."
  | .mkdir _ _ _ | .create _ _ _ _ | .symlink _ _ _ | .mknod _ _ _ => True
  | _ => False

/-- The entry that a reply with the attributes of a node gives the kernel. -/
def FuseRequest.entry (a : AloeFuse) : FuseRequest → NodeId → Option (Inode × NodeId)
  | .lookup parent name, n =>
    some (if name = "." then parent else if name = ".." then ROOT else a.ino n, n)
  | .mkdir _ _ _, n | .create _ _ _ _, n | .symlink _ _ _, n | .mknod _ _ _, n => some (a.ino n, n)
  | .link inode _ _, n => some (inode, n)
  | _, _ => none

/-! ### The kernel -/

/-- The kernel's side: its counts, and the node it was first told of under a number. -/
abbrev KernelTable := Tally Inode NodeId

namespace KernelTable

/-- The kernel after the reply to a request; whatever it gives back, it keeps the root. -/
def replied (a : AloeFuse) (u : KernelTable) : FuseRequest → Except FsError FuseReply → KernelTable
  | .forget inode count, _ => u.giveBack ROOT inode count
  | r, .ok (.attr n) => ((r.entry a n).map (fun e => u.told e.1 e.2)).getD u
  | _, _ => u

/-- The kernel after a listing: the library of the Python daemon answers `readdirplus`, each
entry of which is counted, the one of the Rust daemon plain `readdir`. -/
def listed (a : AloeFuse) (port : Port) (es : List DirEntry) (u : KernelTable) : KernelTable :=
  match port with
  | .rust => u
  | .python => es.foldl (fun u e =>
    if e.name = "." ∨ e.name = ".." then u else u.told (a.ino e.node) e.node) u

end KernelTable

/-- A daemon, its open directories, and the kernel it talks to. -/
structure Dialogue where
  daemon : Daemon
  dirs : FileHandle → Option (List DirEntry) := fun _ => none
  fh : FileHandle := 0
  kernel : KernelTable

/-- A request of the kernel, or something beside the tables: a request on open files, or a
step of someone else on the file. -/
inductive KernelEvent where
  | request (E : ℕ → Env) (r : FuseRequest)
  | opendir (E : ℕ → Env) (inode : Inode)
  | readdir (E : ℕ → Env) (fh : FileHandle) (start room : ℕ)
  | releasedir (fh : FileHandle)
  | aside (f : Daemon → Daemon)

namespace Dialogue

section

variable (C : Crypto) (M : Msgpack) (a : AloeFuse) (port : Port)

/-- A daemon just started: it knows the root. -/
def start (sys : Sys) (root : NodeId) : Dialogue where
  daemon := { sys := sys, n := Function.update (fun _ => none) ROOT (some root) }
  kernel := { count := fun _ => 0, value := Function.update (fun _ => none) ROOT (some root) }

def next (t : Dialogue) : KernelEvent → Dialogue
  | .request E r =>
    { t with
      daemon := (a.handleBy C M E port r t.daemon).1
      kernel := t.kernel.replied a r (a.handleBy C M E port r t.daemon).2 }
  | .opendir E inode =>
    match (a.snapshot E inode t.daemon).2 with
    | .ok entries =>
      { t with dirs := Function.update t.dirs (t.fh + 1) (some entries), fh := t.fh + 1 }
    | .error _ => t
  -- entries are entered in the table only as far as they fit the reply
  | .readdir E fh start room =>
    match t.dirs fh with
    | some entries =>
      { t with
        daemon := (a.emit E room (entries.drop start) t.daemon).1
        kernel := t.kernel.listed a port (a.emit E room (entries.drop start) t.daemon).2 }
    | none => t
  | .releasedir fh => { t with dirs := Function.update t.dirs fh none }
  | .aside f => { t with daemon := f t.daemon }

/-- The kernel gives back at most what it holds, and nothing else touches the tables. -/
def Offered (t : Dialogue) : KernelEvent → Prop
  | .request _ (.forget inode count) => count ≤ t.kernel.count inode
  | .aside f => (f t.daemon).tally = t.daemon.tally
  | _ => True

/-- The entries a listing can still be of, in order. -/
def there : (ℕ → Env) → List DirEntry → Daemon → List DirEntry
  | _, [], _ => []
  | E, e :: es, d =>
    if (statById (E 0) (d.sys.conns a.conn).cipher d.sys.db a.mount e.node).isOk then
      e :: there (fun i => E (i + 1)) es d
    else there (fun i => E (i + 1)) es d

/-- What is counted on both sides. A request that enters a node: its number stands for no
other one, and the rest of the request is not refused. A `link`: the engine refuses it. The
name `.`: of the root, or refused. A listing: it reaches only entries that the kernel holds,
and where listed entries are counted it lists none. -/
def CountedTwice (t : Dialogue) : KernelEvent → Prop
  | .request E (.link inode parent name) =>
    ∀ src base, (a.path (E port.srcTurn) inode t.daemon).2 = .ok src →
      (a.path (E port.dirTurn) parent t.daemon).2 = .ok base →
      (exec C M (E 2) t.daemon.sys a.conn
        (.request a.mount (.link src (childPath base name)))).2.isOk = false
  | .request E r =>
    (r.enters → ∀ x d, a.making C M E r t.daemon = (d, .ok x) →
      (∀ w ∈ t.kernel.value (a.ino x.2), w = x.2) ∧
        (a.completing C M E port r x (a.remember x.2 d).1).2.isOk) ∧
    (∀ parent, r = .lookup parent "." → parent ≠ ROOT → ∀ node ∈ t.daemon.n parent,
      (statById (E 0) (t.daemon.sys.conns a.conn).cipher t.daemon.sys.db a.mount node).isOk = false)
  | .readdir E fh start room =>
    ∀ entries, t.dirs fh = some entries →
      (∀ e ∈ (there a E (entries.drop start) t.daemon).take (room + 1),
        t.kernel.value (a.ino e.node) = some e.node) ∧
      (port = .python → ∀ e ∈ (there a E (entries.drop start) t.daemon).take room,
        e.name = "." ∨ e.name = "..")
  | _ => True

end

end Dialogue

end Aloelite
