import Aloelite.Engine
import Aloelite.OpsListing
import Aloelite.Library.Attempts

/-! The FUSE daemon `fuse.py`: its inode table and the handlers that change the
namespace, each a series of engine calls on one connection through one mount, every
call with its own clock reading and ids. A failed handler keeps what its earlier calls
committed. -/
namespace Aloelite

open Attempts Attempt Fallible

abbrev Inode := ℕ

/-- The inode of the mount point. -/
def ROOT : Inode := 1

/-- What a daemon is started with: its connection, its mount, and `_ino`, the hash of
a node's id. -/
structure AloeFuse where
  conn : ConnId
  mount : MountId
  ino : NodeId → Inode

/-- The file and the daemon's tables `_n` and `_nlookup`. -/
structure Daemon where
  sys : Sys
  n : Inode → Option NodeId
  nlookup : Inode → ℕ := fun _ => 0

/-- The requests that look names up or change them. `mode` and `flags` are the bits the
kernel sends. -/
inductive FuseRequest where
  | lookup (parent : Inode) (name : String)
  | forget (inode : Inode) (count : ℕ)
  | mkdir (parent : Inode) (name : String) (mode : ℕ)
  | create (parent : Inode) (name : String) (mode flags : ℕ)
  | symlink (parent : Inode) (name : String) (target : Bytes)
  | mknod (parent : Inode) (name : String) (mode : ℕ)
  | link (inode newParent : Inode) (newName : String)
  | unlink (parent : Inode) (name : String)
  | rmdir (parent : Inode) (name : String)
  | rename (parentOld : Inode) (nameOld : String) (parentNew : Inode) (nameNew : String)

/-- What a handler answers: nothing, or the attributes of a node. -/
inductive FuseReply where
  | done
  | attr (node : NodeId)
  deriving DecidableEq, Repr

abbrev Handler (α : Type) := Attempt Daemon FsError α

/-- `f"{base.rstrip('/')}/{name}"` -/
def childPath (base name : String) : String := rstripSlash base ++ "/" ++ name

/-- `format(perms, "o")` -/
def octal (perms : ℕ) : String := String.ofList (Nat.toDigits 8 perms)

namespace AloeFuse

variable (C : Crypto) (M : Msgpack) (a : AloeFuse)

section

variable (E : Env)

/-- A call of the engine, one transaction. -/
def call (op : Op) : Handler Reply := fun d =>
  let r := exec C M E d.sys a.conn op
  ({ d with sys := { r.1 with clock := E.now } }, r.2)

/-- A call that makes a node. -/
def make (op : Op) : Handler NodeId := do
  match ← a.call C M E op with
  | .node n => return n
  | _ => ask (fun _ => .error .corrupt)

/-- A call that only reads. -/
def look {α : Type} (f : Cipher → Db → Except FsError α) : Handler α :=
  ask (fun d => f (d.sys.conns a.conn).cipher d.sys.db)

/-- `self._n[inode]` -/
def nodeOf (inode : Inode) : Handler NodeId := ask (fun d => orRaise (d.n inode) .keyError)

/-- `_path` -/
def path (inode : Inode) : Handler String :=
  if inode = ROOT then return "/"
  else do
    let node ← nodeOf inode
    a.look (fun k db => pathOf E k db a.mount node)

/-- `_remember` -/
def remember (node : NodeId) : Handler Unit :=
  alter (fun d =>
    { d with
      n := Function.update d.n (a.ino node) (some node)
      nlookup := Function.update d.nlookup (a.ino node) (d.nlookup (a.ino node) + 1) })

/-- `self._attr(self._remember(node), self.m.stat_by_id(node))` -/
def answer (node : NodeId) : Handler FuseReply := do
  a.remember node
  let _ ← a.look (fun k db => statById E k db a.mount node)
  return .attr node

end

section

-- the surroundings of the calls of one request, in turn
variable (E : ℕ → Env)

def lookup (parent : Inode) (name : String) : Handler FuseReply := do
  if name = "." ∨ name = ".." then
    let node ← nodeOf (if name = "." then parent else ROOT)
    let _ ← a.look (fun k db => statById (E 0) k db a.mount node)
    return .attr node
  else
    let base ← a.path (E 0) parent
    let info ← a.look (fun k db => stat (E 1) k db a.mount (childPath base name))
    a.remember info.nodeId
    return .attr info.nodeId

def forget (inode : Inode) (count : ℕ) : Handler FuseReply := do
  if inode = ROOT then return .done
  else
    alter (fun d =>
      if count < d.nlookup inode then
        { d with nlookup := Function.update d.nlookup inode (d.nlookup inode - count) }
      else
        { d with
          nlookup := Function.update d.nlookup inode 0
          n := Function.update d.n inode none })
    return .done

def mkdir (parent : Inode) (name : String) (mode : ℕ) : Handler FuseReply := do
  let base ← a.path (E 0) parent
  let path := childPath base name
  let node ← a.make C M (E 1) (.request a.mount (.createContainer path))
  let perms := mode &&& 0o7777
  only (perms ≠ 0 ∧ perms ≠ 0o777) (do
    let _ ← a.call C M (E 2) (.request a.mount
      (.setMetadata path ⟨[("mode", octal perms)], List.nodup_singleton _⟩)))
  a.answer (E 3) node

/-- `create`; the handle it opens is a writer unless the flags ask for appending or for
both directions. -/
def create (parent : Inode) (name : String) (mode flags : ℕ) : Handler FuseReply := do
  let base ← a.path (E 0) parent
  let path := childPath base name
  let node ← a.make C M (E 1) (.request a.mount (.createEntry path []))
  let perms := mode &&& 0o7777
  only (perms ≠ 0 ∧ perms ≠ 0o666) (do
    let _ ← a.call C M (E 2) (.request a.mount (.setOwner path none none (some (perms : Int)))))
  a.remember node
  if flags &&& 0o2000 ≠ 0 then
    pure ()
  else if flags &&& 0o3 = 0o2 then
    let _ ← a.look (fun k db => stat (E 3) k db a.mount path)
  else
    let _ ← a.call C M (E 3) (.openWrite a.mount path .truncate none)
  let _ ← a.look (fun k db => statById (E 4) k db a.mount node)
  return .attr node

def symlink (parent : Inode) (name : String) (target : Bytes) : Handler FuseReply := do
  let base ← a.path (E 0) parent
  let node ← a.make C M (E 1)
    (.request a.mount (.createSpecial (childPath base name) .symlink target))
  a.answer (E 2) node

/-- What `mknod` makes by the format bits of `mode`: a device is refused, a FIFO and a
socket are special, everything else is a regular file. -/
def mknodOp (path : String) (mode : ℕ) : Except FsError Op :=
  let fmt := mode &&& 0o170000
  if fmt = 0o060000 ∨ fmt = 0o020000 then .error .unsupported
  else if fmt = 0o010000 then .ok (.request a.mount (.createSpecial path .fifo []))
  else if fmt = 0o140000 then .ok (.request a.mount (.createSpecial path .socket []))
  else .ok (.request a.mount (.createEntry path []))

def mknod (parent : Inode) (name : String) (mode : ℕ) : Handler FuseReply := do
  let base ← a.path (E 0) parent
  let path := childPath base name
  let op ← ask (fun _ => a.mknodOp path mode)
  let node ← a.make C M (E 1) op
  let perms := mode &&& 0o7777
  only (perms ≠ 0) (do
    let _ ← a.call C M (E 2) (.request a.mount (.setOwner path none none (some (perms : Int)))))
  a.answer (E 3) node

def link (inode newParent : Inode) (newName : String) : Handler FuseReply := do
  let base ← a.path (E 0) newParent
  let src ← a.path (E 1) inode
  let _ ← a.call C M (E 2) (.request a.mount (.link src (childPath base newName)))
  let node ← nodeOf inode
  let _ ← a.look (fun k db => statById (E 3) k db a.mount node)
  return .attr node

def unlink (parent : Inode) (name : String) : Handler FuseReply := do
  let base ← a.path (E 0) parent
  let _ ← a.call C M (E 1) (.request a.mount (.remove (childPath base name)))
  return .done

def rmdir (parent : Inode) (name : String) : Handler FuseReply := do
  let base ← a.path (E 0) parent
  let _ ← a.call C M (E 1) (.request a.mount (.remove (childPath base name)))
  return .done

/-- `rename`; the flags are not looked at. -/
def rename (parentOld : Inode) (nameOld : String) (parentNew : Inode) (nameNew : String) :
    Handler FuseReply := do
  let ob ← a.path (E 0) parentOld
  let nb ← a.path (E 1) parentNew
  let src := childPath ob nameOld
  if parentOld = parentNew then
    let _ ← a.call C M (E 2) (.request a.mount (.rename src nameNew))
    return .done
  else
    let _ ← a.call C M (E 2) (.request a.mount (.move src (childPath nb nameNew)))
    return .done

/-- The handler of a request. -/
def handle : FuseRequest → Handler FuseReply
  | .lookup parent name => a.lookup E parent name
  | .forget inode count => forget inode count
  | .mkdir parent name mode => a.mkdir C M E parent name mode
  | .create parent name mode flags => a.create C M E parent name mode flags
  | .symlink parent name target => a.symlink C M E parent name target
  | .mknod parent name mode => a.mknod C M E parent name mode
  | .link inode newParent newName => a.link C M E inode newParent newName
  | .unlink parent name => a.unlink C M E parent name
  | .rmdir parent name => a.rmdir C M E parent name
  | .rename parentOld nameOld parentNew nameNew =>
    a.rename C M E parentOld nameOld parentNew nameNew

end

end AloeFuse

end Aloelite
