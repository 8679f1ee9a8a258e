import Aloelite.OpsListing
import Aloelite.OpsStreaming
import Aloelite.Library.Worklist

/-! The recursive download `get -r` of `cli.py`: the walk over the containers of a mount, and
what is done for each thing it meets. Relative paths are lists of characters. -/
namespace Aloelite

open Fallible

/-- What is done to the local file system, at a path below the destination root; the pieces
of the path are those `os.path.join` puts after each other. -/
inductive LocalAct where
  | mkdir (path : List (List Char))
  | write (path : List (List Char)) (data : Bytes)
  deriving DecidableEq, Repr

def LocalAct.path : LocalAct → List (List Char)
  | mkdir path => path
  | write path _ => path

/-- What ends a download early: an error of the engine or of the local file system, or a
source that is not a container. -/
inductive Abort where
  | engine (e : FsError)
  | os
  | refused
  deriving DecidableEq, Repr

/-- The variables of `_get_tree`, with what was done so far. -/
structure Download where
  log : List LocalAct := []
  pruned : List (List Char) := []
  files : ℕ := 0
  dirs : ℕ := 0
  skipped : ℕ := 0
  stopped : Option Abort := none
  deriving DecidableEq, Repr

/-- `rel.rpartition("/")`: what is before the last separator and what is behind it. -/
def rpartition (rel : List Char) : List Char × List Char :=
  (['/'].intercalate (rel.splitOn '/').dropLast, (rel.splitOn '/').getLast?.getD [])

/-- `os.path.join(root, *rel.split("/"))`, below the root: an empty piece adds nothing. -/
def localPieces (rel : List Char) : List (List Char) :=
  (rel.splitOn '/').filter (fun piece => piece ≠ [])

/-- `_CHUNK` -/
def transferChunk : ℕ := 1048576

section

variable (C : Crypto) (E : Env) (k : Cipher) (db : Db) (mount : MountId)
  (accepts : List LocalAct → LocalAct → Bool)

/-- The loop of `_get_file`: what was read, and the error that ended it. -/
def readToEnd : ℕ → Descriptor → Bytes × Option FsError
  | 0, _ => ([], none)
  | turns + 1, d =>
    match d.read C k db (some transferChunk) with
    | .error e => ([], some e)
    | .ok (chunk, d) =>
      if chunk = [] then ([], none)
      else
        let rest := readToEnd turns d
        (chunk ++ rest.1, rest.2)

/-- `_get_file`. The entry is opened first, then the local file. -/
def getFile (src : String) (path : List (List Char)) (g : Download) : Download :=
  match openRead E k db mount src with
  | .error e => { g with stopped := some (.engine e) }
  | .ok d =>
    let size := ((db.content? d.node).map ContentRow.size).getD 0
    let got := readToEnd C k db (size + 1) d
    let act : LocalAct := .write path got.1
    if accepts g.log act then
      match got.2 with
      | some e => { g with log := g.log ++ [act], stopped := some (.engine e) }
      | none => { g with log := g.log ++ [act], files := g.files + 1 }
    else { g with stopped := some .os }

/-- `os.makedirs` for a container. -/
def makeDir (path : List (List Char)) (g : Download) : Download :=
  if accepts g.log (.mkdir path) then { g with log := g.log ++ [.mkdir path], dirs := g.dirs + 1 }
  else { g with stopped := some .os }

/-- The relative path `_remote_walk` gives a child. -/
def childRel (rel : List Char) (name : String) : List Char :=
  if rel = [] then name.toList else rel ++ '/' :: name.toList

def DirEntry.isDir (e : DirEntry) : Bool := e.type = .container

-- one proof for every test of membership below
theorem lawfulBEq_chars : LawfulBEq (List Char) := inferInstance

attribute [local instance] lawfulBEq_chars in
/-- The body of the loop of `_get_tree`, for an entry listed under `parent`. -/
def getEntry (parent : List Char) (g : Download) (e : DirEntry) : Download :=
  if g.stopped.isSome then g
  else
    let rel := childRel parent e.name
    let (head, name) := rpartition rel
    let refused : Download :=
      { g with skipped := g.skipped + 1, pruned := if e.isDir then rel :: g.pruned else g.pruned }
    if head ∈ g.pruned then refused
    else if name = ['.'] ∨ name = ['.', '.'] ∨ '/' ∈ name then refused
    else if e.isDir then makeDir accepts (localPieces rel) g
    else getFile C E k db mount accepts e.path (localPieces rel) g

/-- One turn of `_remote_walk` with the loop it feeds: a container is listed, its visible
entries are taken one by one, and those that are containers are queued. -/
def walkTurn (here : List Char × String) (g : Download) : Download × List (List Char × String) :=
  if g.stopped.isSome then (g, [])
  else
    match list E k db mount here.2 with
    | .error e => ({ g with stopped := some (.engine e) }, [])
    | .ok entries =>
      let shown := entries.filter DirEntry.visible
      (shown.foldl (getEntry C E k db mount accepts here.1) g,
        (shown.filter DirEntry.isDir).map (fun e => (childRel here.1 e.name, e.path)))

/-- `_get_tree`: the root is made, then the walk is followed for a number of turns at
most. -/
def getTree (src : String) (turns : ℕ) : Except Abort (List (List Char × String) × Download) :=
  match stat E k db mount src with
  | .error e => .error (.engine e)
  | .ok st =>
    if st.type ≠ .container then .error .refused
    else if accepts [] (.mkdir []) then
      .ok (Worklist.sweep (walkTurn C E k db mount accepts) turns
        ([([], src)], { log := [.mkdir []] }))
    else .error .os

end

end Aloelite
