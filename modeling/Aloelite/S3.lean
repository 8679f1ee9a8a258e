import Aloelite.Http
import Mathlib.Data.Char
import Mathlib.Data.List.Lex

/-! The S3 frontend `s3.py`: keys and the paths they stand for, and the listing of a
bucket. -/
namespace Aloelite

open Fallible

/-- `S3Error` -/
structure S3Error where
  code : String
  message : String
  status : ℕ
  deriving DecidableEq, Repr

/-- What a handler raises: an error of the engine, or an S3 error of its own. -/
inductive S3Failure where
  | engine (e : FsError)
  | error (e : S3Error)
  deriving DecidableEq, Repr

namespace S3

/-! ### Keys -/

/-- `_norm_key` -/
def normKey (raw : Text) : String :=
  "/" ++ "/".intercalate
    (((raw.splitOn '/').filter (fun p => p ≠ [] ∧ p ≠ ['.'] ∧ p ≠ ['.', '.'])).map String.ofList)

/-- `_key_of` -/
def keyOf (path : String) : Text := path.toList.dropWhile (· = '/')

/-- `t.rsplit("/", 1)[0]` of a text with a slash -/
def beforeLastSlash (t : Text) : Text := ((t.reverse.dropWhile (· ≠ '/')).drop 1).reverse

/-- `t.find(d)` -/
def find (d : Text) : Text → Option ℕ
  | [] => if d = [] then some 0 else none
  | c :: cs => if d <+: c :: cs then some 0 else (find d cs).map (· + 1)

/-! ### `_walk` -/

/-- The path of a listed name. -/
def childOf (path name : String) : String :=
  if path = "/" then "/" ++ name else rstripSlash path ++ "/" ++ name

section

variable (E : Env) (k : Cipher) (db : Db) (mount : MountId)

/-- `_walk`: the keys of the entries at and below a path. What cannot be listed has
none. -/
def walk : ℕ → String → Option (List Text)
  | 0, _ => none
  | fuel + 1, path =>
    match list E k db mount path with
    | .error _ => some []
    | .ok entries =>
      (entries.mapM (fun e =>
        if e.type = .container then walk fuel (childOf path e.name)
        else some [keyOf (childOf path e.name)])).map List.flatten

/-! ### `_do_list` -/

/-- The arguments of a listing; `maxKeys` is what `int` makes of the argument, if it is
there. -/
structure ListArgs where
  pfx : Text := []
  delimiter : Text := []
  marker : Text := []
  maxKeys : Option (Option Int) := none
  deriving DecidableEq, Repr

def DEFAULT_MAX_KEYS : Int := 1000

def MAX_MAX_KEYS : Int := 1000

def ListArgs.limit (args : ListArgs) : Except S3Error ℕ := do
  let asked ← orRaise (args.maxKeys.getD (some DEFAULT_MAX_KEYS)) ⟨"InvalidArgument",
    "max-keys must be an integer", 400⟩
  let maxKeys := min asked MAX_MAX_KEYS
  refuse (maxKeys < 0) ⟨"InvalidArgument", "max-keys must not be negative", 400⟩
  return maxKeys.toNat

/-- The deepest container the prefix names. -/
def ListArgs.root (args : ListArgs) : String :=
  if '/' ∈ args.pfx then normKey (beforeLastSlash args.pfx) else "/"

/-- The group of a key: up to the first delimiter after the prefix. -/
def ListArgs.group (args : ListArgs) (key : Text) : Option Text :=
  if args.delimiter = [] then none
  else
    let rest := key.drop args.pfx.length
    (find args.delimiter rest).map (fun idx => args.pfx ++ rest.take (idx + args.delimiter.length))

/-- `Contents` of a response. -/
structure Contents where
  key : Text
  lastModified : Int
  etag : Text
  size : ℕ
  deriving DecidableEq, Repr

def Contents.of (ids : IdText) (key : Text) (info : NodeInfo) : Contents where
  key := key
  lastModified := if info.modifiedAt = 0 then info.createdAt else info.modifiedAt
  etag := s3Etag ids info
  size := info.size.getD 0

/-- The variables of the loop over the keys. -/
structure Scan where
  contents : List Contents := []
  common : List Text := []
  seenPrefixes : List Text := []
  truncated : Bool := false
  nextMarker : Text := []
  emitted : ℕ := 0
  deriving DecidableEq, Repr

variable (ids : IdText) (args : ListArgs) (maxKeys : ℕ)

/-- The loop over the keys. -/
def scan : Scan → List Text → Except S3Failure Scan
  | s, [] => .ok s
  | s, key :: keys =>
    if args.marker ≠ [] ∧ key ≤ args.marker then scan s keys
    else
      match args.group key with
      | some group =>
        if group ∈ s.seenPrefixes then scan s keys
        -- a full page ends at the first key of the next common prefix, and names it as the marker
        else if maxKeys ≤ s.emitted then .ok { s with truncated := true, nextMarker := key }
        else
          scan { s with
            seenPrefixes := group :: s.seenPrefixes
            common := s.common ++ [group]
            emitted := s.emitted + 1
            nextMarker := key } keys
      | none =>
        -- here the marker stays at the last key that was listed
        if maxKeys ≤ s.emitted then .ok { s with truncated := true }
        else
          match stat E k db mount (normKey key) with
          | .error e => .error (.engine e)
          | .ok row =>
            scan { s with
              contents := s.contents ++ [.of ids key (.fromRow db row)]
              emitted := s.emitted + 1
              nextMarker := key } keys

/-- `ListBucketResult`, less the name of the bucket. -/
structure ListBucketResult where
  pfx : Text
  marker : Text
  maxKeys : ℕ
  delimiter : Text
  isTruncated : Bool
  nextMarker : Option Text
  contents : List Contents
  commonPrefixes : List Text
  deriving DecidableEq, Repr

/-- `_do_list`; the walk goes no deeper than `fuel`. -/
def doList (fuel : ℕ) : Option (Except S3Failure ListBucketResult) :=
  match args.limit with
  | .error e => some (.error (.error e))
  | .ok maxKeys =>
    (walk E k db mount fuel args.root).map (fun found => do
      -- the walk starts at the prefix's directory, so it may bring keys that the prefix leaves out
      let keys := (found.filter (args.pfx <+: ·)).insertionSort (· ≤ ·)
      let s ← scan E k db mount ids args maxKeys {} keys
      return {
        pfx := args.pfx
        marker := args.marker
        maxKeys := maxKeys
        delimiter := args.delimiter
        isTruncated := s.truncated
        nextMarker := if s.truncated ∧ args.delimiter ≠ [] then some s.nextMarker else none
        contents := s.contents
        commonPrefixes := s.common })

end

end S3

end Aloelite
