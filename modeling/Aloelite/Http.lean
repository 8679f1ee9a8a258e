import Aloelite.OpsListing
import Mathlib.Data.List.DropRight

/-! What the HTTP frontends share: the data of a node they answer from, entity tags and the
headers that carry them, byte ranges. Header values are lists of characters. -/
namespace Aloelite

open Fallible KeyedRows

/-! ### The data of a node -/

/-- `NodeInfo`, as far as `dav.py` and `s3.py` read it. -/
structure NodeInfo where
  id : NodeId
  type : NodeType
  name : String
  createdAt : Int
  modifiedAt : Int
  size : Option ℕ
  version : Option ℕ
  metadata : Metadata
  deriving DecidableEq, Repr

/-- `NodeInfo.from_row` of a row of `get_node`. -/
def NodeInfo.fromRow (db : Db) (r : NodeRow) : NodeInfo where
  id := r.nodeId
  type := r.type
  name := r.name
  createdAt := r.createdAt
  modifiedAt := ((db.times? r.nodeId).map TimesRow.modifiedAt).getD r.createdAt
  size := (db.content? r.nodeId).map ContentRow.size
  version := (db.content? r.nodeId).map ContentRow.version
  metadata := r.metadata

/-! ### Entity tags -/

abbrev Text := List Char

/-- A property of the characters of a text is decided along the text, not over all
characters. -/
instance Text.decidableForallMem (t : Text) (p : Char → Prop) [DecidablePred p] :
    Decidable (∀ c ∈ t, p c) :=
  List.decidableBAll p t

/-- The text of a node's id, hex digits and hyphens: one for each id, and none has a
quotation mark. -/
structure IdText where
  text : NodeId → Text
  injective : Function.Injective text
  plain : ∀ n, '"' ∉ text n

/-- The digits of `str` on a number. -/
def digits (n : ℕ) : Text := Nat.toDigits 10 n

/-- `str` on an integer -/
def intText : Int → Text
  | .ofNat n => digits n
  | .negSucc n => '-' :: digits (n + 1)

def quoteText (t : Text) : Text := '"' :: t ++ ['"']

/-- `_etag` of `dav.py`: strong where there is a committed version. -/
def davEtag (ids : IdText) (info : NodeInfo) : Text :=
  match info.version with
  | none => 'W' :: '/' :: quoteText (ids.text info.id ++ '-' :: intText info.modifiedAt)
  | some v => quoteText (ids.text info.id ++ '-' :: digits v)

/-- `_etag` of `s3.py` -/
def s3Etag (ids : IdText) (info : NodeInfo) : Text :=
  match info.version with
  | none => quoteText (ids.text info.id)
  | some v => quoteText (ids.text info.id ++ '-' :: digits v)

/-- A tag read from a header: whether it is weak, and what stands between the quotes. -/
abbrev ReadTag := Bool × Text

/-- `"([^"]*)"` at the head of a text, with what follows. -/
def quotedAt : Text → Option (Text × Text)
  | '"' :: cs =>
    match cs.span (· ≠ '"') with
    | (t, _ :: rest) => some (t, rest)
    | (_, []) => none
  | _ => none

/-- `_ETAG_RE`, `(W/)?"([^"]*)"`, at the head of a text. -/
def etagAt : Text → Option (ReadTag × Text)
  | 'W' :: '/' :: cs => (quotedAt cs).map (fun p => ((true, p.1), p.2))
  | cs => (quotedAt cs).map (fun p => ((false, p.1), p.2))

/-- `_ETAG_RE.findall`, on a text no longer than the bound. -/
def etagsIn : ℕ → Text → List ReadTag
  | 0, _ => []
  | fuel + 1, cs =>
    match etagAt cs with
    | some (tag, rest) => tag :: etagsIn fuel rest
    | none => etagsIn fuel cs.tail

/-- `_ETAG_RE.fullmatch` -/
def wholeEtag (cs : Text) : Option ReadTag :=
  match etagAt cs with
  | some (tag, []) => some tag
  | _ => none

/-- What `str.strip` takes away. -/
def isSpace (c : Char) : Bool :=
  (9 ≤ c.toNat && c.toNat ≤ 13) || (28 ≤ c.toNat && c.toNat ≤ 32) || c.toNat = 0x85 || c.toNat =
    0xA0 ||
    c.toNat = 0x1680 || (0x2000 ≤ c.toNat && c.toNat ≤ 0x200A) || c.toNat = 0x2028 || c.toNat =
    0x2029 ||
    c.toNat = 0x202F || c.toNat = 0x205F || c.toNat = 0x3000

def strip (cs : Text) : Text := (cs.dropWhile isSpace).rdropWhile isSpace

/-- The value of an If-Match or If-None-Match header. -/
inductive TagList where
  | any
  | tags (candidates : List ReadTag)
  deriving DecidableEq, Repr

/-- `_parse_etag_list` -/
def parseEtagList (raw : Text) : TagList :=
  if strip raw = ['*'] then .any else .tags (etagsIn raw.length raw)

/-- `_etag_matches`: no weak tag matches under strong comparison. -/
def etagMatches (candidates : List ReadTag) (current : Option Text) (strong : Bool) : Bool :=
  match current.bind (fun cs => wholeEtag (strip cs)) with
  | none => false
  | some (curWeak, curText) =>
    candidates.any (fun c => c.2 = curText && !(strong && (c.1 || curWeak)))

/-- `If-Range` names the current entity, so that the range is served. -/
def ifRangeHolds (raw etag : Text) : Bool :=
  match parseEtagList raw with
  | .any => false
  | .tags cs => etagMatches cs (some etag) true

/-! ### Faults and preconditions -/

/-- `DavFault` -/
structure DavFault where
  status : ℕ
  message : String
  precondition : String := ""
  headers : List (String × Text) := []
  deriving DecidableEq, Repr

/-- `_check_preconditions`: whether to answer 304. -/
def checkPreconditions (ifMatch ifNoneMatch : Option Text) (current : Option Text)
    (present isRead : Bool) :
    Except DavFault Bool := do
  match ifMatch.map parseEtagList with
  | none => pure ()
  | some .any => refuse (!present) ⟨412, "If-Match precondition failed", "", []⟩
  | some (.tags cs) =>
    refuse (!etagMatches cs current true) ⟨412, "If-Match precondition failed", "", []⟩
  let matched := match ifNoneMatch.map parseEtagList with
    | none => false
    | some .any => present
    | some (.tags cs) => etagMatches cs current false
  if matched then
    -- a read that matches gets 304, anything else 412
    if isRead then return true
    else .error ⟨412, "If-None-Match precondition failed", "", []⟩
  else return false

/-! ### Ranges -/

/-- `int` on a run of digits -/
def number (cs : Text) : ℕ := Nat.ofDigitChars 10 cs 0

/-- `bytes=(\d*)-(\d*)` on a whole text. -/
def rangeMatch (cs : Text) : Option (Text × Text) :=
  if cs.take 6 = "bytes=".toList then
    match (cs.drop 6).span Char.isDigit with
    | (first, '-' :: rest) => if rest.all Char.isDigit then some (first, rest) else none
    | _ => none
  else none

def unsatisfiable (size : ℕ) : DavFault :=
  ⟨416, "unsatisfiable range", "", [("Content-Range", "bytes */".toList ++ digits size)]⟩

/-- `_parse_range`: the first and last position of a single range. -/
def parseRange (header : Option Text) (size : ℕ) : Except DavFault (Option (ℕ × ℕ)) :=
  match header.bind (fun h => rangeMatch (strip h)) with
  | none => .ok none
  | some ([], []) => .ok none
  | some ([], last) =>
    if number last = 0 then .error (unsatisfiable size)
    else
      let start := size - number last
      if size ≤ start then .error (unsatisfiable size) else .ok (some (start, size - 1))
  | some (first, last) =>
    let start := number first
    let stop := if last = [] then size - 1 else number last
    if size ≤ start ∨ stop < start then .error (unsatisfiable size)
      else .ok (some (start, min stop (size - 1)))

end Aloelite
