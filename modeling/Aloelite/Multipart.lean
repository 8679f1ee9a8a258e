import Aloelite.S3
import Aloelite.Engine
import Aloelite.Library.Attempts
import Aloelite.Library.Dicts
import Aloelite.Library.Pieces

/-! Multipart uploads of `s3.py`: the staging of parts, and the request that puts them
together and writes the object. -/
namespace Aloelite

open Fallible KeyedRows Dicts Attempts Attempts.Attempt

namespace S3

/-! ### `_MultipartUploads` -/

structure Part where
  number : Int
  data : Bytes
  deriving DecidableEq, Repr

structure StagedUpload where
  id : String
  vid : String
  key : Text
  metadata : Metadata
  parts : List Part := []
  bytes : Int := 0
  deriving DecidableEq, Repr

structure MultipartUploads where
  uploads : List StagedUpload := []
  maxBytes : ℕ
  deriving DecidableEq, Repr

/-- What a part of a complete request names: a number, and an etag or nothing. -/
abbrev WantedPart := Int × Text

/-- `t.strip('"')` -/
def stripQuotes (t : Text) : Text := (t.dropWhile (· = '"')).rdropWhile (· = '"')

namespace MultipartUploads

variable (sha : Bytes → Text) (up : MultipartUploads) (uploadId vid : String) (key : Text)

def create (metadata : Metadata) : MultipartUploads :=
  { up with
    uploads := assign StagedUpload.id up.uploads
      { id := uploadId, vid := vid, key := key, metadata := metadata } }

/-- `_get` -/
def get : Except S3Error StagedUpload :=
  match lookup StagedUpload.id up.uploads uploadId with
  | some rec =>
    if rec.vid ≠ vid ∨ rec.key ≠ key then
      .error ⟨"NoSuchUpload", "the specified upload does not exist, or does not belong to this key",
        404⟩
    else .ok rec
  | none => .error ⟨"NoSuchUpload",
    "the specified upload does not exist, or does not belong to this key", 404⟩

/-- `put_part`; `sha` is `hashlib.sha256(_).hexdigest()[:32]`. -/
def putPart (number : Int) (data : Bytes) : MultipartUploads × Except S3Error Text :=
  match up.get uploadId vid key with
  | .error e => (up, .error e)
  | .ok rec =>
    let previous := lookup Part.number rec.parts number
    -- a part that is sent again replaces the one of its number
    let grown : Int :=
      rec.bytes - ((previous.map (fun p => p.data.length)).getD 0 : ℕ) + data.length
    if grown > up.maxBytes then
      (up, .error ⟨"EntityTooLarge",
        "the multipart upload exceeds this endpoint's staging limit of " ++
        toString up.maxBytes ++ " bytes", 400⟩)
    else
      ({ up with
          uploads := assign StagedUpload.id up.uploads
            { rec with parts := assign Part.number rec.parts ⟨number, data⟩, bytes := grown } },
        .ok (quoteText (sha data)))

/-- The loop of `complete` over the parts that are asked for. -/
def assemble (parts : List Part) : List WantedPart → Except S3Error Bytes
  | [] => .ok []
  | (number, etag) :: wanted => do
    let part ← orRaise (lookup Part.number parts number)
      ⟨"InvalidPart", "part " ++ toString number ++ " was never uploaded", 400⟩
    refuse (etag ≠ [] ∧ stripQuotes etag ≠ sha part.data)
      ⟨"InvalidPart",
        "the etag for part " ++ toString number ++ " does not match the staged bytes", 400⟩
    let body ← assemble parts wanted
    return part.data ++ body

/-- `complete`: the upload is dropped with the answer. -/
def complete (wanted : List WantedPart) : MultipartUploads × Except S3Error (Bytes × Metadata) :=
  match up.get uploadId vid key with
  | .error e => (up, .error e)
  | .ok rec =>
    if wanted = [] then (up, .error ⟨"InvalidRequest", "no parts were listed", 400⟩)
    else if wanted.map Prod.fst ≠ (wanted.map Prod.fst).insertionSort (· ≤ ·) then
      (up, .error ⟨"InvalidPartOrder", "parts must be listed in ascending order", 400⟩)
    else match assemble sha rec.parts wanted with
      | .error e => (up, .error e)
      | .ok body => ({ up with uploads := discard StagedUpload.id up.uploads uploadId },
        .ok (body, rec.metadata))

def abort : MultipartUploads × Except S3Error Unit :=
  match up.get uploadId vid key with
  | .error e => (up, .error e)
  | .ok _ => ({ up with uploads := discard StagedUpload.id up.uploads uploadId }, .ok ())

/-- `forget_volume` -/
def forgetVolume : MultipartUploads :=
  { up with uploads := up.uploads.filter (fun rec => rec.vid ≠ vid) }

end MultipartUploads

/-! ### The object is written -/

/-- The engine as a request finds it, and the number of the next call on it. -/
structure ObjectStore where
  sys : Sys
  calls : ℕ := 0

/-- `_STREAM_CHUNK` -/
def STREAM_CHUNK : ℕ := 1024 * 1024

section

variable (C : Crypto) (M : Msgpack) (E : ℕ → Env) (conn : ConnId) (mount : MountId)

/-- One call of the engine. -/
def call (op : Op) : Attempt ObjectStore FsError Reply := fun s =>
  let r := exec C M (E s.calls) s.sys conn op
  ({ sys := { r.1 with clock := (E s.calls).now }, calls := s.calls + 1 }, r.2)

/-- A call that only reads. -/
def look {α : Type} (f : Env → Cipher → Db → Except FsError α) : Attempt ObjectStore FsError α :=
  ask (fun s => f (E s.calls) (s.sys.conns conn).cipher s.sys.db)

/-- The node a path leads to, if it leads to one. -/
def found (E : Env) (k : Cipher) (db : Db) (path : String) : Except FsError (Option Resolved) := do
  let m ← requireMount E k db mount false
  match resolve db m.mountPoint path with
  | .ok r => return some r
  | .error .notFound => return none
  | .error (.notAContainer _) => return none
  | .error e => .error e

/-- The loop of `mkdir` over the containers above. -/
def mkdirAbove : List String → Attempt ObjectStore FsError Unit
  | [] => pure ()
  | path :: paths => do
    if (← look E conn (fun E k db => found mount E k db path)).isSome then pure ()
    else do
      let _ ← call C M E conn (.request mount (.createContainer path))
    mkdirAbove paths

/-- `mkdir(path, parents=True, exist_ok=True)` -/
def mkdirParents (path : String) : Attempt ObjectStore FsError Unit := do
  match ← look E conn (fun E k db => found mount E k db path) with
  | some r => ask (fun _ => refuse (r.type ≠ .container) (.alreadyExists path))
  | none =>
    let segs := splitPath path
    mkdirAbove C M E conn mount
      ((List.range (segs.length - 1)).map (fun i => "/" ++ "/".intercalate (segs.take (i + 1))))
    let _ ← call C M E conn (.request mount (.createContainer path))

/-- The loop of `Descriptor.write`, as long as it has full chunks. -/
def drain (fd : FdId) : ℕ → Attempt ObjectStore FsError Unit
  | 0 => pure ()
  | fuel + 1 => do
    if ← ask (fun s => .ok ((s.sys.fds[fd]?).any (fun f => f.d.writing))) then do
      let _ ← call C M E conn (.fdFlush fd)
      drain fd fuel
    else pure ()

/-- `writer.write` of every piece. Every round of a loop takes at least one byte off what
is pending. -/
def writePieces (fd : FdId) : List Bytes → Attempt ObjectStore FsError Unit
  | [] => pure ()
  | piece :: rest => do
    let _ ← call C M E conn (.fdWrite fd piece)
    let pending ← ask (fun s => .ok (((s.sys.fds[fd]?).map (fun f => f.d.pending.length)).getD 0))
    drain C M E conn fd (pending + 1)
    writePieces fd rest

/-- A `with` block on a writer: closed when the block ends, aborted when it raises. -/
def withWriter (fd : FdId) (block : Attempt ObjectStore FsError Unit) :
    Attempt ObjectStore FsError Unit := fun s =>
  match block s with
  | (s, .ok ()) => (do let _ ← call C M E conn (.fdClose fd)) s
  | (s, .error e) => ((call C M E conn (.fdAbort fd) s).1, .error e)

/-- `_write` -/
def writeObject (path : String) (data : Bytes) (metadata : Metadata) :
    Attempt ObjectStore FsError Unit := do
  match ← call C M E conn (.openWrite mount path .truncate none) with
  | .fd fd => withWriter C M E conn fd (writePieces C M E conn fd (Pieces.pieces STREAM_CHUNK data))
  | _ => ask (fun _ => .error .corrupt)
  if metadata.1 = [] then pure ()
  else do
    let _ ← call C M E conn (.request mount (.setMetadata path metadata))

/-- What `_do_complete_multipart` asks of the mount: the containers above the key, the
object, and its data for the answer. -/
def storeObject (key : Text) (data : Bytes) (metadata : Metadata) :
    Attempt ObjectStore FsError Unit := do
  let path := normKey key
  let parent := String.ofList (beforeLastSlash path.toList)
  if parent = "" then pure () else mkdirParents C M E conn mount parent
  writeObject C M E conn mount path data metadata
  let _ ← look E conn (fun E k db => stat E k db mount path)

end

/-! ### Requests -/

/-- The blueprint's uploads, and the engine under it. -/
structure Endpoint where
  uploads : MultipartUploads
  sys : Sys := {}

/-- What a complete request is told and takes from outside. -/
structure CompleteRequest where
  uploadId : String
  vid : String
  key : Text
  wanted : List WantedPart
  envs : ℕ → Env
  conn : ConnId
  mount : MountId

variable (C : Crypto) (M : Msgpack) (sha : Bytes → Text)

/-- `_do_complete_multipart` of a body that has been read. -/
def doCompleteMultipart (s : Endpoint) (q : CompleteRequest) : Endpoint × Except S3Failure Unit :=
  match s.uploads.complete sha q.uploadId q.vid q.key q.wanted with
  | (up, .error e) => ({ s with uploads := up }, .error (.error e))
  | (up, .ok (body, metadata)) =>
    match storeObject C M q.envs q.conn q.mount q.key body metadata ⟨s.sys, 0⟩ with
    | (store, .error e) => (⟨up, store.sys⟩, .error (.engine e))
    | (store, .ok ()) => (⟨up, store.sys⟩, .ok ())

/-- The calls on the staging, and what else befalls the engine. -/
inductive UploadEvent where
  | create (uploadId vid : String) (key : Text) (metadata : Metadata)
  | putPart (uploadId vid : String) (key : Text) (number : Int) (data : Bytes)
  | complete (q : CompleteRequest)
  | abort (uploadId vid : String) (key : Text)
  | forgetVolume (vid : String)
  | elsewhere (sys : Sys)

def Endpoint.step (s : Endpoint) : UploadEvent → Endpoint
  | .create uploadId vid key metadata =>
    { s with uploads := s.uploads.create uploadId vid key metadata }
  | .putPart uploadId vid key number data =>
    { s with uploads := (s.uploads.putPart sha uploadId vid key number data).1 }
  | .complete q => (doCompleteMultipart C M sha s q).1
  | .abort uploadId vid key => { s with uploads := (s.uploads.abort uploadId vid key).1 }
  | .forgetVolume vid => { s with uploads := s.uploads.forgetVolume vid }
  | .elsewhere sys => { s with sys := sys }

/-- The staging after some calls in some order. -/
def Endpoint.Reached (maxBytes : ℕ) (s : Endpoint) : Prop :=
  GuardedRuns.Run (Endpoint.step C M sha) (fun _ _ => True) ⟨{ maxBytes := maxBytes }, {}⟩ s

variable {C M sha} {up : MultipartUploads} {uploadId vid : String} {key : Text} {number : Int}
  {data body : Bytes} {metadata : Metadata} {wanted : List WantedPart} {rec : StagedUpload}
  {parts : List Part} {s : Endpoint} {q : CompleteRequest}

/-! ### Accounts -/

/-- The bytes of the parts that are staged. -/
def staged (parts : List Part) : Int := (parts.map (fun p => (p.data.length : Int))).sum

/-- An upload whose count is right. -/
structure StagedUpload.Counted (rec : StagedUpload) (maxBytes : ℕ) : Prop where
  keyed : Keyed Part.number rec.parts
  bytes : rec.bytes = staged rec.parts
  bound : rec.bytes ≤ maxBytes

structure MultipartUploads.Counted (up : MultipartUploads) : Prop where
  keyed : Keyed StagedUpload.id up.uploads
  counted : ∀ rec ∈ up.uploads, rec.Counted up.maxBytes

/-- A part that takes the place of another counts instead of it. -/
theorem staged_assign (hkeyed : Keyed Part.number parts) :
    staged (assign Part.number parts ⟨number, data⟩) =
    staged parts - (((lookup Part.number parts number).map (fun p => p.data.length)).getD 0 : ℕ) +
      data.length := by
  induction parts with
  | nil => simp [staged, assign, lookup]
  | cons p parts ih =>
    obtain ⟨-, hkeyed⟩ := List.nodup_cons.mp hkeyed
    by_cases hp : p.number = number
    · have hhead : lookup Part.number (p :: parts) number = some p :=
        List.find?_cons_of_pos (decide_eq_true hp)
      rw [hhead, assign, if_pos hp]
      simp only [staged, List.map_cons, List.sum_cons, Option.map_some, Option.getD_some]
      omega
    · have htail : lookup Part.number (p :: parts) number = lookup Part.number parts number :=
        List.find?_cons_of_neg (by simpa using hp)
      have hsum := ih hkeyed
      rw [htail, assign, if_neg hp]
      simp only [staged, List.map_cons, List.sum_cons] at hsum ⊢
      omega

theorem MultipartUploads.get_ok (h : up.get uploadId vid key = .ok rec) :
    lookup StagedUpload.id up.uploads uploadId = some rec ∧ rec.vid = vid ∧ rec.key = key := by
  unfold get at h
  cases hrec : lookup StagedUpload.id up.uploads uploadId with
  | none =>
    rw [hrec] at h
    cases h
  | some found =>
    rw [hrec] at h
    by_cases hother : found.vid ≠ vid ∨ found.key ≠ key
    · simp only [if_pos hother] at h
      cases h
    · simp only [if_neg hother] at h
      cases h
      rw [not_or, not_not, not_not] at hother
      exact ⟨rfl, hother⟩

theorem MultipartUploads.Counted.discard (h : up.Counted) :
    ({ up with uploads :=
               Dicts.discard StagedUpload.id up.uploads uploadId } : MultipartUploads).Counted :=
  ⟨keyed_discard h.keyed, fun rec hrec => h.counted rec (List.mem_of_mem_filter hrec)⟩

theorem MultipartUploads.Counted.create (h : up.Counted) :
    (up.create uploadId vid key metadata).Counted := by
  refine ⟨keyed_assign h.keyed, fun rec hrec => ?_⟩
  rcases mem_assign hrec with rfl | hrec
  · exact ⟨List.nodup_nil, rfl, Int.natCast_nonneg _⟩
  · exact h.counted rec hrec

theorem MultipartUploads.Counted.putPart (h : up.Counted) :
    (up.putPart sha uploadId vid key number data).1.Counted := by
  unfold MultipartUploads.putPart
  cases hget : up.get uploadId vid key with
  | error e => exact h
  | ok rec =>
    have hrec := h.counted rec (mem_of_lookup (get_ok hget).1)
    simp only
    split
    next => exact h
    next hfits =>
      refine ⟨keyed_assign h.keyed, fun rec' hrec' => ?_⟩
      rcases mem_assign hrec' with rfl | hrec'
      · refine ⟨keyed_assign hrec.keyed, ?_, not_lt.mp hfits⟩
        change rec.bytes - _ + _ = _
        rw [staged_assign hrec.keyed, hrec.bytes]
      · exact h.counted rec' hrec'

theorem MultipartUploads.Counted.complete (h : up.Counted) : (up.complete sha
    uploadId vid key wanted).1.Counted := by
  unfold MultipartUploads.complete
  cases up.get uploadId vid key with
  | error e => exact h
  | ok rec =>
    simp only
    split
    · exact h
    · split
      · exact h
      · cases assemble sha rec.parts wanted with
        | error e => exact h
        | ok body => exact h.discard

theorem MultipartUploads.Counted.abort (h : up.Counted) : (up.abort uploadId vid
    key).1.Counted := by
  unfold MultipartUploads.abort
  cases up.get uploadId vid key with
  | error e => exact h
  | ok rec => exact h.discard

theorem doCompleteMultipart_uploads : (doCompleteMultipart C M sha s q).1.uploads =
    (s.uploads.complete sha q.uploadId q.vid q.key q.wanted).1 := by
  unfold doCompleteMultipart
  rcases s.uploads.complete sha q.uploadId q.vid q.key q.wanted with ⟨up, e | ⟨body, metadata⟩⟩
  · rfl
  · simp only
    rcases storeObject C M q.envs q.conn q.mount q.key body metadata ⟨s.sys, 0⟩ with ⟨store, e | u⟩
    · rfl
    · rfl

theorem Endpoint.step_counted {e : UploadEvent} (h : s.uploads.Counted) :
    (s.step C M sha e).uploads.Counted := by
  cases e with
  | create uploadId vid key metadata => exact h.create
  | putPart uploadId vid key number data => exact h.putPart
  | complete q =>
    change (doCompleteMultipart C M sha s q).1.uploads.Counted
    rw [doCompleteMultipart_uploads]
    exact h.complete
  | abort uploadId vid key => exact h.abort
  | forgetVolume vid =>
    exact ⟨keyed_filter h.keyed _, fun rec hrec => h.counted rec (List.mem_of_mem_filter hrec)⟩
  | elsewhere sys => exact h

theorem Endpoint.Reached.counted {maxBytes : ℕ} (h : s.Reached C M sha maxBytes) :
    s.uploads.Counted := by
  refine h.invariant (P := fun s => s.uploads.Counted) (fun _ _ _ => step_counted) ?_
  exact ⟨List.nodup_nil, fun _ hrec => absurd hrec List.not_mem_nil⟩

theorem Endpoint.Reached.maxBytes {maxBytes : ℕ} (h : s.Reached C M sha maxBytes) :
    s.uploads.maxBytes = maxBytes := by
  refine h.invariant (P := fun s => s.uploads.maxBytes = maxBytes) (fun s e _ hs => ?_) rfl
  cases e with
  | create uploadId vid key metadata => exact hs
  | putPart uploadId vid key number data =>
    change (s.uploads.putPart sha uploadId vid key number data).1.maxBytes = maxBytes
    unfold MultipartUploads.putPart
    split
    · exact hs
    · simp only
      split
      · exact hs
      · exact hs
  | complete q =>
    change (doCompleteMultipart C M sha s q).1.uploads.maxBytes = maxBytes
    rw [doCompleteMultipart_uploads]
    unfold MultipartUploads.complete
    repeat' split
    all_goals exact hs
  | abort uploadId vid key =>
    change (s.uploads.abort uploadId vid key).1.maxBytes = maxBytes
    unfold MultipartUploads.abort
    split
    · exact hs
    · exact hs
  | forgetVolume vid => exact hs
  | elsewhere sys => exact hs

/-! ### Complete requests -/

/-- The bytes a list of parts stands for. -/
def bytesOf (parts : List Part) (wanted : List WantedPart) : Bytes :=
  wanted.flatMap (fun w => ((lookup Part.number parts w.1).map Part.data).getD [])

/-- Every part that is asked for is staged, under the etag it is asked for with. -/
def AllStaged (sha : Bytes → Text) (parts : List Part) (wanted : List WantedPart) : Prop :=
  ∀ w ∈ wanted, ∃ p, lookup Part.number parts w.1 = some p ∧
    (w.2 ≠ [] → stripQuotes w.2 = sha p.data)

theorem MultipartUploads.assemble_ok_iff : assemble sha parts wanted = .ok body ↔
    AllStaged sha parts wanted ∧ body = bytesOf parts wanted := by
  induction wanted generalizing body with
  | nil =>
    constructor
    · intro h
      cases h
      exact ⟨fun _ h => absurd h List.not_mem_nil, rfl⟩
    · rintro ⟨-, rfl⟩
      rfl
  | cons w wanted ih =>
    obtain ⟨number, etag⟩ := w
    have hcons : ∀ p, lookup Part.number parts number = some p →
        bytesOf parts ((number, etag) :: wanted) = p.data ++ bytesOf parts wanted := by
      intro p hp
      simp only [bytesOf, List.flatMap_cons, hp, Option.map_some, Option.getD_some]
    simp only [assemble, bind_eq_ok, orRaise_eq_ok, refuse_eq_ok, pure_eq_ok]
    constructor
    · rintro ⟨p, hp, ⟨-, htag, rest, hrest, rfl⟩⟩
      obtain ⟨hall, rfl⟩ := ih.mp hrest
      refine ⟨fun w hw => ?_, (hcons p hp).symm⟩
      rcases List.mem_cons.mp hw with rfl | hw
      · refine ⟨p, hp, fun hne => ?_⟩
        by_contra hother
        exact of_decide_eq_false htag ⟨hne, hother⟩
      · exact hall w hw
    · rintro ⟨hall, rfl⟩
      obtain ⟨p, hp, htag⟩ := hall _ List.mem_cons_self
      have hrest := ih.mpr ⟨fun w hw => hall w (List.mem_cons_of_mem _ hw), rfl⟩
      exact ⟨p, hp, (), decide_eq_false (fun h => h.2 (htag h.1)), _, hrest, (hcons p hp).symm⟩

/-- The staging takes a complete request. -/
structure Takes (sha : Bytes → Text) (up : MultipartUploads) (uploadId vid : String) (key : Text)
    (wanted : List WantedPart) (rec : StagedUpload) : Prop where
  found : up.get uploadId vid key = .ok rec
  listed : wanted ≠ []
  ordered : (wanted.map Prod.fst).Pairwise (· ≤ ·)
  staged : AllStaged sha rec.parts wanted

theorem MultipartUploads.complete_ok_iff :
    (up.complete sha uploadId vid key wanted).2 = .ok (body, metadata) ↔
    ∃ rec, Takes sha up uploadId vid key wanted rec ∧ body = bytesOf rec.parts wanted ∧ metadata =
      rec.metadata := by
  have hsorted : (wanted.map Prod.fst).Pairwise (· ≤ ·) ↔ wanted.map Prod.fst =
      (wanted.map Prod.fst).insertionSort (· ≤ ·) := by
    constructor
    · exact fun h => (List.Pairwise.insertionSort_eq h).symm
    · intro h
      rw [h]
      exact List.pairwise_insertionSort _ _
  unfold complete
  cases hget : up.get uploadId vid key with
  | error e =>
    constructor
    · intro h
      cases h
    · rintro ⟨rec, htakes, -⟩
      cases hget.symm.trans htakes.found
  | ok rec =>
    simp only
    split
    next hnil =>
      constructor
      · intro h
        cases h
      · rintro ⟨_, htakes, -⟩
        exact absurd hnil htakes.listed
    next hne =>
      split
      next hunsorted =>
        constructor
        · intro h
          cases h
        · rintro ⟨_, htakes, -⟩
          exact absurd (hsorted.mp htakes.ordered) hunsorted
      next horder =>
        rw [not_not] at horder
        cases hbody : assemble sha rec.parts wanted with
        | error e =>
          constructor
          · intro h
            cases h
          · rintro ⟨rec', htakes, -⟩
            cases hget.symm.trans htakes.found
            cases hbody.symm.trans (assemble_ok_iff.mpr ⟨htakes.staged, rfl⟩)
        | ok bytes =>
          obtain ⟨hall, hbytes⟩ := assemble_ok_iff.mp hbody
          constructor
          · intro h
            cases h
            exact ⟨rec, ⟨hget, hne, hsorted.mpr horder, hall⟩, hbytes, rfl⟩
          · rintro ⟨rec', htakes, rfl, rfl⟩
            cases hget.symm.trans htakes.found
            rw [hbytes]

/-- A complete request that joins the parts that are listed, each once and in order, and
that leaves the upload where it was unless the object is written. -/
def Endpoint.CompletesWell (C : Crypto) (M : Msgpack) (sha : Bytes → Text) (s : Endpoint)
    (q : CompleteRequest) : Prop :=
  (∀ body metadata, (s.uploads.complete sha q.uploadId q.vid q.key q.wanted).2 = .ok
    (body, metadata) →
    ∃ rec, s.uploads.get q.uploadId q.vid q.key = .ok rec ∧
    (q.wanted.map Prod.fst).Pairwise (· < ·) ∧
      body = bytesOf rec.parts q.wanted) ∧
  ∀ rec, s.uploads.get q.uploadId q.vid q.key = .ok rec →
  (doCompleteMultipart C M sha s q).2 ≠ .ok () →
    (doCompleteMultipart C M sha s q).1.uploads.get q.uploadId q.vid q.key = .ok rec

/-- What a complete request that the staging takes asks of the engine. -/
def Endpoint.stores (C : Crypto) (M : Msgpack) (s : Endpoint) (q : CompleteRequest)
    (rec : StagedUpload) : Except FsError Unit :=
  (storeObject C M q.envs q.conn q.mount q.key
    (bytesOf rec.parts q.wanted) rec.metadata ⟨s.sys, 0⟩).2

theorem MultipartUploads.complete_refused {e : S3Error}
    (h : (up.complete sha uploadId vid key wanted).2 = .error e) :
    (up.complete sha uploadId vid key wanted).1 = up := by
  unfold complete at h ⊢
  cases hget : up.get uploadId vid key with
  | error e' => rfl
  | ok rec =>
    rw [hget] at h
    simp only at h ⊢
    split
    · rfl
    next hne =>
      rw [if_neg hne] at h
      split
      · rfl
      next horder =>
        rw [if_neg horder] at h
        cases hbody : assemble sha rec.parts wanted with
        | error e' => rfl
        | ok body =>
          rw [hbody] at h
          cases h

/-- With the parts goes the upload. -/
theorem MultipartUploads.complete_taken (h : Takes sha up uploadId vid key wanted rec) :
    up.complete sha uploadId vid key wanted =
      ({ up with uploads := discard StagedUpload.id up.uploads uploadId },
        .ok (bytesOf rec.parts wanted, rec.metadata)) := by
  have hok : (up.complete sha uploadId vid key wanted).2 =
      .ok (bytesOf rec.parts wanted, rec.metadata) :=
    complete_ok_iff.mpr ⟨rec, h, rfl, rfl⟩
  unfold complete at hok ⊢
  rw [h.found] at hok ⊢
  simp only at hok ⊢
  split
  next hnil => exact absurd hnil h.listed
  next hne =>
    rw [if_neg hne] at hok
    split
    next horder =>
      rw [if_pos horder] at hok
      cases hok
    next horder =>
      rw [if_neg horder] at hok
      rw [assemble_ok_iff.mpr ⟨h.staged, rfl⟩]

theorem MultipartUploads.get_discard :
    ({ up with uploads := discard StagedUpload.id up.uploads uploadId } : MultipartUploads).get
      uploadId vid key ≠ .ok rec := by
  intro h
  have hfound := (get_ok h).1
  rw [lookup_discard, if_pos rfl] at hfound
  cases hfound

/-- A request that the staging takes ends as the engine does. -/
theorem doCompleteMultipart_taken (h : Takes sha s.uploads q.uploadId q.vid q.key q.wanted rec) :
    (doCompleteMultipart C M sha s q).2 = .ok () ↔ s.stores C M q rec = .ok () := by
  unfold doCompleteMultipart Endpoint.stores
  rw [MultipartUploads.complete_taken h]
  simp only
  rcases storeObject C M q.envs q.conn q.mount q.key (bytesOf rec.parts q.wanted) rec.metadata
    ⟨s.sys, 0⟩ with ⟨store, e | ⟨⟩⟩
  · constructor
    · intro h
      cases h
    · intro h
      cases h
  · exact ⟨fun _ => rfl, fun _ => rfl⟩

/-- A complete request goes well if, where the staging takes it, it lists no part twice
and the object is written. -/
theorem completesWell_iff : s.CompletesWell C M sha q ↔
    ∀ rec, Takes sha s.uploads q.uploadId q.vid q.key q.wanted rec →
      (q.wanted.map Prod.fst).Nodup ∧ s.stores C M q rec = .ok () := by
  constructor
  · rintro ⟨hjoined, hkept⟩ rec htakes
    obtain ⟨_, -, hascending, -⟩ :=
      hjoined _ _ (MultipartUploads.complete_ok_iff.mpr ⟨rec, htakes, rfl, rfl⟩)
    refine ⟨hascending.imp (fun h => h.ne), ?_⟩
    rw [← doCompleteMultipart_taken htakes]
    by_contra hfailed
    have hstill := hkept rec htakes.found hfailed
    rw [doCompleteMultipart_uploads, MultipartUploads.complete_taken htakes] at hstill
    exact MultipartUploads.get_discard hstill
  · intro h
    refine ⟨fun body metadata hok => ?_, fun rec hrec hfailed => ?_⟩
    · obtain ⟨rec, htakes, rfl, -⟩ := MultipartUploads.complete_ok_iff.mp hok
      refine ⟨rec, htakes.found, ?_, rfl⟩
      exact htakes.ordered.imp₂ (fun _ _ hle hne => lt_of_le_of_ne hle hne) (h rec htakes).1
    · rw [doCompleteMultipart_uploads]
      cases hanswer : (s.uploads.complete sha q.uploadId q.vid q.key q.wanted).2 with
      | error e => rw [MultipartUploads.complete_refused hanswer, hrec]
      | ok answer =>
        obtain ⟨rec', htakes, -⟩ := MultipartUploads.complete_ok_iff.mp hanswer
        exact absurd ((doCompleteMultipart_taken htakes).mpr (h rec' htakes).2) hfailed

/-- After calls in any order every count is right and within the limit, and a complete
request goes well exactly if it lists no part twice and the object it makes is written. -/
theorem multipart_exact_iff {maxBytes : ℕ} (h : s.Reached C M sha maxBytes) :
    (∀ rec ∈ s.uploads.uploads, rec.bytes = staged rec.parts ∧ rec.bytes ≤ maxBytes) ∧
    ∀ q, s.CompletesWell C M sha q ↔
      ∀ rec, Takes sha s.uploads q.uploadId q.vid q.key q.wanted rec →
        (q.wanted.map Prod.fst).Nodup ∧ s.stores C M q rec = .ok () := by
  refine ⟨fun rec hrec => ?_, fun q => completesWell_iff⟩
  have hcounted := h.counted.counted rec hrec
  rw [h.maxBytes] at hcounted
  exact ⟨hcounted.bytes, hcounted.bound⟩

/-- A volume with an object `a`, and an upload for each of the keys `a/b` and `c`. -/
def uploadRun : List UploadEvent :=
  [.elsewhere ([⟨.counting 0, 0, .createVolume none 128 none .none⟩,
    ⟨.counting 1, 0, .mount { volume := 0 }⟩,
      ⟨.counting 2, 0, .request 1 (.createEntry "a" [7])⟩].foldl
        (Aloelite.step Crypto.xorStream Msgpack.refusing) {}),
    .create "u" "v" "a/b".toList .empty, .putPart "u" "v" "a/b".toList 1 [5, 6],
    .create "w" "v" "c".toList .empty, .putPart "w" "v" "c".toList 2 [8],
    .putPart "w" "v" "c".toList 1 [5, 6]]

def uploadsStaged : Endpoint :=
  uploadRun.foldl (Endpoint.step Crypto.xorStream Msgpack.refusing (fun _ => []))
    ⟨{ maxBytes := 64 }, {}⟩

theorem multipart_exact_iff_staged :
    uploadsStaged.CompletesWell Crypto.xorStream Msgpack.refusing (fun _ => [])
      ⟨"w", "v", "c".toList, [(1, []), (2, [])], fun n => .counting (5 + 2 * n), 0, 1⟩ := by
  have hrun : uploadsStaged.Reached Crypto.xorStream Msgpack.refusing (fun _ => []) 64 :=
    GuardedRuns.Run.foldl ⟨trivial, trivial, trivial, trivial, trivial, trivial, trivial⟩
  apply ((multipart_exact_iff hrun).2 _).mpr
  intro rec htakes
  have hrec : uploadsStaged.uploads.get "w" "v" "c".toList =
      .ok ⟨"w", "v", "c".toList, .empty, [⟨2, [8]⟩, ⟨1, [5, 6]⟩], 3⟩ := by
    decide +kernel
  cases hrec.symm.trans htakes.found
  exact ⟨by decide, by decide +kernel⟩

/-- A part that is listed twice is joined twice, and an object that cannot be written, as
its folder is a file, takes the upload with it. -/
theorem multipart_not_exact :
    uploadsStaged.Reached Crypto.xorStream Msgpack.refusing (fun _ => []) 64 ∧
    (uploadsStaged.uploads.complete (fun _ => []) "w" "v" "c".toList [(1, []), (1, [])]).2 = .ok
      ([5, 6, 5, 6], .empty) ∧
    (let q : CompleteRequest := ⟨"u", "v", "a/b".toList, [(1, [])], fun n =>
      .counting (5 + 2 * n), 0, 1⟩
    let r := doCompleteMultipart Crypto.xorStream Msgpack.refusing (fun _ => []) uploadsStaged q
    r.2 = .error (.engine (.alreadyExists "/a")) ∧
      (uploadsStaged.uploads.get "u" "v" "a/b".toList).isOk = true ∧
      (r.1.uploads.get "u" "v" "a/b".toList).isOk = false) := by
  refine ⟨GuardedRuns.Run.foldl ⟨trivial, trivial, trivial, trivial, trivial, trivial, trivial⟩, ?_,
    ?_⟩
  · decide +kernel
  · decide +kernel

end S3

end Aloelite
