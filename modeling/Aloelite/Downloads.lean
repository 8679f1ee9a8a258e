import Aloelite.EntityTags

/-! A download in its statements: the status and the headers come from one look at the
entry, the body from reads that each take the committed pointer again. The reads give
what the headers promise while no commit to the entry comes in between. -/
namespace Aloelite

open Fallible KeyedRows

variable {C : Crypto} {M : Msgpack} {E : Env} {k : Cipher} {s s' t : Sys} {l : Label} {n : NodeId}
  {v : ℕ} {V : VolumeId} {ids : IdText}

/-! ### `_do_get` -/

/-- What a handler of the HTTP frontends raises: an error of the engine, or its own
fault. -/
inductive HttpError where
  | engine (e : FsError)
  | fault (f : DavFault)
  deriving DecidableEq, Repr

def engineCall {α : Type} (x : Except FsError α) : Except HttpError α := x.mapError .engine

def ownCheck {α : Type} (x : Except DavFault α) : Except HttpError α := x.mapError .fault

section

variable (C : Crypto) (E : Env) (k : Cipher)

/-- `stat`, one file a statement: the mount, the path, the mount again, the node. -/
def statAcross (db₀ db₁ db₂ db : Db) (mount : MountId) (path : String) :
    Except FsError NodeInfo := do
  let m ← requireMount E k db₀ mount false
  let found ← resolve db₁ m.mountPoint path
  let _ ← requireMount E k db₂ mount false
  let row ← orRaise (db.node? found.node) .notFound
  return .fromRow db row

/-- `open_read`: the mount, the path, the chunk size. -/
def openReadAcross (db₀ db₁ db₂ : Db) (mount : MountId) (path : String) :
    Except FsError Descriptor := do
  let m ← requireMount E k db₀ mount false
  let found ← resolve db₁ m.mountPoint path
  refuse (found.type = .container) (.notAnEntry found.node)
  return { node := found.node, volume := m.volume, cs := chunkSizeOf db₂ m.volume,
           writable := false }

/-- `_STREAM_CHUNK` -/
def streamChunk : ℕ := 1048576

/-- The generator of a body: reads of at most a chunk until nothing remains or a read
comes back empty. Each read has a file for the pointer and one for the rows; where these
run out the body is still going on. -/
def streamBody : List (Db × Db) → ℕ → Descriptor → Except FsError (Option Bytes)
  | _, 0, _ => .ok (some [])
  | [], _ + 1, _ => .ok none
  | (db, db') :: rest, remaining + 1, d => do
    let (chunk, d) ← d.readAcross C k db db' (some (min streamChunk (remaining + 1)))
    if chunk = [] then return some []
    else
      let more ← streamBody rest (remaining + 1 - chunk.length) d
      return more.map (chunk ++ ·)

/-- The headers a download is asked with. -/
structure GetRequest where
  ifMatch : Option Text := none
  ifNoneMatch : Option Text := none
  range : Option Text := none
  ifRange : Option Text := none

/-- Status and headers, less the constant ones and the guessed content type; `start` is
where the body begins. -/
structure GetHead where
  status : ℕ
  etag : Text
  lastModified : Int
  contentRange : Option Text := none
  contentLength : Option ℕ := none
  start : ℕ := 0
  deriving DecidableEq, Repr

def contentRangeText (start stop size : ℕ) : Text :=
  "bytes ".toList ++ digits start ++ '-' :: digits stop ++ '/' :: digits size

/-- `_do_get` up to the body. -/
def davGetHead (ids : IdText) (info : NodeInfo) (r : GetRequest) : Except DavFault GetHead := do
  refuse (info.type = .container) ⟨405, "cannot GET a collection", "", []⟩
  let size := info.size.getD 0
  let etag := davEtag ids info
  if ← checkPreconditions r.ifMatch r.ifNoneMatch (some etag) true true then
    return { status := 304, etag := etag, lastModified := info.modifiedAt }
  else
    let whole : GetHead :=
      { status := 200, etag := etag, lastModified := info.modifiedAt, contentLength := some size }
    match ← parseRange r.range size with
    | none => return whole
    | some (start, stop) =>
      -- a range of another version than the client has the prefix of is not served
      if r.ifRange.any (fun raw => raw ≠ [] && !ifRangeHolds raw etag) then return whole
      else return { whole with
        status := 206
        contentRange := some (contentRangeText start stop size)
        contentLength := some (stop - start + 1)
        start := start }

/-- The files a download's statements see. -/
structure GetMoments where
  stat₀ : Db
  stat₁ : Db
  stat₂ : Db
  looked : Db
  open₀ : Db
  open₁ : Db
  open₂ : Db
  reads : List (Db × Db)

/-- A response, and its body once it has been sent in full. -/
structure GetResponse where
  head : GetHead
  body : Option Bytes
  deriving DecidableEq, Repr

/-- `_do_get` of `dav.py`; `body` is false for HEAD. -/
def davGet (ids : IdText) (m : GetMoments) (mount : MountId) (path : String) (r : GetRequest)
    (body : Bool) :
    Except HttpError GetResponse := do
  let info ← engineCall (statAcross E k m.stat₀ m.stat₁ m.stat₂ m.looked mount path)
  let head ← ownCheck (davGetHead ids info r)
  if head.status = 304 ∨ body = false then return ⟨head, some []⟩
  else
    let d ← engineCall (openReadAcross E k m.open₀ m.open₁ m.open₂ mount path)
    let d ← engineCall (if head.start = 0 then .ok d else d.seek m.open₂ head.start .set)
    let sent ← engineCall (streamBody C k m.reads (head.contentLength.getD 0) d)
    return ⟨head, sent⟩

/-- The files an S3 download's statements see. -/
structure S3Moments where
  stat₀ : Db
  stat₁ : Db
  stat₂ : Db
  looked : Db
  read₀ : Db
  read₁ : Db
  pointer : Db
  rows : Db

/-- `_do_get` of `s3.py`: a body in hand has its own length put over the `Content-Length`
of the headers. -/
def s3Get (ids : IdText) (m : S3Moments) (mount : MountId) (path : String) :
    Except FsError GetResponse := do
  let info ← statAcross E k m.stat₀ m.stat₁ m.stat₂ m.looked mount path
  refuse (info.type = .container) .notFound
  let data ← readAllAcross C E k m.read₀ m.read₁ m.pointer m.rows mount path
  return ⟨{ status := 200, etag := s3Etag ids info, lastModified := info.modifiedAt
            contentLength := some data.length }, some data⟩

end

/-! ### What stays between the look and the reads -/

/-- A step between two statements of a download of `n` at version `v`: the version is
left alone, and nothing is committed to the entry. -/
def NoCommit (C : Crypto) (M : Msgpack) (n : NodeId) (v : ℕ) (s : Sys) (l : Label) : Prop :=
  Apart s l ∧ LeavesVersion n v s l ∧ readContentMeta (step C M s l).db n = readContentMeta s.db n

instance (n : NodeId) (v : ℕ) (s : Sys) (l : Label) : Decidable (NoCommit C M n v s l) :=
  inferInstanceAs (Decidable (_ ∧ _ ∧ _))

/-- The reads of a download come one after the other. -/
def InOrder (C : Crypto) (M : Msgpack) (n : NodeId) (v : ℕ) : Sys → List (Sys × Sys) → Prop
  | _, [] => True
  | s, (t, t') :: rest =>
    GuardedRuns.Run (step C M) (NoCommit C M n v) s t ∧
      GuardedRuns.Run (step C M) (NoCommit C M n v) t t' ∧
      InOrder C M n v t' rest

/-- Nodes and volumes keep their volume and their chunk size. -/
structure KeepsHomes (db db' : Db) : Prop where
  home : ∀ x V, db.home? x = some V → db'.home? x = some V
  chunkSize : ∀ V, (db.volume? V).isSome → (db'.volume? V).isSome ∧ chunkSizeOf db' V =
    chunkSizeOf db V

theorem KeepsHomes.trans {db db' db'' : Db} (h : KeepsHomes db db') (h' : KeepsHomes db' db'') :
    KeepsHomes db db'' := by
  constructor
  · intro x V hx
    exact h'.home x V (h.home x V hx)
  · intro V hV
    obtain ⟨hV', hcs⟩ := h.chunkSize V hV
    obtain ⟨hV'', hcs'⟩ := h'.chunkSize V hV'
    exact ⟨hV'', hcs'.trans hcs⟩

theorem run_keepsHomes {guard guard' : Sys → Label → Prop} (h : Reaches C M guard s)
    (hrun : GuardedRuns.Run (step C M) guard' s t) : KeepsHomes s.db t.db := by
  have hall : (t.db.Sound ∧ t.db.Homed) ∧ KeepsHomes s.db t.db := by
    refine GuardedRuns.Run.invariant
      (P := fun t : Sys => (t.db.Sound ∧ t.db.Homed) ∧ KeepsHomes s.db t.db) ?_ hrun ?_
    · intro t l _ ht
      obtain ⟨⟨hsound, hhomed⟩, hkeeps⟩ := ht
      obtain ⟨E, c, op⟩ := l
      have heffect : Effect C E t op (exec C M E t c op).1.db := exec_effect hsound.linked
      refine ⟨⟨step_sound hsound, exec_homed hsound hhomed⟩, hkeeps.trans ?_⟩
      constructor
      · intro x V hx
        exact home?_persists (heffect.identities hsound) hx
      · intro V hV
        have hplans := heffect.plans hsound hhomed
        exact ⟨hplans.volume hV, hplans.chunkSize hV⟩
    · exact ⟨⟨h.sound, h.homed⟩, fun _ _ hx => hx, fun _ hV => ⟨hV, rfl⟩⟩
  exact hall.2

/-- A later moment of a download, seen from the look at the entry. -/
structure SameContent (C : Crypto) (M : Msgpack) (n : NodeId) (v : ℕ) (s t : Sys) : Prop where
  reaches : Reaches C M Apart t
  rows : SameVersion n v s.db t.db
  pointer : readContentMeta t.db n = readContentMeta s.db n
  homes : KeepsHomes s.db t.db

theorem SameContent.refl (h : Reaches C M Apart s) : SameContent C M n v s s :=
  ⟨h, SameVersion.refl n v s.db, rfl, fun _ _ hx => hx, fun _ hV => ⟨hV, rfl⟩⟩

theorem SameContent.run (h : SameContent C M n v s t) (hn : (t.db.node? n).isSome)
    (hrun : GuardedRuns.Run (step C M) (NoCommit C M n v) t s') : SameContent C M n v s s' := by
  refine ⟨?_, ?_, ?_, ?_⟩
  · exact GuardedRuns.Run.trans h.reaches (hrun.weaken (fun _ _ hg => hg.1))
  · exact h.rows.trans (run_sameVersion h.reaches hn (hrun.weaken (fun _ _ hg => hg.2.1)))
  · have hkept : readContentMeta s'.db n = readContentMeta t.db n := by
      refine GuardedRuns.Run.invariant (P := fun u : Sys => readContentMeta u.db n =
        readContentMeta t.db n)
        ?_ hrun rfl
      intro u l hg hu
      exact hg.2.2.trans hu
    exact hkept.trans h.pointer
  · exact h.homes.trans (run_keepsHomes h.reaches hrun)

theorem SameContent.node (h : SameContent C M n v s t) (hn : s.db.home? n = some V) :
    (t.db.node? n).isSome :=
  Db.node?_isSome_of_home (h.homes.home n V hn)

/-! ### The reads of a body -/

/-- A reader on `n` in the chunk size of its volume. -/
structure ReaderOn (db : Db) (n : NodeId) (d : Descriptor) : Prop where
  node : d.node = n
  chunkSize : ∀ V, db.home? n = some V → d.cs = chunkSizeOf db V

/-- One read, at any two moments: what the entry has from the cursor on, and the cursor
behind it. -/
theorem SameContent.read {r : ContentRow} {d d' : Descriptor} {b : Bytes} {m : Option ℕ}
    (hC : C.KeepsLength) (h : Reaches C M Apart s) (ht : SameContent C M n v s t)
    (ht' : SameContent C M n v s s') (hr : s.db.content? n = some r) (hv : r.version = v)
    (hd : ReaderOn s.db n d) (hread : d.readAcross C k t.db s'.db m = .ok (b, d')) :
    b.length = d.stopAt r.size m - d.pos ∧ d' = { d with pos := d.pos + b.length } ∧
      ∀ whole, readContentBytes C k s.db n = .ok whole →
        whole.length = r.size ∧ b = (whole.take (d.stopAt r.size m)).drop d.pos := by
  obtain ⟨rfl, hcs⟩ := hd
  have hpointer : readContentMeta t.db d.node = some (r.version, r.size) := by
    rw [ht.pointer, readContentMeta, hr]
    rfl
  obtain ⟨rt, hrt, hmeta⟩ := Option.map_eq_some_iff.mp hpointer
  obtain ⟨hversion, hsize⟩ := Prod.mk.inj hmeta
  have horderly : Reaches C M (Orderly (Reading.lengths (C := C)) M) t :=
    GuardedRuns.Run.weaken (fun _ _ hl => hl.orderly hC) ht.reaches
  have hstored := horderly.writers.stored.1
  have horderly₀ : Reaches C M (Orderly (Reading.lengths (C := C)) M) s :=
    GuardedRuns.Run.weaken (fun _ _ hl => hl.orderly hC) h
  obtain ⟨V, hV, -⟩ := horderly₀.writers.stored.1.content _ r hr
  have hkept := hstored.committed (ht.homes.home _ V hV) hrt
  have hcs' : d.cs = chunkSizeOf t.db V := by
    rw [hcs V hV]
    exact (ht.homes.chunkSize V (h.homed.volume _ V hV)).2.symm
  -- the rows are those of the moment the pointer was taken
  have hrows : ∀ w, t.db.committedVersion d.node = some w → SameVersion d.node w t.db s'.db := by
    intro w hw
    rw [Db.committedVersion, hrt, Option.map_some, Option.some.injEq] at hw
    obtain rfl : v = w := by rw [← hv, ← hversion, hw]
    exact ht.rows.symm.trans ht'.rows
  rw [SameVersion.readAcross hrows] at hread
  obtain ⟨hlen, hnext, hslice⟩ := hkept.read hC hrt hcs' hread
  rw [hsize] at hlen
  refine ⟨hlen, hnext, ?_⟩
  intro whole hwhole
  have hc : s.db.committedVersion d.node = some v := by
    rw [Db.committedVersion, hr, ← hv, Option.map_some]
  have hct : t.db.committedVersion d.node = some v := by
    rw [Db.committedVersion, hrt, ← hv, ← hversion, Option.map_some]
  have hthere : readContentBytes C k t.db d.node = .ok whole := by
    rw [readContentBytes_of_version hct, ht.rows.readChunks, ← readContentBytes_of_version hc]
    exact hwhole
  have hall := (hkept.opened hC hrt hthere).1
  rw [hsize] at hall
  refine ⟨hall, ?_⟩
  rw [hslice whole hthere, hall]

/-- The reads of a body, one after the other. -/
theorem streamBody_ok {r : ContentRow} (hC : C.KeepsLength) (h : Reaches C M Apart s)
    (hr : s.db.content? n = some r) (hv : r.version = v) {reads : List (Sys × Sys)} :
    ∀ {u : Sys} {d : Descriptor} {remaining : ℕ} {body : Bytes}, SameContent C M n v s u →
      InOrder C M n v u reads →
      ReaderOn s.db n d → d.pos + remaining ≤ r.size →
      streamBody C k (reads.map (fun p => (p.1.db, p.2.db))) remaining d = .ok (some body) →
      body.length = remaining ∧ ∀ whole, readContentBytes C k s.db n = .ok whole →
        body = (whole.drop d.pos).take remaining := by
  have hnode : ∀ {u : Sys}, SameContent C M n v s u → (u.db.node? n).isSome := by
    intro u hu
    have horderly : Reaches C M (Orderly (Reading.lengths (C := C)) M) s :=
      GuardedRuns.Run.weaken (fun _ _ hl => hl.orderly hC) h
    obtain ⟨V, hV, -⟩ := horderly.writers.stored.1.content _ r hr
    exact hu.node hV
  -- induction on the moments of the reads; each slice starts where the one before has ended
  induction reads with
  | nil =>
    intro u d remaining body hu horder hd hle hbody
    cases remaining with
    | zero =>
      obtain rfl := Option.some.inj (Except.ok.inj hbody)
      exact ⟨rfl, fun whole _ => (List.take_zero).symm⟩
    | succ remaining => cases hbody
  | cons p reads ih =>
    intro u d remaining body hu horder hd hle hbody
    cases remaining with
    | zero =>
      obtain rfl := Option.some.inj (Except.ok.inj hbody)
      exact ⟨rfl, fun whole _ => (List.take_zero).symm⟩
    | succ remaining =>
      obtain ⟨t, t'⟩ := p
      obtain ⟨hrun, hrun', hrest⟩ := horder
      have ht := hu.run (hnode hu) hrun
      have ht' := ht.run (hnode ht) hrun'
      simp only [List.map_cons, streamBody, bind_eq_ok] at hbody
      obtain ⟨⟨chunk, d'⟩, hread, hmore⟩ := hbody
      obtain ⟨hlen, hnext, hslice⟩ := SameContent.read hC h ht ht' hr hv hd hread
      have hpos : 0 < streamChunk := by decide
      have hstop : d.stopAt r.size (some (min streamChunk (remaining + 1))) =
          d.pos + min streamChunk (remaining + 1) := by
        rw [Descriptor.stopAt, Nat.min_eq_right]
        omega
      rw [hstop, Nat.add_sub_cancel_left] at hlen
      have hchunk : chunk ≠ [] := by
        rintro rfl
        rw [List.length_nil] at hlen
        omega
      rw [if_neg hchunk] at hmore
      simp only [bind_eq_ok, pure_eq_ok] at hmore
      obtain ⟨tail, htail, hjoin⟩ := hmore
      obtain ⟨tailBody, rfl, rfl⟩ := Option.map_eq_some_iff.mp hjoin
      have hd' : ReaderOn s.db n d' := by
        rw [hnext]
        exact ⟨hd.node, hd.chunkSize⟩
      have hpos' : d'.pos = d.pos + chunk.length := by rw [hnext]
      have hle' : d'.pos + (remaining + 1 - chunk.length) ≤ r.size := by omega
      obtain ⟨hlen', htake⟩ := ih ht' hrest hd' hle' htail
      constructor
      · rw [List.length_append, hlen']
        omega
      · intro whole hwhole
        obtain ⟨-, hpart⟩ := hslice whole hwhole
        rw [htake whole hwhole, hpos', ← List.drop_drop]
        have hhead : chunk = (whole.drop d.pos).take chunk.length := by
          rw [hstop, List.drop_take, Nat.add_sub_cancel_left, ← hlen] at hpart
          exact hpart
        generalize chunk.length = c at hhead hlen
        rw [hhead, ← List.take_add]
        congr 1
        omega

/-! ### The headers -/

theorem parseRange_ok {header : Option Text} {size start stop : ℕ}
    (h : parseRange header size = .ok (some (start, stop))) :
    start ≤ stop ∧ stop < size := by
  rw [parseRange] at h
  split at h
  · cases h
  · cases h
  · split at h
    · cases h
    simp only at h
    split at h
    · cases h
    · simp only [Except.ok.injEq, Option.some.injEq, Prod.mk.injEq] at h
      omega
  next first last _ _ _ =>
    generalize hstop : (if last = [] then size - 1 else number last) = final at h
    simp only at h
    split at h
    · cases h
    · simp only [Except.ok.injEq, Option.some.injEq, Prod.mk.injEq] at h
      omega

/-- What a body of `length` bytes from `start` on is announced with. -/
structure Announces (g : GetHead) (size length : ℕ) : Prop where
  contentLength : g.contentLength = some length
  inside : g.start + length ≤ size
  status : (g.status = 200 ∧ g.contentRange = none ∧ g.start = 0 ∧ length = size) ∨
    (g.status = 206 ∧ 0 < length ∧ g.contentRange =
    some (contentRangeText g.start (g.start + length - 1) size))

theorem davGetHead_ok {info : NodeInfo} {r : GetRequest} {g : GetHead}
    (h : davGetHead ids info r = .ok g) :
    info.type ≠ .container ∧ g.etag = davEtag ids info ∧
      ((g.status = 304 ∧ g.contentLength = none ∧ g.contentRange = none) ∨
        ∃ length, Announces g (info.size.getD 0) length) := by
  simp only [davGetHead, bind_eq_ok, refuse_eq_ok, decide_eq_false_iff_not] at h
  obtain ⟨-, htype, b, -, h⟩ := h
  refine ⟨htype, ?_⟩
  cases b with
  | true =>
    obtain rfl := Except.ok.inj h
    exact ⟨rfl, Or.inl ⟨rfl, rfl, rfl⟩⟩
  | false =>
    rw [if_neg Bool.false_ne_true, bind_eq_ok] at h
    obtain ⟨rng, hrng, h⟩ := h
    cases rng with
    | none =>
      obtain rfl := Except.ok.inj h
      exact ⟨rfl, Or.inr ⟨_, rfl, (Nat.zero_add _).le, Or.inl ⟨rfl, rfl, rfl, rfl⟩⟩⟩
    | some p =>
      obtain ⟨start, stop⟩ := p
      obtain ⟨hle, hlt⟩ := parseRange_ok hrng
      simp only at h
      split at h
      · obtain rfl := Except.ok.inj h
        exact ⟨rfl, Or.inr ⟨_, rfl, (Nat.zero_add _).le, Or.inl ⟨rfl, rfl, rfl, rfl⟩⟩⟩
      · obtain rfl := Except.ok.inj h
        have hlast : start + (stop - start + 1) - 1 = stop := by omega
        refine ⟨rfl, Or.inr ⟨stop - start + 1, rfl, ?_, Or.inr ⟨rfl, Nat.succ_pos _, ?_⟩⟩⟩
        · show start + (stop - start + 1) ≤ info.size.getD 0
          omega
        · show some (contentRangeText start stop _) = some (contentRangeText start _ _)
          rw [hlast]

theorem engineCall_ok {α : Type} {x : Except FsError α} {a : α} :
    engineCall x = .ok a ↔ x = .ok a := by
  cases x with
  | error e => simp [engineCall, Except.mapError]
  | ok b => simp [engineCall, Except.mapError]

theorem ownCheck_ok {α : Type} {x : Except DavFault α} {a : α} :
    ownCheck x = .ok a ↔ x = .ok a := by
  cases x with
  | error e => simp [ownCheck, Except.mapError]
  | ok b => simp [ownCheck, Except.mapError]

theorem statAcross_ok {db₀ db₁ db₂ db : Db} {mount : MountId} {path : String} {info : NodeInfo}
    (h : statAcross E k db₀ db₁ db₂ db mount path = .ok info) :
    ∃ row, db.node? row.nodeId = some row ∧ info = .fromRow db row := by
  simp only [statAcross, bind_eq_ok, orRaise_eq_ok, pure_eq_ok] at h
  obtain ⟨m, -, found, -, m', -, row, hrow, rfl⟩ := h
  refine ⟨row, ?_, rfl⟩
  rw [Db.nodeId_of_node? hrow]
  exact hrow

/-! ### The result -/

/-- A response tells of one version of an entry, the one in the file `db`: its tag and
size are that version's and the body is its bytes, as many as announced. -/
def TellsOfOne (C : Crypto) (k : Cipher) (db : Db) (info : NodeInfo) (tag : Text) (g : GetHead)
    (body : Bytes) : Prop :=
  g.etag = tag ∧
    ((g.status = 304 ∧ g.contentLength = none ∧ g.contentRange = none ∧ body = []) ∨
      (Announces g (info.size.getD 0) body.length ∧ ∀ whole,
      readContentBytes C k db info.id = .ok whole →
        whole.length = info.size.getD 0 ∧ body = (whole.drop g.start).take body.length))

/-- The reader a download opens. -/
theorem openReadAcross_ok {e₀ e₁ e₂ : Sys} {mount : MountId} {path : String} {d : Descriptor}
    (h : Reaches C M Apart s) (h₀ : SameContent C M n v s e₀) (h₂ : SameContent C M n v s e₂)
    (hrun : GuardedRuns.Run (step C M) (NoCommit C M n v) e₀ e₁) (h₁ : SameContent C M n v s e₁)
    (hleads : ∀ m found, requireMount E k e₀.db mount false = .ok m →
      resolve e₁.db m.mountPoint path = .ok found → found.node = n)
    (hopen : openReadAcross E k e₀.db e₁.db e₂.db mount path = .ok d) :
    ReaderOn s.db n d ∧ d.pos = 0 ∧ d.closed = false := by
  simp only [openReadAcross, bind_eq_ok, pure_eq_ok] at hopen
  obtain ⟨m, hm, found, hfound, u, -, rfl⟩ := hopen
  obtain rfl := hleads m found hm hfound
  refine ⟨⟨rfl, ?_⟩, rfl, rfl⟩
  intro V hV
  -- the anchor's volume is the node's
  obtain ⟨row, volume, hrow, -, -, hctx⟩ := requireMount_ok hm
  have hmem : row ∈ e₀.db.mounts := mem_of_lookup (Option.filter_eq_some_iff.mp hrow).1
  have hanchor : e₁.db.home? m.mountPoint = some m.volume := by
    apply (run_keepsHomes h₀.reaches hrun).home
    rw [hctx]
    exact h₀.reaches.homed.anchor row hmem
  have hhome := h₁.reaches.homed.below (resolve_below hfound) hanchor
  obtain rfl : m.volume = V := Option.some.inj (hhome.symm.trans (h₁.homes.home _ V hV))
  exact (h₂.homes.chunkSize m.volume (h.homed.volume _ _ hV)).2

theorem content_of_leaf {r : NodeRow} (hC : C.KeepsLength) (h : Reaches C M Apart s)
    (hr : s.db.node? r.nodeId = some r) (hleaf : r.type ≠ .container) :
    ∃ c, s.db.content? r.nodeId = some c := by
  have horderly : Reaches C M (Orderly (Reading.lengths (C := C)) M) s :=
    GuardedRuns.Run.weaken (fun _ _ hl => hl.orderly hC) h
  have htype : s.db.nodeType? r.nodeId = some r.type := by
    rw [Db.nodeType?, hr]
    rfl
  exact Option.isSome_iff_exists.mp (horderly.writers.stored.2 _ _ (by simp) htype hleaf)

/-- A WebDAV download or an S3 one, in any interleaving: where no step from the look at the
entry to the last read commits to the entry, drops or adds rows of its version, and the
path still leads to the entry when it is opened, the response tells of one version. -/
theorem download_is_one_version (hC : C.KeepsLength) (h : Reaches C M Apart s) {db₀ db₁ db₂ : Db}
    {e₀ e₁ e₂ : Sys}
    {reads : List (Sys × Sys)} {mount : MountId} {path : String} {info : NodeInfo}
    (hlook : statAcross E k db₀ db₁ db₂ s.db mount path = .ok info)
    (hrun : ∀ v, s.db.committedVersion info.id = some v →
      InOrder C M info.id v s ((e₀, e₁) :: (e₂, e₂) :: reads))
    (hleads : ∀ m found, requireMount E k e₀.db mount false = .ok m →
      resolve e₁.db m.mountPoint path = .ok found → found.node = info.id) :
    (∀ ids req g body,
        davGet C E k ids ⟨db₀, db₁, db₂, s.db, e₀.db, e₁.db, e₂.db,
          reads.map (fun p => (p.1.db, p.2.db))⟩ mount path
          req true = .ok ⟨g, some body⟩ →
        TellsOfOne C k s.db info (davEtag ids info) g body) ∧
      ∀ ids t t' rest g body, reads = (t, t') :: rest →
        s3Get C E k ids ⟨db₀, db₁, db₂, s.db, e₀.db, e₁.db, t.db, t'.db⟩ mount path = .ok
          ⟨g, some body⟩ →
        TellsOfOne C k s.db info (s3Etag ids info) g body := by
  obtain ⟨row, hrow, hinfo⟩ := statAcross_ok hlook
  have hid : info.id = row.nodeId := by rw [hinfo]; rfl
  have htype : info.type = row.type := by rw [hinfo]; rfl
  have hsize : info.size = (s.db.content? info.id).map ContentRow.size := by rw [hid, hinfo]; rfl
  -- an entry has a committed version, and every moment sees it
  have hmoments : info.type ≠ .container → ∃ c, s.db.content? info.id = some c ∧
      SameContent C M info.id c.version s e₀ ∧ SameContent C M info.id c.version s e₁ ∧
      SameContent C M info.id c.version s e₂ ∧
      GuardedRuns.Run (step C M) (NoCommit C M info.id c.version) e₀ e₁ ∧
      InOrder C M info.id c.version e₂ reads := by
    intro hleaf
    rw [htype] at hleaf
    obtain ⟨c, hc⟩ := content_of_leaf hC h hrow hleaf
    rw [← hid] at hc hrow
    have hv : s.db.committedVersion info.id = some c.version := by
      rw [Db.committedVersion, hc, Option.map_some]
    obtain ⟨hrun₀, hrun₁, hrun₂, -, hreads⟩ := hrun c.version hv
    have horderly : Reaches C M (Orderly (Reading.lengths (C := C)) M) s :=
      GuardedRuns.Run.weaken (fun _ _ hl => hl.orderly hC) h
    obtain ⟨V, hV, -⟩ := horderly.writers.stored.1.content _ c hc
    have h₀ := (SameContent.refl (n := info.id) (v := c.version) h).run
        (Db.node?_isSome_of_home hV) hrun₀
    have h₁ := h₀.run (h₀.node hV) hrun₁
    have h₂ := h₁.run (h₁.node hV) hrun₂
    exact ⟨c, hc, h₀, h₁, h₂, hrun₁, hreads⟩
  constructor
  -- WebDAV: a 304 sends nothing, every other answer streams what was announced
  · intro ids req g body hget
    simp only [davGet, bind_eq_ok, engineCall_ok, ownCheck_ok] at hget
    obtain ⟨info', hlook', g', hhead, hget⟩ := hget
    obtain rfl := Except.ok.inj (hlook.symm.trans hlook')
    obtain ⟨hleaf, htag, hstatus⟩ := davGetHead_ok hhead
    split at hget
    next h304 =>
      simp only [Bool.true_eq_false, or_false] at h304
      simp only [pure_eq_ok, GetResponse.mk.injEq, Option.some.injEq] at hget
      obtain ⟨rfl, rfl⟩ := hget
      rcases hstatus with ⟨-, hlen, hrange⟩ | ⟨length, hannounced⟩
      · exact ⟨htag, Or.inl ⟨h304, hlen, hrange, rfl⟩⟩
      · rcases hannounced.status with ⟨hs, -⟩ | ⟨hs, -⟩
        · omega
        · omega
    next h304 =>
      simp only [Bool.true_eq_false, or_false] at h304
      simp only [bind_eq_ok, engineCall_ok, pure_eq_ok, GetResponse.mk.injEq] at hget
      obtain ⟨d, hopen, d', hseek, sent, hsent, rfl, rfl⟩ := hget
      rcases hstatus with ⟨hs, -⟩ | ⟨length, hannounced⟩
      · exact absurd hs h304
      obtain ⟨c, hc, h₀, h₁, h₂, hrun₁, hreads⟩ := hmoments hleaf
      obtain ⟨hreader, hpos, hopenNow⟩ := openReadAcross_ok h h₀ h₂ hrun₁ h₁ hleads hopen
      have hseeked : d' = { d with pos := g'.start } := by
        split at hseek
        next hzero =>
          obtain rfl := Except.ok.inj hseek
          rw [hzero, ← hpos]
        next =>
          simp only [Descriptor.seek, bind_eq_ok, refuse_eq_ok, pure_eq_ok] at hseek
          obtain ⟨-, -, -, -, rfl⟩ := hseek
          rfl
      have hreader' : ReaderOn s.db info.id d' := by
        rw [hseeked]
        exact ⟨hreader.node, hreader.chunkSize⟩
      have hpos' : d'.pos = g'.start := by rw [hseeked]
      have hsize' : info.size.getD 0 = c.size := by
        rw [hsize, hc]
        rfl
      have hinside := hannounced.inside
      rw [hannounced.contentLength, Option.getD_some] at hsent
      rw [hsize'] at hinside
      obtain ⟨hlen, htake⟩ :=
        streamBody_ok hC h hc rfl h₂ hreads hreader' (hpos'.symm ▸ hinside) hsent
      refine ⟨htag, Or.inr ⟨?_, ?_⟩⟩
      · rw [hlen]
        exact hannounced
      · intro whole hwhole
        have hkept : whole.length = c.size := by
          have horderly : Reaches C M (Orderly (Reading.lengths (C := C)) M) s :=
            GuardedRuns.Run.weaken (fun _ _ hl => hl.orderly hC) h
          obtain ⟨V, -, hkept⟩ := horderly.writers.stored.1.content _ c hc
          exact (hkept.opened hC hc hwhole).1
        refine ⟨hkept.trans hsize'.symm, ?_⟩
        rw [hlen, ← hpos']
        exact htake whole hwhole
  -- S3 answers with one read of the whole content, at the moment the path was resolved
  · intro ids t t' rest g body hcons hget
    subst hcons
    simp only [s3Get, bind_eq_ok, refuse_eq_ok, decide_eq_false_iff_not, pure_eq_ok,
      GetResponse.mk.injEq,
      Option.some.injEq] at hget
    obtain ⟨info', hlook', -, hleaf, data, hdata, rfl, rfl⟩ := hget
    obtain rfl := Except.ok.inj (hlook.symm.trans hlook')
    obtain ⟨c, hc, h₀, h₁, h₂, hrun₁, hrunt, hrunt', -⟩ := hmoments hleaf
    have horderly : Reaches C M (Orderly (Reading.lengths (C := C)) M) s :=
      GuardedRuns.Run.weaken (fun _ _ hl => hl.orderly hC) h
    obtain ⟨V, hV, hkept⟩ := horderly.writers.stored.1.content _ c hc
    have ht := h₂.run (h₂.node hV) hrunt
    have ht' := ht.run (ht.node hV) hrunt'
    have hwhole : readContentBytes C k s.db info.id = .ok data := by
      simp only [readAllAcross, bind_eq_ok] at hdata
      obtain ⟨m, hm, found, hfound, u, -, hread⟩ := hdata
      rw [hleads m found hm hfound] at hread
      have hpointer : readContentMeta t.db info.id = some (c.version, c.size) := by
        rw [ht.pointer, readContentMeta, hc]
        rfl
      obtain ⟨ct, hct, hmeta⟩ := Option.map_eq_some_iff.mp hpointer
      obtain ⟨hversion, -⟩ := Prod.mk.inj hmeta
      have hv : s.db.committedVersion info.id = some c.version := by
        rw [Db.committedVersion, hc, Option.map_some]
      rw [readContentBytesAcross, hct] at hread
      rw [readContentBytes_of_version hv, ← ht'.rows.readChunks, ← hversion]
      exact hread
    have hlen := (hkept.opened hC hc hwhole).1
    have hsize' : info.size.getD 0 = data.length := by
      rw [hsize, hc, hlen]
      rfl
    refine ⟨rfl, Or.inr ⟨?_, ?_⟩⟩
    · rw [hsize']
      exact ⟨rfl, (Nat.zero_add _).le, Or.inl ⟨rfl, rfl, rfl, rfl⟩⟩
    · intro whole hread
      obtain rfl := Except.ok.inj (hread.symm.trans hwhole)
      refine ⟨hsize'.symm, ?_⟩
      rw [List.drop_zero, List.take_length]

/-- The state of `readerRun`, and the one after an entry of another name was made through
the second mount. -/
def lookedAt : Sys := readerRun.foldl (step Crypto.xorStream Msgpack.refusing) {}

def besides : Label := ⟨.counting 7, 1, .request 2 (.createEntry "y" [5])⟩

theorem download_is_one_version_besides :
    TellsOfOne Crypto.xorStream .identity lookedAt.db
      (.fromRow lookedAt.db ⟨3, .entry, "x", 0, 0, .empty, none, none, none⟩)
      "\"3-1\"".toList
      ⟨206, "\"3-1\"".toList, 0, some "bytes 1-1/2".toList, some 1, 1⟩ [2] := by
  let s := lookedAt
  let s' := step Crypto.xorStream Msgpack.refusing s besides
  have hlook : statAcross (.counting 8) .identity s.db s.db s.db s.db 1 "x" =
      .ok (.fromRow s.db ⟨3, .entry, "x", 0, 0, .empty, none, none, none⟩) := by
    decide +kernel
  have hpointer : s.db.committedVersion 3 = some 1 := by decide +kernel
  have hnoCommit : NoCommit Crypto.xorStream Msgpack.refusing 3 1 s besides := by decide +kernel
  have hrun : ∀ v, s.db.committedVersion 3 = some v →
      InOrder Crypto.xorStream Msgpack.refusing 3 v s [(s, s), (s, s), (s', s')] := by
    intro v hv
    obtain rfl := Option.some.inj (hpointer.symm.trans hv)
    exact ⟨.refl s, .refl s, .refl s, .refl s, (GuardedRuns.Run.refl s).snoc hnoCommit,
      .refl s', trivial⟩
  have hleads : ∀ m found, requireMount (.counting 8) .identity s.db 1 false = .ok m →
      resolve s.db m.mountPoint "x" = .ok found → found.node = 3 := by
    intro m found hm hfound
    have hctx : requireMount (.counting 8) .identity s.db 1 false = .ok ⟨1, 0, 0, .none⟩ := by
      decide +kernel
    have hnode : resolve s.db 0 "x" = .ok ⟨3, .entry⟩ := by decide +kernel
    obtain rfl := Except.ok.inj (hctx.symm.trans hm)
    obtain rfl := Except.ok.inj (hnode.symm.trans hfound)
    rfl
  have hreach : Reaches Crypto.xorStream Msgpack.refusing Apart s := reaches_foldl readerRun_guards
  have htag : davEtag .decimal (.fromRow s.db ⟨3, .entry, "x", 0, 0, .empty, none, none, none⟩) =
      "\"3-1\"".toList := by
    decide +kernel
  rw [← htag]
  apply (download_is_one_version xorStream_keepsLength hreach hlook hrun hleads).1 .decimal
    { range := some "bytes=1-".toList }
  decide +kernel

/-- A write of three other bytes between the look and the reads: the tag and the length of
version 1, bytes of version 2, and fewer than announced where the new content is
shorter. -/
theorem download_mixes_versions :
    let s := lookedAt
    let longer := step Crypto.xorStream Msgpack.refusing s ⟨.counting 7, 1,
      .request 2 (.writeAll "x" [3, 4, 5])⟩
    let shorter := step Crypto.xorStream Msgpack.refusing s ⟨.counting 7, 1,
      .request 2 (.writeAll "x" [3])⟩
    let head : GetHead :=
      { status := 200, etag := "\"3-1\"".toList, lastModified := 0, contentLength := some 2 }
    Reaches Crypto.xorStream Msgpack.refusing Apart s ∧
      davGet Crypto.xorStream (.counting 8) .identity .decimal
        ⟨s.db, s.db, s.db, s.db, s.db, s.db, s.db, [(longer.db, longer.db)]⟩ 1 "x" {} true = .ok
          ⟨head, some [3, 4]⟩ ∧
      davGet Crypto.xorStream (.counting 8) .identity .decimal
        ⟨s.db, s.db, s.db, s.db, s.db, s.db, s.db,
          [(shorter.db, shorter.db), (shorter.db, shorter.db)]⟩ 1 "x" {} true =
          .ok ⟨head, some [3]⟩ ∧
      s3Get Crypto.xorStream (.counting 8) .identity .decimal
        ⟨s.db, s.db, s.db, s.db, longer.db, longer.db, longer.db, longer.db⟩ 1 "x" =
          .ok ⟨{ head with contentLength := some 3 }, some [3, 4, 5]⟩ ∧
      readContentBytes Crypto.xorStream .identity s.db 3 = .ok [1, 2] ∧
      readContentBytes Crypto.xorStream .identity longer.db 3 = .ok [3, 4, 5] ∧
      readContentBytes Crypto.xorStream .identity shorter.db 3 = .ok [3] := by
  refine ⟨reaches_foldl readerRun_guards, ?_, ?_, ?_, ?_, ?_, ?_⟩
  · decide +kernel
  · decide +kernel
  · decide +kernel
  · decide +kernel
  · decide +kernel
  · decide +kernel

end Aloelite
