import Aloelite.ContentEdits
import Aloelite.EntityTags

/-! Streaming against a byte array and a cursor. Calls on a descriptor are followed call
by call: a reader gets slices of the content, a writer patches the array that its close
commits. -/
namespace Aloelite

open Fallible KeyedRows Patches Pieces

variable {C : Crypto} {M : Msgpack} {E : Env} {k : Cipher} {own : VolumeId → Cipher} {db db' : Db}
  {s t : Sys} {l : Label} {n : NodeId} {v cs : ℕ} {V : VolumeId} {fd : FdId} {f f' : OpenFile}
  {c : Bytes} {d : Descriptor} {mount : MountId} {path : String}

/-- A file as a byte array and a cursor. -/
structure ArrayFile where
  bytes : Bytes
  pos : ℕ := 0
  deriving DecidableEq, Repr

namespace ArrayFile

/-- The bytes from the cursor on, `n` of them or all; the cursor moves by their number. -/
def read (a : ArrayFile) (n : Option ℕ) : ArrayFile × Except FsError Reply :=
  let rest := a.bytes.drop a.pos
  let got := match n with
    | none => rest
    | some n => rest.take n
  ({ a with pos := a.pos + got.length }, .ok (.bytes got))

/-- The cursor goes anywhere but below zero. -/
def seek (a : ArrayFile) (offset : Int) (whence : Whence) : ArrayFile × Except FsError Reply :=
  let target : Int := match whence with
    | .set => offset
    | .cur => a.pos + offset
    | .fromEnd => a.bytes.length + offset
  if target < 0 then (a, .error .valueError)
  else ({ a with pos := target.toNat }, .ok (.size target.toNat))

/-- What starts in the chunks that are full already is refused; the rest goes in at the
cursor, with zeros in a gap before it. -/
def write (cs : ℕ) (a : ArrayFile) (data : Bytes) : ArrayFile × Except FsError Reply :=
  if data = [] then (a, .ok (.size 0))
  else if a.pos < a.bytes.length / cs * cs then (a, .error .unsupported)
  else ({ bytes := patch 0 a.bytes a.pos data, pos := a.pos + data.length },
    .ok (.size data.length))

/-- The calls of a descriptor; a flush is a part of the write before it. -/
def call (cs : ℕ) (a : ArrayFile) : Op → ArrayFile × Except FsError Reply
  | .fdRead _ n => a.read n
  | .fdWrite _ data => a.write cs data
  | .fdSeek _ offset whence => a.seek offset whence
  | .fdFlush _ => (a, .ok .done)
  | _ => (a, .ok .idle)

end ArrayFile

/-- The engine and, beside it, an array that follows the calls on one descriptor. -/
def followed (C : Crypto) (M : Msgpack) (cs : ℕ) (fd : FdId) (p : Sys × ArrayFile) (l : Label) :
    Sys × ArrayFile :=
  (step C M p.1 l, if l.op.fd? = some fd then (p.2.call cs l.op).1 else p.2)

theorem followed_fst (p : Sys × ArrayFile) : (followed C M cs fd p l).1 = step C M p.1 l := rfl

/-! ### Readers -/

/-- A step on the way of a reader: nothing is committed to its entry, and its own calls
are reads and seeks under one cipher. -/
structure ReaderStep (C : Crypto) (M : Msgpack) (n : NodeId) (conn : ConnId) (k : Cipher)
    (fd : FdId) (s : Sys) (l : Label) : Prop where
  apart : Apart s l
  uncommitted : readContentMeta (step C M s l).db n = readContentMeta s.db n
  calls : l.op.fd? = some fd → (∃ m, l.op = .fdRead fd m) ∨ ∃ offset whence, l.op =
    .fdSeek fd offset whence
  keyed : l.op.fd? = some fd → (s.conns conn).cipher = k

/-- A step of an orderly run that commits nothing to an entry leaves its committed
version as it is. -/
theorem step_sameCommitted (hC : C.KeepsLength) (h : Reaches C M Apart s) (hl : Apart s l)
    (hc : s.db.committedVersion n = some v) : SameVersion n v s.db (step C M s l).db := by
  have horderly : Reaches C M (Orderly (Reading.lengths (C := C)) M) s :=
    GuardedRuns.Run.weaken (fun _ _ hg => hg.orderly hC) h
  have hwriters := horderly.writers
  have hnode : (s.db.node? n).isSome := by
    obtain ⟨r, hr, -⟩ := Option.map_eq_some_iff.mp hc
    obtain ⟨V, hV, -⟩ := hwriters.stored.1.content n r hr
    exact Db.node?_isSome_of_home hV
  obtain ⟨E, conn, op⟩ := l
  -- the close of a writer that has lost its lock changes nothing
  by_cases hdead : ∃ fd g, op = .fdClose fd ∧ s.fds[fd]? = some g ∧ ¬ g.Live s.db E.now
  · obtain ⟨fd, g, rfl, hg, hdead⟩ := hdead
    have hsame : (step C M s ⟨E, conn, .fdClose fd⟩).db = s.db := close_dead horderly.named hg hdead
    rw [hsame]
    exact SameVersion.refl n v s.db
  · have heffect : Effect C E s op (exec C M E s conn op).1.db := exec_effect h.sound.linked
    have hleaves : LeavesVersion n v s ⟨E, conn, op⟩ := by
      refine ⟨lt_nextVersion hc, ?_, ?_⟩
      · intro volume _ r hr
        obtain ⟨hrow, hid, hversion⟩ := Db.mem_manifest.mp hr
        exact survivesPrune_committed (hid ▸ hc) hrow hversion
      · intro g hg hn
        subst hn
        by_cases hlive : g.Live s.db E.now
        · have hmem : g ∈ s.fds := by
            cases op with
            | fdFlush fd | fdClose fd => exact List.mem_of_getElem? hg
            | _ => cases hg
          have hstream := hwriters.streaming g hmem (hlive.mono hl.1.1)
          obtain ⟨-, hother, -⟩ := hstream.claims
          intro heq
          rw [heq] at hother
          exact hother hc
        · refine claims_ne_committed hc ?_
          cases op with
          | fdFlush fd =>
            cases hw : g.d.version with
            | none => exact Or.inl rfl
            | some w => exact Or.inr (Ne.symm (hl.2 g hg w hw hlive).1)
          | fdClose fd => exact absurd ⟨fd, g, rfl, hg, hlive⟩ hdead
          | _ => cases hg
    exact heffect.sameVersion h.sound h.pooled hnode hleaves

/-- With the pointer and the rows of the committed version the whole content stays. -/
theorem readContentBytes_keeps (hmeta : readContentMeta db' n = readContentMeta db n)
    (hsame : ∀ v, db.committedVersion n = some v → SameVersion n v db db') :
    readContentBytes C k db' n = readContentBytes C k db n := by
  have hversion : db'.committedVersion n = db.committedVersion n := by
    have hfirst : (readContentMeta db' n).map Prod.fst = (readContentMeta db n).map Prod.fst := by
      rw [hmeta]
    simp only [readContentMeta, Option.map_map] at hfirst
    exact hfirst
  cases hv : db.committedVersion n with
  | none =>
    have hnone : db.content? n = none := Option.map_eq_none_iff.mp hv
    have hnone' : db'.content? n = none := Option.map_eq_none_iff.mp (hversion.trans hv)
    rw [readContentBytes, readContentBytes, hnone, hnone']
  | some v =>
    rw [readContentBytes_of_version hv, readContentBytes_of_version (hversion.trans hv),
      (hsame v hv).readChunks]

/-- A reader gets its range of a content that opens as a whole. -/
theorem Kept.read_total {r : ContentRow} {data : Bytes} {m : Option ℕ} (hC : C.KeepsLength)
    (h : Kept (Reading.lengths (C := C)) V db d.node r.version r.size data)
    (hr : db.content? d.node = some r) (hcs : d.cs = chunkSizeOf db V) (hopen : d.closed = false)
    (hreader : d.writable = false) (hwhole : readContentBytes C k db d.node = .ok c) :
    d.read C k db m =
      .ok ((c.take (d.stopAt c.length m)).drop d.pos,
        { d with pos := d.pos + ((c.take (d.stopAt c.length m)).drop d.pos).length }) := by
  obtain ⟨hsize, hexact⟩ := h.opened hC hr hwhole
  have hpointer : d.refresh db = (r.version, r.size) := readContentMeta_of_content hr
  have hsome : ∃ p, d.readAcross C k db db m = .ok p := by
    simp only [Descriptor.readAcross, hpointer, hopen, hreader, refuse]
    by_cases hstop : d.stopAt r.size m ≤ d.pos
    · rw [if_pos hstop]
      exact ⟨_, rfl⟩
    · rw [if_neg hstop]
      have hpos : 0 < d.cs := by
        rw [hcs]
        rcases h.chunked with hpos | hnil
        · exact hpos
        · have hle : d.stopAt r.size m ≤ r.size := stopAt_le r.size
          have hzero : r.size = 0 := by rw [h.size, hnil, List.length_nil]
          omega
      rw [decide_eq_false hpos.ne', hexact.readChunkRange_exact]
      exact ⟨_, rfl⟩
  obtain ⟨⟨b, d'⟩, hread⟩ := hsome
  obtain ⟨-, hnext, hslice⟩ := h.read hC hr hcs hread
  rw [← Descriptor.readAcross_self, hread, hnext, hslice c hwhole]

/-- The slice of a read, told by the cursor. -/
theorem ArrayFile.read_eq (a : ArrayFile) {m : Option ℕ} (hpos : d.pos = a.pos) :
    a.read m = ({ a with
      pos := a.pos + ((a.bytes.take (d.stopAt a.bytes.length m)).drop d.pos).length },
      .ok (.bytes ((a.bytes.take (d.stopAt a.bytes.length m)).drop d.pos))) := by
  cases m with
  | none =>
    have hgot : a.bytes.drop a.pos = (a.bytes.take (d.stopAt a.bytes.length none)).drop d.pos := by
      rw [Descriptor.stopAt, List.take_length, hpos]
    simp only [ArrayFile.read, hgot]
  | some n =>
    have hgot : (a.bytes.drop a.pos).take n =
        (a.bytes.take (d.stopAt a.bytes.length (some n))).drop d.pos := by
      rw [Descriptor.stopAt, hpos, List.drop_take]
      apply List.take_eq_take_iff.mpr
      rw [List.length_drop]
      omega
    simp only [ArrayFile.read, hgot]

/-- A descriptor as `open_read` makes it, wherever its cursor is. -/
structure Descriptor.Reading (d : Descriptor) : Prop where
  opened : d.closed = false
  reader : d.writable = false
  idle : d.writing = false

/-- The descriptor with its cursor elsewhere. -/
def Descriptor.movedTo (d : Descriptor) (pos : ℕ) : Descriptor := { d with pos := pos }

theorem Descriptor.Reading.movedTo (h : d.Reading) (pos : ℕ) : (d.movedTo pos).Reading :=
  ⟨h.opened, h.reader, h.idle⟩

/-- A reader and the array that follows it. -/
structure ReaderFollows (C : Crypto) (M : Msgpack) (k : Cipher) (conn : ConnId) (fd : FdId)
    (d : Descriptor) (c : Bytes) (s : Sys) (a : ArrayFile) : Prop where
  reaches : Reaches C M Apart s
  fds : s.fds[fd]? = some { conn := conn, d := d.movedTo a.pos }
  bytes : a.bytes = c
  whole : readContentBytes C k s.db d.node = .ok c
  content : (s.db.content? d.node).isSome

section

variable {conn : ConnId} {a : ArrayFile}

/-- What stands at the entry of a reader. -/
theorem ReaderFollows.kept (hC : C.KeepsLength) (hd : d.Reading)
    (h : ReaderFollows C M k conn fd d c s a) :
    ∃ V r, s.db.content? d.node = some r ∧ d.cs = chunkSizeOf s.db V ∧ r.size = c.length ∧
      Kept (Reading.lengths (C := C)) V s.db d.node r.version r.size (s.committed d.node) := by
  have horderly : Reaches C M (Orderly (Reading.lengths (C := C)) M) s :=
    GuardedRuns.Run.weaken (fun _ _ hg => hg.orderly hC) h.reaches
  obtain ⟨r, hr⟩ := Option.isSome_iff_exists.mp h.content
  obtain ⟨hhome, hcs⟩ := h.reaches.reads _ (List.mem_of_getElem? h.fds) hd.reader
  have hkept : Kept (Reading.lengths (C := C)) d.volume s.db d.node r.version r.size
      (s.committed d.node) :=
    horderly.writers.stored.1.committed hhome hr
  exact ⟨d.volume, r, hr, hcs, (hkept.opened hC hr h.whole).1.symm, hkept⟩

/-- A seek goes where the array's goes. -/
theorem seek_eq (offset : Int) (whence : Whence) (hopen : d.closed = false)
    (htotal : (if d.writable then d.flushed + d.pending.length
      else ((readContentMeta db d.node).map Prod.snd).getD 0) = a.bytes.length)
        (hpos : d.pos = a.pos) :
    (∃ e, d.seek db offset whence = .error e ∧ a.seek offset whence = (a, .error e)) ∨
      ∃ pos, d.seek db offset whence = .ok (d.movedTo pos) ∧
        a.seek offset whence = ({ a with pos := pos }, .ok (.size pos)) := by
  let total := if d.writable then d.flushed + d.pending.length
    else ((readContentMeta db d.node).map Prod.snd).getD 0
  let target : Int := match whence with
    | .set => offset
    | .cur => d.pos + offset
    | .fromEnd => total + offset
  have hseek : d.seek db offset whence = (refuse d.closed FsError.valueError).bind fun _ =>
      (refuse (target < 0) FsError.valueError).bind fun _ => .ok (d.movedTo target.toNat) := rfl
  have harray : a.seek offset whence =
      if target < 0 then (a, .error .valueError)
      else ({ a with pos := target.toNat }, .ok (.size target.toNat)) := by
    simp only [ArrayFile.seek, target, total, htotal, hpos]
  rw [hseek, harray, hopen]
  by_cases hlow : target < 0
  · rw [if_pos hlow, decide_eq_true hlow]
    exact Or.inl ⟨_, rfl, rfl⟩
  · rw [if_neg hlow, decide_eq_false hlow]
    exact Or.inr ⟨_, rfl, rfl⟩

/-- A call of the reader answers as the array does, and leaves the cursor where the array
has it. -/
theorem ReaderFollows.call (cs : ℕ) (hC : C.KeepsLength) (hd : d.Reading)
    (h : ReaderFollows C M k conn fd d c s a) (hk : (s.conns conn).cipher = k)
    (hop : (∃ m, l.op = .fdRead fd m) ∨ ∃ offset whence, l.op = .fdSeek fd offset whence) :
    (exec C M l.env s l.conn l.op).2 = (a.call cs l.op).2 ∧
      (exec C M l.env s l.conn l.op).1.fds[fd]? =
        some { conn := conn, d := d.movedTo (a.call cs l.op).1.pos } ∧
      (exec C M l.env s l.conn l.op).1.db = s.db ∧ (a.call cs l.op).1.bytes = a.bytes := by
  obtain ⟨V, r, hr, hcs, hsize, hkept⟩ := h.kept hC hd
  have hbytes := h.bytes
  have hset : ∀ g : OpenFile, (s.setFd fd g).fds[fd]? = some g := fun g =>
    List.getElem?_set_self (List.getElem?_eq_some_iff.mp h.fds).1
  have hmoved := hd.movedTo a.pos
  rcases hop with ⟨m, hop⟩ | ⟨offset, whence, hop⟩
  · generalize hgot :
      (c.take ((d.movedTo a.pos).stopAt c.length m)).drop (d.movedTo a.pos).pos = got
    have hread : (d.movedTo a.pos).read C k s.db m = .ok (got, d.movedTo (a.pos + got.length)) := by
      rw [← hgot]
      exact hkept.read_total hC hr hcs hmoved.opened hmoved.reader h.whole
    rw [hop]
    have hexec : exec C M l.env s l.conn (.fdRead fd m) =
        fdStep C l.env s fd { conn := conn, d := d.movedTo a.pos } (.fdRead fd m) := by
      simp only [exec, onFd, h.fds]
    have harray : a.call cs (.fdRead fd m) = a.read m := rfl
    have hslice := a.read_eq (d := d.movedTo a.pos) (m := m) rfl
    rw [hexec, harray, hslice, hbytes, hgot]
    simp only [fdStep, hmoved.idle, hk, hread, Bool.false_eq_true, if_false]
    exact ⟨trivial, hset _, rfl, trivial⟩
  · have htotal : ((readContentMeta s.db d.node).map Prod.snd).getD 0 = a.bytes.length := by
      rw [readContentMeta, hr, hbytes]
      exact hsize
    rw [hop]
    have hexec : exec C M l.env s l.conn (.fdSeek fd offset whence) =
        fdStep C l.env s fd { conn := conn, d := d.movedTo a.pos } (.fdSeek fd offset whence) := by
      simp only [exec, onFd, h.fds]
    have harray : a.call cs (.fdSeek fd offset whence) = a.seek offset whence := rfl
    have htotal' : (if (d.movedTo a.pos).writable then
        (d.movedTo a.pos).flushed + (d.movedTo a.pos).pending.length
        else ((readContentMeta s.db (d.movedTo a.pos).node).map Prod.snd).getD 0) =
        a.bytes.length := by
      rw [hmoved.reader]
      exact htotal
    rw [hexec, harray]
    rcases seek_eq offset whence hmoved.opened htotal' rfl with
      ⟨e, hseek, hrefused⟩ | ⟨pos, hseek, hwent⟩
    · rw [hrefused]
      simp only [fdStep, hmoved.idle, hseek, Bool.false_eq_true, if_false]
      exact ⟨trivial, h.fds, trivial, trivial⟩
    · rw [hwent]
      simp only [fdStep, hmoved.idle, hseek, Bool.false_eq_true, if_false]
      exact ⟨rfl, hset _, rfl, trivial⟩

/-- Each step on the way of a reader keeps the array beside it. -/
theorem ReaderFollows.step (hC : C.KeepsLength) (hd : d.Reading)
    (h : ReaderFollows C M k conn fd d c s a) (hl : ReaderStep C M d.node conn k fd s l) :
    ReaderFollows C M k conn fd d c (followed C M cs fd (s, a) l).1
      (followed C M cs fd (s, a) l).2 := by
  have hreach : Reaches C M Apart (Aloelite.step C M s l) := h.reaches.snoc hl.apart
  have hsome : ((Aloelite.step C M s l).db.content? d.node).isSome := by
    rw [content?_isSome_of_meta hl.uncommitted]
    exact h.content
  have hwhole : readContentBytes C k (Aloelite.step C M s l).db d.node = .ok c := by
    rw [readContentBytes_keeps hl.uncommitted
      (fun v hv => step_sameCommitted hC h.reaches hl.apart hv)]
    exact h.whole
  by_cases hop : l.op.fd? = some fd
  · obtain ⟨-, hfds, -, hbytes⟩ := h.call cs hC hd (hl.keyed hop) (hl.calls hop)
    rw [followed, if_pos hop]
    exact ⟨hreach, hfds, hbytes.trans h.bytes, hwhole, hsome⟩
  · rw [followed, if_neg hop]
    exact ⟨hreach, exec_fds_keep hop h.fds, h.bytes, hwhole, hsome⟩

/-- What `open_read` starts from. -/
theorem openRead_follows (hC : C.KeepsLength) (h : Reaches C M Apart s) (hl : Apart s l)
    (hop : l.op = .openRead mount path) (hok : (exec C M l.env s l.conn l.op).2 = .ok (.fd fd)) :
    ∃ d : Descriptor, d.Reading ∧
      LeafAt false l.env (s.conns l.conn).cipher s.db mount path d.volume d.node ∧
      ∀ k c, readContentBytes C k s.db d.node = .ok c →
        ReaderFollows C M k l.conn fd d c (Aloelite.step C M s l) { bytes := c } := by
  have hreach : Reaches C M Apart (Aloelite.step C M s l) := h.snoc hl
  rw [hop] at hok
  simp only [exec] at hok
  cases hopen : openRead l.env (s.conns l.conn).cipher s.db mount path with
  | error e =>
    rw [hopen] at hok
    cases hok
  | ok d =>
    rw [hopen] at hok
    have hstep : (Aloelite.step C M s l).fds = s.fds ++ [{ conn := l.conn, d := d }] ∧
        (Aloelite.step C M s l).db = s.db := by
      simp only [Aloelite.step, hop, exec, hopen, and_self]
    simp only [openRead, bind_eq_ok, pure_eq_ok, refuse_eq_ok, decide_eq_false_iff_not] at hopen
    obtain ⟨m, hm, found, hfound, u, hleaf, rfl⟩ := hopen
    have horderly : Reaches C M (Orderly (Reading.lengths (C := C)) M) s :=
      GuardedRuns.Run.weaken (fun _ _ hg => hg.orderly hC) h
    obtain ⟨-, r, hr, -⟩ := horderly.writers.stored.leaf h.homed hm hfound hleaf
    let d : Descriptor :=
      { node := found.node, volume := m.volume, cs := chunkSizeOf s.db m.volume, writable := false }
    refine ⟨d, ⟨rfl, rfl, rfl⟩, ⟨m, found, hm, rfl, hfound, rfl, hleaf⟩, ?_⟩
    intro k c hread
    refine ⟨hreach, ?_, rfl, ?_, ?_⟩
    · obtain rfl : s.fds.length = fd := Reply.fd.inj (Except.ok.inj hok)
      rw [hstep.1, List.getElem?_concat_length]
      rfl
    · rw [hstep.2]
      exact hread
    · rw [hstep.2]
      exact Option.isSome_iff_exists.mpr ⟨r, hr⟩

end

/-! ### Writers -/

/-- A step on the way of a writer: its own calls are writes and seeks, each begun when the
flushes of the one before are done. -/
structure WriterStep (C : Crypto) (M : Msgpack) (own : VolumeId → Cipher) (fd : FdId) (s : Sys)
    (l : Label) :
    Prop where
  careful : Careful C M own s l
  calls : l.op.fd? = some fd → ∀ f ∈ s.fds[fd]?,
    f.d.writing = true ∧ l.op = .fdFlush fd ∨
      f.d.writing = false ∧
      ((∃ data, l.op = .fdWrite fd data) ∨ ∃ offset whence, l.op = .fdSeek fd offset whence)

/-- A flush moves chunks from the buffer to the file; stream and cursor stay. -/
theorem flushOneChunk_keeps (tx : Tx) (d : Descriptor) :
    (d.flushOneChunk C E k tx).1.stream = d.stream ∧ (d.flushOneChunk C E k tx).1.pos = d.pos ∧
      (d.flushOneChunk C E k tx).1.closed = d.closed := by
  have hclaim : (d.claimVersion E tx).1.stream = d.stream ∧ (d.claimVersion E tx).1.pos = d.pos ∧
      (d.claimVersion E tx).1.closed = d.closed := by
    simp only [Descriptor.claimVersion]
    split
    · exact ⟨rfl, rfl, rfl⟩
    · split <;> exact ⟨rfl, rfl, rfl⟩
  simp only [Descriptor.flushOneChunk]
  split <;> exact hclaim

theorem absorb_eq (data : Bytes) (hopen : d.closed = false) (hw : d.writable = true) :
    d.absorb data = if data = [] then .ok d else if d.pos < d.flushed then .error .unsupported else
      .ok { d with
        pending := patchWindow d.pending (d.pos - d.flushed) data
        pos := d.pos + data.length
        writing := d.cs ≤ (patchWindow d.pending (d.pos - d.flushed) data).length
        stream := patchWindow d.stream d.pos data } := by
  rw [Descriptor.absorb, hopen, hw]
  by_cases hdata : data = []
  · rw [if_pos hdata, if_pos hdata]
    rfl
  · rw [if_neg hdata, if_neg hdata]
    by_cases hlow : d.pos < d.flushed
    · rw [if_pos hlow, decide_eq_true hlow]
      rfl
    · rw [if_neg hlow, decide_eq_false hlow]
      rfl

section

variable {conn : ConnId} {a : ArrayFile}

/-- A writer at rest against its array. -/
structure Abreast (cs : ℕ) (d : Descriptor) (a : ArrayFile) : Prop where
  stream : d.stream = a.bytes
  pos : d.pos = a.pos
  length : a.bytes.length = d.flushed + d.pending.length
  flushed : d.flushed = a.bytes.length / cs * cs

/-- A write or a seek of an open writer leaves it open. From a writer abreast of its array
it answers as the array does and leaves stream and cursor as the array has them. -/
theorem writer_call (cs : ℕ) (hf : s.fds[fd]? = some f) (hopen : f.d.closed = false)
    (hw : f.d.writable = true) (hidle : f.d.writing = false)
    (hop : (∃ data, l.op = .fdWrite fd data) ∨ ∃ offset whence, l.op = .fdSeek fd offset whence) :
    ∃ d, (exec C M l.env s l.conn l.op).1.fds[fd]? = some { f with d := d } ∧ d.closed = false ∧
      (Abreast cs f.d a → (exec C M l.env s l.conn l.op).2 = (a.call cs l.op).2 ∧
        d.stream = (a.call cs l.op).1.bytes ∧ d.pos = (a.call cs l.op).1.pos) := by
  have hset : ∀ g : OpenFile, (s.setFd fd g).fds[fd]? = some g := fun g =>
    List.getElem?_set_self (List.getElem?_eq_some_iff.mp hf).1
  have hexec : exec C M l.env s l.conn l.op = fdStep C l.env s fd f l.op := by
    rcases hop with ⟨data, hop⟩ | ⟨offset, whence, hop⟩ <;> rw [hop] <;> simp only [exec, onFd, hf]
  rw [hexec]
  rcases hop with ⟨data, hop⟩ | ⟨offset, whence, hop⟩
  -- a write before the flushed bytes is refused by both
  · have habsorb := absorb_eq data hopen hw
    rw [hop]
    simp only [fdStep, hidle, Bool.false_eq_true, if_false, ArrayFile.call, ArrayFile.write]
    by_cases hdata : data = []
    · rw [if_pos hdata] at habsorb
      rw [habsorb, if_pos hdata, hdata]
      refine ⟨f.d, hset _, hopen, ?_⟩
      intro hab
      exact ⟨rfl, hab.stream, hab.pos⟩
    · rw [if_neg hdata] at habsorb
      rw [if_neg hdata]
      by_cases hlow : f.d.pos < f.d.flushed
      · rw [if_pos hlow] at habsorb
        rw [habsorb]
        refine ⟨f.d, hf, hopen, ?_⟩
        intro hab
        rw [hab.flushed, hab.pos] at hlow
        rw [if_pos hlow]
        exact ⟨rfl, hab.stream, hab.pos⟩
      · rw [if_neg hlow] at habsorb
        rw [habsorb]
        refine ⟨_, hset _, hopen, ?_⟩
        intro hab
        rw [hab.flushed, hab.pos] at hlow
        rw [if_neg hlow, ← hab.stream, ← hab.pos]
        exact ⟨rfl, rfl, rfl⟩
  · rw [hop]
    simp only [fdStep, hidle, Bool.false_eq_true, if_false, ArrayFile.call]
    cases hseek : f.d.seek s.db offset whence with
    | error e =>
      refine ⟨f.d, hf, hopen, ?_⟩
      intro hab
      have htotal : (if f.d.writable then f.d.flushed + f.d.pending.length
          else ((readContentMeta s.db f.d.node).map Prod.snd).getD 0) = a.bytes.length := by
        rw [hw, hab.length]
        rfl
      rcases seek_eq offset whence hopen htotal hab.pos with
        ⟨e', hseek', hrefused⟩ | ⟨pos, hseek', -⟩
      · obtain rfl := Except.error.inj (hseek.symm.trans hseek')
        rw [hrefused]
        exact ⟨rfl, hab.stream, hab.pos⟩
      · cases hseek.symm.trans hseek'
    | ok d' =>
      obtain ⟨pos, rfl⟩ := seek_ok hseek
      refine ⟨_, hset _, hopen, ?_⟩
      intro hab
      have htotal : (if f.d.writable then f.d.flushed + f.d.pending.length
          else ((readContentMeta s.db f.d.node).map Prod.snd).getD 0) = a.bytes.length := by
        rw [hw, hab.length]
        rfl
      rcases seek_eq offset whence hopen htotal hab.pos with
        ⟨e', hseek', -⟩ | ⟨pos', hseek', hwent⟩
      · cases hseek.symm.trans hseek'
      · have hpos : pos = pos' := congrArg Descriptor.pos (Except.ok.inj (hseek.symm.trans hseek'))
        rw [hwent, hpos]
        exact ⟨rfl, hab.stream, rfl⟩

/-- What is flushed is the whole chunks. -/
theorem Streaming.abreast {σ : Type} {R : Reading C σ} (h : Streaming R db f)
    (hidle : f.d.writing = false) (hstream : f.d.stream = a.bytes) (hpos : f.d.pos = a.pos) :
    Abreast f.d.cs f.d a := by
  have hlength := h.length
  have hflushed := h.flushed
  refine ⟨hstream, hpos, hstream ▸ hlength, ?_⟩
  rw [← hstream, hlength, hflushed]
  rcases h.resting hidle with hlt | hnil
  · have hquotient : (f.d.chunkIndex * f.d.cs + f.d.pending.length) / f.d.cs = f.d.chunkIndex := by
      rw [Nat.mul_comm, Nat.mul_add_div (by omega), Nat.div_eq_of_lt hlt, Nat.add_zero]
    rw [hquotient]
  · rw [hnil, List.length_nil, Nat.add_zero]
    rcases Nat.eq_zero_or_pos f.d.cs with hzero | hcs
    · rw [hzero, Nat.mul_zero, Nat.mul_zero]
    · rw [Nat.mul_div_cancel _ hcs]

/-- A writer and the array that follows it. The two agree as long as the writer's lock is
valid; a close finds out if it is not. -/
structure WriterFollows (C : Crypto) (M : Msgpack) (own : VolumeId → Cipher) (fd : FdId)
    (f₀ : OpenFile) (s : Sys) (a : ArrayFile) : Prop where
  reaches : Reaches C M (Careful C M own) s
  there : ∃ f, s.fds[fd]? = some f ∧ SameFd f₀ f ∧ f.d.closed = false ∧
    (f.Live s.db s.clock → f.d.stream = a.bytes ∧ f.d.pos = a.pos)

theorem SameFd.trans {f₀ f f' : OpenFile} (h : SameFd f₀ f) (h' : SameFd f f') : SameFd f₀ f' :=
  ⟨h'.conn.trans h.conn, h'.node.trans h.node, h'.volume.trans h.volume, h'.cs.trans h.cs,
    h'.writable.trans h.writable, h'.lock.trans h.lock, h'.ownsLock.trans h.ownsLock,
    h'.carrySrc.trans h.carrySrc, h'.carryFull.trans h.carryFull⟩

/-- A call of a writer whose lock is valid answers as the array does. -/
theorem WriterFollows.answer {f₀ : OpenFile} (hw : f₀.d.writable = true)
    (h : WriterFollows C M own fd f₀ s a) (hf : s.fds[fd]? = some f) (hlive : f.Live s.db s.clock)
    (hidle : f.d.writing = false)
    (hop : (∃ data, l.op = .fdWrite fd data) ∨ ∃ offset whence, l.op = .fdSeek fd offset whence) :
    (exec C M l.env s l.conn l.op).2 = (a.call f₀.d.cs l.op).2 := by
  obtain ⟨g, hg, hsame, hopen, hagree⟩ := h.there
  obtain rfl := Option.some.inj (hf.symm.trans hg)
  obtain ⟨hstream, hpos⟩ := hagree hlive
  have hstreaming := h.reaches.orderly.writers.streaming f (List.mem_of_getElem? hf) hlive
  have habreast := hstreaming.abreast hidle hstream hpos
  rw [hsame.cs] at habreast
  obtain ⟨d, -, -, hanswer⟩ := writer_call f₀.d.cs hf hopen (hsame.writable.trans hw) hidle hop
  exact (hanswer habreast).1

/-- Each step on the way of a writer keeps the array beside it. -/
theorem WriterFollows.step {f₀ : OpenFile} (hw : f₀.d.writable = true)
    (h : WriterFollows C M own fd f₀ s a) (hl : WriterStep C M own fd s l) :
    WriterFollows C M own fd f₀ (followed C M f₀.d.cs fd (s, a) l).1
      (followed C M f₀.d.cs fd (s, a) l).2 := by
  have hreach : Reaches C M (Careful C M own) (Aloelite.step C M s l) := h.reaches.snoc hl.careful
  have hordered := h.reaches.orderly
  have horderly := hl.careful.orderly
  have hclock : s.clock ≤ l.env.now := horderly.timely.1
  obtain ⟨f, hf, hsame, hopen, hagree⟩ := h.there
  have hmem := List.mem_of_getElem? hf
  have hwrites : f.d.writable = true := hsame.writable.trans hw
  -- a writer that is live now was live before the step
  have hback : ∀ f', SameFd f f' → f'.Live (exec C M l.env s l.conn l.op).1.db l.env.now →
      f.Live s.db s.clock := by
    intro f' hsame' hlive
    obtain ⟨E, conn, op⟩ := l
    exact (live_back hordered horderly hmem hsame' (fun _ => hopen) hlive).mono hclock
  by_cases hop : l.op.fd? = some fd
  · rw [followed, if_pos hop]
    obtain ⟨hbusy, hflush⟩ | ⟨hidle, hcall⟩ := hl.calls hop f hf
    · have hexec : exec C M l.env s l.conn l.op = fdStep C l.env s fd f (.fdFlush fd) := by
        rw [hflush]
        simp only [exec, onFd, hf]
      obtain ⟨hstream, hpos, hclosed⟩ :=
        flushOneChunk_keeps (C := C) (E := l.env) (k := (s.conns f.conn).cipher) s.begin f.d
      have hafter : ∃ f', (exec C M l.env s l.conn l.op).1.fds[fd]? = some f' ∧ f'.d =
          (f.d.flushOneChunk C l.env (s.conns f.conn).cipher s.begin).1 := by
        rw [hexec]
        simp only [fdStep, if_pos (And.intro hbusy hopen)]
        have hlen := (List.getElem?_eq_some_iff.mp hf).1
        cases (f.d.flushOneChunk C l.env (s.conns f.conn).cipher s.begin).2 with
        | error e => exact ⟨_, List.getElem?_set_self hlen, rfl⟩
        | ok tx => exact ⟨_, List.getElem?_set_self hlen, rfl⟩
      obtain ⟨f', hf', hd⟩ := hafter
      obtain ⟨f₁, hf₁, hsame'⟩ := (exec_fds hf').resolve_right (fun hnew => by
        rw [hf] at hnew
        cases hnew.1)
      obtain rfl := Option.some.inj (hf.symm.trans hf₁)
      refine ⟨hreach, f', hf', hsame.trans hsame', ?_, ?_⟩
      · rw [hd, hclosed]
        exact hopen
      · intro hlive
        rw [hd, hstream, hpos, hflush]
        exact hagree (hback f' hsame' hlive)
    · obtain ⟨d, hd, hclosed, hanswer⟩ := writer_call f₀.d.cs hf hopen hwrites hidle hcall
      obtain ⟨f₁, hf₁, hsame'⟩ := (exec_fds hd).resolve_right (fun hnew => by
        rw [hf] at hnew
        cases hnew.1)
      obtain rfl := Option.some.inj (hf.symm.trans hf₁)
      refine ⟨hreach, { f with d := d }, hd, hsame.trans hsame', hclosed, ?_⟩
      intro hlive
      have hbefore := hback _ hsame' hlive
      obtain ⟨hstream, hpos⟩ := hagree hbefore
      have habreast := (hordered.writers.streaming f hmem hbefore).abreast hidle hstream hpos
      rw [hsame.cs] at habreast
      exact (hanswer habreast).2
  · rw [followed, if_neg hop]
    refine ⟨hreach, f, exec_fds_keep hop hf, hsame, hopen, ?_⟩
    intro hlive
    exact hagree (hback f (SameFd.refl f) hlive)

/-- A close that succeeds commits the array. -/
theorem WriterFollows.close {f₀ : OpenFile} (hw : f₀.d.writable = true)
    (h : WriterFollows C M own fd f₀ s a) (hl : Careful C M own s l) (hop : l.op = .fdClose fd)
    (hok : (exec C M l.env s l.conn l.op).2 = .ok .done) :
    readContentBytes C (own f₀.d.volume) (Aloelite.step C M s l).db f₀.d.node = .ok a.bytes := by
  obtain ⟨f, hf, hsame, hopen, hagree⟩ := h.there
  have hwrites : f.d.writable = true := hsame.writable.trans hw
  have hclock : s.clock ≤ l.env.now := hl.orderly.timely.1
  have hread := h.reaches.close_reads hl hop hf hwrites hopen hok
  have hlive : f.Live s.db l.env.now := by
    rw [hop] at hok
    simp only [exec, onFd, hf, fdStep] at hok
    split at hok
    · cases hok
    · cases hclose : f.d.close C l.env (s.conns f.conn).cipher s.begin with
      | error e =>
        rw [hclose] at hok
        cases hok
      | ok tx =>
        refine ((close_cases
          (h.reaches.orderly.named f (List.mem_of_getElem? hf)) hclose).resolve_left ?_).1
        rw [hopen, hwrites]
        exact fun hshut => absurd hshut.1 (by decide)
  rw [← hsame.volume, ← hsame.node, ← (hagree (hlive.mono hclock)).1]
  exact hread

/-- What `open_write` starts from: nothing, or the content it appends to. -/
def startOf (mode : WriteMode) (c : Bytes) : ArrayFile :=
  match mode with
  | .truncate => { bytes := [] }
  | .append => { bytes := c, pos := c.length }

/-- The entry that `open_write` writes to. -/
structure WriteTarget (C : Crypto) (s : Sys) (l : Label) (mount : MountId) (path : String)
    (mode : WriteMode) (V : VolumeId) (n : NodeId) : Prop where
  target : ∃ m tx, requireMount l.env (s.conns l.conn).cipher s.db mount true = .ok m ∧
    m.volume = V ∧
    openTarget C l.env (s.conns l.conn).cipher s.begin mount m path mode = .ok (tx, n)

/-- `open_write` starts a stream with nothing, or with what the entry it appends to reads
as. -/
theorem openWrite_starts {mode : WriteMode} {lock : Option LockId} {tx : Tx}
    (h : Reaches C M (Careful C M own) s)
    (hopen : openWrite C E k s.begin mount path mode lock = .ok (tx, d)) :
    ∃ c, (mode = .append → readContentBytes C (own d.volume) s.db d.node = .ok c) ∧
      d.stream = (startOf mode c).bytes ∧ d.pos = (startOf mode c).pos := by
  have hstored := h.orderly.writers.stored
  obtain ⟨m, tx₁, i, hm, htarget, hlock, -, hvolume, -, -, -, -, -, -, hmode⟩ := openWrite_ok hopen
  rcases hmode with ⟨rfl, -, -, -, -, -, hpos, hstream⟩ | ⟨rfl, -, v, size, hmeta, -, -, -,
    -, -, hpos, hstream⟩
  · exact ⟨[], fun hne => (by cases hne), hstream, hpos⟩
  · -- an append takes the entry as it is
    have hcalm := writerLock_calm hlock
    obtain ⟨found, hfound, hleaf, rfl, hnode⟩ : ∃ found,
      resolve s.db m.mountPoint path = .ok found ∧
        found.type ≠ .container ∧ tx₁ = s.begin ∧ found.node = d.node := by
      simp only [openTarget] at htarget
      split at htarget
      next found hfound =>
        simp only [bind_eq_ok, pure_eq_ok, refuse_eq_ok, Prod.mk.injEq, decide_eq_false_iff_not]
          at htarget
        obtain ⟨u, hleaf, htx, hnode⟩ := htarget
        exact ⟨found, hfound, hleaf, htx.symm, hnode⟩
      next => cases htarget
      next => cases htarget
    obtain ⟨hhome, row, hrow, hkept⟩ := hstored.leaf h.homed hm hfound hleaf
    rw [hnode] at hhome hrow hkept
    have hread : readContentBytes C (own d.volume) s.db d.node = .ok (s.committed d.node) := by
      rw [hvolume]
      exact h.readsCommitted hhome hrow
    have hcommitted : tx.committed d.node = s.committed d.node := congrFun hcalm.committed d.node
    have hsize : size = (s.committed d.node).length := by
      rw [hcalm.contents, readContentMeta_of_content hrow] at hmeta
      exact (congrArg Prod.snd hmeta).symm.trans hkept.size
    exact ⟨s.committed d.node, fun _ => hread, hstream.trans hcommitted, hpos.trans hsize⟩

theorem openWrite_follows {mode : WriteMode} {lock : Option LockId}
    (h : Reaches C M (Careful C M own) s) (hl : Careful C M own s l)
    (hop : l.op = .openWrite mount path mode lock)
    (hok : (exec C M l.env s l.conn l.op).2 = .ok (.fd fd)) :
    ∃ f₀ : OpenFile, f₀.d.writable = true ∧
      f₀.d.cs = chunkSizeOf (Aloelite.step C M s l).db f₀.d.volume ∧
      WriteTarget C s l mount path mode f₀.d.volume f₀.d.node ∧ ∃ c,
      (mode = .append → readContentBytes C (own f₀.d.volume) s.db f₀.d.node = .ok c) ∧
      WriterFollows C M own fd f₀ (Aloelite.step C M s l) (startOf mode c) := by
  have hreach : Reaches C M (Careful C M own) (Aloelite.step C M s l) := h.snoc hl
  rw [hop] at hok
  simp only [exec] at hok
  cases hopen : openWrite C l.env (s.conns l.conn).cipher s.begin mount path mode lock with
  | error e =>
    rw [hopen] at hok
    cases hok
  | ok r =>
    obtain ⟨tx, d⟩ := r
    rw [hopen] at hok
    obtain rfl : s.fds.length = fd := Reply.fd.inj (Except.ok.inj hok)
    have hfds : (Aloelite.step C M s l).fds[s.fds.length]? = some { conn := l.conn, d := d } := by
      simp only [Aloelite.step, hop, exec, hopen, Sys.transact]
      exact List.getElem?_concat_length
    have hdb : (Aloelite.step C M s l).db = tx.db := by
      simp only [Aloelite.step, hop, exec, hopen, Sys.transact]
      rfl
    obtain ⟨m, tx₁, i, hm, htarget, -, -, hvolume, hcs, hw, hclosed, -⟩ := openWrite_ok hopen
    rw [← hvolume, ← hdb] at hcs
    obtain ⟨c, hread, hstream, hpos⟩ := openWrite_starts h hopen
    refine ⟨{ conn := l.conn, d := d }, hw, hcs, ⟨m, tx₁, hm, hvolume.symm, htarget⟩, c, hread,
      hreach, _, hfds,
      SameFd.refl _, hclosed, ?_⟩
    exact fun _ => ⟨hstream, hpos⟩

end

/-! ### Whole streams -/

/-- Every run of calls on a reader, with no commit to its entry, gets what the array says:
slices of the whole content, the cursor moved by their length. Every run of writes and
seeks on a writer answers as the array does while its lock is valid, refusals included,
and a close that succeeds commits the array. -/
theorem streams_match_byte_array (hC : C.KeepsLength) :
    (∀ (s : Sys) (l : Label) (mount : MountId) (path : String) (fd : FdId), Reaches C M Apart s →
      Apart s l →
      l.op = .openRead mount path → (exec C M l.env s l.conn l.op).2 = .ok (.fd fd) →
      ∃ V n, LeafAt false l.env (s.conns l.conn).cipher s.db mount path V n ∧
        ∀ k c, readContentBytes C k s.db n = .ok c → ∀ t a,
          GuardedRuns.Run (followed C M 0 fd) (fun p => ReaderStep C M n l.conn k fd p.1)
            (step C M s l, { bytes := c }) (t, a) →
          ∀ l', ReaderStep C M n l.conn k fd t l' → l'.op.fd? = some fd →
            (exec C M l'.env t l'.conn l'.op).2 = (a.call 0 l'.op).2) ∧
    (∀ (s : Sys) (l : Label) (mount : MountId) (path : String) (mode : WriteMode)
      (lock : Option LockId) (fd : FdId), Reaches C M (Careful C M own) s → Careful C M own s l →
      l.op = .openWrite mount path mode lock → (exec C M l.env s l.conn l.op).2 = .ok (.fd fd) →
      ∃ V n cs c, WriteTarget C s l mount path mode V n ∧ cs = chunkSizeOf (step C M s l).db V ∧
        (mode = .append → readContentBytes C (own V) s.db n = .ok c) ∧ ∀ t a,
          GuardedRuns.Run (followed C M cs fd) (fun p => WriterStep C M own fd p.1)
            (step C M s l, startOf mode c) (t, a) →
          (∀ l', WriterStep C M own fd t l' → l'.op.fd? = some fd → l'.op ≠ .fdFlush fd →
            (∀ f ∈ t.fds[fd]?, f.Live t.db t.clock) →
            (exec C M l'.env t l'.conn l'.op).2 = (a.call cs l'.op).2) ∧
          ∀ l', Careful C M own t l' → l'.op = .fdClose fd →
            (exec C M l'.env t l'.conn l'.op).2 = .ok .done →
            readContentBytes C (own V) (step C M t l').db n = .ok a.bytes) := by
  constructor
  · intro s l mount path fd hreach hl hop hok
    obtain ⟨d, hd, hleaf, hstart⟩ := openRead_follows hC hreach hl hop hok
    refine ⟨d.volume, d.node, hleaf, ?_⟩
    intro k c hread t a hrun l' hl' hop'
    -- simulation: the descriptor's cursor and the array's move together through the run
    have hfollows : ReaderFollows C M k l.conn fd d c t a :=
      GuardedRuns.Run.invariant
        (P := fun p : Sys × ArrayFile => ReaderFollows C M k l.conn fd d c p.1 p.2)
        (fun p i hi hp => hp.step hC hd hi) hrun (hstart k c hread)
    exact (hfollows.call 0 hC hd (hl'.keyed hop') (hl'.calls hop')).1
  · intro s l mount path mode lock fd hreach hl hop hok
    obtain ⟨f₀, hw, hcs, htarget, c, hread, hstart⟩ := openWrite_follows hreach hl hop hok
    refine ⟨f₀.d.volume, f₀.d.node, f₀.d.cs, c, htarget, hcs, hread, ?_⟩
    intro t a hrun
    -- the same for the writer, whose carry, flushed rows and pending bytes make up the array
    have hfollows : WriterFollows C M own fd f₀ t a :=
      GuardedRuns.Run.invariant
        (P := fun p : Sys × ArrayFile => WriterFollows C M own fd f₀ p.1 p.2)
        (fun p i hi hp => hp.step hw hi) hrun hstart
    constructor
    · intro l' hl' hop' hflush hlive
      obtain ⟨f, hf, -, -, -⟩ := hfollows.there
      obtain ⟨-, heq⟩ | ⟨hidle, hcall⟩ := hl'.calls hop' f hf
      · exact absurd heq hflush
      · exact hfollows.answer hw hf (hlive f hf) hidle hcall
    · intro l' hl' hclose hdone
      exact hfollows.close hw hl' hclose hdone

/-- Three sealed bytes in chunks of two, three more streamed to their end. -/
theorem streams_match_byte_array_sealed :
    readContentBytes Crypto.xorStream (sealedKey 1)
      (step Crypto.xorStream Msgpack.refusing
        (sealedRun.foldl (step Crypto.xorStream Msgpack.refusing) {})
        ⟨.counting 11, 0, .fdClose 0⟩).db 4 = .ok [7, 8, 9, 5, 6, 7] := by
  let l : Label := ⟨.counting 6, 0, .openWrite 2 "x" .append none⟩
  let l₁ : Label := ⟨.counting 7, 0, .fdWrite 0 [5, 6, 7]⟩
  let l₂ : Label := ⟨.counting 8, 0, .fdFlush 0⟩
  let l₃ : Label := ⟨.counting 9, 0, .fdFlush 0⟩
  let l₄ : Label := ⟨.counting 11, 0, .fdClose 0⟩
  have hguards : GuardedRuns.Guards (step Crypto.xorStream Msgpack.refusing)
      (Careful Crypto.xorStream Msgpack.refusing sealedKey) {} (sealedRun.take 3) := by
    decide +kernel
  obtain ⟨s, hs⟩ : ∃ s, s = (sealedRun.take 3).foldl (step Crypto.xorStream Msgpack.refusing) {} :=
    ⟨_, rfl⟩
  have hreach : Reaches Crypto.xorStream Msgpack.refusing
      (Careful Crypto.xorStream Msgpack.refusing sealedKey) s := by
    rw [hs]
    exact reaches_foldl hguards
  have hl : Careful Crypto.xorStream Msgpack.refusing sealedKey s l := by
    rw [hs]
    decide +kernel
  have hok : (exec Crypto.xorStream Msgpack.refusing l.env s l.conn l.op).2 = .ok (.fd 0) := by
    rw [hs]
    decide +kernel
  obtain ⟨V, n, cs, c, htarget, hcs, hread, hrun⟩ :=
    (streams_match_byte_array xorStream_keepsLength).2 s l 2 "x" .append none 0 hreach hl rfl hok
  obtain ⟨m, tx, hm, rfl, hopen⟩ := htarget.target
  obtain rfl : m = ⟨2, 1, 1, .convergent⟩ := by
    rw [hs] at hm
    exact (Except.ok.inj hm).symm
  obtain rfl : n = 4 := by
    rw [hs] at hopen
    exact (Prod.mk.inj (Except.ok.inj hopen)).2.symm
  have hold : readContentBytes Crypto.xorStream (sealedKey 1) s.db 4 = .ok [7, 8, 9] := by
    rw [hs]
    decide +kernel
  obtain rfl : c = [7, 8, 9] := (Except.ok.inj ((hread rfl).symm.trans hold))
  have hsize : chunkSizeOf (step Crypto.xorStream Msgpack.refusing s l).db 1 = 2 := by
    rw [hs]
    decide +kernel
  obtain rfl : cs = 2 := hcs.trans hsize
  -- each state of the run has a name, so that `decide` meets one step at a time
  obtain ⟨p₀, hp₀⟩ : ∃ p, p =
    (step Crypto.xorStream Msgpack.refusing s l, startOf .append [7, 8, 9]) := ⟨_, rfl⟩
  obtain ⟨p₁, hp₁⟩ : ∃ p, p = followed Crypto.xorStream Msgpack.refusing 2 0 p₀ l₁ := ⟨_, rfl⟩
  obtain ⟨p₂, hp₂⟩ : ∃ p, p = followed Crypto.xorStream Msgpack.refusing 2 0 p₁ l₂ := ⟨_, rfl⟩
  obtain ⟨p₃, hp₃⟩ : ∃ p, p = followed Crypto.xorStream Msgpack.refusing 2 0 p₂ l₃ := ⟨_, rfl⟩
  have h₁ : WriterStep Crypto.xorStream Msgpack.refusing sealedKey 0 p₀.1 l₁ := by
    have hall : ∀ f ∈ p₀.1.fds[0]?, f.d.writing = false := by
      rw [hp₀, hs]
      decide +kernel
    refine ⟨?_, fun _ f hf => Or.inr ⟨hall f hf, Or.inl ⟨_, rfl⟩⟩⟩
    rw [hp₀, hs]
    decide +kernel
  have h₂ : WriterStep Crypto.xorStream Msgpack.refusing sealedKey 0 p₁.1 l₂ := by
    have hall : ∀ f ∈ p₁.1.fds[0]?, f.d.writing = true := by
      rw [hp₁, hp₀, hs]
      decide +kernel
    refine ⟨?_, fun _ f hf => Or.inl ⟨hall f hf, rfl⟩⟩
    rw [hp₁, hp₀, hs]
    decide +kernel
  have h₃ : WriterStep Crypto.xorStream Msgpack.refusing sealedKey 0 p₂.1 l₃ := by
    have hall : ∀ f ∈ p₂.1.fds[0]?, f.d.writing = true := by
      rw [hp₂, hp₁, hp₀, hs]
      decide +kernel
    refine ⟨?_, fun _ f hf => Or.inl ⟨hall f hf, rfl⟩⟩
    rw [hp₂, hp₁, hp₀, hs]
    decide +kernel
  have hrun₁ : GuardedRuns.Run (followed Crypto.xorStream Msgpack.refusing 2 0)
      (fun p => WriterStep Crypto.xorStream Msgpack.refusing sealedKey 0 p.1) p₀ p₁ := by
    rw [hp₁]
    exact (GuardedRuns.Run.refl p₀).snoc h₁
  have hrun₂ : GuardedRuns.Run (followed Crypto.xorStream Msgpack.refusing 2 0)
      (fun p => WriterStep Crypto.xorStream Msgpack.refusing sealedKey 0 p.1) p₀ p₂ := by
    rw [hp₂]
    exact hrun₁.snoc h₂
  have hrun₃ : GuardedRuns.Run (followed Crypto.xorStream Msgpack.refusing 2 0)
      (fun p => WriterStep Crypto.xorStream Msgpack.refusing sealedKey 0 p.1) p₀ p₃ := by
    rw [hp₃]
    exact hrun₂.snoc h₃
  have hend : p₃.1 = sealedRun.foldl (step Crypto.xorStream Msgpack.refusing) {} := by
    have hlist : sealedRun = sealedRun.take 3 ++ [l, l₁, l₂, l₃] := rfl
    rw [hlist, List.foldl_append, ← hs, hp₃, followed_fst, hp₂, followed_fst, hp₁,
      followed_fst, hp₀]
    rfl
  have hbytes : p₃.2.bytes = [7, 8, 9, 5, 6, 7] := by
    rw [hp₃, hp₂, hp₁, hp₀, hs]
    decide +kernel
  have hcareful : Careful Crypto.xorStream Msgpack.refusing sealedKey p₃.1 l₄ := by
    rw [hp₃, hp₂, hp₁, hp₀, hs]
    decide +kernel
  have hdone : (exec Crypto.xorStream Msgpack.refusing l₄.env p₃.1 l₄.conn l₄.op).2 =
      .ok .done := by
    rw [hp₃, hp₂, hp₁, hp₀, hs]
    decide +kernel
  rw [hp₀] at hrun₃
  have hcommitted := (hrun p₃.1 p₃.2 hrun₃).2 l₄ hcareful rfl hdone
  rw [hend, hbytes] at hcommitted
  exact hcommitted

/-- A convergent volume in chunks of one byte: a stream of one byte whose ciphertext is
that of another entry's byte. The close goes through and commits the other byte. -/
theorem close_commits_other_byte :
    ∃ s t a l, Reaches Crypto.xorStream Msgpack.refusing (fun s l => Apart s l ∧
      Keyed sealedKey s l) s ∧
      Reaches Crypto.xorStream Msgpack.refusing (fun s l => Apart s l ∧ Keyed sealedKey s l) t ∧
      Apart t l ∧ Keyed sealedKey t l ∧
      (t, a) = [⟨.counting 8, 0, .fdWrite 0 [6]⟩, ⟨.counting 9, 0, .fdFlush 0⟩].foldl
        (followed Crypto.xorStream Msgpack.refusing 1 0)
        (step Crypto.xorStream Msgpack.refusing s ⟨.counting 6, 0, .openWrite 2 "y" .truncate none⟩,
          startOf .truncate []) ∧
      l.op = .fdClose 0 ∧
        (exec Crypto.xorStream Msgpack.refusing l.env t l.conn l.op).2 = .ok .done ∧
      a.bytes = [6] ∧ readContentBytes Crypto.xorStream (sealedKey 0)
        (step Crypto.xorStream Msgpack.refusing t l).db 6 = .ok [5] := by
  let ls : List Label :=
    [⟨.counting 0, 0, .createVolume none 1 (some [4]) .convergent⟩,
      ⟨.counting 2, 0, .mount { volume := 0, pin := some [4] }⟩,
      ⟨.counting 4, 0, .request 2 (.createEntry "x" [5])⟩]
  let opening : Label := ⟨.counting 6, 0, .openWrite 2 "y" .truncate none⟩
  let calls : List Label := [⟨.counting 8, 0, .fdWrite 0 [6]⟩, ⟨.counting 9, 0, .fdFlush 0⟩]
  let l : Label := ⟨.counting 10, 0, .fdClose 0⟩
  have hguards : GuardedRuns.Guards (step Crypto.xorStream Msgpack.refusing)
      (fun s l => Apart s l ∧ Keyed sealedKey s l) {} ls := by
    decide +kernel
  have hall : GuardedRuns.Guards (step Crypto.xorStream Msgpack.refusing)
      (fun s l => Apart s l ∧ Keyed sealedKey s l) {} (ls ++ opening :: calls) := by
    decide +kernel
  obtain ⟨s, hs⟩ : ∃ s, s = ls.foldl (step Crypto.xorStream Msgpack.refusing) {} := ⟨_, rfl⟩
  obtain ⟨p, hp⟩ : ∃ p, p = calls.foldl (followed Crypto.xorStream Msgpack.refusing 1 0)
    (step Crypto.xorStream Msgpack.refusing s opening, startOf .truncate []) := ⟨_, rfl⟩
  have ht : p.1 = (ls ++ opening :: calls).foldl (step Crypto.xorStream Msgpack.refusing) {} := by
    rw [hp, List.foldl_append, ← hs]
    rfl
  refine ⟨s, p.1, p.2, l, ?_, ?_, ?_, ?_, hp, rfl, ?_, ?_, ?_⟩
  · rw [hs]
    exact reaches_foldl hguards
  · rw [ht]
    exact reaches_foldl hall
  · rw [ht]
    decide +kernel
  · rw [ht]
    decide +kernel
  · rw [ht]
    decide +kernel
  · rw [hp, hs]
    decide +kernel
  · rw [ht]
    decide +kernel

end Aloelite
