import Aloelite.ArrayFiles

/-! Flushes that fail. The transaction is rolled back, what it set on the descriptor
stays, and a later close commits what the descriptor holds. -/
namespace Aloelite

open Fallible KeyedRows Numbered Pieces Patches

/-- `descriptor.py` takes a chunk off the pending buffer after its transaction,
`descriptor.rs` before it. -/
inductive Port where
  | python
  | rust
  deriving DecidableEq, Repr

/-- How far the transaction of a flush gets: it does not open, it fails at the carry, or
after it. -/
inductive FailPoint where
  | begin
  | carry
  | stage
  deriving DecidableEq, Repr

/-- `_flush_one_chunk` with its transaction rolled back; the exception ends `write`. -/
def Descriptor.failFlush (port : Port) (point : FailPoint) (db : Db) (d : Descriptor) :
    Descriptor :=
  let pending := match port with
    | .python => d.pending
    | .rust => d.pending.drop d.cs
  let d := { d with pending := pending, writing := false }
  match point with
  | .begin => d
  | .carry => { d with version := some (d.claims db) }
  | .stage => { d with version := some (d.claims db), carryDone := true }

/-- What happens to an open writer: writes and seeks, the flushes that a write goes
through or fails in, and what others do to the file in between. -/
inductive WriterEvent where
  | write (data : Bytes)
  | seek (offset : Int) (whence : Whence)
  | flush (E : Env)
  | fail (point : FailPoint)
  | elsewhere (tx : Tx)

/-- An open writer on its file, and the content that the writes it has accepted make. -/
structure OpenWriter where
  tx : Tx
  d : Descriptor
  bytes : Bytes

def OpenWriter.next (C : Crypto) (k : Cipher) (port : Port) (s : OpenWriter) :
    WriterEvent → OpenWriter
  | .write data =>
    match s.d.absorb data with
    | .ok d => { s with
      d := d, bytes := if data = [] then s.bytes else patch 0 s.bytes s.d.pos data }
    | .error _ => s
  | .seek offset whence =>
    match s.d.seek s.tx.db offset whence with
    | .ok d => { s with d := d }
    | .error _ => s
  | .flush E =>
    match s.d.flushOneChunk C E k s.tx with
    | (d, .ok tx) => { s with tx := tx, d := d }
    -- a failed flush leaves what the port does to the descriptor before the failing call
    | (_, .error _) => { s with d := s.d.failFlush port .stage s.tx.db }
  | .fail point => { s with d := s.d.failFlush port point s.tx.db }
  | .elsewhere tx => { s with tx := tx }

variable {C : Crypto} {M : Msgpack} {E : Env} {k : Cipher} {own : VolumeId → Cipher} {db db' : Db}
  {tx tx' tx₁ : Tx} {s t : OpenWriter} {port : Port} {point : FailPoint} {d d' : Descriptor}
  {data : Bytes} {n : NodeId} {v : ℕ} {V : VolumeId} {chunks : List Bytes}

/-- What others do while a writer is open: they add no row to the version it has claimed,
commit none, and keep the chunks that are in use. -/
structure Elsewhere (C : Crypto) (d : Descriptor) (tx tx' : Tx) : Prop where
  steady : Steady (fun v => d.version ≠ some v) d.node tx.db tx'.db
  keyed : tx'.db.RowsKeyed
  addressed : tx'.db.Addressed C
  home : tx'.db.home? d.node = tx.db.home? d.node

/-- The events that can come next: a write or a seek when no flush is due, a flush that
goes through or fails when one is. -/
def Offered (C : Crypto) (k : Cipher) (s : OpenWriter) : WriterEvent → Prop
  | .write _ | .seek .. => s.d.writing = false
  | .flush E => s.d.writing = true ∧ ∃ tx ∈ (s.d.flushOneChunk C E k s.tx).2.toOption, tx.aliased =
    false
  | .fail _ => s.d.writing = true
  | .elsewhere tx => Elsewhere C s.d s.tx tx

/-- The failures that lose nothing: the chunk is still pending, and no chunks to carry
have gone with the transaction. -/
def LosesNothing (port : Port) (s : OpenWriter) : WriterEvent → Prop
  | .fail point => port = .python ∧ (point = .stage → s.d.carryDone = true ∨ s.d.carryFull = 0)
  | _ => True

/-! ### What an open writer holds -/

/-- The chunks behind what has been flushed. Until the carry they are the leading ones of
the version that is carried, and the version claimed is empty. -/
structure Fronted (C : Crypto) (own : VolumeId → Cipher) (db : Db) (d : Descriptor)
    (chunks : List Bytes) :
    Prop where
  count : chunks.length = d.chunkIndex
  carried : d.carryDone = true → d.version.isSome = true ∧
    Holds (Reading.exact (C := C) own) d.volume db d.node (d.claims db) chunks
  uncarried : d.carryDone = false → chunks.length = d.carryFull ∧
    db.manifest d.node (d.claims db) = [] ∧
    HoldsFirst (Reading.exact (C := C) own) d.volume db d.node d.carrySrc d.carryFull chunks

/-- The flushed chunks and the pending buffer together are the content that the accepted
writes make. -/
structure Holding (C : Crypto) (own : VolumeId → Cipher) (s : OpenWriter) : Prop where
  entry : ∃ c, s.tx.db.committedVersion s.d.node = some c
  uncommitted : s.tx.db.committedVersion s.d.node ≠ some (s.d.claims s.tx.db)
  keyed : s.tx.db.RowsKeyed
  addressed : s.tx.db.Addressed C
  length : s.bytes.length = s.d.flushed + s.d.pending.length
  pending : s.d.pending = s.bytes.drop s.d.flushed
  waiting : s.d.writing = true → s.d.cs ≤ s.d.pending.length
  front : ∃ chunks, chunks.flatten = s.bytes.take s.d.flushed ∧ Fronted C own s.tx.db s.d chunks

/-- A cursor that moves, a buffer that changes and a flush loop that ends leave the front
as it is. -/
theorem Fronted.congr (h : Fronted C own db d chunks) (hnode : d'.node = d.node)
    (hvolume : d'.volume = d.volume) (hindex : d'.chunkIndex = d.chunkIndex)
    (hversion : d'.version = d.version) (hdone : d'.carryDone = d.carryDone)
    (hsrc : d'.carrySrc = d.carrySrc) (hfull : d'.carryFull = d.carryFull) :
    Fronted C own db d' chunks := by
  have hclaims : d'.claims db = d.claims db := by
    rw [Descriptor.claims, Descriptor.claims, hversion, hnode]
  constructor
  · rw [hindex]
    exact h.count
  · rw [hdone, hversion, hvolume, hnode, hclaims]
    exact h.carried
  · rw [hdone, hfull, hnode, hclaims, hvolume, hsrc]
    exact h.uncarried

/-- A write enters the pending buffer; what is flushed stays at the front. -/
theorem Holding.write (h : Holding C own s) : Holding C own (s.next C k port (.write data)) := by
  simp only [OpenWriter.next]
  split
  next d' habsorb =>
    obtain ⟨-, -, ⟨hdata, rfl⟩ | ⟨hdata, hpos, rfl⟩⟩ := absorb_ok habsorb
    · rw [if_pos hdata]
      exact h
    rw [if_neg hdata]
    have hlen := h.length
    have hsplit : (s.bytes.take s.d.flushed).length = s.d.flushed := by
      rw [List.length_take]
      omega
    have hbytes : patch 0 s.bytes s.d.pos data =
        s.bytes.take s.d.flushed ++ patch 0 s.d.pending (s.d.pos - s.d.flushed) data := by
      have hpatch : patch 0 (s.bytes.take s.d.flushed ++ s.bytes.drop s.d.flushed) s.d.pos data =
          s.bytes.take s.d.flushed ++ patch 0 (s.bytes.drop s.d.flushed)
            (s.d.pos - (s.bytes.take s.d.flushed).length) data :=
        patch_append_of_le (hsplit.le.trans hpos)
      rw [List.take_append_drop, hsplit, ← h.pending] at hpatch
      exact hpatch
    have hfront : (patch 0 s.bytes s.d.pos data).take s.d.flushed = s.bytes.take s.d.flushed := by
      rw [hbytes, List.take_left' hsplit]
    obtain ⟨chunks, hflat, hfronted⟩ := h.front
    refine ⟨h.entry, h.uncommitted, h.keyed, h.addressed, ?_, ?_, ?_, chunks, ?_, ?_⟩
    · show (patch 0 s.bytes s.d.pos data).length =
        s.d.flushed + (patch 0 s.d.pending (s.d.pos - s.d.flushed) data).length
      rw [hbytes, List.length_append, hsplit]
    · show patch 0 s.d.pending (s.d.pos - s.d.flushed) data =
          (patch 0 s.bytes s.d.pos data).drop s.d.flushed
      rw [hbytes, List.drop_left' hsplit]
    · intro hwriting
      exact of_decide_eq_true hwriting
    · exact hflat.trans hfront.symm
    · exact hfronted.congr rfl rfl rfl rfl rfl rfl rfl
  next => exact h

theorem Holding.seek (h : Holding C own s) {offset : Int} {whence : Whence} :
    Holding C own (s.next C k port (.seek offset whence)) := by
  simp only [OpenWriter.next]
  split
  next d' hseek =>
    obtain ⟨pos, rfl⟩ := seek_ok hseek
    obtain ⟨chunks, hflat, hfronted⟩ := h.front
    exact ⟨h.entry, h.uncommitted, h.keyed, h.addressed, h.length, h.pending, h.waiting, chunks,
      hflat,
      hfronted.congr rfl rfl rfl rfl rfl rfl rfl⟩
  next => exact h

/-- A failure that loses nothing. -/
theorem Holding.fail (h : Holding C own s) (hspared : LosesNothing port s (.fail point)) :
    Holding C own (s.next C k port (.fail point)) := by
  obtain ⟨rfl, hcarry⟩ := hspared
  obtain ⟨chunks, hflat, hfronted⟩ := h.front
  have hidle : ∀ P : Prop, (false = true) → P := fun P hfalse => nomatch hfalse
  cases point with
  | begin =>
    exact ⟨h.entry, h.uncommitted, h.keyed, h.addressed, h.length, h.pending, hidle _, chunks,
      hflat,
      hfronted.congr rfl rfl rfl rfl rfl rfl rfl⟩
  | carry =>
    refine ⟨h.entry, h.uncommitted, h.keyed, h.addressed, h.length, h.pending, hidle _,
      chunks, hflat, ?_⟩
    exact ⟨hfronted.count, fun hdone => ⟨rfl, (hfronted.carried hdone).2⟩, hfronted.uncarried⟩
  | stage =>
    refine ⟨h.entry, h.uncommitted, h.keyed, h.addressed, h.length, h.pending, hidle _,
      chunks, hflat, ?_⟩
    refine ⟨hfronted.count, fun _ => ⟨rfl, ?_⟩, fun hnot => nomatch hnot⟩
    by_cases hdone : s.d.carryDone = true
    · exact (hfronted.carried hdone).2
    · -- without chunks to carry the empty version holds the front
      obtain ⟨hlen, hempty, -⟩ := hfronted.uncarried (eq_false_of_ne_true hdone)
      have hnone : chunks = [] := by
        apply List.length_eq_zero_iff.mp
        rw [hlen]
        exact (hcarry rfl).resolve_left hdone
      rw [hnone]
      exact holdsAt_nil hempty

/-- What others do does not reach the front. -/
theorem Holding.elsewhere (h : Holding C own s) (he : Elsewhere C s.d s.tx tx') :
    Holding C own { s with tx := tx' } := by
  obtain ⟨chunks, hflat, hfronted⟩ := h.front
  obtain ⟨c, hc⟩ := h.entry
  obtain ⟨c', hc', hmoved⟩ := he.steady.pointer c hc
  have hmanifest : ∀ v, s.d.version = some v → tx'.db.manifest s.d.node v =
      s.tx.db.manifest s.d.node v := by
    intro v hv
    apply he.steady.manifest
    exact fun hne => hne hv
  refine ⟨⟨c', hc'⟩, ?_, he.keyed, he.addressed, h.length, h.pending, h.waiting, chunks, hflat, ?_⟩
  · cases hv : s.d.version with
    | none =>
      rw [Descriptor.claims, hv]
      exact committedVersion_ne_nextVersion
    | some v =>
      have hold := h.uncommitted
      rw [Descriptor.claims, hv, Option.getD_some] at hold ⊢
      rw [hc']
      rintro heq
      obtain rfl := Option.some.inj heq
      rcases hmoved with rfl | hne
      · exact hold hc
      · exact hne hv
  · refine ⟨hfronted.count, fun hdone => ?_, fun hnot => ?_⟩
    · obtain ⟨hsome, hholds⟩ := hfronted.carried hdone
      obtain ⟨v, hv⟩ := Option.isSome_iff_exists.mp hsome
      refine ⟨hsome, ?_⟩
      rw [Descriptor.claims, hv, Option.getD_some] at hholds ⊢
      refine HoldsAt.frame hholds (hmanifest v hv) ?_
      intro r hr ch hch
      rw [manifest_eq_rowsOf] at hr
      exact he.steady.chunks r (List.mem_of_mem_filter hr) ch hch
    · obtain ⟨hlen, hempty, hfirst⟩ := hfronted.uncarried hnot
      refine ⟨hlen, ?_, hfirst.steady hlen he.steady he.keyed⟩
      cases hv : s.d.version with
      | none =>
        rw [Descriptor.claims, hv]
        exact manifest_nextVersion
      | some v =>
        rw [Descriptor.claims, hv, Option.getD_some] at hempty ⊢
        rw [hmanifest v hv]
        exact hempty

/-- After the claim the version holds what has been flushed, whichever flush carried. -/
theorem Fronted.claim (h : Fronted C own tx.db d chunks)
    (hclaim : (d.claimVersion E tx).2 = .ok tx₁) (hal : tx₁.aliased = false) :
    Holds (Reading.exact (C := C) own) d.volume tx₁.db d.node (d.claims tx.db) chunks := by
  obtain ⟨-, hcase⟩ := claimVersion_ok hclaim
  rcases hcase with ⟨hdone, rfl⟩ | ⟨hnot, hcarry⟩
  · exact (h.carried hdone).2
  · obtain ⟨hlen, hempty, hfirst⟩ := h.uncarried hnot
    have hnone : d.carryFull = 0 → chunks = [] := by
      intro hzero
      rw [hzero] at hlen
      exact List.length_eq_zero_iff.mp hlen
    have hstaged := carryLeading_staged hcarry (fun _ => hfirst) hnone (fun _ => hal)
    exact hstaged.holdsAt (holdsAt_nil hempty)

/-- A chunk staged after the others. -/
theorem Holds.stage {i : ℕ} (h : Holds (Reading.exact (C := C) own) V tx.db n v chunks)
    (hi : chunks.length = i) (ha : tx.db.Addressed C)
    (hstage : tx.stageChunk C E (own V) n v i data = .ok tx') (hal : tx'.aliased = false) :
    Holds (Reading.exact (C := C) own) V tx'.db n v (chunks ++ [data]) := by
  have hstaged := stageChunk_staged (R := Reading.exact own) Reading.exact_fits ha hstage
      (fun _ => hal)
  have hall := hstaged.holdsAt h
  have hglance : data.map (Reading.exact (C := C) own).glance = data := List.map_id data
  have hnumbered : numbered 0 (chunks ++ [data]) = numbered 0 chunks ++ [(i, data)] := by
    rw [numbered_append, Nat.zero_add, hi]
    rfl
  rw [hglance] at hall
  rw [Holds, hnumbered]
  exact hall

/-- A flush that goes through puts its chunk behind the others. -/
theorem Holding.flush (h : Holding C own s) (hwriting : s.d.writing = true)
    (hflush : (s.d.flushOneChunk C E (own s.d.volume) s.tx).2 = .ok tx')
    (hal : tx'.aliased = false) :
    Holding C own { s with tx := tx', d := (s.d.flushOneChunk C E (own s.d.volume) s.tx).1 } := by
  obtain ⟨tx₁, hclaim, hstage, hd⟩ := flushOneChunk_ok hflush
  obtain ⟨chunks, hflat, hfronted⟩ := h.front
  have hal₁ : tx₁.aliased = false := by
    have hstaged := stageChunk_staged (R := Reading.exact own) Reading.exact_fits
      ((claimVersion_grown hclaim).1.addressed h.addressed) hstage (fun _ => hal)
    exact hstaged.aliased rfl
  have hgrown : Grown C s.d.node (s.d.claims s.tx.db) s.tx tx' := flushOneChunk_grown hflush
  have hholds := (hfronted.claim hclaim hal₁).stage hfronted.count
    ((claimVersion_grown hclaim).1.addressed h.addressed) hstage hal
  have hpointer : tx'.db.committedVersion s.d.node = s.tx.db.committedVersion s.d.node := by
    rw [Db.committedVersion, Db.committedVersion, hgrown.content]
  have hlen := h.length
  have hfull := h.waiting hwriting
  rw [hd]
  refine ⟨?_, ?_, (flushOneChunk_strides hflush).rowsKeyed h.keyed, hgrown.addressed h.addressed,
    ?_, ?_, ?_,
    chunks ++ [s.d.pending.take s.d.cs], ?_, ?_⟩
  · show ∃ c, tx'.db.committedVersion s.d.node = some c
    rw [hpointer]
    exact h.entry
  · show tx'.db.committedVersion s.d.node ≠ some (s.d.claims s.tx.db)
    rw [hpointer]
    exact h.uncommitted
  · show s.bytes.length = s.d.flushed + s.d.cs + (s.d.pending.drop s.d.cs).length
    rw [List.length_drop]
    omega
  · show s.d.pending.drop s.d.cs = s.bytes.drop (s.d.flushed + s.d.cs)
    rw [h.pending, List.drop_drop]
  · intro hmore
    exact of_decide_eq_true hmore
  · show (chunks ++ [s.d.pending.take s.d.cs]).flatten = s.bytes.take (s.d.flushed + s.d.cs)
    rw [List.flatten_append, hflat, List.flatten_singleton, h.pending, ← List.take_add]
  · refine ⟨?_, fun _ => ⟨rfl, hholds⟩, fun hnot => by cases hnot⟩
    rw [List.length_append, hfronted.count]
    rfl

/-- Each event that can come next keeps it, unless it is a failure that loses something. -/
theorem Holding.next {e : WriterEvent} (h : Holding C own s) (hk : k = own s.d.volume)
    (ho : Offered C k s e) (hspared : LosesNothing port s e) :
    Holding C own (s.next C k port e) := by
  cases e with
  | write data => exact h.write
  | seek offset whence => exact h.seek
  | flush E =>
    obtain ⟨hwriting, tx', hmem, hal⟩ := ho
    have hflush : (s.d.flushOneChunk C E k s.tx).2 = .ok tx' := mem_toOption.mp hmem
    have hnext : s.next C k port (.flush E) =
        { s with tx := tx', d := (s.d.flushOneChunk C E k s.tx).1 } := by
      simp only [OpenWriter.next]
      split
      next heq =>
        rw [heq] at hflush ⊢
        rw [Except.ok.inj hflush]
      next heq =>
        rw [heq] at hflush
        cases hflush
    rw [hnext, hk]
    rw [hk] at hflush
    exact h.flush hwriting hflush hal
  | fail point => exact h.fail hspared
  | elsewhere tx => exact h.elsewhere ho

theorem failFlush_target :
    (d.failFlush port point db).node = d.node ∧ (d.failFlush port point db).volume = d.volume := by
  cases point <;> exact ⟨rfl, rfl⟩

theorem OpenWriter.next_target (C : Crypto) (k : Cipher) (port : Port) (s : OpenWriter)
    (e : WriterEvent) :
    (s.next C k port e).d.node = s.d.node ∧ (s.next C k port e).d.volume = s.d.volume := by
  cases e with
  | write data =>
    simp only [OpenWriter.next]
    split
    next habsorb =>
      obtain ⟨-, -, ⟨-, rfl⟩ | ⟨-, -, rfl⟩⟩ := absorb_ok habsorb <;> exact ⟨rfl, rfl⟩
    next => exact ⟨rfl, rfl⟩
  | seek offset whence =>
    simp only [OpenWriter.next]
    split
    next hseek =>
      obtain ⟨pos, rfl⟩ := seek_ok hseek
      exact ⟨rfl, rfl⟩
    next => exact ⟨rfl, rfl⟩
  | flush E =>
    simp only [OpenWriter.next]
    split
    next d tx hflush =>
      have hok : (s.d.flushOneChunk C E k s.tx).2 = .ok tx := by rw [hflush]
      obtain ⟨-, -, -, hd⟩ := flushOneChunk_ok hok
      rw [hflush] at hd
      rw [show d = _ from hd]
      exact ⟨rfl, rfl⟩
    next => exact failFlush_target
  | fail point => exact failFlush_target
  | elsewhere tx => exact ⟨rfl, rfl⟩

/-! ### The close -/

/-- A manifest numbered without a gap whose chunks add up to `size`. -/
structure GapFree (db : Db) (n : NodeId) (v size : ℕ) : Prop where
  indexes : ∃ count, ((db.manifest n v).map VersionRow.chunkIndex).Perm (List.range count)
  total : ((db.manifest n v).map db.rowLength).sum = size

/-- A version that holds chunks of bytes is gap-free. -/
theorem Holds.gapFree (hC : C.KeepsLength)
    (h : Holds (Reading.exact (C := C) own) V db n v chunks) :
    GapFree db n v chunks.flatten.length := by
  obtain ⟨rows, hperm, hall⟩ := h
  constructor
  · refine ⟨chunks.length, ?_⟩
    have hindexes : rows.map VersionRow.chunkIndex = List.range chunks.length := by
      rw [map_eq_of_forall₂ hall (fun r q hq => hq.1), map_fst_numbered, ← List.range_eq_range']
    exact hindexes ▸ hperm.map _
  · have hlength : ∀ (r : VersionRow) (q : ℕ × Bytes),
        ShowsAt (Reading.exact (C := C) own) V db r q →
        db.rowLength r = q.2.length := by
      intro r q hq
      obtain ⟨-, ch, hch, hopens⟩ := hq
      rw [Db.rowLength, hch]
      exact (Cipher.decryptChunk_length hC hopens).symm
    have hrows : rows.map db.rowLength = (numbered 0 chunks).map (fun q => q.2.length) :=
      map_eq_of_forall₂ hall hlength
    calc ((db.manifest n v).map db.rowLength).sum
        = (rows.map db.rowLength).sum := (hperm.map _).sum_eq
      _ = (((numbered 0 chunks).map Prod.snd).map List.length).sum := by
        rw [hrows, List.map_map]; rfl
      _ = chunks.flatten.length := by rw [map_snd_numbered, List.length_flatten]

/-- A close that goes through commits the content that the accepted writes make. -/
theorem Holding.commit (hC : C.KeepsLength) (h : Holding C own s)
    (hcommit : s.d.commit C E (own s.d.volume) s.tx = .ok tx') (hal : tx'.aliased = false) :
    readContentBytes C (own s.d.volume) tx'.db s.d.node = .ok s.bytes ∧
      ∃ row, tx'.db.content? s.d.node = some row ∧ row.size = s.bytes.length ∧
        GapFree tx'.db s.d.node row.version row.size := by
  obtain ⟨chunks, hflat, hfronted⟩ := h.front
  obtain ⟨-, tx₁, tx₂, tx₃, hclaim, hstage, hswap, hrelease⟩ := commit_ok hcommit
  have hgrown₁ : Grown C s.d.node (s.d.claims s.tx.db) s.tx tx₁ := (claimVersion_grown hclaim).1
  have hgrown₂ : Grown C s.d.node (s.d.claims s.tx.db) tx₁ tx₂ := stagePending_grown hstage
  have hcalm := releaseOwnLock_calm hrelease
  have hal₂ : tx₂.aliased = false := by
    rw [← (Stmt.run_history hswap).2]
    rw [hcalm.aliased] at hal
    exact hal
  have hsplit : s.bytes.take s.d.flushed ++ s.d.pending = s.bytes := by
    rw [h.pending, List.take_append_drop]
  -- the version that is claimed holds the front and the buffer
  obtain ⟨all, hall, hholds⟩ : ∃ all : List Bytes, all.flatten = s.bytes ∧
      Holds (Reading.exact (C := C) own) s.d.volume tx₂.db s.d.node (s.d.claims s.tx.db) all := by
    rw [Descriptor.stagePending] at hstage
    split at hstage
    next hnone =>
      obtain rfl := Except.ok.inj hstage
      refine ⟨chunks, ?_, hfronted.claim hclaim hal₂⟩
      rw [hflat, ← hsplit, hnone, List.append_nil, List.take_take, Nat.min_self]
    next =>
      have hstaged := stageChunk_staged (R := Reading.exact own) Reading.exact_fits
        (hgrown₁.addressed h.addressed) hstage (fun _ => hal₂)
      refine ⟨chunks ++ [s.d.pending], ?_, ?_⟩
      · rw [List.flatten_append, hflat, List.flatten_singleton, hsplit]
      · exact (hfronted.claim hclaim (hstaged.aliased rfl)).stage hfronted.count
          (hgrown₁.addressed h.addressed) hstage hal₂
  obtain ⟨db₃, hexec, rfl⟩ := Tx.run_ok.mp hswap
  obtain rfl : tx₂.db.updateContent E.now s.d.node (s.d.claims s.tx.db)
    (s.d.flushed + s.d.pending.length) = db₃ :=
    Except.ok.inj hexec
  have hmanifest : ∀ v, tx'.db.manifest s.d.node v = tx₂.db.manifest s.d.node v := by
    intro v
    have hversions : tx'.db.versions = tx₂.db.versions := hcalm.off.versions (by decide)
    rw [Db.manifest, Db.manifest, hversions]
  have hfinal : Holds (Reading.exact (C := C) own) s.d.volume tx'.db s.d.node
      (s.d.claims s.tx.db) all := by
    refine HoldsAt.frame hholds (hmanifest _) ?_
    intro r _ ch hch
    have hchunks : tx'.db.chunks = tx₂.db.chunks := hcalm.off.chunks (by decide)
    rw [Db.chunk?, hchunks]
    exact hch
  -- the pointer goes to that version
  obtain ⟨row, hrow, hversion, hsize⟩ : ∃ row, tx'.db.content? s.d.node = some row ∧
      row.version = s.d.claims s.tx.db ∧ row.size = s.d.flushed + s.d.pending.length := by
    obtain ⟨c, hc⟩ := h.entry
    rw [Db.committedVersion, ← hgrown₁.content, ← hgrown₂.content, Option.map_eq_some_iff] at hc
    obtain ⟨old, hold, -⟩ := hc
    have hnew : (tx₂.db.updateContent E.now s.d.node (s.d.claims s.tx.db)
        (s.d.flushed + s.d.pending.length)).content? s.d.node =
          some { old with version := s.d.claims s.tx.db,
                          size := s.d.flushed + s.d.pending.length } := by
      rw [content?_updateContent, if_pos rfl, hold]
      rfl
    have hsome : (tx'.db.content? s.d.node).isSome := by
      rw [content?_isSome_of_meta (hcalm.contents s.d.node)]
      exact Option.isSome_iff_exists.mpr ⟨_, hnew⟩
    obtain ⟨row, hrow⟩ := Option.isSome_iff_exists.mp hsome
    obtain ⟨c₀, hc₀, hv, hs⟩ := content?_of_meta (hcalm.contents s.d.node) hrow
    obtain rfl := Option.some.inj (hnew.symm.trans hc₀)
    exact ⟨row, hrow, hv.symm, hs.symm⟩
  have hlength : row.size = s.bytes.length := hsize.trans h.length.symm
  rw [← hversion] at hfinal
  refine ⟨?_, row, hrow, hlength, ?_⟩
  · rw [hfinal.readContentBytes_exact hrow, hall]
  · have hfree := hfinal.gapFree hC
    rw [hall, ← hlength] at hfree
    exact hfree

/-! ### From the opening on -/

/-- A writer that has not claimed a version yet. -/
theorem Streaming.holding {f : OpenFile} (h : Streaming (Reading.exact (C := C) own) tx.db f)
    (hk : tx.db.RowsKeyed) (ha : tx.db.Addressed C) (hversion : f.d.version = none)
    (hidle : f.d.writing = false) :
    Holding C own ⟨tx, f.d, f.d.stream⟩ := by
  have hmap : ∀ bs : Bytes, bs.map (Reading.exact (C := C) own).glance = bs :=
    fun bs => List.map_id bs
  have hu := h.unclaimed hversion
  have hclaims : f.d.claims tx.db = tx.db.nextVersion f.d.node := by
    rw [Descriptor.claims, hversion, Option.getD_none]
  have hpending := h.pending
  rw [hmap, hmap] at hpending
  have hnone : f.d.carryDone ≠ true := by
    rw [hu.carryDone]
    exact Bool.false_ne_true
  have hempty : tx.db.manifest f.d.node (f.d.claims tx.db) = [] := by
    rw [hclaims]
    exact manifest_nextVersion
  refine ⟨h.entry, ?_, hk, ha, h.length, hpending, fun hwriting =>
    absurd (hidle.symm.trans hwriting) Bool.false_ne_true,
    ?_⟩
  · show tx.db.committedVersion f.d.node ≠ some (f.d.claims tx.db)
    rw [hclaims]
    exact committedVersion_ne_nextVersion
  · rcases Nat.eq_zero_or_pos f.d.cs with hzero | hpos
    · have hfull : f.d.carryFull = 0 := hu.empty hzero
      refine ⟨[], ?_, ?_, fun hdone => absurd hdone hnone, fun _ => ⟨hfull.symm, hempty, ?_⟩⟩
      · show [] = f.d.stream.take f.d.flushed
        rw [h.flushed, hzero, Nat.mul_zero, List.take_zero]
      · exact (hu.index.trans hfull).symm
      · have hnil : (tx.db.manifest f.d.node f.d.carrySrc).filter
            (fun r => r.chunkIndex < f.d.carryFull) = [] := by
          rw [List.filter_eq_nil_iff, hfull]
          intro r _ hlt
          exact Nat.not_lt_zero _ (of_decide_eq_true hlt)
        rw [HoldsFirst, hnil]
        exact ⟨[], List.Perm.refl _, List.Forall₂.nil⟩
    · have hsource := hu.source hpos
      rw [hmap] at hsource
      have hlen := h.length
      have hcount : (pieces f.d.cs (f.d.stream.take f.d.flushed)).length = f.d.chunkIndex := by
        apply length_pieces_of_mul hpos
        rw [List.length_take, ← h.flushed]
        omega
      exact ⟨_, flatten_pieces hpos _, hcount, fun hdone => absurd hdone hnone,
        fun _ => ⟨hcount.trans hu.index, hempty, hsource⟩⟩

variable {sys : Sys} {l : Label} {fd : FdId} {mount : MountId} {path : String} {mode : WriteMode}
  {lock : Option LockId}

/-- A writer just opened holds its start. -/
theorem openWrite_holding (h : Reaches C M (Careful C M own) sys) (hl : Careful C M own sys l)
    (hop : l.op = .openWrite mount path mode lock)
    (hok : (exec C M l.env sys l.conn l.op).2 = .ok (.fd fd)) :
    ∃ f c, (step C M sys l).fds[fd]? = some f ∧
      WriteTarget C sys l mount path mode f.d.volume f.d.node ∧
      (mode = .append → readContentBytes C (own f.d.volume) sys.db f.d.node = .ok c) ∧
      Holding C own ⟨(step C M sys l).begin, f.d, (startOf mode c).bytes⟩ := by
  have hreach : Reaches C M (Careful C M own) (step C M sys l) := h.snoc hl
  have horderly := h.orderly
  rw [hop] at hok
  simp only [exec] at hok
  cases hopen : openWrite C l.env (sys.conns l.conn).cipher sys.begin mount path mode lock with
  | error e =>
    rw [hopen] at hok
    cases hok
  | ok r =>
    obtain ⟨tx, d⟩ := r
    rw [hopen] at hok
    obtain rfl : sys.fds.length = fd := Reply.fd.inj (Except.ok.inj hok)
    have hfds : (step C M sys l).fds[sys.fds.length]? = some { conn := l.conn, d := d } := by
      simp only [step, hop, exec, hopen, Sys.transact]
      exact List.getElem?_concat_length
    have hdb : (step C M sys l).begin.db = tx.db := by
      simp only [step, hop, exec, hopen, Sys.transact]
      rfl
    have haliased : (step C M sys l).aliased = tx.aliased := by
      simp only [step, hop, exec, hopen, Sys.transact]
      rfl
    obtain ⟨m, tx₁, i, hm, htarget, -, -, hvolume, -, -, -, hwriting, hversion, -⟩ :=
      openWrite_ok hopen
    obtain ⟨c, hread, hstart, -⟩ := openWrite_starts h hopen
    have hfits : (Reading.exact (C := C) own).FitsMount l.env (sys.conns l.conn).cipher sys.begin.db
        mount := by
      have hfitting := hl.orderly.fitting
      rw [Fitting, hop] at hfitting
      exact hfitting
    have hstream := (openWrite_streaming (c := l.conn) hfits h.homed horderly.writers.stored hopen
      (fun _ => haliased ▸ hl.2.2)).2
    rw [← hdb] at hstream
    refine ⟨_, c, hfds, ⟨m, tx₁, hm, hvolume.symm, htarget⟩, hread, ?_⟩
    rw [← hstart]
    exact hstream.holding hreach.rowsKeyed hreach.orderly.writers.stored.1.addressed hversion
      hwriting

/-- Whatever writes, seeks and flushes follow an opening, and whatever flushes of them
fail: as long as no failure takes the chunk or the carry with it, a close that goes
through commits the carried content with every accepted byte at its offset, in a gap-free
manifest. -/
theorem failed_flushes_lose_nothing (hC : C.KeepsLength) (port : Port)
    (h : Reaches C M (Careful C M own) sys) (hl : Careful C M own sys l)
    (hop : l.op = .openWrite mount path mode lock)
    (hok : (exec C M l.env sys l.conn l.op).2 = .ok (.fd fd)) :
    ∃ f c, (step C M sys l).fds[fd]? = some f ∧
      WriteTarget C sys l mount path mode f.d.volume f.d.node ∧
      (mode = .append → readContentBytes C (own f.d.volume) sys.db f.d.node = .ok c) ∧
      ∀ t, GuardedRuns.Run (fun s e => s.next C (own f.d.volume) port e)
          (fun s e => Offered C (own f.d.volume) s e ∧ LosesNothing port s e)
          ⟨(step C M sys l).begin, f.d, (startOf mode c).bytes⟩ t →
        ∀ E tx', t.d.commit C E (own f.d.volume) t.tx = .ok tx' → tx'.aliased = false →
          readContentBytes C (own f.d.volume) tx'.db f.d.node = .ok t.bytes ∧
            ∃ row, tx'.db.content? f.d.node = some row ∧ row.size = t.bytes.length ∧
              GapFree tx'.db f.d.node row.version row.size := by
  obtain ⟨f, c, hf, htarget, hread, hstart⟩ := openWrite_holding h hl hop hok
  refine ⟨f, c, hf, htarget, hread, ?_⟩
  intro t hrun E tx' hcommit hal
  have hboth : Holding C own t ∧ t.d.node = f.d.node ∧ t.d.volume = f.d.volume := by
    refine GuardedRuns.Run.invariant
      (P := fun s => Holding C own s ∧ s.d.node = f.d.node ∧ s.d.volume = f.d.volume) ?_ hrun
        ⟨hstart, rfl, rfl⟩
    intro s e hg hs
    obtain ⟨hheld, hnode, hvolume⟩ := hs
    obtain ⟨hnode', hvolume'⟩ := s.next_target C (own f.d.volume) port e
    exact ⟨hheld.next (by rw [hvolume]) hg.1 hg.2, hnode'.trans hnode, hvolume'.trans hvolume⟩
  obtain ⟨hheld, hnode, hvolume⟩ := hboth
  rw [← hvolume, ← hnode]
  rw [← hvolume] at hcommit
  exact hheld.commit hC hcommit hal

/-- An entry of two bytes in chunks of one byte. -/
def twoChunks : Sys :=
  [⟨.counting 0, 0, .createVolume none 1 none .none⟩, ⟨.counting 1, 0, .mount { volume := 0 }⟩,
    ⟨.counting 3, 0, .request 1 (.createEntry "x" [1, 2])⟩].foldl
      (step Crypto.xorStream Msgpack.refusing) {}

theorem twoChunks_reaches :
    Reaches Crypto.xorStream Msgpack.refusing
      (Careful Crypto.xorStream Msgpack.refusing fun _ => .identity)
      twoChunks := by
  apply reaches_foldl
  decide +kernel

/-- Opened to append. -/
def appendOpening : Label := ⟨.counting 5, 0, .openWrite 1 "x" .append none⟩

def appendingWriter : OpenWriter where
  tx := (step Crypto.xorStream Msgpack.refusing twoChunks appendOpening).begin
  d := { node := 3, volume := 0, cs := 1, writable := true, lock := some 5, ownsLock := true,
         pos := 2,
         carrySrc := 1, carryFull := 2, chunkIndex := 2, flushed := 2, stream := [1, 2] }
  bytes := [1, 2]

theorem appendingWriter_opened :
    Careful Crypto.xorStream Msgpack.refusing (fun _ => .identity) twoChunks appendOpening ∧
      (exec Crypto.xorStream Msgpack.refusing appendOpening.env twoChunks
        appendOpening.conn appendOpening.op).2 = .ok (.fd 0) ∧
      (step Crypto.xorStream Msgpack.refusing twoChunks appendOpening).fds[0]? =
        some { conn := 0, d := appendingWriter.d } ∧
      readContentBytes Crypto.xorStream .identity twoChunks.db 3 = .ok [1, 2] := by
  decide +kernel

/-- A flush of the third byte finds the database busy; the next write flushes both. -/
theorem failed_flushes_lose_nothing_busy :
    ∃ (s : OpenWriter) (tx' : Tx), s.bytes = [1, 2, 3, 4] ∧
      s.d.commit Crypto.xorStream (.counting 9) .identity s.tx = .ok tx' ∧
      readContentBytes Crypto.xorStream .identity tx'.db 3 = .ok s.bytes := by
  obtain ⟨hl, hok, hfile, hold⟩ := appendingWriter_opened
  obtain ⟨f, c, hf, -, hread, hruns⟩ :=
    failed_flushes_lose_nothing xorStream_keepsLength .python twoChunks_reaches hl rfl hok
  obtain rfl := Option.some.inj (hf.symm.trans hfile)
  obtain rfl : c = [1, 2] := Except.ok.inj ((hread rfl).symm.trans hold)
  let next := fun s e => OpenWriter.next Crypto.xorStream .identity .python s e
  obtain ⟨s₁, hs₁⟩ : ∃ s, s = next appendingWriter (.write [3]) := ⟨_, rfl⟩
  obtain ⟨s₂, hs₂⟩ : ∃ s, s = next s₁ (.fail .begin) := ⟨_, rfl⟩
  obtain ⟨s₃, hs₃⟩ : ∃ s, s = next s₂ (.write [4]) := ⟨_, rfl⟩
  obtain ⟨s₄, hs₄⟩ : ∃ s, s = next s₃ (.flush (.counting 7)) := ⟨_, rfl⟩
  obtain ⟨s₅, hs₅⟩ : ∃ s, s = next s₄ (.flush (.counting 8)) := ⟨_, rfl⟩
  have h₂ : s₁.d.writing = true := by
    rw [hs₁]
    decide +kernel
  have h₃ : s₂.d.writing = false := by
    rw [hs₂, hs₁]
    decide +kernel
  have h₄ : s₃.d.writing = true ∧
      ∃ tx ∈ (s₃.d.flushOneChunk Crypto.xorStream (.counting 7) .identity s₃.tx).2.toOption,
      tx.aliased = false := by
    rw [hs₃, hs₂, hs₁]
    decide +kernel
  have h₅ : s₄.d.writing = true ∧
      ∃ tx ∈ (s₄.d.flushOneChunk Crypto.xorStream (.counting 8) .identity s₄.tx).2.toOption,
      tx.aliased = false := by
    rw [hs₄, hs₃, hs₂, hs₁]
    decide +kernel
  have hrun : GuardedRuns.Run next
      (fun s e => Offered Crypto.xorStream .identity s e ∧ LosesNothing .python s e) appendingWriter
        s₅ := by
    rw [hs₅]
    refine GuardedRuns.Run.snoc ?_ ⟨h₅, trivial⟩
    rw [hs₄]
    refine GuardedRuns.Run.snoc ?_ ⟨h₄, trivial⟩
    rw [hs₃]
    refine GuardedRuns.Run.snoc ?_ ⟨h₃, trivial⟩
    rw [hs₂]
    refine GuardedRuns.Run.snoc ?_ ⟨h₂, rfl, fun h => nomatch h⟩
    rw [hs₁]
    exact (GuardedRuns.Run.refl appendingWriter).snoc ⟨rfl, trivial⟩
  obtain ⟨tx', hcommit, hal⟩ : ∃ tx',
    s₅.d.commit Crypto.xorStream (.counting 9) .identity s₅.tx = .ok tx' ∧
      tx'.aliased = false := by
    have hsome : ∃ tx' ∈ (s₅.d.commit Crypto.xorStream (.counting 9) .identity s₅.tx).toOption,
        tx'.aliased = false := by
      rw [hs₅, hs₄, hs₃, hs₂, hs₁]
      decide +kernel
    obtain ⟨tx', hmem, hal⟩ := hsome
    exact ⟨tx', mem_toOption.mp hmem, hal⟩
  refine ⟨s₅, tx', ?_, hcommit, (hruns s₅ hrun (.counting 9) tx' hcommit hal).1⟩
  rw [hs₅, hs₄, hs₃, hs₂, hs₁]
  decide +kernel

/-- In both ports a flush that fails after its carry takes the carried chunks with it:
the close goes through and commits less than was accepted. -/
theorem failed_flush_drops_carry :
    (step Crypto.xorStream Msgpack.refusing twoChunks appendOpening).fds[0]? =
      some { conn := 0, d := appendingWriter.d } ∧ ∀ port : Port, ∃ t tx',
      GuardedRuns.Run (fun s e => s.next Crypto.xorStream .identity port e)
        (Offered Crypto.xorStream .identity)
        ⟨(step Crypto.xorStream Msgpack.refusing twoChunks appendOpening).begin,
          appendingWriter.d, [1, 2]⟩ t ∧
      t.d.commit Crypto.xorStream (.counting 7) .identity t.tx = .ok tx' ∧ tx'.aliased = false ∧
      t.bytes = [1, 2, 3] ∧ readContentBytes Crypto.xorStream .identity tx'.db 3 =
        .ok (match port with | .python => [3] | .rust => []) := by
  refine ⟨appendingWriter_opened.2.2.1, ?_⟩
  intro port
  let next := fun s e => OpenWriter.next Crypto.xorStream .identity port s e
  obtain ⟨s₁, hs₁⟩ : ∃ s, s = next appendingWriter (.write [3]) := ⟨_, rfl⟩
  obtain ⟨s₂, hs₂⟩ : ∃ s, s = next s₁ (.fail .stage) := ⟨_, rfl⟩
  have hwriting : s₁.d.writing = true := by
    rw [hs₁]
    cases port <;> decide +kernel
  have hrun : GuardedRuns.Run next (Offered Crypto.xorStream .identity) appendingWriter s₂ := by
    rw [hs₂]
    refine GuardedRuns.Run.snoc ?_ hwriting
    rw [hs₁]
    exact (GuardedRuns.Run.refl appendingWriter).snoc rfl
  have hsome : ∃ tx' ∈ (s₂.d.commit Crypto.xorStream (.counting 7) .identity s₂.tx).toOption,
      tx'.aliased = false ∧ s₂.bytes = [1, 2, 3] ∧
      readContentBytes Crypto.xorStream .identity tx'.db 3 =
        .ok (match port with | .python => [3] | .rust => []) := by
    rw [hs₂, hs₁]
    cases port <;> decide +kernel
  obtain ⟨tx', hmem, hrest⟩ := hsome
  exact ⟨s₂, tx', hrun, mem_toOption.mp hmem, hrest⟩

end Aloelite
