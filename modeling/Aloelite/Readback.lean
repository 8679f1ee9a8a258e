import Aloelite.ManifestShape

/-! What is written is what is read. In a run whose content steps find the cipher of
their volume on the connection, and in which no sealed chunk meets a foreign row at
its address, every entry reads as it was last written and every stream is committed
as its writer made it. -/
namespace Aloelite

open Fallible KeyedRows

variable {C : Crypto} {M : Msgpack} {own : VolumeId → Cipher} {s : Sys} {l : Label} {n : NodeId}
  {c : ContentRow} {fd : FdId} {f : OpenFile}

/-- The connection and the volume of a step that seals or opens chunks on the way to
new content. -/
def Label.sealing (s : Sys) (l : Label) : Option (ConnId × VolumeId) :=
  match l.op with
  | .request m r =>
    if r.seals then (s.db.mount? m).map (fun row => (l.conn, row.volumeId)) else none
  | .openWrite m _ _ _ => (s.db.mount? m).map (fun row => (l.conn, row.volumeId))
  | .fdFlush fd | .fdClose fd => (s.fds[fd]?).map (fun f => (f.conn, f.d.volume))
  | _ => none

/-- Such a step finds the cipher of its volume on its connection. -/
def Keyed (own : VolumeId → Cipher) (s : Sys) (l : Label) : Prop :=
  ∀ p ∈ l.sealing s, (s.conns p.1).cipher = own p.2

instance (own : VolumeId → Cipher) (s : Sys) (l : Label) : Decidable (Keyed own s l) :=
  inferInstanceAs (Decidable (∀ p ∈ l.sealing s, (s.conns p.1).cipher = own p.2))

/-- Orderly steps as far as the bytes go. -/
def Careful (C : Crypto) (M : Msgpack) (own : VolumeId → Cipher) (s : Sys) (l : Label) : Prop :=
  Apart s l ∧ Keyed own s l ∧ (step C M s l).aliased = false

instance (C : Crypto) (M : Msgpack) (own : VolumeId → Cipher) (s : Sys) (l : Label) :
    Decidable (Careful C M own s l) :=
  inferInstanceAs (Decidable (Apart s l ∧ Keyed own s l ∧ (step C M s l).aliased = false))

theorem fitsMount_of_key {E : Env} {k : Cipher} {db : Db} {m : MountId}
    (hk : ∀ row, db.mount? m = some row → k = own row.volumeId) :
    (Reading.exact (C := C) own).FitsMount E k db m := by
  intro write ctx hm
  obtain ⟨row, volume, hrow, -, -, rfl⟩ := requireMount_ok hm
  rw [hk row (Option.filter_eq_some_iff.mp hrow).1]
  exact Reading.exact_fits

theorem Careful.orderly (h : Careful C M own s l) : Orderly (Reading.exact (C := C) own) M s l := by
  obtain ⟨E, c, op⟩ := l
  obtain ⟨⟨htimely, hno⟩, hkeyed, hclear⟩ := h
  refine ⟨htimely, hno, ?_, fun _ => hclear⟩
  have hfd : ∀ (fd : FdId) (f : OpenFile), s.fds[fd]? = some f →
      (∀ p ∈ (s.fds[fd]?).map (fun f => (f.conn, f.d.volume)), (s.conns p.1).cipher = own p.2) →
      (Reading.exact (C := C) own).Fits (s.conns f.conn).cipher f.d.volume := by
    intro fd f hf hall
    have hmem : (f.conn, f.d.volume) ∈ (s.fds[fd]?).map (fun f => (f.conn, f.d.volume)) := by
      rw [hf]
      exact rfl
    rw [hall _ hmem]
    exact Reading.exact_fits
  have hmount : ∀ m : MountId, (∀ p ∈ (s.db.mount? m).map (fun row => (c, row.volumeId)),
      (s.conns p.1).cipher = own p.2) →
      (Reading.exact (C := C) own).FitsMount E (s.conns c).cipher s.db m := by
    intro m hall
    refine fitsMount_of_key ?_
    intro row hrow
    have hmem : (c, row.volumeId) ∈ (s.db.mount? m).map (fun row => (c, row.volumeId)) := by
      rw [hrow]
      exact rfl
    exact hall _ hmem
  cases op with
  | request m r =>
    intro hseals
    refine hmount m ?_
    intro p hp
    refine hkeyed p ?_
    simp only [Label.sealing, hseals, if_true]
    exact hp
  | openWrite m path mode lock => exact hmount m hkeyed
  | fdFlush fd => exact fun f hf => hfd fd f hf hkeyed
  | fdClose fd => exact fun f hf => hfd fd f hf hkeyed
  | _ => trivial

theorem Reaches.orderly (h : Reaches C M (Careful C M own) s) :
    Reaches C M (Orderly (Reading.exact (C := C) own) M) s :=
  GuardedRuns.Run.weaken (fun _ _ hl => hl.orderly) h

/-- What an entry is known to hold is what it reads as. -/
theorem Stored.readContentBytes {db : Db} {given : NodeId → Bytes}
    (h : Stored (Reading.exact (C := C) own) db given) (hc : db.content? n = some c) :
    ∃ V, db.home? n = some V ∧ readContentBytes C (own V) db n = .ok (given n) := by
  obtain ⟨V, hV, hkept⟩ := h.content n c hc
  refine ⟨V, hV, ?_⟩
  rw [Holds.readContentBytes_exact hkept.holds hc]
  have hmap : (given n).map (Reading.exact (C := C) own).glance = given n := List.map_id _
  rw [hmap]
  rcases hkept.chunked with hpos | hnil
  · rw [Pieces.flatten_pieces hpos]
  · rw [hnil, Pieces.pieces_nil]
    rfl

/-- Every entry reads, under the cipher of its volume, as it was last written. -/
theorem content_read_back (h : Reaches C M (Careful C M own) s) (hc : s.db.content? n = some c) :
    ∃ V, s.db.home? n = some V ∧ readContentBytes C (own V) s.db n = .ok (s.committed n) :=
  h.orderly.writers.stored.1.readContentBytes hc

/-- A convergent volume in chunks of two bytes: three bytes, then a stream over the
end. -/
def sealedRun : List Label :=
  [⟨.counting 1, 0, .createVolume none 2 (some [4]) .convergent⟩,
    ⟨.counting 2, 0, .mount { volume := 1, pin := some [4] }⟩,
    ⟨.counting 4, 0, .request 2 (.createEntry "x" [7, 8, 9])⟩,
    ⟨.counting 6, 0, .openWrite 2 "x" .append none⟩,
    ⟨.counting 7, 0, .fdWrite 0 [5, 6, 7]⟩,
    ⟨.counting 8, 0, .fdFlush 0⟩,
    ⟨.counting 9, 0, .fdFlush 0⟩]

def sealedKey (V : VolumeId) : Cipher := Cipher.ofVolume Crypto.xorStream [] V .convergent

theorem sealedRun_guards : GuardedRuns.Guards (step Crypto.xorStream Msgpack.refusing)
    (Careful Crypto.xorStream Msgpack.refusing sealedKey) {} sealedRun := by
  decide +kernel

theorem content_read_back_sealed :
    readContentBytes Crypto.xorStream (sealedKey 1)
      (sealedRun.foldl (step Crypto.xorStream Msgpack.refusing) {}).db 4 = .ok [7, 8, 9] := by
  let s := sealedRun.foldl (step Crypto.xorStream Msgpack.refusing) {}
  have hc : s.db.content? 4 = some { nodeId := 4, version := 1, size := 3 } := by rfl
  obtain ⟨V, hV, hread⟩ := content_read_back (reaches_foldl sealedRun_guards) hc
  have hhome : s.db.home? 4 = some 1 := by rfl
  obtain rfl := Option.some.inj (hV.symm.trans hhome)
  have hgiven : s.committed 4 = [7, 8, 9] := by rfl
  rw [hgiven] at hread
  exact hread

/-- Two one-byte chunks of a convergent volume with the same ciphertext: the pool keeps
the nonce and the tag of the first, and the second entry reads as the first. -/
theorem clashing_chunks_read_wrong :
    ∃ s n c, Reaches Crypto.xorStream Msgpack.refusing (fun s l => Apart s l ∧
      Keyed sealedKey s l) s ∧
      s.db.content? n = some c ∧ s.db.home? n = some 0 ∧ s.committed n = [6] ∧
      readContentBytes Crypto.xorStream (sealedKey 0) s.db n = .ok [5] := by
  let ls : List Label :=
    [⟨.counting 0, 0, .createVolume none 1 (some [4]) .convergent⟩,
      ⟨.counting 2, 0, .mount { volume := 0, pin := some [4] }⟩,
      ⟨.counting 4, 0, .request 2 (.createEntry "x" [5])⟩,
      ⟨.counting 6, 0, .request 2 (.createEntry "y" [6])⟩]
  have hguards : GuardedRuns.Guards (step Crypto.xorStream Msgpack.refusing)
      (fun s l => Apart s l ∧ Keyed sealedKey s l) {} ls := by
    decide +kernel
  exact ⟨ls.foldl (step Crypto.xorStream Msgpack.refusing) {}, 6,
    { nodeId := 6, version := 1, size := 1 },
    reaches_foldl hguards, by rfl, by rfl, by rfl, by rfl⟩

/-- A leaf of a volume reads, under the volume's cipher, as what was committed to it. -/
theorem Reaches.readsCommitted {V : VolumeId} (h : Reaches C M (Careful C M own) s)
    (hhome : s.db.home? n = some V) (hc : s.db.content? n = some c) :
    readContentBytes C (own V) s.db n = .ok (s.committed n) := by
  obtain ⟨V', hV', hread⟩ := h.orderly.writers.stored.1.readContentBytes hc
  obtain rfl := Option.some.inj (hhome.symm.trans hV')
  exact hread

/-- After a close that succeeds the entry reads as its writer's stream. -/
theorem Reaches.close_reads (h : Reaches C M (Careful C M own) s) (ho : Careful C M own s l)
    (hop : l.op = .fdClose fd) (hf : s.fds[fd]? = some f) (hw : f.d.writable = true)
    (hopen : f.d.closed = false) (hok : (exec C M l.env s l.conn l.op).2 = .ok .done) :
    readContentBytes C (own f.d.volume) (step C M s l).db f.d.node = .ok f.d.stream := by
  obtain ⟨E, c, op⟩ := l
  obtain rfl : op = .fdClose fd := hop
  have hwriters := h.orderly.writers
  obtain ⟨-, v, -, hversion, -, hgiven, hhome⟩ :=
    hwriters.close h.orderly ho.orderly hf hw hopen hok
  rw [Db.committedVersion, Option.map_eq_some_iff] at hversion
  obtain ⟨row, hrow, -⟩ := hversion
  have hstored :=
    hwriters.exec_stored h.orderly.sound h.orderly.homed h.orderly.named ho.orderly
  obtain ⟨V, hV, hread⟩ := hstored.1.readContentBytes hrow
  obtain rfl := Option.some.inj (hV.symm.trans hhome)
  rw [← hgiven]
  exact hread

/-- A close that succeeds commits the version its writer claimed. Its manifest is made
of the rows the writer itself staged or carried, and it reads as the stream. -/
theorem close_commits_stream (h : Reaches C M (Careful C M own) s) (ho : Careful C M own s l)
    (hop : l.op = .fdClose fd) (hf : s.fds[fd]? = some f) (hw : f.d.writable = true)
    (hopen : f.d.closed = false) (hok : (exec C M l.env s l.conn l.op).2 = .ok .done) :
    ∃ f' v, (step C M s l).fds[fd]? = some f' ∧
      (step C M s l).db.committedVersion f.d.node = some v ∧
      (step C M s l).db.manifest f.d.node v = f'.rows ∧
      readContentBytes C (own f.d.volume) (step C M s l).db f.d.node = .ok f.d.stream := by
  have hread := h.close_reads ho hop hf hw hopen hok
  obtain ⟨E, c, op⟩ := l
  obtain rfl : op = .fdClose fd := hop
  obtain ⟨f', v, hself, hversion, hmanifest, -, -⟩ :=
    h.orderly.writers.close h.orderly ho.orderly hf hw hopen hok
  exact ⟨f', v, hself, hversion, hmanifest, hread⟩

theorem close_commits_stream_sealed :
    readContentBytes Crypto.xorStream (sealedKey 1)
      (step Crypto.xorStream Msgpack.refusing
        (sealedRun.foldl (step Crypto.xorStream Msgpack.refusing) {})
        ⟨.counting 10, 0, .fdClose 0⟩).db 4 = .ok [7, 8, 9, 5, 6, 7] := by
  let s := sealedRun.foldl (step Crypto.xorStream Msgpack.refusing) {}
  let l : Label := ⟨.counting 10, 0, .fdClose 0⟩
  have hl : Careful Crypto.xorStream Msgpack.refusing sealedKey s l := by decide +kernel
  obtain ⟨f, hf⟩ : ∃ f, s.fds[0]? = some f ∧ f.d.writable = true ∧ f.d.closed = false ∧
    f.d.node = 4 ∧
      f.d.volume = 1 ∧ f.d.stream = [7, 8, 9, 5, 6, 7] :=
    ⟨_, rfl, by rfl, by rfl, by rfl, by rfl, by rfl⟩
  obtain ⟨hf, hw, hopen, hnode, hvolume, hstream⟩ := hf
  have hok : (exec Crypto.xorStream Msgpack.refusing l.env s l.conn l.op).2 = .ok .done := by rfl
  obtain ⟨f', v, -, -, -, hread⟩ :=
    close_commits_stream (reaches_foldl sealedRun_guards) hl rfl hf hw hopen hok
  rw [hnode, hvolume, hstream] at hread
  exact hread

/-- Two mounts of a volume with one-byte chunks. The first stream loses its lease and
its flushed chunk; the second claims the version number that is free again. A late
flush of the first goes into it, and the close of the second commits both chunks. -/
theorem close_commits_foreign_chunk :
    ∃ s l, Reaches Crypto.xorStream Msgpack.refusing Timely s ∧ Timely s l ∧ l.op = .fdClose 1 ∧
      (s.fds[1]?).map (fun f => (f.d.node, f.d.closed, f.d.stream)) = some (3, false, [8]) ∧
      (exec Crypto.xorStream Msgpack.refusing l.env s l.conn l.op).2 = .ok .done ∧
      (step Crypto.xorStream Msgpack.refusing s l).db.committedVersion 3 = some 1 ∧
      ((step Crypto.xorStream Msgpack.refusing s l).fds[1]?).map OpenFile.rows ≠
        some ((step Crypto.xorStream Msgpack.refusing s l).db.manifest 3 1) ∧
      readContentBytes Crypto.xorStream .identity (step Crypto.xorStream Msgpack.refusing s l).db
        3 =
        .ok [8, 9] := by
  let ls : List Label :=
    [⟨.counting 0, 0, .createVolume none 1 none .none⟩,
      ⟨.counting 1, 0, .mount { volume := 0 }⟩,
      ⟨.counting 2, 1, .mount { volume := 0, ttlMs := some 5, allowOverlap := true }⟩,
      ⟨.counting 3, 0, .request 1 (.createEntry "x" [])⟩,
      ⟨.counting 5, 1, .openWrite 2 "x" .truncate none⟩,
      ⟨.counting 6, 1, .fdWrite 0 [9, 9]⟩,
      ⟨.counting 7, 1, .fdFlush 0⟩,
      ⟨.counting 8 6000000, 0, .pruneContent none⟩,
      ⟨.counting 9 6000000, 0, .openWrite 1 "x" .truncate none⟩,
      ⟨.counting 10 6000000, 0, .fdWrite 1 [8]⟩,
      ⟨.counting 11 6000000, 0, .fdFlush 1⟩,
      ⟨.counting 12 7000000, 1, .fdFlush 0⟩]
  let s := ls.foldl (step Crypto.xorStream Msgpack.refusing) {}
  let l : Label := ⟨.counting 13 7000000, 0, .fdClose 1⟩
  have hguards : GuardedRuns.Guards (step Crypto.xorStream Msgpack.refusing) Timely {} ls := by
    decide +kernel
  exact ⟨s, l, reaches_foldl hguards,
    by decide +kernel, rfl, by decide +kernel, by rfl, by decide +kernel,
    by decide +kernel, by rfl⟩

end Aloelite
