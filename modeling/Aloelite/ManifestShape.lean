import Aloelite.StreamRuns

/-! The shape of a committed manifest, on which ranged reads and partial writes rely:
numbered without a gap, every chunk full but the last. -/
namespace Aloelite

open Fallible KeyedRows Numbered Pieces

variable {C : Crypto} {M : Msgpack} {db : Db} {s : Sys} {n : NodeId} {v size cs : ℕ} {V : VolumeId}
  {data : Bytes} {c : ContentRow}

/-- `⌈size / cs⌉` -/
def chunkCount (cs size : ℕ) : ℕ := (size + cs - 1) / cs

/-- The bytes behind a manifest row. -/
def Db.rowLength (db : Db) (r : VersionRow) : ℕ :=
  ((db.chunk? r.chunkHash).map (·.data.length)).getD 0

/-- The manifest of a version of `size` bytes in chunks of `cs`. -/
structure Shaped (db : Db) (n : NodeId) (v size cs : ℕ) : Prop where
  indexes : ((db.manifest n v).map VersionRow.chunkIndex).Perm (List.range (chunkCount cs size))
  pooled : ∀ r ∈ db.manifest n v, ∃ ch, db.chunk? r.chunkHash = some ch ∧ ch.length = ch.data.length
  full : ∀ r ∈ db.manifest n v, r.chunkIndex + 1 < chunkCount cs size → db.rowLength r = cs
  last : ∀ r ∈ db.manifest n v, r.chunkIndex + 1 = chunkCount cs size →
    db.rowLength r = size - r.chunkIndex * cs ∧ 1 ≤ db.rowLength r ∧ db.rowLength r ≤ cs
  total : ((db.manifest n v).map db.rowLength).sum = size

/-- Every chunk but the last ends within the content. -/
theorem succ_mul_le_of_lt {i : ℕ} (h : i + 1 < chunkCount cs size) : (i + 1) * cs ≤ size := by
  have hpos : 0 < cs := by
    rcases Nat.eq_zero_or_pos cs with rfl | hpos
    · rw [chunkCount, Nat.div_zero] at h
      omega
    · exact hpos
  have hle : (i + 2) * cs ≤ size + cs - 1 := (Nat.le_div_iff_mul_le hpos).mp h
  rw [Nat.add_mul] at hle ⊢
  omega

theorem bounds_of_last {i : ℕ} (h : i + 1 = chunkCount cs size) :
    i * cs < size ∧ size ≤ i * cs + cs := by
  have hpos : 0 < cs := by
    rcases Nat.eq_zero_or_pos cs with rfl | hpos
    · rw [chunkCount, Nat.div_zero] at h
      omega
    · exact hpos
  have hle : (i + 1) * cs ≤ size + cs - 1 := (Nat.le_div_iff_mul_le hpos).mp h.le
  have hlt : size + cs - 1 < (i + 2) * cs :=
    (Nat.div_lt_iff_lt_mul hpos).mp (show chunkCount cs size < i + 2 by omega)
  rw [Nat.add_mul] at hle hlt
  omega

theorem rowLength_of_shows {r : VersionRow} {p : List Unit}
    (h : Shows (Reading.lengths (C := C)) V db r p) : db.rowLength r = p.length := by
  obtain ⟨ch, hch, hlen⟩ := h
  rw [Db.rowLength, hch]
  exact hlen

/-- Every row of a manifest that is kept has the length of its piece. -/
theorem Kept.rowLength {r : VersionRow} (h : Kept (Reading.lengths (C := C)) V db n v size data)
    (hr : r ∈ db.manifest n v) :
    (∃ p, Shows (Reading.lengths (C := C)) V db r p) ∧
      db.rowLength r = min (chunkSizeOf db V) (size - r.chunkIndex * chunkSizeOf db V) := by
  obtain ⟨rows, hperm, hall⟩ := h.holds
  obtain ⟨q, hq, hidx, hshows⟩ := exists_of_forall₂_right hall.flip (hperm.mem_iff.mp hr)
  have hpiece := getElem?_of_mem_numbered hq
  rw [← hidx, Nat.sub_zero] at hpiece
  have hlen := length_getElem?_pieces hpiece
  rw [List.length_map, ← h.size] at hlen
  exact ⟨⟨q.2, hshows⟩, (rowLength_of_shows hshows).trans hlen⟩

theorem Kept.total (h : Kept (Reading.lengths (C := C)) V db n v size data) :
    ((db.manifest n v).map db.rowLength).sum = size := by
  obtain ⟨rows, hperm, hall⟩ := h.holds
  have hrows := map_eq_of_forall₂ hall (fun r q hq => rowLength_of_shows hq.2)
  rw [(hperm.map _).sum_eq, hrows, ← Function.comp_def List.length Prod.snd, ← List.map_map,
    map_snd_numbered,
    ← List.length_flatten, h.size]
  rcases h.chunked with hpos | rfl
  · rw [flatten_pieces hpos, List.length_map]
  · rw [List.map_nil, pieces_nil]
    rfl

/-- What the reading of lengths says of a manifest. -/
theorem Kept.shaped (h : Kept (Reading.lengths (C := C)) V db n v size data) (ha : db.Addressed C) :
    Shaped db n v size (chunkSizeOf db V) := by
  refine ⟨?_, ?_, ?_, ?_, h.total⟩
  · obtain ⟨rows, hperm, hall⟩ := h.holds
    have hrows : rows.map VersionRow.chunkIndex =
        List.range (chunkCount (chunkSizeOf db V) size) := by
      rw [map_eq_of_forall₂ hall (fun r q hq => hq.1), map_fst_numbered, length_pieces,
        List.length_map,
        ← h.size, ← List.range_eq_range']
      rfl
    exact hrows ▸ hperm.map _
  · intro r hr
    obtain ⟨⟨p, ch, hch, -⟩, -⟩ := h.rowLength hr
    exact ⟨ch, hch, (ha ch (mem_of_lookup hch)).2⟩
  · intro r hr hlt
    have hle := succ_mul_le_of_lt hlt
    rw [Nat.add_mul] at hle
    rw [(h.rowLength hr).2]
    omega
  · intro r hr hlast
    have hbounds := bounds_of_last hlast
    rw [(h.rowLength hr).2]
    omega


/-- Orderly steps as far as lengths go. -/
def Apart (s : Sys) (l : Label) : Prop := Timely s l ∧ NoReclaim s l

instance (s : Sys) (l : Label) : Decidable (Apart s l) :=
  inferInstanceAs (Decidable (Timely s l ∧ NoReclaim s l))

theorem Apart.orderly {l : Label} (hC : C.KeepsLength) (h : Apart s l) :
    Orderly (Reading.lengths (C := C)) M s l := by
  refine ⟨h.1, h.2, ?_, fun hw => ?_⟩
  swap
  · cases hw
  rw [Fitting]
  split
  · exact fun _ _ _ _ => Reading.lengths_fits hC
  · exact fun _ _ _ => Reading.lengths_fits hC
  · exact fun _ _ => Reading.lengths_fits hC
  · exact fun _ _ => Reading.lengths_fits hC
  · trivial

/-- As long as no writer that has lost its lock flushes into a version that is someone
else's by now, every committed manifest has its shape. -/
theorem manifest_shaped (hC : C.KeepsLength) (h : Reaches C M Apart s)
    (hc : s.db.content? n = some c) :
    ∃ V, s.db.home? n = some V ∧ Shaped s.db n c.version c.size (chunkSizeOf s.db V) := by
  have horderly : Reaches C M (Orderly (Reading.lengths (C := C)) M) s :=
    GuardedRuns.Run.weaken (fun _ _ hl => hl.orderly hC) h
  have hstored := horderly.writers.stored
  obtain ⟨V, hV, hkept⟩ := hstored.1.content n c hc
  exact ⟨V, hV, hkept.shaped hstored.1.addressed⟩

theorem xorStream_keepsLength : Crypto.xorStream.KeepsLength := by
  intro key nonce ct tag p h
  simp only [Crypto.xorStream] at h
  split at h
  · rw [← Option.some.inj h, List.length_map]
  · cases h

/-- Three bytes in chunks of two, one more appended, then a stream over the end. -/
def appendedRun : List Label :=
  [⟨.counting 0, 0, .createVolume none 2 none .none⟩,
    ⟨.counting 1, 0, .mount { volume := 0 }⟩,
    ⟨.counting 3, 0, .request 1 (.createEntry "x" [7, 8, 9])⟩,
    ⟨.counting 5, 0, .request 1 (.append "x" [1])⟩,
    ⟨.counting 6, 0, .openWrite 1 "x" .append none⟩,
    ⟨.counting 7, 0, .fdWrite 0 [5, 6, 7]⟩,
    ⟨.counting 8, 0, .fdFlush 0⟩,
    ⟨.counting 9, 0, .fdClose 0⟩]

theorem manifest_shaped_appended :
    Shaped (appendedRun.foldl (step Crypto.xorStream Msgpack.refusing) {}).db 3 3 7 2 := by
  let s := appendedRun.foldl (step Crypto.xorStream Msgpack.refusing) {}
  have hguards : GuardedRuns.Guards (step Crypto.xorStream Msgpack.refusing) Apart {}
      appendedRun := by
    decide +kernel
  have hc : s.db.content? 3 = some { nodeId := 3, version := 3, size := 7 } := by rfl
  obtain ⟨V, hV, hshaped⟩ := manifest_shaped xorStream_keepsLength (reaches_foldl hguards) hc
  have hhome : s.db.home? 3 = some 0 := by rfl
  obtain rfl := Option.some.inj (hV.symm.trans hhome)
  exact hshaped

/-- Two mounts of a volume with one-byte chunks. The stream of the second, whose lease
is 5 ms, has flushed one chunk of two when its lease ends. The chunk is pruned, the
first mount writes one byte, which commits the version number the prune freed, and
the other chunk of the stream is added to it. -/
theorem committed_manifest_misshapen :
    ∃ s n c V, Reaches Crypto.xorStream Msgpack.refusing Timely s ∧ s.db.content? n = some c ∧
      s.db.home? n = some V ∧ 1 ≤ chunkSizeOf s.db V ∧
      ¬ Shaped s.db n c.version c.size (chunkSizeOf s.db V) := by
  let ls : List Label :=
    [⟨.counting 0, 0, .createVolume none 1 none .none⟩,
      ⟨.counting 1, 0, .mount { volume := 0 }⟩,
      ⟨.counting 2, 1, .mount { volume := 0, ttlMs := some 5, allowOverlap := true }⟩,
      ⟨.counting 3, 0, .request 1 (.createEntry "x" [])⟩,
      ⟨.counting 5, 1, .openWrite 2 "x" .truncate none⟩,
      ⟨.counting 6, 1, .fdWrite 0 [9, 9]⟩,
      ⟨.counting 7, 1, .fdFlush 0⟩,
      ⟨.counting 8 6000000, 0, .pruneContent none⟩,
      ⟨.counting 9 6000000, 0, .request 1 (.writeAll "x" [8])⟩,
      ⟨.counting 10 7000000, 1, .fdFlush 0⟩]
  let s := ls.foldl (step Crypto.xorStream Msgpack.refusing) {}
  have hguards : GuardedRuns.Guards (step Crypto.xorStream Msgpack.refusing) Timely {} ls := by
    decide +kernel
  refine ⟨s, 3, { nodeId := 3, version := 1, size := 1 }, 0, reaches_foldl hguards, by rfl, by rfl,
    by decide +kernel, ?_⟩
  intro hshaped
  have hlen := hshaped.indexes.length_eq
  revert hlen
  decide +kernel

end Aloelite
