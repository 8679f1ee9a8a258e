import Aloelite.RustCalls

/-! Writing through a descriptor of the Rust engine: the bytes that are taken in, and the
loop that stages the chunks they fill. -/
namespace Aloelite.Rust

open Machine Outcome Pieces Leaf

variable {B : Build} {t : Target} {s u : Sys} {d : Descriptor} {k n : ℕ} {data : Bytes}

/-- The writer has its fields changed, but for the version it claimed. -/
theorem Sys.Busy.setFd (h : s.Busy t k) (hd : d.Writing t s.leaf)
    (hsame : d.newVersion = (s.fds k).newVersion) :
    (s.setFd k d).Busy t k := by
  refine ⟨?_, ?_, fun v hv l hl ho => ?_⟩
  · rw [Sys.setFd_setFd]
    exact h.rest
  · rw [Sys.setFd_self]
    exact hd
  · rw [Sys.setFd_self, hsame] at hv
    rw [Sys.setFd_other hl] at ho ⊢
    exact h.alone v hv l hl ho

/-- What the flushes of a writer leave as it is. -/
structure Sys.Flushed (s u : Sys) (k : ℕ) : Prop where
  leaf : u.leaf = { s.leaf with refs := u.leaf.refs }
  others : ∀ l, l ≠ k → u.fds l = s.fds l
  pos : (u.fds k).pos = (s.fds k).pos
  chunkSize : (u.fds k).chunkSize = (s.fds k).chunkSize
  extent : (u.fds k).extent = (s.fds k).extent

theorem Sys.Flushed.refl : s.Flushed s k := ⟨rfl, fun _ _ => rfl, rfl, rfl, rfl⟩

theorem Sys.Flushed.trans {w : Sys} (h : s.Flushed u k) (h' : u.Flushed w k) : s.Flushed w k where
  leaf := by
    rw [h'.leaf, h.leaf]
  others l hl := (h'.others l hl).trans (h.others l hl)
  pos := h'.pos.trans h.pos
  chunkSize := h'.chunkSize.trans h.chunkSize
  extent := h'.extent.trans h.extent

/-- The writer with a chunk taken out of its pending bytes. -/
theorem Sys.Busy.drained (h : s.Busy t k) (hd : s.fds k = d) :
    (s.setFd k { d with pending := d.pending.drop d.chunkSize.toNat }).Busy t k := by
  have hmine := hd ▸ h.mine
  have hextent := hmine.extent
  have hroom := hmine.room
  have hdrop : (d.pending.drop d.chunkSize.toNat).length ≤ d.pending.length := by
    rw [List.length_drop]
    omega
  refine h.setFd { hmine with extent := ?_, room := hdrop.trans hroom } (by rw [hd])
  rw [Descriptor.extent] at hextent ⊢
  dsimp only
  omega

/-- A flush: the first chunk of the pending bytes is staged at the next place. -/
theorem Sys.flushOneChunk_done (h : s.Busy t k)
    (hfull : (s.fds k).chunkSize ≤ (s.fds k).pending.length)
    (hi : (s.fds k).chunkIndex ≤ 9223372036854775807) :
    ∃ u, s.flushOneChunk B t k = done u ∧ u.Busy t k ∧ s.Flushed u k ∧
      (u.fds k).chunkIndex = (s.fds k).chunkIndex + 1 ∧
      ((u.fds k).pending.length : ℤ) = (s.fds k).pending.length - (s.fds k).chunkSize := by
  have hmine := h.mine
  obtain ⟨d, hd⟩ : ∃ d, s.fds k = d := ⟨_, rfl⟩
  simp only [flushOneChunk, hd] at hmine hfull hi ⊢
  have hcs := hmine.pos_cs
  have hindex := hmine.index
  have hflushed := hmine.flushed
  have hextent := hmine.extent
  have hroom := hmine.room
  rw [Descriptor.extent] at hextent
  -- the sums of the flush stay below the file's end, which the writer's room bounds
  have hnonneg := Int.mul_nonneg hindex.1 hcs.le
  have hdrop : ((d.pending.drop d.chunkSize.toNat).length : ℤ) =
      d.pending.length - d.chunkSize := by
    rw [List.length_drop]
    omega
  have htake : ((d.pending.take d.chunkSize.toNat).length : ℤ) = d.chunkSize := by
    rw [List.length_take]
    omega
  have htaken : (drainUpTo d.pending d.chunkSize : Call (Bytes × Bytes)) =
      done (d.pending.take d.chunkSize.toNat, d.pending.drop d.chunkSize.toNat) := if_pos hfull
  have hdrained := h.drained hd
  generalize d.pending.drop d.chunkSize.toNat = rest at hdrop htaken hdrained
  generalize d.pending.take d.chunkSize.toNat = chunk at htake htaken
  -- staging writes the row of this chunk and touches no row behind it
  obtain ⟨M, v, hstage, ⟨f, hM⟩, hrows, hnew, hfree, halone⟩ :
      ∃ M v, Sys.stage B (s.setFd k { d with pending := rest }) k chunk = _ ∧ _ :=
    Sys.stage_done hdrained (by rw [Sys.setFd_self]; exact hi)
  simp only [Sys.setFd_self] at hstage hrows hnew hfree
  have hmoved : Sys.Sound t
      (({ s with leaf := M }.setFd k { d with pending := rest }).setFd k Descriptor.unused) :=
    hdrained.moved (hdrained.rest.leaf.added hM) hM.moves halone
  have hchunkSize : M.chunkSize = s.leaf.chunkSize := by
    rw [hM.same]
    rfl
  refine ⟨{ s with leaf := M }.setFd k { d with
      pending := rest
      newVersion := some v
      carryDone := true
      chunkIndex := d.chunkIndex + 1
      flushed := d.flushed + d.chunkSize }, ?_, ⟨?_, ?_, ?_⟩, ⟨?_, ?_, ?_, ?_, ?_⟩, ?_, ?_⟩
  · simp only [Build.cast_of_holds hmine.usize, done_bind, htaken, hstage, Sys.setFd_self,
      Sys.setFd_setFd,
      Build.arith_of_holds (u64_holds.mpr (show 0 ≤ d.chunkIndex + 1 ∧ _ by omega)),
      Build.arith_of_holds (u64_holds.mpr (show 0 ≤ d.flushed + d.chunkSize ∧ _ by omega)),
      pure_eq_done]
    congr 1
    change ({ s with leaf := M }.setFd k _).setFd k _ = _
    rw [Sys.setFd_setFd]
  · rw [Sys.setFd_setFd] at hmoved ⊢
    exact hmoved
  · rw [Sys.setFd_self]
    have hadd := Int.add_mul d.chunkIndex 1 d.chunkSize
    refine { hmine with
      cs := hmine.cs.trans hchunkSize.symm, index := ?_, flushed := ?_, extent := ?_, room :=
        ?_, rows := ?_, carry := ?_ }
    · dsimp only
      omega
    · dsimp only
      omega
    · rw [Descriptor.extent]
      dsimp only
      omega
    · dsimp only
      omega
    · intro w hw
      obtain rfl : v = w := Option.some.inj hw
      refine ⟨rfl, Int.lt_add_one_iff.mpr hindex.1, fun i h0 hlt => ?_, fun i hle => hfree i ?_⟩
      · dsimp only at hlt ⊢
        by_cases hilt : i < d.chunkIndex
        · exact hrows i h0 hilt
        · obtain rfl : i = d.chunkIndex := by omega
          exact ⟨chunk, hnew, htake⟩
      · dsimp only at hle ⊢
        omega
    · intro hnone
      cases hnone
  · intro w hw l hl ho
    rw [Sys.setFd_self] at hw
    obtain rfl : v = w := Option.some.inj hw
    rw [Sys.setFd_other hl] at ho ⊢
    have hother := halone l hl
    rw [Sys.setFd_other hl] at hother
    exact hother ho
  · exact hM.same
  · intro l hl
    rw [Sys.setFd_other hl]
  · rw [Sys.setFd_self, hd]
  · rw [Sys.setFd_self, hd]
  · rw [Sys.setFd_self, hd, Descriptor.extent, Descriptor.extent]
    dsimp only
    omega
  · rw [Sys.setFd_self]
  · rw [Sys.setFd_self]
    exact hdrop

/-- The bytes a writer has taken fill so many chunks. -/
theorem Descriptor.Writing.filled (h : d.Writing t s.leaf) :
    d.chunkIndex * d.chunkSize ≤ d.extent ∧
      (d.pending.length < d.chunkSize → d.extent / d.chunkSize = d.chunkIndex) ∧
      (d.chunkSize ≤ d.pending.length → d.chunkIndex < d.extent / d.chunkSize) := by
  have hcs := h.pos_cs
  have hflushed := h.flushed
  have hdiv := div_bounds (x := d.extent) hcs
  rw [Descriptor.extent] at hdiv ⊢
  generalize (d.flushed + d.pending.length) / d.chunkSize = q at hdiv ⊢
  refine ⟨by omega, fun hshort => ?_, fun hfull => ?_⟩
  · have hle : q ≤ d.chunkIndex := le_of_mul_lt hcs (by omega)
    have hge : d.chunkIndex ≤ q := le_of_mul_lt hcs (by omega)
    omega
  · by_contra hle
    have hmul := Int.mul_le_mul_of_nonneg_right (not_lt.mp hle) hcs.le
    omega

/-- The loop of `write`: it ends with less than a chunk pending. -/
theorem Sys.flushChunks_done (h : s.Busy t k) (hn : (s.fds k).pending.length ≤ n)
    (hfits : (s.fds k).extent / (s.fds k).chunkSize ≤ 9223372036854775808) :
    ∃ u, flushChunks B t k n s = done u ∧ u.Busy t k ∧ s.Flushed u k ∧ (u.fds k).pending.length <
      (u.fds k).chunkSize := by
  have hcs := h.mine.pos_cs
  induction n generalizing s with
  | zero =>
    have hshort : ((s.fds k).pending.length : ℤ) < (s.fds k).chunkSize := by omega
    refine ⟨s, ?_, h, Flushed.refl, hshort⟩
    rw [flushChunks, if_neg (by omega)]
  | succ n ih =>
    by_cases hfull : (s.fds k).chunkSize ≤ (s.fds k).pending.length
    · have hindex := h.mine.filled.2.2 hfull
      obtain ⟨u, hflush, hu, hsame, -, hlen⟩ : ∃ u, s.flushOneChunk B t k = done u ∧ _ :=
        Sys.flushOneChunk_done h hfull (by omega)
      obtain ⟨w, hrest, hw, hsame', hshort⟩ :=
        ih hu (by omega) (by rw [hsame.extent, hsame.chunkSize]; exact hfits) hu.mine.pos_cs
      refine ⟨w, ?_, hw, hsame.trans hsame', hshort⟩
      rw [flushChunks, if_pos hfull, hflush, done_bind, hrest]
    · refine ⟨s, ?_, h, Flushed.refl, not_le.mp hfull⟩
      rw [flushChunks, if_neg hfull]

/-- The version is claimed, but the place of the chunk is no `i64`. -/
theorem Sys.stage_panics {chunk : Bytes} (h : s.Busy t k)
    (hi : 9223372036854775807 < (s.fds k).chunkIndex) :
    s.stage .exact k chunk = panicked := by
  obtain ⟨M, v, hclaim, -⟩ : ∃ M v, s.claimVersion .exact k = _ ∧ s.Claimed k M v :=
    Sys.claimVersion_done h
  have hout : ¬i64.Holds (s.fds k).chunkIndex := by
    rw [i64_holds]
    omega
  simp only [stage, hclaim, done_bind, Build.cast_exact hout, panicked_bind]

theorem Sys.flushChunks_panics (h : s.Busy t k) (hn : (s.fds k).pending.length ≤ n)
    (hbad : 9223372036854775808 < (s.fds k).extent / (s.fds k).chunkSize) :
    flushChunks .exact t k n s = panicked := by
  have hcs := h.mine.pos_cs
  have hindex := h.mine.index
  have hfull : (s.fds k).chunkSize ≤ (s.fds k).pending.length := by
    by_contra hshort
    have hfilled := h.mine.filled.2.1 (not_le.mp hshort)
    omega
  induction n generalizing s with
  | zero => omega
  | succ n ih =>
    rw [flushChunks, if_pos hfull]
    by_cases hi : (s.fds k).chunkIndex ≤ 9223372036854775807
    · obtain ⟨u, hflush, hu, hsame, -, hlen⟩ : ∃ u, s.flushOneChunk .exact t k = done u ∧ _ :=
        Sys.flushOneChunk_done h hfull hi
      rw [hflush, done_bind]
      rw [← hsame.extent, ← hsame.chunkSize] at hbad
      have hfull' : (u.fds k).chunkSize ≤ (u.fds k).pending.length := by
        by_contra hshort
        have hfilled := hu.mine.filled.2.1 (not_le.mp hshort)
        have hindex' := hu.mine.index
        omega
      exact ih hu (by omega) hbad hu.mine.pos_cs hu.mine.index hfull'
    · obtain ⟨d, hd⟩ : ∃ d, s.fds k = d := ⟨_, rfl⟩
      have hdrained := h.drained hd
      have hstage : ∀ chunk,
          Sys.stage .exact (s.setFd k { d with pending := d.pending.drop d.chunkSize.toNat }) k
            chunk = panicked := by
        intro chunk
        apply stage_panics hdrained
        rw [setFd_self]
        rw [hd] at hi
        exact not_le.mp hi
      have htaken : (drainUpTo d.pending d.chunkSize : Call (Bytes × Bytes)) =
          done (d.pending.take d.chunkSize.toNat, d.pending.drop d.chunkSize.toNat) :=
            if_pos (hd ▸ hfull)
      have husize := hd ▸ h.mine.usize
      simp only [flushOneChunk, hd, Build.cast_of_holds husize, done_bind, htaken,
        hstage, panicked_bind]

/-! ### A write -/

/-- The end of a write is a position; where the write goes forward, what is pending then
fits a vector, and the chunks it fills are numbered by an `i64`. -/
def Descriptor.Takes (t : Target) (d : Descriptor) (len : ℤ) : Prop :=
  d.pos + len ≤ 18446744073709551615 ∧ (d.flushed ≤ d.pos →
    d.pos + len - d.flushed ≤ t.isizeMax ∧ max d.extent (d.pos + len) / d.chunkSize ≤
    9223372036854775808)

/-- What a write makes of a state: chunks may be staged, nothing is committed. -/
structure Sys.Wrote (s u : Sys) (k : ℕ) (len : ℤ) : Prop where
  leaf : u.leaf = { s.leaf with refs := u.leaf.refs }
  others : ∀ l, l ≠ k → u.fds l = s.fds l
  pos : (u.fds k).pos = (s.fds k).pos + len
  extent : (u.fds k).extent = max (s.fds k).extent ((s.fds k).pos + len)

section

variable (h : s.Busy t k) (hlen : data.length ≤ t.isizeMax)

include h hlen

theorem Sys.absorb_done (hend : (s.fds k).pos + data.length ≤ 18446744073709551615)
    (hforward : (s.fds k).flushed ≤ (s.fds k).pos)
    (hroom : (s.fds k).pos + data.length - (s.fds k).flushed ≤ t.isizeMax) :
    ∃ u, s.absorb B t k data = done u ∧ u.Busy t k ∧ s.Wrote u k data.length ∧ (u.fds k).chunkSize =
      (s.fds k).chunkSize := by
  have hmine := h.mine
  obtain ⟨d, hd⟩ : ∃ d, s.fds k = d := ⟨_, rfl⟩
  simp only [absorb, hd] at hmine hend hforward hroom ⊢
  have hpos := hmine.pos
  have hextent := hmine.extent
  have hpending := hmine.room
  have hindex := Int.mul_nonneg hmine.index.1 hmine.pos_cs.le
  have hflushed := hmine.flushed
  have hle := isizeMax_le (t := t)
  rw [Descriptor.extent] at hextent
  obtain ⟨window, hpatch, hwlen⟩ : ∃ w,
    patchWindow t d.pending data (d.pos - d.flushed) (d.pos + data.length - d.flushed) = done w ∧
    _ :=
    patchWindow_done (by omega) (by omega) hroom
  refine ⟨s.setFd k { d with pending := window, pos := d.pos + data.length }, ?_, ?_,
    ⟨rfl, ?_, ?_, ?_⟩, ?_⟩
  · simp only [Build.cast_of_holds (u64_holds.mpr (show 0 ≤ (data.length : ℤ) ∧ _ by omega)),
      Build.arith_of_holds (u64_holds.mpr (show 0 ≤ d.pos + data.length ∧ _ by omega)), done_bind,
      if_neg (not_lt.mpr hforward),
      Build.arith_of_holds (u64_holds.mpr (show 0 ≤ d.pos - d.flushed ∧ _ by omega)),
      Build.cast_of_holds (usize_of_le (t := t) (show 0 ≤ d.pos - d.flushed by omega) (by omega)),
      Build.arith_of_holds (u64_holds.mpr (show 0 ≤ d.pos + data.length - d.flushed ∧ _ by omega)),
      Build.cast_of_holds (usize_of_le (show 0 ≤ d.pos + data.length - d.flushed by omega) hroom),
      hpatch, Sys.txn, pure_eq_done]
  · refine h.setFd { hmine with pos := ?_, extent := ?_, room := ?_ } (by rw [hd])
    · dsimp only
      omega
    · rw [Descriptor.extent]
      dsimp only
      omega
    · dsimp only
      omega
  · intro l hl
    rw [Sys.setFd_other hl]
  · rw [Sys.setFd_self, hd]
  · rw [Sys.setFd_self, hd, Descriptor.extent, Descriptor.extent]
    dsimp only
    omega
  · rw [Sys.setFd_self]

theorem Sys.absorb_refused (hend : (s.fds k).pos + data.length ≤ 18446744073709551615)
    (hback : (s.fds k).pos < (s.fds k).flushed) :
    ∃ e, s.absorb B t k data = refused (e, s) := by
  have hpos := h.mine.pos
  have hle := isizeMax_le (t := t)
  have hrefused : s.absorb B t k data =
      refused (.unsupported
        "write into an already-flushed region is not supported (streaming writer is sequential)",
        s) := by
    simp only [absorb,
      Build.cast_of_holds (u64_holds.mpr (show 0 ≤ (data.length : ℤ) ∧ _ by omega)),
      Build.arith_of_holds (u64_holds.mpr (show 0 ≤ (s.fds k).pos + data.length ∧ _ by omega)),
      done_bind, if_pos hback]
  exact ⟨_, hrefused⟩

/-- The end is no position, or the bytes that would be pending fit no vector. -/
theorem Sys.absorb_panics
    (hbad : ¬((s.fds k).pos + data.length ≤ 18446744073709551615 ∧
      ((s.fds k).flushed ≤ (s.fds k).pos →
      (s.fds k).pos + data.length - (s.fds k).flushed ≤ t.isizeMax))) :
    s.absorb .exact t k data = panicked := by
  have hmine := h.mine
  obtain ⟨d, hd⟩ : ∃ d, s.fds k = d := ⟨_, rfl⟩
  simp only [absorb, hd] at hmine hbad ⊢
  have hpos := hmine.pos
  have hindex := Int.mul_nonneg hmine.index.1 hmine.pos_cs.le
  have hflushed := hmine.flushed
  have hle := isizeMax_le (t := t)
  simp only [Build.cast_of_holds (u64_holds.mpr (show 0 ≤ (data.length : ℤ) ∧ _ by omega)),
    done_bind]
  by_cases hend : d.pos + data.length ≤ 18446744073709551615
  · obtain ⟨hforward, hroom⟩ : d.flushed ≤ d.pos ∧ t.isizeMax <
      d.pos + data.length - d.flushed := by
      by_contra hno
      apply hbad
      refine ⟨hend, fun hforward => ?_⟩
      by_contra hout
      exact hno ⟨hforward, not_le.mp hout⟩
    simp only [Build.arith_of_holds (u64_holds.mpr (show 0 ≤ d.pos + data.length ∧ _ by omega)),
      done_bind, if_neg (not_lt.mpr hforward),
      Build.arith_of_holds (u64_holds.mpr (show 0 ≤ d.pos - d.flushed ∧ _ by omega)),
      Build.arith_of_holds (u64_holds.mpr (show 0 ≤ d.pos + data.length - d.flushed ∧ _ by omega))]
    by_cases hlo : t.usize.Holds (d.pos - d.flushed)
    · rw [Build.cast_of_holds hlo, done_bind]
      by_cases hhi : t.usize.Holds (d.pos + data.length - d.flushed)
      · rw [Build.cast_of_holds hhi, done_bind, patchWindow_panics hmine.room (by omega) hroom,
          Sys.txn, panicked_bind]
      · rw [Build.cast_exact hhi, panicked_bind]
    · rw [Build.cast_exact hlo, panicked_bind]
  · have hout : ¬u64.Holds (d.pos + data.length) := by
      rw [u64_holds]
      omega
    rw [Build.arith_exact hout, panicked_bind]

end

theorem Sys.check_done {writing : Bool} (ho : (s.fds k).closed = false)
    (hw : writing = true → (s.fds k).writable = true) :
    s.check k writing = done () := by
  have hread : ¬(writing = true ∧ ¬(s.fds k).writable = true) := fun h => h.2 (hw h.1)
  simp only [check, ho, Bool.false_eq_true, if_false, if_neg hread]

theorem Sys.check_refused {writing : Bool}
    (hno : ¬((s.fds k).closed = false ∧ (writing = true → (s.fds k).writable = true))) :
    ∃ e, s.check k writing = refused (e, s) := by
  rw [check]
  by_cases hclosed : (s.fds k).closed = true
  · exact ⟨_, if_pos hclosed⟩
  · have hread : writing = true ∧ ¬(s.fds k).writable = true := by
      by_contra hread
      exact hno ⟨Bool.eq_false_iff.mpr hclosed, fun hw => by_contra fun hr => hread ⟨hw, hr⟩⟩
    exact ⟨_, by rw [if_neg hclosed, if_pos hread]⟩

section

variable (h : s.Sound t) (ho : (s.fds k).Opened) (hlen : data.length ≤ t.isizeMax)
  (hdata : data ≠ [])

include h ho hlen hdata

theorem Sys.write_done (htakes : (s.fds k).Takes t data.length)
    (hforward : (s.fds k).flushed ≤ (s.fds k).pos) :
    ∃ u, s.write B t k data = done (u, (data.length : ℤ)) ∧ u.Sound t ∧
      s.Wrote u k data.length := by
  obtain ⟨hend, hrest⟩ := htakes
  obtain ⟨hroom, hchunks⟩ := hrest hforward
  obtain ⟨u, habsorb, hu, hwrote, hcs⟩ : ∃ u, s.absorb B t k data = done u ∧ _ :=
    Sys.absorb_done (h.busy ho) hlen hend hforward hroom
  obtain ⟨w, hflush, hw, hsame, hshort⟩ : ∃ w,
    flushChunks B t k (u.fds k).pending.length u = done w ∧ _ :=
    Sys.flushChunks_done hu le_rfl (by rw [hwrote.extent, hcs]; exact hchunks)
  refine ⟨w, ?_, hw.sound hshort, ?_, fun l hl => ?_, ?_, ?_⟩
  · simp only [write, Sys.check_done ho.1 (fun _ => ho.2), done_bind, if_neg hdata, habsorb,
      hflush, pure_eq_done]
  · rw [hsame.leaf, hwrote.leaf]
  · rw [hsame.others l hl, hwrote.others l hl]
  · rw [hsame.pos, hwrote.pos]
  · rw [hsame.extent, hwrote.extent]

theorem Sys.write_refused (hend : (s.fds k).pos + data.length ≤ 18446744073709551615)
    (hback : (s.fds k).pos < (s.fds k).flushed) :
    ∃ e, s.write B t k data = refused (e, s) := by
  obtain ⟨e, habsorb⟩ : ∃ e, s.absorb B t k data = refused (e, s) :=
    Sys.absorb_refused (h.busy ho) hlen hend hback
  refine ⟨e, ?_⟩
  simp only [write, Sys.check_done ho.1 (fun _ => ho.2), done_bind, if_neg hdata,
    habsorb, refused_bind]

theorem Sys.write_panics (hbad : ¬(s.fds k).Takes t data.length) :
    s.write .exact t k data = panicked := by
  have hbusy := h.busy ho
  simp only [write, Sys.check_done ho.1 (fun _ => ho.2), done_bind, if_neg hdata]
  by_cases hfits : (s.fds k).pos + data.length ≤ 18446744073709551615 ∧
    ((s.fds k).flushed ≤ (s.fds k).pos →
      (s.fds k).pos + data.length - (s.fds k).flushed ≤ t.isizeMax)
  · obtain ⟨hend, hroom⟩ := hfits
    obtain ⟨hforward, hchunks⟩ : (s.fds k).flushed ≤ (s.fds k).pos ∧
        9223372036854775808 <
        max (s.fds k).extent ((s.fds k).pos + data.length) / (s.fds k).chunkSize := by
      by_contra hno
      apply hbad
      refine ⟨hend, fun hforward => ⟨hroom hforward, ?_⟩⟩
      by_contra hout
      exact hno ⟨hforward, not_le.mp hout⟩
    obtain ⟨u, habsorb, hu, hwrote, hcs⟩ : ∃ u, s.absorb .exact t k data = done u ∧ _ :=
      Sys.absorb_done hbusy hlen hend hforward (hroom hforward)
    rw [habsorb, done_bind,
      Sys.flushChunks_panics hu le_rfl (by rw [hwrote.extent, hcs]; exact hchunks), panicked_bind]
  · rw [Sys.absorb_panics hbusy hlen hfits, panicked_bind]

end

end Aloelite.Rust
