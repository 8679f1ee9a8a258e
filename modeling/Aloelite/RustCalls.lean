import Aloelite.RustDescriptors

/-! The calls of the Rust engine on a leaf and its descriptors: under which condition no
integer wraps, no cast loses a value and no index is out of range. -/
namespace Aloelite.Rust

open Machine Outcome Pieces Leaf

variable {B : Build} {t : Target} {L L' M : Leaf} {v w i j : ℤ} {s u : Sys} {d : Descriptor} {k : ℕ}
  {a : Access} {data : Bytes}

/-- A writer in the middle of a call, with everything else sound. -/
structure Sys.Busy (t : Target) (s : Sys) (k : ℕ) : Prop where
  rest : (s.setFd k Descriptor.unused).Sound t
  mine : (s.fds k).Writing t s.leaf
  alone : ∀ v, (s.fds k).newVersion = some v → ∀ l, l ≠ k → (s.fds l).Opened →
    (s.fds l).newVersion ≠ some v

theorem Sys.Sound.setFd_unused (h : s.Sound t) : (s.setFd k Descriptor.unused).Sound t :=
  h.setFd (Descriptor.sound_of_closed rfl) (fun _ ho => absurd ho.1 (by decide))

theorem Sys.Sound.busy (h : s.Sound t) (ho : (s.fds k).Opened) : s.Busy t k :=
  ⟨h.setFd_unused, ((h.fds k).writing ho.1 ho.2).1, fun v hv l hl hol =>
    h.apart k l v hl.symm ho hol hv⟩

theorem Sys.setFd_setFd {e : Descriptor} : (s.setFd k d).setFd k e = s.setFd k e := by
  rw [setFd, setFd, setFd, Function.update_idem]

theorem Sys.setFd_eq_self : s.setFd k (s.fds k) = s := by
  rw [setFd, Function.update_eq_self]

/-- The call is over when the pending bytes are short. -/
theorem Sys.Busy.sound (h : s.Busy t k) (hshort : (s.fds k).pending.length < (s.fds k).chunkSize) :
    s.Sound t := by
  have hd : (s.fds k).Sound t s.leaf :=
    ⟨fun _ => h.mine.pos, fun _ hr => absurd (hr.symm.trans h.mine.writable) (by decide),
      fun _ _ => ⟨h.mine, hshort⟩⟩
  have hset := h.rest.setFd hd (k := k) (by
    intro v ho hv l hl hol
    rw [Sys.setFd_other hl] at hol ⊢
    exact h.alone v hv l hl hol)
  rw [Sys.setFd_setFd, Sys.setFd_eq_self] at hset
  exact hset

/-- The other descriptors are as they were, on a leaf to which a version was added that
none of them has. -/
theorem Sys.Busy.moved (h : s.Busy t k) (hL : L'.Sound) (hm : Moves s.leaf L' w)
    (hw : ∀ l, l ≠ k → (s.fds l).Opened → (s.fds l).newVersion ≠ some w) :
    Sys.Sound t ({ s with leaf := L' }.setFd k Descriptor.unused) := by
  apply h.rest.moves hL hm
  intro l ho
  by_cases hl : l = k
  · subst hl
    rw [Sys.setFd_self] at ho
    exact absurd ho.1 (by decide)
  · rw [Sys.setFd_other hl] at ho ⊢
    exact hw l hl ho

theorem Leaf.Sound.added {f : ℤ → Option Bytes} (hL : L.Sound) (h : Adds L M v f) : M.Sound := by
  have hcs : M.chunkSize = L.chunkSize := by rw [h.same]
  have hversion : M.version = L.version := by rw [h.same]
  have hsize : M.size = L.size := by rw [h.same]
  refine ⟨hsize ▸ hL.nonneg, hsize ▸ hL.fits, hcs ▸ hL.column, fun hc i h0 hi => ?_⟩
  rw [hcs] at hc hi ⊢
  rw [hsize] at hi ⊢
  obtain ⟨b, hb, hlen⟩ := hL.manifest hc i h0 hi
  exact ⟨b, hversion ▸ h.keeps hb, hlen⟩

/-- What a writer has once it has claimed a version. -/
structure Sys.Claimed (s : Sys) (k : ℕ) (M : Leaf) (v : ℤ) : Prop where
  adds : ∃ f, Adds s.leaf M v f
  full : ∀ i, 0 ≤ i → i < (s.fds k).chunkIndex → ∃ b, M.chunk v i = some b ∧ (b.length : ℤ) =
    (s.fds k).chunkSize
  free : ∀ i, (s.fds k).chunkIndex ≤ i → M.chunk v i = none
  alone : ∀ l, l ≠ k → (s.fds l).Opened → (s.fds l).newVersion ≠ some v

theorem Sys.claimVersion_done (h : s.Busy t k) :
    ∃ M v, s.claimVersion B k =
        done ({ s with leaf := M }.setFd k { s.fds k with newVersion := some v, carryDone := true },
          v) ∧
      s.Claimed k M v := by
  cases hnew : (s.fds k).newVersion with
  | some v =>
    obtain ⟨hdone, -, hfull, hfree⟩ := h.mine.rows v hnew
    refine ⟨s.leaf, v, ?_, ⟨_, Adds.refl⟩, hfull, hfree, h.alone v hnew⟩
    simp only [claimVersion, hnew, Option.getD_some, carryOver, hdone, if_true,
      done_bind, pure_eq_done]
  | none =>
    obtain ⟨hundone, hcarry, hle, hsrc⟩ := h.mine.carry hnew
    have hothers : ∀ l, l ≠ k → (s.fds l).Opened → (s.fds l).newVersion ≠
        some s.leaf.allocVersion := by
      intro l hl ho
      have hrest := h.rest.unclaimed (l := l) (w := s.leaf.allocVersion)
      rw [Sys.setFd_other hl] at hrest
      exact hrest ho le_rfl
    by_cases hpos : 0 < (s.fds k).carryFull
    · obtain ⟨M, hcarried, hM⟩ : ∃ M,
        s.leaf.carry (s.fds k).carrySrc 0 ((s.fds k).carryFull - 1) s.leaf.allocVersion = done M ∧
        _ :=
        carry_done (fun j _ _ => chunk_allocVersion le_rfl)
      refine ⟨M, s.leaf.allocVersion, ?_, ⟨_, hM⟩, ?_, ?_, hothers⟩
      · simp only [claimVersion, hnew, Option.getD_none, carryOver, hundone, Bool.false_eq_true,
          if_false, if_pos hpos,
          Build.cast_of_holds
            (i64_holds.mpr (show -9223372036854775808 ≤ (s.fds k).carryFull ∧ _ by omega)),
          Build.arith_of_holds
            (i64_holds.mpr (show -9223372036854775808 ≤ (s.fds k).carryFull - 1 ∧ _ by omega)),
          done_bind, hcarried, Sys.txn, pure_eq_done]
      · intro i h0 hi
        obtain ⟨b, hb, hlen⟩ := hsrc i h0 hi
        refine ⟨b, ?_, hlen⟩
        rw [hM.fresh (chunk_allocVersion le_rfl), if_pos ⟨h0, by omega⟩, hb]
      · intro i hi
        rw [hM.fresh (chunk_allocVersion le_rfl), if_neg (by omega)]
    · refine ⟨s.leaf, s.leaf.allocVersion, ?_, ⟨_, Adds.refl⟩, ?_, fun i _ =>
        chunk_allocVersion le_rfl, hothers⟩
      · simp only [claimVersion, hnew, Option.getD_none, carryOver, hundone, Bool.false_eq_true,
          if_false, if_neg hpos,
          done_bind, pure_eq_done]
      · intro i h0 hi
        omega

/-- A chunk staged at the next place of the claimed version. -/
theorem Sys.stage_done {chunk : Bytes} (h : s.Busy t k)
    (hi : (s.fds k).chunkIndex ≤ 9223372036854775807) :
    ∃ M v, s.stage B k chunk =
        done ({ s with leaf := M }.setFd k { s.fds k with newVersion := some v, carryDone := true },
          v) ∧
      (∃ f, Adds s.leaf M v f) ∧
      (∀ i, 0 ≤ i → i < (s.fds k).chunkIndex → ∃ b, M.chunk v i = some b ∧ (b.length : ℤ) =
        (s.fds k).chunkSize) ∧
      M.chunk v (s.fds k).chunkIndex = some chunk ∧
        (∀ i, (s.fds k).chunkIndex < i → M.chunk v i = none) ∧
      ∀ l, l ≠ k → (s.fds l).Opened → (s.fds l).newVersion ≠ some v := by
  obtain ⟨N, v, hclaim, ⟨f, hN⟩, hfull, hfree, halone⟩ : ∃ M v, s.claimVersion B k = _ ∧
    s.Claimed k M v :=
    Sys.claimVersion_done h
  have hindex := h.mine.index
  obtain ⟨M, hstage, hM⟩ : ∃ M, N.stageChunk v (s.fds k).chunkIndex chunk = done M ∧ _ :=
    stageChunk_done (hfree _ le_rfl)
  refine ⟨M, v, ?_, ⟨_, hN.trans hM⟩, ?_, ?_, ?_, halone⟩
  · simp only [stage, hclaim, done_bind,
      Build.cast_of_holds
        (i64_holds.mpr (show -9223372036854775808 ≤ (s.fds k).chunkIndex ∧ _ by omega)),
      hstage, Sys.txn, pure_eq_done, Sys.setFd]
  · intro i h0 hlt
    obtain ⟨b, hb, hlen⟩ := hfull i h0 hlt
    exact ⟨b, hM.keeps hb, hlen⟩
  · rw [hM.fresh (hfree _ le_rfl), if_pos rfl]
  · intro i hlt
    rw [hM.fresh (hfree i hlt.le), if_neg hlt.ne']

end Aloelite.Rust
