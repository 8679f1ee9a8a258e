import Aloelite.RustLimits

/-! What is sound of a leaf and the descriptors open on it, and how a change of the leaf
keeps it for those that did not make it. -/
namespace Aloelite.Rust

open Machine Outcome Pieces Leaf

variable {B : Build} {t : Target} {L L' M : Leaf} {v w i j : ℤ} {s u : Sys} {d : Descriptor} {k : ℕ}
  {f : ℤ → Option Bytes}

/-- From `L` to `L'` chunks were added only: to `v`, or to versions that are new. -/
structure Leaf.Moves (L L' : Leaf) (v : ℤ) : Prop where
  chunkSize : L'.chunkSize = L.chunkSize
  keeps : ∀ w j d, L.chunk w j = some d → L'.chunk w j = some d
  other : ∀ w j, w < L.allocVersion → w ≠ v → L'.chunk w j = L.chunk w j

theorem Leaf.Adds.keeps (h : Adds L M v f) {b : Bytes} (hb : L.chunk w j = some b) :
    M.chunk w j = some b := by
  rw [h.chunk, hb, Option.some_or]

theorem Leaf.Adds.moves (h : Adds L M v f) : Moves L M v :=
  ⟨by rw [h.same], fun _ _ _ hb => h.keeps hb, fun _ _ _ hw => h.other hw⟩

/-- And the pointer is swapped. -/
theorem Leaf.Adds.moves_swapped {size : ℤ} (h : Adds L M v f) : Moves L (M.swapPointer v size) v :=
  ⟨h.moves.chunkSize, h.moves.keeps, h.moves.other⟩

/-- A new version that is committed at once. -/
theorem Leaf.Grown.committed {size : ℤ} (h : Grown L M L.allocVersion size) (hL : L.Sound)
    (h0 : 0 ≤ size) (hsize : size ≤ 9223372036854775807) :
    (M.swapPointer L.allocVersion size).Sound ∧
      Moves L (M.swapPointer L.allocVersion size) L.allocVersion := by
  have hcs : M.chunkSize = L.chunkSize := by rw [h.same]
  refine ⟨⟨h0, hsize, ?_, fun _ => h.manifest⟩, hcs, ?_, fun w j _ hw => h.other w j hw⟩
  · exact hcs ▸ hL.column
  · intro w j b hb
    have hlt : w < L.allocVersion := lt_allocVersion (by rw [hb]; exact Option.some_ne_none b)
    exact (h.other w j hlt.ne).trans hb

/-- The bytes a writer has taken, flushed or not. -/
def Descriptor.extent (d : Descriptor) : ℤ := d.flushed + d.pending.length

/-- An open writer: its flushed chunks stand under the version it claimed, or, when it
has claimed none, the chunks it carries stand under the version it was opened on. -/
structure Descriptor.Writing (t : Target) (L : Leaf) (d : Descriptor) : Prop where
  open_ : d.closed = false
  writable : d.writable = true
  pos_cs : 0 < d.chunkSize
  cs : d.chunkSize = L.chunkSize
  usize : t.usize.Holds d.chunkSize
  pos : 0 ≤ d.pos ∧ d.pos ≤ 18446744073709551615
  index : 0 ≤ d.chunkIndex ∧ d.chunkIndex ≤ 9223372036854775808
  flushed : d.flushed = d.chunkIndex * d.chunkSize
  extent : d.extent ≤ 18446744073709551615
  room : d.pending.length ≤ t.isizeMax
  rows : ∀ v, d.newVersion = some v → d.carryDone = true ∧ 0 < d.chunkIndex ∧
    (∀ i, 0 ≤ i → i < d.chunkIndex → ∃ b, L.chunk v i = some b ∧ (b.length : ℤ) = d.chunkSize) ∧
    ∀ i, d.chunkIndex ≤ i → L.chunk v i = none
  carry : d.newVersion = none → d.carryDone = false ∧ d.carryFull = d.chunkIndex ∧
    d.chunkIndex ≤ 9223372036854775807 ∧
    ∀ i, 0 ≤ i → i < d.chunkIndex → ∃ b, L.chunk d.carrySrc i = some b ∧ (b.length : ℤ) =
    d.chunkSize

/-- A descriptor between two calls. -/
structure Descriptor.Sound (t : Target) (L : Leaf) (d : Descriptor) : Prop where
  pos : d.closed = false → 0 ≤ d.pos ∧ d.pos ≤ 18446744073709551615
  reading : d.closed = false → d.writable = false → 0 ≤ d.size ∧ d.size ≤ 18446744073709551615
  writing : d.closed = false → d.writable = true → d.Writing t L ∧ d.pending.length < d.chunkSize

theorem Descriptor.sound_of_closed (h : d.closed = true) : d.Sound t L := by
  refine ⟨fun ho => ?_, fun ho => ?_, fun ho => ?_⟩ <;> exact absurd (h.symm.trans ho) (by decide)

/-- A claimed version has rows. -/
theorem Descriptor.Writing.claimed_lt (h : d.Writing t L) (hv : d.newVersion = some v) :
    v < L.allocVersion := by
  obtain ⟨-, hpos, hfull, -⟩ := h.rows v hv
  obtain ⟨b, hb, -⟩ := hfull 0 le_rfl hpos
  apply lt_allocVersion (j := 0)
  rw [hb]
  exact Option.some_ne_none b

theorem Descriptor.Writing.moves (h : d.Writing t L) (hm : Moves L L' w)
    (hw : d.newVersion ≠ some w) : d.Writing t L' := by
  refine { h with cs := h.cs.trans hm.chunkSize.symm, rows := ?_, carry := ?_ }
  · intro v hv
    obtain ⟨hdone, hpos, hfull, hfree⟩ := h.rows v hv
    have hne : v ≠ w := fun heq => hw (heq ▸ hv)
    refine ⟨hdone, hpos, fun i h0 hi => ?_, fun i hi =>
      (hm.other v i (h.claimed_lt hv) hne).trans (hfree i hi)⟩
    obtain ⟨b, hb, hlen⟩ := hfull i h0 hi
    exact ⟨b, hm.keeps v i b hb, hlen⟩
  · intro hnone
    obtain ⟨hdone, hfull, hle, hsrc⟩ := h.carry hnone
    refine ⟨hdone, hfull, hle, fun i h0 hi => ?_⟩
    obtain ⟨b, hb, hlen⟩ := hsrc i h0 hi
    exact ⟨b, hm.keeps _ i b hb, hlen⟩

theorem Descriptor.Sound.moves (h : d.Sound t L) (hm : Moves L L' w)
    (hw : d.closed = false → d.writable = true → d.newVersion ≠ some w) : d.Sound t L' :=
  ⟨h.pos, h.reading, fun ho hwr =>
    ⟨(h.writing ho hwr).1.moves hm (hw ho hwr), (h.writing ho hwr).2⟩⟩

/-- A descriptor that is open for writing. -/
def Descriptor.Opened (d : Descriptor) : Prop := d.closed = false ∧ d.writable = true

/-- A leaf and its descriptors between two calls. -/
structure Sys.Sound (t : Target) (s : Sys) : Prop where
  leaf : s.leaf.Sound
  fds : ∀ k, (s.fds k).Sound t s.leaf
  apart : ∀ k l v, k ≠ l → (s.fds k).Opened → (s.fds l).Opened → (s.fds k).newVersion = some v →
    (s.fds l).newVersion ≠ some v

theorem Sys.setFd_self : (s.setFd k d).fds k = d := Function.update_self ..

theorem Sys.setFd_other {l : ℕ} (h : l ≠ k) : (s.setFd k d).fds l = s.fds l :=
  Function.update_of_ne h ..

/-- A change of the leaf by one who has claimed a version that no open writer has. -/
theorem Sys.Sound.moves (h : s.Sound t) (hL : L'.Sound) (hm : Moves s.leaf L' w)
    (hw : ∀ l, (s.fds l).Opened → (s.fds l).newVersion ≠ some w) :
    Sys.Sound t { s with leaf := L' } :=
  ⟨hL, fun l => (h.fds l).moves hm fun ho hwr => hw l ⟨ho, hwr⟩, h.apart⟩

/-- No writer has claimed a version that is not allocated yet. -/
theorem Sys.Sound.unclaimed (h : s.Sound t) {l : ℕ} (ho : (s.fds l).Opened)
    (hw : s.leaf.allocVersion ≤ w) :
    (s.fds l).newVersion ≠ some w := by
  intro hv
  have hlt := ((h.fds l).writing ho.1 ho.2).1.claimed_lt hv
  omega

/-- A descriptor that has claimed no version, or none that another one has, is put in
place of another. -/
theorem Sys.Sound.setFd (h : s.Sound t) (hd : d.Sound t s.leaf)
    (hapart : ∀ v, d.Opened → d.newVersion = some v → ∀ l, l ≠ k → (s.fds l).Opened →
      (s.fds l).newVersion ≠ some v) :
    (s.setFd k d).Sound t := by
  refine ⟨h.leaf, fun l => ?_, fun l m v hne hl hm hv => ?_⟩
  · by_cases hl : l = k
    · subst hl
      rw [Sys.setFd_self]
      exact hd
    · rw [Sys.setFd_other hl]
      exact h.fds l
  · by_cases hlk : l = k
    · subst hlk
      rw [Sys.setFd_self] at hl hv
      rw [Sys.setFd_other hne.symm] at hm ⊢
      exact hapart v hl hv m hne.symm hm
    · rw [Sys.setFd_other hlk] at hl hv
      by_cases hmk : m = k
      · subst hmk
        rw [Sys.setFd_self] at hm ⊢
        intro hv'
        exact hapart v hm hv' l hlk hl hv
      · rw [Sys.setFd_other hmk] at hm ⊢
        exact h.apart l m v hne hl hm hv

end Aloelite.Rust
