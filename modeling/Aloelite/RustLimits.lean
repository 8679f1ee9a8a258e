import Aloelite.RustLeaves

/-! When the content writes of the Rust engine stay within their integer types: every
operation on a sound leaf, under its bound and past it. -/
namespace Aloelite.Rust

open Machine Outcome Pieces Leaf

variable {B : Build} {t : Target} {L L' M : Leaf} {v w i j c x lo hi : ℤ} {data bytes : Bytes}
  {a : Access} {f g : ℤ → Option Bytes} {e : FsError}

/-- `require_mount` and `resolve` let the caller at the leaf. -/
def Access.Finds (a : Access) : Prop := a.refusal = none ∧ a.container = false

/-- And no other mount holds it. -/
def Access.Grants (a : Access) : Prop := a.Finds ∧ a.held = false

instance : Decidable a.Finds := inferInstanceAs (Decidable (_ ∧ _))

instance : Decidable a.Grants := inferInstanceAs (Decidable (_ ∧ _))

theorem findLeaf_done (h : a.Finds) : findLeaf a L = done () := by
  rw [findLeaf, h.1]
  simp only [h.2, Bool.false_eq_true, if_false]

theorem findLeaf_refused (h : ¬a.Finds) : ∃ e, findLeaf a L = refused e := by
  rw [findLeaf]
  cases hr : a.refusal with
  | some e => exact ⟨e, rfl⟩
  | none =>
    have hcontainer : a.container = true := by
      by_contra hno
      exact h ⟨hr, Bool.eq_false_iff.mpr hno⟩
    exact ⟨_, if_pos hcontainer⟩

theorem writableLeaf_done (h : a.Grants) : writableLeaf a L = done () := by
  rw [writableLeaf, findLeaf_done h.1, done_bind]
  simp only [h.2, Bool.false_eq_true, if_false]

theorem writableLeaf_refused (h : ¬a.Grants) : ∃ e, writableLeaf a L = refused e := by
  rw [writableLeaf]
  by_cases hf : a.Finds
  · have hheld : a.held = true := by
      by_contra hno
      exact h ⟨hf, Bool.eq_false_iff.mpr hno⟩
    exact ⟨_, by rw [findLeaf_done hf, done_bind, if_pos hheld]⟩
  · obtain ⟨e, he⟩ := findLeaf_refused (L := L) hf
    exact ⟨e, by rw [he, refused_bind]⟩

theorem chunkSizeOf_done (hc : 0 < L.chunkSize) (h : t.usize.Holds L.chunkSize) :
    chunkSizeOf B t L = done L.chunkSize := by
  simp only [chunkSizeOf, if_pos hc, Build.cast_of_holds h]

theorem chunkSizeOf_refused (hc : ¬0 < L.chunkSize) : ∃ e, chunkSizeOf B t L = refused e :=
  ⟨_, by simp only [chunkSizeOf, if_neg hc]; rfl⟩

theorem chunkSizeOf_panics (hc : 0 < L.chunkSize) (h : ¬t.usize.Holds L.chunkSize) :
    chunkSizeOf .exact t L = panicked := by
  simp only [chunkSizeOf, if_pos hc, Build.cast_exact h]

namespace Leaf.Sound

variable (hL : L.Sound) (hc : 0 < L.chunkSize)

theorem version_lt : L.version < L.allocVersion := by
  rw [allocVersion]
  have hle := le_max_left L.version ((L.refs.map ChunkRef.version).foldr max 0)
  omega

include hL

theorem tdiv_eq : L.size.tdiv L.chunkSize = L.size / L.chunkSize :=
  Int.tdiv_eq_ediv_of_nonneg hL.nonneg

theorem tmod_eq : L.size.tmod L.chunkSize = L.size % L.chunkSize :=
  Int.tmod_eq_emod_of_nonneg hL.nonneg

include hc

theorem div_nonneg : 0 ≤ L.size / L.chunkSize := Int.ediv_nonneg hL.nonneg hc.le

theorem div_le : L.size / L.chunkSize ≤ 9223372036854775807 :=
  ((le_mul_self hc (hL.div_nonneg hc)).trans (div_bounds hc).1).trans hL.fits

/-- The leading chunks are full. -/
theorem leading (h0 : 0 ≤ i) (hi : i < L.size / L.chunkSize) :
    ∃ d, L.chunk L.version i = some d ∧ (d.length : ℤ) = L.chunkSize := by
  have hle := succ_mul_le hc hi
  have hfull := (div_bounds (x := L.size) hc).1
  obtain ⟨d, hd, hlen⟩ := hL.manifest hc i h0 (by omega)
  exact ⟨d, hd, by omega⟩

/-- What is kept of the old final chunk, when the size does not end on a chunk. -/
theorem tail_eq (hM : Adds L M L.allocVersion f) :
    ∃ d : Bytes, (d.length : ℤ) = L.size % L.chunkSize ∧
      M.tail L.version (L.size / L.chunkSize) t (L.size % L.chunkSize) = toVec t.isizeMax d := by
  have hnonneg := Int.emod_nonneg L.size hc.ne'
  have hlt := Int.emod_lt_of_pos L.size hc
  by_cases hpos : 0 < L.size % L.chunkSize
  · have hdiv := Int.mul_ediv_add_emod L.size L.chunkSize
    have hcomm := Int.mul_comm L.chunkSize (L.size / L.chunkSize)
    obtain ⟨d, hd, hlen⟩ := hL.manifest hc _ (hL.div_nonneg hc) (by omega)
    refine ⟨d, by omega, ?_⟩
    rw [Leaf.tail, if_pos hpos, firstChunk_eq, hM.other version_lt.ne, hd, Option.getD_some]
  · refine ⟨[], by rw [List.length_nil]; omega, ?_⟩
    rw [Leaf.tail, if_neg hpos, toVec,
      if_pos (show ([] : Bytes).length ≤ t.isizeMax from Nat.zero_le _)]

end Leaf.Sound

/-- Rebuilding the content from the last whole chunk on: `append`, and the growing half
of `truncate`. -/
theorem rebuilt {size : ℤ} (hL : L.Sound) (hc : 0 < L.chunkSize)
    (hM : Adds L M L.allocVersion (fun j => if 0 ≤ j ∧ j < L.size / L.chunkSize then
      L.chunk L.version j else none))
    (hlen : L.size / L.chunkSize * L.chunkSize + bytes.length = size)
    (hsize : size ≤ 9223372036854775807) :
    ∃ L', stageFrom B M L.allocVersion (L.size / L.chunkSize) bytes L.chunkSize = done L' ∧
      Grown L L' L.allocVersion size := by
  refine window_staged hc (fun j => chunk_allocVersion le_rfl) hM (hL.div_nonneg hc)
    (by omega) ?_ ?_
  · intro i hi hlt
    exact ⟨if_neg (by omega), by rw [hlen]⟩
  · intro i h0 hi hout
    have hlt : i < L.size / L.chunkSize := by omega
    obtain ⟨d, hd, hd'⟩ := hL.leading hc h0 hlt
    have hle := succ_mul_le hc hlt
    refine ⟨d, (if_pos ⟨h0, hlt⟩).trans hd, ?_⟩
    omega

section

variable (hL : L.Sound) (hc : 0 < L.chunkSize) (hg : a.Grants) (husize : t.usize.Holds L.chunkSize)

include hL hc hg husize

theorem append_done (hdata : data ≠ []) (hfits : L.size + data.length ≤ 9223372036854775807)
    (hwindow : L.size % L.chunkSize + data.length ≤ t.isizeMax) :
    ∃ L', append B t a L data = done (L'.swapPointer L.allocVersion (L.size + data.length),
      L.size + data.length) ∧
      Grown L L' L.allocVersion (L.size + data.length) := by
  have hnonneg := hL.nonneg
  have hcolumn := hL.column
  have hdiv := Int.mul_ediv_add_emod L.size L.chunkSize
  have hcomm := Int.mul_comm L.chunkSize (L.size / L.chunkSize)
  obtain ⟨M, hcarry, hM⟩ : ∃ M, carryLeading B L L.allocVersion L.version (L.size / L.chunkSize) =
    done M ∧ _ :=
    carryLeading_done (hL.div_nonneg hc) (hL.div_le hc) (fun j => chunk_allocVersion le_rfl)
  obtain ⟨d, hd, htail⟩ : ∃ d : Bytes, _ ∧
    M.tail L.version (L.size / L.chunkSize) t (L.size % L.chunkSize) = _ :=
    hL.tail_eq hc hM
  rw [toVec, if_pos (by omega)] at htail
  obtain ⟨L', hstage, hgrown⟩ : ∃ L',
    stageFrom B M L.allocVersion (L.size / L.chunkSize) (d ++ data) L.chunkSize = done L' ∧
      Grown L L' L.allocVersion (L.size + data.length) := by
    apply rebuilt hL hc hM
    · rw [List.length_append]
      push_cast
      omega
    · exact hfits
  have hextend : (extendFromSlice t.isizeMax d data : Outcome FsError Bytes) = done (d ++ data) :=
    if_pos (by omega)
  refine ⟨L', ?_, hgrown⟩
  simp only [append, if_neg hdata, writableLeaf_done hg, chunkSizeOf_done hc husize, done_bind,
    hL.tdiv_eq, hL.tmod_eq,
    Build.cast_of_holds
      (i64_holds.mpr (show -9223372036854775808 ≤ L.chunkSize ∧ L.chunkSize ≤
      9223372036854775807 by omega)),
    hcarry, htail, hextend, Build.cast_of_holds husize, hstage,
    Build.cast_of_holds
      (i64_holds.mpr (show -9223372036854775808 ≤ (data.length : ℤ) ∧ _ by omega)),
    Build.arith_of_holds
      (i64_holds.mpr (show -9223372036854775808 ≤ L.size + data.length ∧ _ by omega)),
    Build.cast_of_holds (u64_holds.mpr (show 0 ≤ L.size + data.length ∧ _ by omega)), pure_eq_done]

theorem append_panics (hdata : data ≠ []) (hlen : data.length ≤ t.isizeMax)
    (hbad : ¬(L.size + data.length ≤ 9223372036854775807 ∧
      L.size % L.chunkSize + data.length ≤ t.isizeMax)) :
    append .exact t a L data = panicked := by
  have hcolumn := hL.column
  have hnonneg := hL.nonneg
  have hlen' : (data.length : ℤ) ≤ 9223372036854775807 := (Int.ofNat_le.mpr hlen).trans isizeMax_le
  obtain ⟨M, hcarry, hM⟩ : ∃ M,
    carryLeading .exact L L.allocVersion L.version (L.size / L.chunkSize) = done M ∧ _ :=
    carryLeading_done (hL.div_nonneg hc) (hL.div_le hc) (fun j => chunk_allocVersion le_rfl)
  obtain ⟨d, hd, htail⟩ : ∃ d : Bytes, _ ∧
    M.tail L.version (L.size / L.chunkSize) t (L.size % L.chunkSize) = _ :=
    hL.tail_eq hc hM
  simp only [append, if_neg hdata, writableLeaf_done hg, chunkSizeOf_done hc husize, done_bind,
    hL.tdiv_eq, hL.tmod_eq,
    Build.cast_of_holds
      (i64_holds.mpr (show -9223372036854775808 ≤ L.chunkSize ∧ L.chunkSize ≤
      9223372036854775807 by omega)),
    hcarry, Build.cast_of_holds husize, htail]
  by_cases hvec : d.length ≤ t.isizeMax
  swap
  · rw [toVec, if_neg hvec, panicked_bind]
  rw [toVec, if_pos hvec, done_bind]
  by_cases hwindow : d.length + data.length ≤ t.isizeMax
  · rw [extendFromSlice, if_pos hwindow, done_bind]
    -- the buffer fits, so it is the new size that does not
    have hsize : ¬i64.Holds (L.size + data.length) := by
      rw [i64_holds]
      omega
    apply bind_panics
    · intro e
      apply stageFrom_ne_refused hc
      intro j hj
      rw [hM.fresh (chunk_allocVersion le_rfl), if_neg (by omega)]
    · intro L' _
      rw [Build.cast_of_holds (i64_holds.mpr (by omega)), done_bind,
        Build.arith_exact hsize, panicked_bind]
  · rw [extendFromSlice, if_neg hwindow, panicked_bind]

omit hg in
theorem shrink_done {size : ℤ} (h0 : 0 ≤ size) (hlt : size < L.size)
    (hvec : 0 < size % L.chunkSize →
      min L.chunkSize (L.size - size / L.chunkSize * L.chunkSize) ≤ t.isizeMax) :
    ∃ L', shrink B t L L.chunkSize L.allocVersion size = done L' ∧
      Grown L L' L.allocVersion size := by
  have hfits := hL.fits
  have hfull0 : 0 ≤ size / L.chunkSize := Int.ediv_nonneg h0 hc.le
  have hfull := (div_bounds (x := size) hc).1
  have hself := le_mul_self hc hfull0
  obtain ⟨M, hcarry, hM⟩ : ∃ M, carryLeading B L L.allocVersion L.version (size / L.chunkSize) =
    done M ∧ _ :=
    carryLeading_done hfull0 (by omega) (fun j => chunk_allocVersion le_rfl)
  have hrest0 := Int.emod_nonneg size hc.ne'
  have hrestlt := Int.emod_lt_of_pos size hc
  have hdiv := Int.mul_ediv_add_emod size L.chunkSize
  have hcomm := Int.mul_comm L.chunkSize (size / L.chunkSize)
  -- the leading chunks are whole in both versions
  have hcarried : ∀ i, 0 ≤ i → i < size / L.chunkSize →
      ∃ d, L.chunk L.version i = some d ∧ (d.length : ℤ) =
      min L.chunkSize (size - i * L.chunkSize) := by
    intro i hi hilt
    have hle := succ_mul_le hc hilt
    obtain ⟨d, hd, hlen⟩ := hL.manifest hc i hi (by omega)
    exact ⟨d, hd, by omega⟩
  simp only [shrink, Int.tdiv_eq_ediv_of_nonneg h0, Int.tmod_eq_emod_of_nonneg h0,
    hcarry, done_bind]
  by_cases hrest : 0 < size % L.chunkSize
  · obtain ⟨d, hd, hlen⟩ := hL.manifest hc _ hfull0 (by omega)
    have hfirst : M.firstChunk L.version (size / L.chunkSize) t = done d := by
      have hd' : d.length ≤ t.isizeMax := by
        have hle := hvec hrest
        omega
      rw [firstChunk_eq, hM.other Leaf.Sound.version_lt.ne, hd, Option.getD_some, toVec, if_pos hd']
    have hslice : (sliceUpTo d (size % L.chunkSize) : Outcome FsError Bytes) =
        done (d.take (size % L.chunkSize).toNat) :=
      if_pos (by omega)
    have hfree : M.chunk L.allocVersion (size / L.chunkSize) = none := by
      rw [hM.fresh (chunk_allocVersion le_rfl), if_neg (by omega)]
    obtain ⟨L', hstage, hadds⟩ : ∃ L',
      M.stageChunk L.allocVersion (size / L.chunkSize) (d.take (size % L.chunkSize).toNat) =
      done L' ∧ _ :=
      stageChunk_done hfree
    refine ⟨L', ?_, by rw [hadds.same, hM.same], fun w j hw => by
      rw [hadds.other hw, hM.other hw], ?_⟩
    · rw [usize_holds] at husize
      rw [if_pos hrest, hfirst, done_bind, Build.cast_of_holds (usize_holds.mpr (by omega)),
        done_bind, hslice, done_bind, hstage]
    · intro i hi hisize
      have hcs : L'.chunkSize = L.chunkSize := by rw [hadds.same, hM.same]
      rw [hcs] at hisize ⊢
      rw [(hM.trans hadds).fresh (chunk_allocVersion le_rfl)]
      rcases (le_of_mul_lt hc (show i * L.chunkSize < size / L.chunkSize * L.chunkSize +
        L.chunkSize by omega)).lt_or_eq with hilt | rfl
      · obtain ⟨d', hd', hlen'⟩ := hcarried i hi hilt
        exact ⟨d', by rw [if_pos ⟨hi, hilt⟩, hd', Option.some_or], hlen'⟩
      · refine ⟨_, by rw [if_neg (by omega), if_pos rfl, Option.none_or], ?_⟩
        rw [List.length_take]
        omega
  · refine ⟨M, if_neg hrest, hM.same, fun w j hw => hM.other hw, ?_⟩
    intro i hi hisize
    have hcs : M.chunkSize = L.chunkSize := by rw [hM.same]
    rw [hcs] at hisize ⊢
    have hilt : i < size / L.chunkSize := by
      by_contra hge
      have hle := Int.mul_le_mul_of_nonneg_right (not_lt.mp hge) hc.le
      omega
    obtain ⟨d, hd, hlen⟩ := hcarried i hi hilt
    exact ⟨d, by rw [hM.fresh (chunk_allocVersion le_rfl), if_pos ⟨hi, hilt⟩, hd], hlen⟩

omit hg husize in
theorem shrink_panics {size : ℤ} (h0 : 0 ≤ size) (hlt : size < L.size)
    (hrest : 0 < size % L.chunkSize)
    (hvec : t.isizeMax < min L.chunkSize (L.size - size / L.chunkSize * L.chunkSize)) :
    shrink .exact t L L.chunkSize L.allocVersion size = panicked := by
  have hfits := hL.fits
  have hfull0 : 0 ≤ size / L.chunkSize := Int.ediv_nonneg h0 hc.le
  have hfull := (div_bounds (x := size) hc).1
  have hself := le_mul_self hc hfull0
  obtain ⟨M, hcarry, hM⟩ : ∃ M,
    carryLeading .exact L L.allocVersion L.version (size / L.chunkSize) = done M ∧ _ :=
    carryLeading_done hfull0 (by omega) (fun j => chunk_allocVersion le_rfl)
  obtain ⟨d, hd, hlen⟩ := hL.manifest hc _ hfull0 (by omega)
  have hfirst : M.firstChunk L.version (size / L.chunkSize) t = panicked := by
    rw [firstChunk_eq, hM.other Leaf.Sound.version_lt.ne, hd, Option.getD_some, toVec,
      if_neg (by omega)]
  simp only [shrink, Int.tdiv_eq_ediv_of_nonneg h0, Int.tmod_eq_emod_of_nonneg h0, hcarry,
    done_bind, if_pos hrest, hfirst,
    panicked_bind]

omit hg in
theorem grow_done {size : ℤ} (hlt : L.size < size) (hsize : size ≤ 9223372036854775807)
    (hwindow : size - L.size / L.chunkSize * L.chunkSize ≤ t.isizeMax) :
    ∃ L', grow B t L L.chunkSize L.allocVersion size = done L' ∧
      Grown L L' L.allocVersion size := by
  have hnonneg := hL.nonneg
  have hfull0 := hL.div_nonneg hc
  have hfull := (div_bounds (x := L.size) hc).1
  have hself := le_mul_self hc hfull0
  obtain ⟨M, hcarry, hM⟩ : ∃ M, carryLeading B L L.allocVersion L.version (L.size / L.chunkSize) =
    done M ∧ _ :=
    carryLeading_done hfull0 (hL.div_le hc) (fun j => chunk_allocVersion le_rfl)
  obtain ⟨d, hd, htail⟩ : ∃ d : Bytes, _ ∧
    M.tail L.version (L.size / L.chunkSize) t (L.size % L.chunkSize) = _ :=
    hL.tail_eq hc hM
  have hdiv := Int.mul_ediv_add_emod L.size L.chunkSize
  have hcomm := Int.mul_comm L.chunkSize (L.size / L.chunkSize)
  rw [toVec, if_pos (by omega)] at htail
  obtain ⟨pad, hpad, hlen⟩ : ∃ u : Bytes,
    (resize t.isizeMax d (size - L.size / L.chunkSize * L.chunkSize) 0 : Outcome FsError Bytes) =
    done u ∧ _ :=
    resize_done (by omega) hwindow
  obtain ⟨L', hstage, hgrown⟩ : ∃ L',
    stageFrom B M L.allocVersion (L.size / L.chunkSize) pad L.chunkSize = done L' ∧
      Grown L L' L.allocVersion size := rebuilt hL hc hM (by omega) hsize
  refine ⟨L', ?_, hgrown⟩
  simp only [grow, hL.tdiv_eq, hL.tmod_eq, hcarry, done_bind, htail,
    Build.arith_of_holds
      (i64_holds.mpr (show -9223372036854775808 ≤ L.size / L.chunkSize * L.chunkSize ∧ _ by omega)),
    Build.arith_of_holds
      (i64_holds.mpr (show -9223372036854775808 ≤ size - L.size / L.chunkSize * L.chunkSize ∧
      _ by omega)),
    Build.cast_of_holds
      (usize_of_le (show 0 ≤ size - L.size / L.chunkSize * L.chunkSize by omega) hwindow), hpad,
    Build.cast_of_holds husize, hstage]

omit hg husize in
theorem grow_panics {size : ℤ} (hlt : L.size < size) (hsize : size ≤ 9223372036854775807)
    (hwindow : t.isizeMax < size - L.size / L.chunkSize * L.chunkSize) :
    grow .exact t L L.chunkSize L.allocVersion size = panicked := by
  have hnonneg := hL.nonneg
  have hfull0 := hL.div_nonneg hc
  have hfull := (div_bounds (x := L.size) hc).1
  have hself := le_mul_self hc hfull0
  have hrest := Int.emod_lt_of_pos L.size hc
  have hdiv := Int.mul_ediv_add_emod L.size L.chunkSize
  have hcomm := Int.mul_comm L.chunkSize (L.size / L.chunkSize)
  obtain ⟨M, hcarry, hM⟩ : ∃ M,
    carryLeading .exact L L.allocVersion L.version (L.size / L.chunkSize) = done M ∧ _ :=
    carryLeading_done hfull0 (hL.div_le hc) (fun j => chunk_allocVersion le_rfl)
  obtain ⟨d, hd, htail⟩ : ∃ d : Bytes, _ ∧
    M.tail L.version (L.size / L.chunkSize) t (L.size % L.chunkSize) = _ :=
    hL.tail_eq hc hM
  simp only [grow, hL.tdiv_eq, hL.tmod_eq, hcarry, done_bind, htail]
  by_cases hvec : d.length ≤ t.isizeMax
  swap
  · rw [toVec, if_neg hvec, panicked_bind]
  simp only [toVec, if_pos hvec, done_bind,
    Build.arith_of_holds
      (i64_holds.mpr (show -9223372036854775808 ≤ L.size / L.chunkSize * L.chunkSize ∧ _ by omega)),
    Build.arith_of_holds
      (i64_holds.mpr (show -9223372036854775808 ≤ size - L.size / L.chunkSize * L.chunkSize ∧
      _ by omega))]
  by_cases hcast : t.usize.Holds (size - L.size / L.chunkSize * L.chunkSize)
  · rw [Build.cast_of_holds hcast, done_bind, resize, if_neg (by omega),
      if_neg (by omega), panicked_bind]
  · rw [Build.cast_exact hcast, panicked_bind]

/-- The conditions of `truncate`: the size is an `i64`, and the chunk that is cut or the
zeros that are added fit a vector. -/
def TruncateFits (t : Target) (L : Leaf) (size : ℤ) : Prop :=
  size ≤ 9223372036854775807 ∧
    (L.size < size → size - L.size / L.chunkSize * L.chunkSize ≤ t.isizeMax) ∧
    (size < L.size → 0 < size % L.chunkSize →
    min L.chunkSize (L.size - size / L.chunkSize * L.chunkSize) ≤ t.isizeMax)

theorem truncate_done {size : ℤ} (h0 : 0 ≤ size) (hfits : TruncateFits t L size)
    (hne : size ≠ L.size) :
    ∃ L', truncate B t a L size = done (L'.swapPointer L.allocVersion size, 0) ∧
      Grown L L' L.allocVersion size := by
  have hcolumn := hL.column
  have hsize := hfits.1
  have hopen : truncate B t a L size = (if size < L.size then do
      let staged ← shrink B t L L.chunkSize L.allocVersion size
      done (staged.swapPointer L.allocVersion size, 0)
    else do
      let staged ← grow B t L L.chunkSize L.allocVersion size
      done (staged.swapPointer L.allocVersion size, 0)) := by
    simp only [truncate, writableLeaf_done hg, chunkSizeOf_done hc husize, done_bind, if_neg hne,
      Build.cast_of_holds
        (i64_holds.mpr (show -9223372036854775808 ≤ L.chunkSize ∧ L.chunkSize ≤
        9223372036854775807 by omega)),
      Build.cast_of_holds
        (i64_holds.mpr (show -9223372036854775808 ≤ size ∧ size ≤ 9223372036854775807 by omega)),
        pure_eq_done]
  by_cases hlt : size < L.size
  · obtain ⟨L', hstage, hgrown⟩ : ∃ L', shrink B t L L.chunkSize L.allocVersion size = done L' ∧
      _ :=
      shrink_done hL hc husize h0 hlt (hfits.2.2 hlt)
    exact ⟨L', by rw [hopen, if_pos hlt, hstage, done_bind], hgrown⟩
  · obtain ⟨L', hstage, hgrown⟩ : ∃ L', grow B t L L.chunkSize L.allocVersion size = done L' ∧ _ :=
      grow_done hL hc husize (by omega) hsize (hfits.2.1 (by omega))
    exact ⟨L', by rw [hopen, if_neg hlt, hstage, done_bind], hgrown⟩

theorem truncate_same : truncate B t a L L.size = done (L, 0) := by
  have hcolumn := hL.column
  have hnonneg := hL.nonneg
  have hfits := hL.fits
  simp only [truncate, writableLeaf_done hg, chunkSizeOf_done hc husize, done_bind,
    Build.cast_of_holds
      (i64_holds.mpr (show -9223372036854775808 ≤ L.chunkSize ∧ L.chunkSize ≤
      9223372036854775807 by omega)),
    Build.cast_of_holds
      (i64_holds.mpr (show -9223372036854775808 ≤ L.size ∧ L.size ≤ 9223372036854775807 by omega)),
    if_pos, pure_eq_done]

theorem truncate_panics {size : ℤ} (h0 : 0 ≤ size) (hbad : ¬TruncateFits t L size) :
    truncate .exact t a L size = panicked := by
  have hcolumn := hL.column
  have hnonneg := hL.nonneg
  simp only [truncate, writableLeaf_done hg, chunkSizeOf_done hc husize, done_bind,
    Build.cast_of_holds
      (i64_holds.mpr (show -9223372036854775808 ≤ L.chunkSize ∧ L.chunkSize ≤
      9223372036854775807 by omega))]
  by_cases hsize : size ≤ 9223372036854775807
  · rw [Build.cast_of_holds (i64_holds.mpr (show -9223372036854775808 ≤ size ∧ _ by omega)),
      done_bind]
    rcases lt_trichotomy size L.size with hlt | rfl | hgt
    · have hcut : 0 < size % L.chunkSize ∧
          t.isizeMax < min L.chunkSize (L.size - size / L.chunkSize * L.chunkSize) := by
        by_contra hno
        exact hbad ⟨hsize, fun h => absurd h hlt.asymm, fun _ hrest =>
          not_lt.mp fun h => hno ⟨hrest, h⟩⟩
      rw [if_neg hlt.ne, if_pos hlt, shrink_panics hL hc h0 hlt hcut.1 hcut.2, panicked_bind]
    · exact absurd ⟨hsize, fun h => absurd h (lt_irrefl _), fun h => absurd h (lt_irrefl _)⟩ hbad
    · have hwindow : t.isizeMax < size - L.size / L.chunkSize * L.chunkSize := by
        by_contra hle
        exact hbad ⟨hsize, fun _ => not_lt.mp hle, fun h => absurd h hgt.asymm⟩
      rw [if_neg hgt.ne', if_neg hgt.asymm, grow_panics hL hc hgt hsize hwindow, panicked_bind]
  · rw [Build.cast_exact (by rw [i64_holds]; omega), panicked_bind]

end

/-- The lengths of the chunks of a range add up to the bytes it covers. -/
theorem window_length (hL : L.Sound) (hc : 0 < L.chunkSize) (h0 : 0 ≤ lo)
    (hle : lo * L.chunkSize ≤ L.size) {n : ℕ}
    (hin : ∀ k : ℕ, k < n → (lo + k) * L.chunkSize < L.size) :
    ((((List.range n).filterMap
      (fun k : ℕ => L.chunk L.version (lo + k))).flatten.length : ℕ) : ℤ) =
      min L.size ((lo + n) * L.chunkSize) - lo * L.chunkSize := by
  induction n with
  | zero =>
    simp only [List.range_zero, List.filterMap_nil, List.flatten_nil, List.length_nil,
      Nat.cast_zero, add_zero]
    omega
  | succ n ih =>
    have hn := hin n (by omega)
    obtain ⟨d, hd, hlen⟩ := hL.manifest hc (lo + n) (by omega) hn
    have hsum : (lo + ((n + 1 : ℕ) : ℤ)) * L.chunkSize = (lo + n) * L.chunkSize + L.chunkSize := by
      push_cast
      ring
    have hprior := ih (fun k hk => hin k (by omega))
    rw [List.range_succ, List.filterMap_append, List.flatten_append, List.length_append, hsum]
    simp only [List.filterMap_cons, List.filterMap_nil, hd, List.flatten_cons,
      List.flatten_nil, List.append_nil]
    push_cast
    omega

theorem readWindow_eq {chunks : List Bytes} :
    readWindow t chunks = if chunks.flatten.length ≤ t.isizeMax then done chunks.flatten
      else panicked := by
  have hall : ∀ (cs : List Bytes) (buf : Bytes), buf.length ≤ t.isizeMax →
      cs.foldlM (fun buf chunk => (extendFromSlice t.isizeMax buf chunk : Outcome FsError Bytes))
        buf =
        if buf.length + cs.flatten.length ≤ t.isizeMax then done (buf ++ cs.flatten)
          else panicked := by
    intro cs
    induction cs with
    | nil =>
      intro buf hbuf
      rw [List.foldlM_nil, List.flatten_nil, List.length_nil, if_pos (by omega),
        List.append_nil, pure_eq_done]
    | cons chunk rest ih =>
      intro buf hbuf
      rw [List.foldlM_cons, extendFromSlice, List.flatten_cons, List.length_append]
      by_cases hfits : buf.length + chunk.length ≤ t.isizeMax
      · rw [if_pos hfits, done_bind, ih _ (by rw [List.length_append]; exact hfits),
          List.length_append, List.append_assoc,
          Nat.add_assoc]
      · rw [if_neg hfits, panicked_bind, if_neg (by omega)]
  have hnil := hall chunks [] (Nat.zero_le _)
  rw [List.length_nil, Nat.zero_add, List.nil_append] at hnil
  exact hnil

theorem fillTo_done (hx : x ≤ t.isizeMax) :
    ∃ u, fillTo t bytes x = done u ∧ (u.length : ℤ) = max (bytes.length : ℤ) x := by
  rw [fillTo]
  by_cases hlt : bytes.length < x
  · rw [if_pos hlt]
    obtain ⟨u, hu, hlen⟩ : ∃ u : Bytes,
      (resize t.isizeMax bytes x 0 : Outcome FsError Bytes) = done u ∧ _ :=
      resize_done (by omega) hx
    exact ⟨u, hu, by omega⟩
  · exact ⟨bytes, if_neg hlt, by omega⟩

theorem patchWindow_done (hlo : 0 ≤ lo) (hhi : lo + data.length = hi) (hx : hi ≤ t.isizeMax) :
    ∃ u, patchWindow t bytes data lo hi = done u ∧ (u.length : ℤ) = max (bytes.length : ℤ) hi := by
  obtain ⟨u, hu, hulen⟩ : ∃ u, fillTo t bytes lo = done u ∧ _ := fillTo_done (by omega)
  obtain ⟨w, hw, hwlen⟩ : ∃ w, fillTo t u hi = done w ∧ _ := fillTo_done hx
  obtain ⟨z, hz, hzlen⟩ : ∃ z, (copyFromSlice w data lo hi : Outcome FsError Bytes) = done z ∧
    z.length = w.length :=
    copyFromSlice_done hlo (by omega) hhi.symm
  exact ⟨z, by rw [patchWindow, hu, done_bind, hw, done_bind, hz], by omega⟩

/-- A window longer than a vector can be panics when it is filled up. -/
theorem patchWindow_panics (hbytes : bytes.length ≤ t.isizeMax) (hle : lo ≤ hi)
    (hx : t.isizeMax < hi) :
    patchWindow t bytes data lo hi = panicked := by
  rw [patchWindow]
  by_cases hlo : lo ≤ t.isizeMax
  · obtain ⟨u, hu, hulen⟩ : ∃ u, fillTo t bytes lo = done u ∧ _ := fillTo_done hlo
    rw [hu, done_bind, fillTo, if_pos (by omega), resize_panics (by omega) hx, panicked_bind]
  · rw [fillTo, if_pos (by omega), resize_panics hbytes (by omega), panicked_bind]

theorem lastIndex_done (h0 : 0 ≤ x) (hx : x ≤ 9223372036854775807) :
    lastIndex B x c = done (if 0 < x then (x - 1) / c else -1) := by
  rw [lastIndex]
  by_cases hpos : 0 < x
  · rw [if_pos hpos, if_pos hpos, Build.arith_of_holds (i64_holds.mpr (by omega)), done_bind,
      pure_eq_done,
      Int.tdiv_eq_ediv_of_nonneg (by omega)]
  · rw [if_neg hpos, if_neg hpos]

/-- The chunks on both sides of a window, carried into a version without rows. -/
theorem carried_around (h0 : 0 ≤ lo) (hle : lo ≤ hi) (hx : hi ≤ 9223372036854775807)
    (hlast : x ≤ 9223372036854775807) (hv : v < L.allocVersion) :
    ∃ P M, carryLeading B L L.allocVersion v lo = done P ∧
      carryTrailing B P L.allocVersion v hi x = done M ∧
      Adds L M L.allocVersion (fun j => if (0 ≤ j ∧ j < lo) ∨ (hi < j ∧ j ≤ x) then
        L.chunk v j else none) := by
  obtain ⟨P, hlead, hP⟩ : ∃ P, carryLeading B L L.allocVersion v lo = done P ∧ _ :=
    carryLeading_done h0 (by omega) (fun j => chunk_allocVersion le_rfl)
  by_cases hlt : hi < x
  · have hfree : ∀ j, hi + 1 ≤ j → j ≤ x → P.chunk L.allocVersion j = none := by
      intro j hj _
      rw [hP.fresh (chunk_allocVersion le_rfl), if_neg (by omega)]
    obtain ⟨M, htrail, hM⟩ : ∃ M, P.carry v (hi + 1) x L.allocVersion = done M ∧ _ :=
      carry_done hfree
    refine ⟨P, M, hlead, ?_, (hP.trans hM).congr fun j => ?_⟩
    · rw [carryTrailing, if_pos hlt, Build.arith_of_holds (i64_holds.mpr (by omega)),
        done_bind, htrail]
    · rw [hP.other hv.ne]
      by_cases hj : 0 ≤ j ∧ j < lo
      · rw [if_pos hj, if_neg (by omega), if_pos (Or.inl hj), Option.or_none]
      · rw [if_neg hj, Option.none_or]
        congr 1
        apply propext
        omega
  · refine ⟨P, P, hlead, if_neg hlt, hP.congr fun j => ?_⟩
    congr 1
    apply propext
    omega

/-- Where the window of a write begins: at the chunk of the offset, or of the old end. -/
def Leaf.windowLo (L : Leaf) (offset : ℤ) : ℤ := min (offset / L.chunkSize) (L.size / L.chunkSize)

/-- The chunk of the last byte written. -/
def Leaf.windowHi (L : Leaf) (offset len : ℤ) : ℤ := (offset + len - 1) / L.chunkSize

/-- Where the window ends: with the data, or with the old bytes of its last chunk. -/
def Leaf.windowEnd (L : Leaf) (offset len : ℤ) : ℤ :=
  max (offset + len) (min L.size (L.windowHi offset len * L.chunkSize + L.chunkSize))

section

variable {offset : ℤ} (hL : L.Sound) (hc : 0 < L.chunkSize) (h0 : 0 ≤ offset) (hdata : data ≠ [])

include hc h0 hdata

theorem window_bounds (hsize : 0 ≤ L.size) :
    0 ≤ L.windowLo offset ∧ L.windowLo offset ≤ L.windowHi offset data.length ∧
      L.windowLo offset * L.chunkSize ≤ offset ∧ L.windowLo offset * L.chunkSize ≤ L.size ∧
      L.windowHi offset data.length * L.chunkSize < offset + data.length ∧
      offset + data.length ≤ L.windowHi offset data.length * L.chunkSize + L.chunkSize := by
  have hpos : 0 < data.length := List.length_pos_iff.mpr hdata
  have hoffset := (div_bounds (x := offset) hc).1
  have hold := (div_bounds (x := L.size) hc).1
  have hhi := div_bounds (x := offset + data.length - 1) hc
  have hle : offset / L.chunkSize ≤ (offset + data.length - 1) / L.chunkSize :=
    Int.ediv_le_ediv hc (by omega)
  have hlo := Int.mul_le_mul_of_nonneg_right
      (min_le_left (offset / L.chunkSize) (L.size / L.chunkSize)) hc.le
  have hlo' := Int.mul_le_mul_of_nonneg_right
      (min_le_right (offset / L.chunkSize) (L.size / L.chunkSize)) hc.le
  have hnonneg : 0 ≤ offset / L.chunkSize := Int.ediv_nonneg h0 hc.le
  have hnonneg' : 0 ≤ L.size / L.chunkSize := Int.ediv_nonneg hsize hc.le
  rw [Leaf.windowLo, Leaf.windowHi]
  omega

include hL

/-- The old bytes of the window. -/
theorem window_read :
    (((if L.windowLo offset ≤
      min (L.windowHi offset data.length) (if 0 < L.size then (L.size - 1) / L.chunkSize else -1)
        then
        L.readChunkRange L.version (L.windowLo offset)
          (min (L.windowHi offset data.length) (if 0 < L.size then
            (L.size - 1) / L.chunkSize else -1))
      else []).flatten.length : ℕ) : ℤ) =
      min L.size (L.windowHi offset data.length * L.chunkSize + L.chunkSize) - L.windowLo offset *
        L.chunkSize := by
  have hnonneg := hL.nonneg
  obtain ⟨hlo0, hlohi, -, hlosize, -, -⟩ := window_bounds hc h0 hdata hnonneg
  generalize L.windowLo offset = lo at *
  generalize L.windowHi offset data.length = hi at *
  have hmul := Int.mul_le_mul_of_nonneg_right hlohi hc.le
  have hlomul := Int.mul_nonneg hlo0 hc.le
  have hlast := div_bounds (x := L.size - 1) hc
  generalize hlasteq : (if 0 < L.size then (L.size - 1) / L.chunkSize else -1) = last
  by_cases hle : lo ≤ min hi last
  · rw [if_pos hle, readChunkRange, window_length hL hc hlo0 hlosize]
    · have hpos : 0 < L.size := by
        by_contra hneg
        rw [if_neg hneg] at hlasteq
        omega
      rw [if_pos hpos] at hlasteq
      rw [hlasteq] at hlast
      rw [Int.toNat_of_nonneg (by omega), show lo + (min hi last + 1 - lo) =
        min hi last + 1 by omega, Int.add_mul, Int.one_mul]
      rcases le_or_gt hi last with hhi | hhi
      · rw [min_eq_left hhi]
      · rw [min_eq_right hhi.le]
        have hbeyond := succ_mul_le hc hhi
        omega
    · intro k hk
      have hklast : lo + k ≤ last := by omega
      have hpos : 0 < L.size := by
        by_contra hneg
        rw [if_neg hneg] at hlasteq
        omega
      rw [if_pos hpos] at hlasteq
      rw [hlasteq] at hlast
      have hkmul := Int.mul_le_mul_of_nonneg_right hklast hc.le
      omega
  · rw [if_neg hle, List.flatten_nil, List.length_nil]
    have hlastlo : last < lo := by omega
    by_cases hpos : 0 < L.size
    · rw [if_pos hpos] at hlasteq
      rw [hlasteq] at hlast
      have hbeyond := succ_mul_le hc hlastlo
      omega
    · omega

/-- A write whose end is an `i64`, up to the reading of its window. -/
theorem writeRange_opened (hg : a.Grants) (husize : t.usize.Holds L.chunkSize)
    (hfits : offset + data.length ≤ 9223372036854775807) :
    ∃ (M : Leaf) (chunks : List Bytes),
      Adds L M L.allocVersion (fun j => if (0 ≤ j ∧ j < L.windowLo offset) ∨
        (L.windowHi offset data.length < j ∧ j ≤ if 0 < L.size then
          (L.size - 1) / L.chunkSize else -1) then
          L.chunk L.version j else none) ∧
      (chunks.flatten.length : ℤ) =
        min L.size (L.windowHi offset data.length * L.chunkSize + L.chunkSize) -
        L.windowLo offset * L.chunkSize ∧
      writeRange B t a L offset data = do
        let buf ← readWindow t chunks
        let startAt ← B.cast t.usize (offset - L.windowLo offset * L.chunkSize)
        let stopAt ← B.cast t.usize (offset + data.length - L.windowLo offset * L.chunkSize)
        let window ← patchWindow t buf data startAt stopAt
        let staged ← stageFrom B M L.allocVersion (L.windowLo offset) window L.chunkSize
        return (staged.swapPointer L.allocVersion (max L.size (offset + data.length)),
          max L.size (offset + data.length)) := by
  have hnonneg := hL.nonneg
  have hsize := hL.fits
  have hcolumn := hL.column
  obtain ⟨hlo0, hlohi, hlooff, hlosize, hhilt, hhile⟩ := window_bounds hc h0 hdata hnonneg
  have hread := window_read hL hc h0 hdata
  have hpos : 0 < data.length := List.length_pos_iff.mpr hdata
  have hhi : L.windowHi offset data.length ≤ 9223372036854775807 := by
    have hself := le_mul_self hc (show 0 ≤ L.windowHi offset data.length by omega)
    omega
  have hlast : (if 0 < L.size then (L.size - 1) / L.chunkSize else -1) ≤ 9223372036854775807 := by
    split
    · have hself := Int.ediv_le_self L.chunkSize (show 0 ≤ L.size - 1 by omega)
      omega
    · omega
  obtain ⟨P, M, hlead, htrail, hM⟩ : ∃ P M,
    carryLeading B L L.allocVersion L.version (L.windowLo offset) = done P ∧
      carryTrailing B P L.allocVersion L.version (L.windowHi offset data.length)
        (if 0 < L.size then (L.size - 1) / L.chunkSize else -1) = done M ∧ _ :=
    carried_around hlo0 hlohi hhi hlast Leaf.Sound.version_lt
  refine ⟨M, _, hM, hread, ?_⟩
  have hrange : ∀ lo hi, M.readChunkRange L.version lo hi = L.readChunkRange L.version lo hi := by
    intro lo hi
    simp only [readChunkRange, hM.other Leaf.Sound.version_lt.ne]
  have hloeq : min (offset / L.chunkSize) (L.size / L.chunkSize) = L.windowLo offset := rfl
  have hhieq : (offset + data.length - 1) / L.chunkSize = L.windowHi offset data.length := rfl
  -- none of the checked sums leaves an `i64`: all are at most the end of the write or of the file
  have hmul := Int.mul_nonneg hlo0 hc.le
  simp only [writeRange, if_neg hdata, writableLeaf_done hg, chunkSizeOf_done hc husize, done_bind,
    pure_eq_done,
    Build.cast_of_holds (i64_holds.mpr (show -9223372036854775808 ≤ L.chunkSize ∧ _ by omega)),
    Build.cast_of_holds (i64_holds.mpr (show -9223372036854775808 ≤ offset ∧ _ by omega)),
    Build.cast_of_holds
      (i64_holds.mpr (show -9223372036854775808 ≤ (data.length : ℤ) ∧ _ by omega)),
    Build.arith_of_holds
      (i64_holds.mpr (show -9223372036854775808 ≤ offset + data.length ∧ _ by omega)),
    Build.arith_of_holds
      (i64_holds.mpr (show -9223372036854775808 ≤ offset + data.length - 1 ∧ _ by omega)),
    Int.tdiv_eq_ediv_of_nonneg (show 0 ≤ offset + data.length - 1 by omega),
    Int.tdiv_eq_ediv_of_nonneg h0, hL.tdiv_eq,
    lastIndex_done hnonneg hsize, hloeq, hhieq, hlead, htrail, hrange, Build.cast_of_holds husize,
    Build.arith_of_holds
      (i64_holds.mpr (show -9223372036854775808 ≤ L.windowLo offset * L.chunkSize ∧ _ by omega)),
    Build.arith_of_holds
      (i64_holds.mpr (show -9223372036854775808 ≤ offset - L.windowLo offset * L.chunkSize ∧
      _ by omega)),
    Build.arith_of_holds (i64_holds.mpr
      (show -9223372036854775808 ≤ offset + data.length - L.windowLo offset * L.chunkSize ∧
      _ by omega)),
    Build.cast_of_holds (u64_holds.mpr (show 0 ≤ max L.size (offset + data.length) ∧ _ by omega))]

/-- The conditions of `write_range`: the end is an `i64`, and the window fits a vector. -/
def WriteFits (t : Target) (L : Leaf) (offset len : ℤ) : Prop :=
  offset + len ≤ 9223372036854775807 ∧ L.windowEnd offset len - L.windowLo offset * L.chunkSize ≤
    t.isizeMax

theorem writeRange_done (hg : a.Grants) (husize : t.usize.Holds L.chunkSize)
    (hfits : WriteFits t L offset data.length) :
    ∃ L', writeRange B t a L offset data =
        done (L'.swapPointer L.allocVersion (max L.size (offset + data.length)),
          max L.size (offset + data.length)) ∧
      Grown L L' L.allocVersion (max L.size (offset + data.length)) := by
  have hnonneg := hL.nonneg
  have hsize := hL.fits
  obtain ⟨hend, hwindow⟩ := hfits
  rw [Leaf.windowEnd] at hwindow
  obtain ⟨hlo0, hlohi, hlooff, hlosize, hhilt, hhile⟩ := window_bounds hc h0 hdata hnonneg
  have hpos : 0 < data.length := List.length_pos_iff.mpr hdata
  obtain ⟨M, chunks, hM, hlen, hopened⟩ : ∃ M chunks, _ ∧ _ ∧ writeRange B t a L offset data = _ :=
    writeRange_opened hL hc h0 hdata hg husize hend
  obtain ⟨window, hpatch, hwlen⟩ : ∃ u,
    patchWindow t chunks.flatten data (offset - L.windowLo offset * L.chunkSize)
      (offset + data.length - L.windowLo offset * L.chunkSize) = done u ∧ _ :=
    patchWindow_done (by omega) (by omega) (by omega)
  have hleading : ∀ i, 0 ≤ i → i < L.windowLo offset →
      ∃ d, L.chunk L.version i = some d ∧ (d.length : ℤ) = L.chunkSize := by
    intro i hi hilt
    exact hL.leading hc hi (hilt.trans_le (min_le_right _ _))
  -- the window covers what is written and the rest of the old chunks it begins in
  have hcover : L.windowLo offset * L.chunkSize + window.length =
      L.windowEnd offset data.length := by
    rw [hwlen, hlen, Leaf.windowEnd]
    omega
  obtain ⟨L', hstage, hgrown⟩ : ∃ L',
    stageFrom B M L.allocVersion (L.windowLo offset) window L.chunkSize = done L' ∧
      Grown L L' L.allocVersion (max L.size (offset + data.length)) := by
    refine window_staged hc (fun j => chunk_allocVersion le_rfl) hM hlo0 ?_ ?_ ?_
    · rw [hcover, Leaf.windowEnd]
      omega
    · intro i hi hilt
      rw [hcover, Leaf.windowEnd] at hilt
      rw [hcover, Leaf.windowEnd]
      have hihi : i ≤ L.windowHi offset data.length := le_of_mul_lt hc (by omega)
      refine ⟨if_neg (by omega), ?_⟩
      have hmul := Int.mul_le_mul_of_nonneg_right hihi hc.le
      omega
    · intro i hi hisize hout
      rw [hcover, Leaf.windowEnd] at hout
      rcases hout with hilt | hge
      · obtain ⟨d, hd, hdlen⟩ := hleading i hi hilt
        have hmul := succ_mul_le hc hilt
        exact ⟨d, (if_pos (Or.inl ⟨hi, hilt⟩)).trans hd, by omega⟩
      · obtain ⟨d, hd, hdlen⟩ := hL.manifest hc i hi (by omega)
        have hihi : L.windowHi offset data.length < i := by
          by_contra hle
          have hmul := Int.mul_le_mul_of_nonneg_right (not_lt.mp hle) hc.le
          omega
        have hilast : i ≤ (if 0 < L.size then (L.size - 1) / L.chunkSize else -1) := by
          have hmul := Int.mul_nonneg hi hc.le
          rw [if_pos (by omega), Int.le_ediv_iff_mul_le hc]
          omega
        exact ⟨d, (if_pos (Or.inr ⟨hihi, hilast⟩)).trans hd, by omega⟩
  refine ⟨L', ?_, hgrown⟩
  rw [hopened, readWindow_eq, if_pos (by omega), done_bind,
    Build.cast_of_holds (usize_of_le (by omega) (by omega)), done_bind,
    Build.cast_of_holds (usize_of_le (by omega) (by omega)), done_bind, hpatch, done_bind, hstage,
    done_bind, pure_eq_done]

theorem writeRange_panics (hg : a.Grants) (husize : t.usize.Holds L.chunkSize)
    (hlen : data.length ≤ t.isizeMax) (hbad : ¬WriteFits t L offset data.length) :
    writeRange .exact t a L offset data = panicked := by
  have hnonneg := hL.nonneg
  have hcolumn := hL.column
  have hlen' : (data.length : ℤ) ≤ 9223372036854775807 := (Int.ofNat_le.mpr hlen).trans isizeMax_le
  by_cases hend : offset + data.length ≤ 9223372036854775807
  · obtain ⟨hlo0, hlohi, hlooff, hlosize, hhilt, hhile⟩ := window_bounds hc h0 hdata hnonneg
    obtain ⟨M, chunks, hM, hread, hopened⟩ : ∃ M chunks, _ ∧ _ ∧
      writeRange .exact t a L offset data = _ :=
      writeRange_opened hL hc h0 hdata hg husize hend
    have hwindow : t.isizeMax <
        L.windowEnd offset data.length - L.windowLo offset * L.chunkSize := by
      by_contra hle
      exact hbad ⟨hend, not_lt.mp hle⟩
    rw [Leaf.windowEnd] at hwindow
    rw [hopened, readWindow_eq]
    by_cases hbuf : chunks.flatten.length ≤ t.isizeMax
    · rw [if_pos hbuf, done_bind]
      by_cases hstart : t.usize.Holds (offset - L.windowLo offset * L.chunkSize)
      · rw [Build.cast_of_holds hstart, done_bind]
        by_cases hstop : t.usize.Holds (offset + data.length - L.windowLo offset * L.chunkSize)
        · rw [Build.cast_of_holds hstop, done_bind,
            patchWindow_panics hbuf (by omega) (by omega), panicked_bind]
        · rw [Build.cast_exact hstop, panicked_bind]
      · rw [Build.cast_exact hstart, panicked_bind]
    · rw [if_neg hbuf, panicked_bind]
  · simp only [writeRange, if_neg hdata, writableLeaf_done hg, chunkSizeOf_done hc husize,
      done_bind,
      Build.cast_of_holds (i64_holds.mpr (show -9223372036854775808 ≤ L.chunkSize ∧ _ by omega))]
    by_cases hoffset : i64.Holds offset
    · rw [Build.cast_of_holds hoffset, done_bind, Build.cast_of_holds (i64_holds.mpr (by omega)),
        done_bind,
        Build.arith_exact (by rw [i64_holds]; omega), panicked_bind]
    · rw [Build.cast_exact hoffset, panicked_bind]

end

end Aloelite.Rust
