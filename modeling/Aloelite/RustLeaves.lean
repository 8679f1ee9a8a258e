import Aloelite.RustContent

/-! The rows of a leaf of the Rust engine: what staging and carrying chunks adds, and
the manifest a committed size stands for. -/
namespace Aloelite.Rust

open Machine Outcome Pieces

variable {B : Build} {t : Target} {L L' L'' : Leaf} {v w i j c x lo hi : ℤ} {data bytes : Bytes}
  {f g : ℤ → Option Bytes} {e : FsError}

theorem i64_holds : i64.Holds x ↔ -9223372036854775808 ≤ x ∧ x ≤ 9223372036854775807 := by
  rw [IntType.Holds, IntType.high, IntType.low, i64]
  norm_num

theorem u64_holds : u64.Holds x ↔ 0 ≤ x ∧ x ≤ 18446744073709551615 := by
  rw [IntType.Holds, IntType.high, IntType.low, u64]
  norm_num

theorem isizeMax_le : (t.isizeMax : ℤ) ≤ 9223372036854775807 := by
  cases t <;> decide

/-- Twice `isize::MAX` fits a `usize`, and no more than a `u64` does. -/
theorem usize_holds : t.usize.Holds x ↔ 0 ≤ x ∧ x ≤ 2 * t.isizeMax + 1 := by
  cases t
  · change (0 ≤ x ∧ x ≤ 4294967295) ↔ (0 ≤ x ∧ x ≤ 2 * 2147483647 + 1)
    omega
  · exact u64_holds

theorem usize_of_le (h0 : 0 ≤ x) (h : x ≤ t.isizeMax) : t.usize.Holds x := by
  rw [usize_holds]
  omega

/-- A quotient is the number of whole pieces. -/
theorem div_bounds (hc : 0 < c) : x / c * c ≤ x ∧ x < x / c * c + c := by
  have hdiv := Int.mul_ediv_add_emod x c
  have hnonneg := Int.emod_nonneg x hc.ne'
  have hlt := Int.emod_lt_of_pos x hc
  have hcomm := Int.mul_comm c (x / c)
  omega

theorem succ_mul_le (hc : 0 < c) (h : i < j) : i * c + c ≤ j * c := by
  have hmul := Int.mul_le_mul_of_nonneg_right (show i + 1 ≤ j by omega) hc.le
  have hadd := Int.add_mul i 1 c
  omega

theorem le_of_mul_lt (hc : 0 < c) (h : i * c < j * c + c) : i ≤ j := by
  by_contra hlt
  have hle := succ_mul_le hc (not_le.mp hlt)
  omega

theorem le_mul_self (hc : 0 < c) (h : 0 ≤ i) : i ≤ i * c := by
  have hle := Int.mul_le_mul_of_nonneg_left (show 1 ≤ c by omega) h
  omega

namespace Leaf

/-- A version that is allocated has no rows yet. -/
theorem chunk_allocVersion (h : L.allocVersion ≤ v) : L.chunk v j = none := by
  rw [chunk, Option.map_eq_none_iff, List.find?_eq_none]
  intro r hr
  have hle : ∀ vs : List ℤ, ∀ w ∈ vs, w ≤ vs.foldr max 0 := by
    intro vs
    induction vs with
    | nil =>
      intro w hw
      cases hw
    | cons u us ih =>
      intro w hw
      rw [List.foldr_cons]
      rcases List.mem_cons.mp hw with rfl | hw
      · exact le_max_left _ _
      · exact (ih w hw).trans (le_max_right _ _)
  have hrow := hle _ r.version (List.mem_map.mpr ⟨r, hr, rfl⟩)
  rw [allocVersion] at h
  simp only [decide_eq_true_eq, not_and]
  omega

theorem lt_allocVersion (h : L.chunk v j ≠ none) : v < L.allocVersion := by
  by_contra hle
  exact h (chunk_allocVersion (not_lt.mp hle))

theorem firstChunk_eq : L.firstChunk v i t = toVec t.isizeMax ((L.chunk v i).getD []) := by
  have hone : (i + 1 - i).toNat = 1 := by omega
  rw [firstChunk, readChunkRange, hone]
  cases h : L.chunk v i <;> simp [h]

/-- `L'` is `L` with new rows of version `v`, where `f` says which. -/
structure Adds (L L' : Leaf) (v : ℤ) (f : ℤ → Option Bytes) : Prop where
  same : L' = { L with refs := L'.refs }
  chunk : ∀ w j, L'.chunk w j = (L.chunk w j).or (if w = v then f j else none)

theorem Adds.refl : Adds L L v (fun _ => none) := by
  refine ⟨rfl, fun w j => ?_⟩
  rw [ite_self, Option.or_none]

theorem Adds.trans (h : Adds L L' v f) (h' : Adds L' L'' v g) :
    Adds L L'' v (fun j => (f j).or (g j)) := by
  constructor
  · rw [h'.same, h.same]
  · intro w j
    rw [h'.chunk, h.chunk]
    by_cases hw : w = v
    · rw [if_pos hw, if_pos hw, if_pos hw, Option.or_assoc]
    · rw [if_neg hw, if_neg hw, if_neg hw, Option.or_none]

theorem Adds.other (h : Adds L L' v f) (hw : w ≠ v) : L'.chunk w j = L.chunk w j := by
  rw [h.chunk, if_neg hw, Option.or_none]

/-- In a version without rows only the new ones stand. -/
theorem Adds.fresh (h : Adds L L' v f) (hv : L.chunk v j = none) : L'.chunk v j = f j := by
  rw [h.chunk, if_pos rfl, hv, Option.none_or]

theorem Adds.congr (h : Adds L L' v f) (hfg : ∀ j, f j = g j) : Adds L L' v g :=
  funext hfg ▸ h

theorem chunk_append {rows : List ChunkRef} : ({ L with refs := L.refs ++ rows } : Leaf).chunk w j =
    (L.chunk w j).or ((rows.find? (fun r => r.version = w ∧ r.index = j)).map ChunkRef.data) := by
  rw [Leaf.chunk, Leaf.chunk, List.find?_append, Option.map_or]

theorem stageChunk_done (h : L.chunk v i = none) :
    ∃ L', L.stageChunk v i data = done L' ∧
      Adds L L' v (fun j => if j = i then some data else none) := by
  refine ⟨_, if_neg (by rw [h]; exact Bool.false_ne_true), rfl, fun w j => ?_⟩
  rw [chunk_append]
  congr 1
  by_cases hw : w = v
  · by_cases hj : j = i
    · subst hw hj
      simp
    · simp [hw, hj, Ne.symm hj]
  · simp [hw, Ne.symm hw]

theorem carry_done (h : ∀ j, lo ≤ j → j ≤ hi → L.chunk w j = none) :
    ∃ L', L.carry v lo hi w = done L' ∧
      Adds L L' w (fun j => if lo ≤ j ∧ j ≤ hi then L.chunk v j else none) := by
  have hno : ¬∃ r ∈ L.refs.filter (fun r => r.version = v ∧ lo ≤ r.index ∧ r.index ≤ hi),
      (L.chunk w r.index).isSome := by
    rintro ⟨r, hr, hsome⟩
    obtain ⟨-, -, hlo, hhi⟩ := by simpa only [List.mem_filter, decide_eq_true_eq] using hr
    rw [h _ hlo hhi] at hsome
    cases hsome
  refine ⟨_, if_neg hno, rfl, fun u j => ?_⟩
  rw [chunk_append]
  congr 1
  rw [List.find?_map, List.find?_filter, Option.map_map]
  by_cases hu : u = w
  · subst hu
    rw [if_pos rfl]
    by_cases hj : lo ≤ j ∧ j ≤ hi
    · rw [if_pos hj, Leaf.chunk]
      refine congrArg (Option.map ChunkRef.data)
        (congrFun (congrArg List.find? (funext fun r => ?_)) L.refs)
      apply decide_eq_decide.mpr
      simp only [Function.comp_apply, decide_eq_true_eq]
      constructor
      · rintro ⟨⟨hv, -⟩, -, hr⟩
        exact ⟨hv, hr⟩
      · rintro ⟨hv, rfl⟩
        exact ⟨⟨hv, hj⟩, trivial, rfl⟩
    · rw [if_neg hj, Option.map_eq_none_iff, List.find?_eq_none]
      rintro r -
      simp only [Function.comp_apply, decide_eq_true_eq]
      rintro ⟨⟨-, hrow⟩, -, rfl⟩
      exact hj hrow
  · rw [if_neg hu, Option.map_eq_none_iff, List.find?_eq_none]
    rintro r -
    simp only [Function.comp_apply, decide_eq_true_eq]
    rintro ⟨-, rfl, -⟩
    exact hu rfl

end Leaf

open Leaf

theorem carryLeading_done (h0 : 0 ≤ x) (hx : x ≤ 9223372036854775807)
    (hw : ∀ j, L.chunk w j = none) :
    ∃ L', carryLeading B L w v x = done L' ∧
      Adds L L' w (fun j => if 0 ≤ j ∧ j < x then L.chunk v j else none) := by
  rw [carryLeading]
  by_cases hpos : 0 < x
  · obtain ⟨L', hcarry, hadds⟩ : ∃ L', L.carry v 0 (x - 1) w = done L' ∧ _ :=
      carry_done (fun j _ _ => hw j)
    refine ⟨L', ?_, hadds.congr fun j => ?_⟩
    · rw [if_pos hpos, Build.arith_of_holds (i64_holds.mpr (by omega)), done_bind, hcarry]
    · simp only [show j ≤ x - 1 ↔ j < x by omega]
  · refine ⟨L, if_neg hpos, Adds.refl.congr fun j => ?_⟩
    rw [if_neg (by omega)]

theorem stageAll_done {chunks : List Bytes}
    (hv : ∀ j, i ≤ j → j < i + chunks.length → L.chunk v j = none) (h0 : 0 ≤ i)
    (hi : i + chunks.length ≤ 9223372036854775807) :
    ∃ L', stageAll B L v i chunks = done L' ∧
      Adds L L' v (fun j => if i ≤ j then chunks[(j - i).toNat]? else none) := by
  induction chunks generalizing L i with
  | nil =>
    refine ⟨L, rfl, Adds.refl.congr fun j => ?_⟩
    simp
  | cons chunk rest ih =>
    rw [List.length_cons] at hi hv
    have hi0 : L.chunk v i = none := hv i le_rfl (by omega)
    obtain ⟨M, hstage, hadds⟩ : ∃ M, L.stageChunk v i chunk = done M ∧ _ := stageChunk_done hi0
    have hM : ∀ j, i + 1 ≤ j → j < i + 1 + rest.length → M.chunk v j = none := by
      intro j hj hlt
      rw [hadds.fresh (hv j (by omega) (by omega)), if_neg (by omega)]
    obtain ⟨N, hrest, hadds'⟩ := ih hM (by omega) (by omega)
    refine ⟨N, ?_, (hadds.trans hadds').congr fun j => ?_⟩
    · rw [stageAll, hstage, done_bind,
        Build.arith_of_holds (i64_holds.mpr (by omega)), done_bind, hrest]
    · rcases lt_trichotomy j i with hj | rfl | hj
      · rw [if_neg hj.ne, if_neg (by omega), if_neg (by omega), Option.or_none]
      · rw [if_pos rfl, Option.some_or, if_pos le_rfl, Int.sub_self]
        rfl
      · rw [if_neg hj.ne', if_pos (by omega), if_pos hj.le, Option.none_or,
          show (j - i).toNat = (j - (i + 1)).toNat + 1 by omega, List.getElem?_cons_succ]

/-- Staging over free places never refuses; past the end of `i64` the exact build panics. -/
theorem stageAll_ne_refused {chunks : List Bytes} (hv : ∀ j, i ≤ j → L.chunk v j = none) :
    stageAll .exact L v i chunks ≠ refused e := by
  induction chunks generalizing L i with
  | nil =>
    intro h
    cases h
  | cons chunk rest ih =>
    obtain ⟨M, hstage, hadds⟩ : ∃ M, L.stageChunk v i chunk = done M ∧ _ :=
      stageChunk_done (hv i le_rfl)
    rw [stageAll, hstage, done_bind]
    by_cases hi : i64.Holds (i + 1)
    · rw [Build.arith_of_holds hi, done_bind]
      apply ih
      intro j hj
      rw [hadds.fresh (hv j (by omega)), if_neg (by omega)]
    · rw [Build.arith_exact hi, panicked_bind]
      intro h
      cases h

theorem stageFrom_ne_refused (hc : 0 < c) (hv : ∀ j, i ≤ j → L.chunk v j = none) :
    stageFrom .exact L v i bytes c ≠ refused e := by
  rw [stageFrom, splitChunks, if_pos hc, done_bind]
  exact stageAll_ne_refused hv

/-- The length of a piece. -/
theorem piece_at (hc : 0 < c) (h0 : 0 ≤ i) (h : i * c < bytes.length) :
    ∃ p, (pieces c.toNat bytes)[i.toNat]? = some p ∧ (p.length : ℤ) =
      min c (bytes.length - i * c) := by
  lift c to ℕ using hc.le
  lift i to ℕ using h0
  rw [Int.toNat_natCast, Int.toNat_natCast]
  have hc' : 0 < c := by exact_mod_cast hc
  have hlt : i * c < bytes.length := by exact_mod_cast h
  have hin : i < (pieces c bytes).length := by
    rw [length_pieces]
    apply Nat.lt_of_succ_le
    rw [Nat.le_div_iff_mul_le hc', Nat.succ_mul]
    omega
  refine ⟨_, List.getElem?_eq_getElem hin, ?_⟩
  rw [length_getElem?_pieces (List.getElem?_eq_getElem hin)]
  push_cast [Nat.cast_sub hlt.le]
  rfl

theorem pieces_bound (hc : 0 < c) (h0 : 0 ≤ i) (h : i * c + bytes.length ≤ x) :
    i + (pieces c.toNat bytes).length ≤ x := by
  by_cases hnil : bytes = []
  · subst hnil
    rw [pieces_nil, List.length_nil]
    have hle := le_mul_self hc h0
    rw [List.length_nil] at h
    omega
  · lift c to ℕ using hc.le
    have hc' : 0 < c := by exact_mod_cast hc
    have hpos : 0 < bytes.length := List.length_pos_iff.mpr hnil
    rw [Int.toNat_natCast, length_pieces]
    have hq := Nat.div_mul_le_self (bytes.length + c - 1) c
    have hq1 : 1 ≤ (bytes.length + c - 1) / c := (Nat.le_div_iff_mul_le hc').mpr (by omega)
    generalize (bytes.length + c - 1) / c = q at hq hq1 ⊢
    have hle := le_mul_self (i := i + q - 1) hc (by omega)
    have hmul : (i + q - 1) * (c : ℤ) = i * c + q * c - c := by ring
    have hq' : (q : ℤ) * c ≤ bytes.length + c - 1 := by
      have hcast : ((q * c : ℕ) : ℤ) ≤ ((bytes.length + c - 1 : ℕ) : ℤ) := by exact_mod_cast hq
      push_cast [Nat.cast_sub (show 1 ≤ bytes.length + c by omega)] at hcast
      exact hcast
    omega

/-- The manifest of a version of `size` bytes: every chunk is full but the last. -/
def Leaf.Manifest (L : Leaf) (v size : ℤ) : Prop :=
  ∀ i, 0 ≤ i → i * L.chunkSize < size →
    ∃ d, L.chunk v i = some d ∧ (d.length : ℤ) = min L.chunkSize (size - i * L.chunkSize)

/-- The committed size is what the manifest of the committed version holds. -/
structure Leaf.Sound (L : Leaf) : Prop where
  nonneg : 0 ≤ L.size
  fits : L.size ≤ 9223372036854775807
  column : L.chunkSize ≤ 9223372036854775807
  manifest : 0 < L.chunkSize → L.Manifest L.version L.size

/-- `L'` is `L` with a new version of `size` bytes staged in it. -/
structure Leaf.Grown (L L' : Leaf) (v size : ℤ) : Prop where
  same : L' = { L with refs := L'.refs }
  other : ∀ w j, w ≠ v → L'.chunk w j = L.chunk w j
  manifest : L'.Manifest v size

/-- A window staged over chunks that are carried on both sides of it. -/
theorem window_staged {M : Leaf} {size : ℤ} (hc : 0 < L.chunkSize) (hv : ∀ j, L.chunk v j = none)
    (hM : Adds L M v f)
    (hlo : 0 ≤ lo) (hbound : lo * L.chunkSize + bytes.length ≤ 9223372036854775807)
    (hinside : ∀ i, lo ≤ i → i * L.chunkSize < lo * L.chunkSize + bytes.length →
      f i = none ∧ min L.chunkSize (lo * L.chunkSize + bytes.length - i * L.chunkSize) =
        min L.chunkSize (size - i * L.chunkSize))
    (houtside : ∀ i, 0 ≤ i → i * L.chunkSize < size → i < lo ∨
      lo * L.chunkSize + bytes.length ≤ i * L.chunkSize →
      ∃ d, f i = some d ∧ (d.length : ℤ) = min L.chunkSize (size - i * L.chunkSize)) :
    ∃ L', stageFrom B M v lo bytes L.chunkSize = done L' ∧ Grown L L' v size := by
  have hfresh : ∀ j, lo ≤ j → j < lo + (pieces L.chunkSize.toNat bytes).length →
      M.chunk v j = none := by
    intro j hj hlt
    have hin : (j - lo) * L.chunkSize < bytes.length := by
      by_contra hout
      have hle : (pieces L.chunkSize.toNat bytes).length ≤ (j - lo).toNat := by
        apply length_pieces_le (by omega)
        zify
        rw [Int.toNat_of_nonneg (by omega), Int.toNat_of_nonneg hc.le]
        exact not_lt.mp hout
      omega
    have hmul := Int.sub_mul j lo L.chunkSize
    rw [hM.fresh (hv j)]
    exact (hinside j hj (by omega)).1
  obtain ⟨L', hstage, hadds⟩ := stageAll_done (B := B) hfresh hlo (pieces_bound hc hlo hbound)
  refine ⟨L', ?_, ?_, ?_, ?_⟩
  · rw [stageFrom, splitChunks, if_pos hc, done_bind, hstage]
  · rw [hadds.same, hM.same]
  · intro w j hw
    rw [hadds.other hw, hM.other hw]
  · intro i hi hsize
    have hcs : L'.chunkSize = L.chunkSize := by rw [hadds.same, hM.same]
    rw [hcs] at hsize ⊢
    rw [(hM.trans hadds).fresh (hv i)]
    by_cases hout : i < lo ∨ lo * L.chunkSize + bytes.length ≤ i * L.chunkSize
    · obtain ⟨d, hd, hlen⟩ := houtside i hi hsize hout
      exact ⟨d, by rw [hd, Option.some_or], hlen⟩
    · rw [not_or, not_lt, not_le] at hout
      obtain ⟨hle, hlt⟩ := hout
      obtain ⟨hnone, hmin⟩ := hinside i hle hlt
      have hmul := Int.sub_mul i lo L.chunkSize
      obtain ⟨p, hp, hlen⟩ : ∃ p, (pieces L.chunkSize.toNat bytes)[(i - lo).toNat]? = some p ∧ _ :=
        piece_at hc (by omega) (by omega)
      refine ⟨p, ?_, ?_⟩
      · rw [hnone, Option.none_or, if_pos hle, hp]
      · rw [hlen, ← hmin, hmul]
        congr 1
        omega

end Aloelite.Rust
