import Aloelite.Contents
import Aloelite.Library.Patches

/-! A write stages the next version whole: chunks carried by reference, a window cut anew. -/
namespace Aloelite

open Fallible KeyedRows ForestOrder Relation Numbered Pieces Patches

variable {C : Crypto} {σ : Type} {R : Reading C σ} {V : VolumeId} {E : Env} {k : Cipher} {db : Db}
  {tx tx' tx₁ tx₂ : Tx} {n : NodeId} {v w size count cs : ℕ} {data : Bytes} {mount : MountId}
  {path : String}

/-- A cipher that suits every volume the mount may act on. -/
def Reading.FitsMount (R : Reading C σ) (E : Env) (k : Cipher) (db : Db) (mount : MountId) : Prop :=
  ∀ write m, requireMount E k db mount write = .ok m → R.Fits k m.volume

/-! ### One rewritten version -/

/-- A leaf that a request resolved, with what it holds. -/
theorem Tx.Stored.leaf {write : Bool} {m : MountCtx} {found : Resolved} (h : tx.Stored R)
    (hh : tx.db.Homed) (hm : requireMount E k tx.db mount write = .ok m)
    (hfound : resolve tx.db m.mountPoint path = .ok found) (hleaf : found.type ≠ .container) :
    tx.db.home? found.node = some m.volume ∧ ∃ c, tx.db.content? found.node = some c ∧
      Kept R m.volume tx.db found.node c.version c.size (tx.committed found.node) := by
  have hhome := hh.resolve hm hfound
  have hsome := h.2 found.node found.type (by simp) (resolve_nodeType hfound) hleaf
  obtain ⟨c, hc⟩ := Option.isSome_iff_exists.mp hsome
  exact ⟨hhome, c, hc, h.1.committed hhome hc⟩

theorem openContent_leaf {m : MountCtx} (h : tx.Stored R) (hh : tx.db.Homed)
    (hopen : openContent E k tx.db mount path = .ok (m, n)) :
    requireMount E k tx.db mount true = .ok m ∧ tx.db.home? n = some m.volume ∧
      ∃ c, tx.db.content? n = some c ∧
        Kept R m.volume tx.db n c.version c.size (tx.committed n) := by
  obtain ⟨hm, type, hleaf, hfound⟩ := openContent_ok hopen
  exact ⟨hm, h.leaf hh hm hfound hleaf⟩

theorem Db.node?_isSome_of_home (h : db.home? n = some V) : (db.node? n).isSome := by
  rw [Db.home?, Option.map_eq_some_iff] at h
  obtain ⟨r, hr, -⟩ := h
  exact Option.isSome_iff_exists.mpr ⟨r, hr⟩

theorem Stmt.run_history {st : Stmt} (h : tx.run E st = .ok tx') :
    tx'.committed = tx.committed ∧ tx'.aliased = tx.aliased := by
  obtain ⟨db', -, rfl⟩ := Tx.run_ok.mp h
  exact ⟨rfl, rfl⟩

/-- The next version staged whole, then made the committed one. -/
theorem Tx.Stored.rewritten (h : tx.Stored R) (hV : tx.db.home? n = some V)
    (hstaged : Staged R V n (tx.db.nextVersion n)
      (numbered 0 (pieces (chunkSizeOf tx.db V) (data.map R.glance))) tx tx₁)
    (hcs : 0 < chunkSizeOf tx.db V ∨ data = []) (hsize : size = data.length)
    (hswap : tx₁.run E (.updateContent n (tx.db.nextVersion n) size) = .ok tx₂) :
    (tx₂.gives n data).Stored R := by
  have hfresh : HoldsAt R V tx.db n (tx.db.nextVersion n) [] := holdsAt_nil manifest_nextVersion
  have hholds := hstaged.holdsAt hfresh
  have hmid : tx₁.Stored R :=
    h.grown hstaged.toGrown (Db.node?_isSome_of_home hV) committedVersion_ne_nextVersion
  refine hmid.swap hswap (hstaged.home.trans hV) ⟨hsize, ?_, fun hzero =>
    absurd hzero nextVersion_pos, ?_⟩
  · rw [hstaged.chunkSize]
    exact hcs
  · rw [List.nil_append] at hholds
    rw [hstaged.chunkSize]
    exact hholds

/-- A content write that took: the next version of an entry staged whole with `data`,
then made the committed one. -/
def Rewrites (R : Reading C σ) (E : Env) (V : VolumeId) (n : NodeId) (data : Bytes) (tx tx' : Tx) :
    Prop :=
  ∃ tx₁ tx₂, Staged R V n (tx.db.nextVersion n)
      (numbered 0 (pieces (chunkSizeOf tx.db V) (data.map R.glance))) tx tx₁ ∧
    (0 < chunkSizeOf tx.db V ∨ data = []) ∧
    tx₁.run E (.updateContent n (tx.db.nextVersion n) data.length) = .ok tx₂ ∧
    tx' = tx₂.gives n data

theorem Rewrites.stored (h : Rewrites R E V n data tx tx') (hs : tx.Stored R)
    (hV : tx.db.home? n = some V) : tx'.Stored R := by
  obtain ⟨tx₁, tx₂, hstaged, hcs, hswap, rfl⟩ := h
  exact hs.rewritten hV hstaged hcs rfl hswap

/-! The alias flag is never taken back, so it was clear at the start of what ends with
it clear. -/

theorem Tx.stageChunk_aliased {i : ℕ} (h : tx.stageChunk C E k n v i data = .ok tx')
    (hal : tx'.aliased = false) : tx.aliased = false := by
  rw [(stageChunk_ok h).2.1, Bool.or_eq_false_iff] at hal
  exact hal.1

theorem Tx.stageFrom_aliased {i : ℕ} {chunks : List Bytes}
    (h : tx.stageFrom C E k n v i chunks = .ok tx') (hal : tx'.aliased = false) :
    tx.aliased = false := by
  induction chunks generalizing tx i with
  | nil =>
    obtain rfl := Except.ok.inj h
    exact hal
  | cons chunk chunks ih =>
    simp only [Tx.stageFrom, bind_eq_ok] at h
    obtain ⟨tx₁, hchunk, hrest⟩ := h
    exact Tx.stageChunk_aliased hchunk (ih hrest)

theorem putInitialContent_aliased {m : MountCtx} (h : putInitialContent C E k tx m n data = .ok tx')
    (hal : tx'.aliased = false) : tx.aliased = false := by
  simp only [putInitialContent, bind_eq_ok] at h
  obtain ⟨tx₁, hcreate, h⟩ := h
  rw [← (Stmt.run_history hcreate).2]
  split at h
  · obtain rfl := Except.ok.inj h
    exact hal
  · simp only [Tx.stageChunks, bind_eq_ok] at h
    obtain ⟨parts, -, hstage⟩ := h
    have hfirst : (tx₁.gives n data).aliased = false := Tx.stageFrom_aliased hstage hal
    exact hfirst

theorem carryTrailing_aliased {hi : ℕ} {srcLast : Int}
    (h : carryTrailing E tx n w v hi srcLast = .ok tx') (hal : tx'.aliased = false) :
    tx.aliased = false := by
  rw [Aloelite.carryTrailing] at h
  split at h
  · rw [← (Stmt.run_history h).2]
    exact hal
  · obtain rfl := Except.ok.inj h
    exact hal

theorem writeAll_stored (hk : R.FitsMount E k tx.db mount) (hh : tx.db.Homed) (h : tx.Stored R)
    (hwrite : writeAll C E k tx mount path data = .ok tx')
    (hal : R.wary = true → tx'.aliased = false) :
    tx'.Stored R := by
  simp only [writeAll, bind_eq_ok, pure_eq_ok] at hwrite
  obtain ⟨⟨m, node⟩, hopen, tx₁, hstage, tx₂, hswap, rfl⟩ := hwrite
  obtain ⟨hm, hhome, -⟩ := openContent_leaf h hh hopen
  have hal₁ : R.wary = true → tx₁.aliased = false := by
    rw [← (Stmt.run_history hswap).2]
    exact hal
  obtain ⟨hstaged, hcs⟩ := stageChunks_staged (hk true m hm) h.1.addressed hstage hal₁
  exact h.rewritten hhome hstaged hcs rfl hswap

/-! ### Carried and read parts of a version -/

/-- The chunks below `count`, carried. -/
theorem Kept.carryLeading (h : Kept R V tx.db n v size data) (hcs : chunkSizeOf tx.db V = cs)
    (hpos : 0 < cs) (hcarry : carryLeading E tx n w v count = .ok tx')
    (hal : R.wary = true → tx'.aliased = false) :
    Staged R V n w (numbered 0 (pieces cs ((data.map R.glance).take (count * cs)))) tx tx' := by
  refine carryLeading_staged hcarry ?_ ?_ hal
  · intro _
    rw [pieces_take hpos, ← hcs]
    exact Holds.first h.holds count
  · intro hzero
    rw [hzero, Nat.zero_mul, List.take_zero, pieces_nil]

/-- The chunks up to the last one cover the content. -/
theorem covers_srcLast {srcLast : Int} (hpos : 0 < cs)
    (hlast : srcLast = if 0 < size then (((size - 1) / cs : ℕ) : Int) else -1) :
    -1 ≤ srcLast ∧ size ≤ (srcLast + 1).toNat * cs := by
  split at hlast
  next hs =>
    have hlt := Nat.lt_div_mul_add (a := size - 1) hpos
    generalize (size - 1) / cs = q at hlast hlt
    have htop : (srcLast + 1).toNat = q + 1 := by omega
    rw [htop, Nat.add_mul]
    omega
  next hs => omega

/-- The chunks from `hi + 1` on, carried. -/
theorem Kept.carryTrailing {hi : ℕ} {srcLast : Int} (h : Kept R V tx.db n v size data)
    (hcs : chunkSizeOf tx.db V = cs) (hpos : 0 < cs)
    (hlast : srcLast = if 0 < size then (((size - 1) / cs : ℕ) : Int) else -1)
    (hcarry : carryTrailing E tx n w v hi srcLast = .ok tx')
    (hal : R.wary = true → tx'.aliased = false) :
    Staged R V n w (numbered (hi + 1) (pieces cs ((data.map R.glance).drop ((hi + 1) * cs)))) tx
      tx' := by
  have hlen : (data.map R.glance).length = size := by rw [List.length_map, h.size]
  obtain ⟨hleast, hcover⟩ := covers_srcLast hpos hlast
  rw [Aloelite.carryTrailing] at hcarry
  split at hcarry
  next hlt =>
    have htop : srcLast.toNat + 1 = (srcLast + 1).toNat := by omega
    refine copyChunkRefsRange_staged hcarry ?_ hal
    have hrange : Matches R V tx.db ((tx.db.manifest n v).filter
          (fun r => hi + 1 ≤ r.chunkIndex ∧ r.chunkIndex ≤ srcLast.toNat)) _ := HoldsAt.range
            h.holds
    rw [hcs, htop, ← pieces_take hpos, ← pieces_drop hpos,
      List.take_of_length_le (hlen.le.trans hcover)] at hrange
    exact hrange
  next hge =>
    obtain rfl := Except.ok.inj hcarry
    have hnil : (data.map R.glance).drop ((hi + 1) * cs) = [] := by
      have hle : (srcLast + 1).toNat ≤ hi + 1 := by omega
      apply List.drop_eq_nil_of_le
      rw [hlen]
      exact hcover.trans (Nat.mul_le_mul_right cs hle)
    rw [hnil, pieces_nil, numbered_nil]
    exact Staged.refl hal

/-- The partial final chunk of a version. -/
theorem Kept.readTail {tail : Bytes} (hk : R.Fits k V) (h : Kept R V db n v size data)
    (hcs : chunkSizeOf db V = cs) (hpos : 0 < cs) (hread : readTail C k db n v size cs = .ok tail) :
    tail.map R.glance = (data.map R.glance).drop (size / cs * cs) := by
  have hlen : (data.map R.glance).length = size := by rw [List.length_map, h.size]
  have hmod : size / cs * cs + size % cs = size := Nat.div_add_mod' size cs
  rw [Aloelite.readTail] at hread
  split at hread
  next hrem =>
    simp only [bind_eq_ok, pure_eq_ok] at hread
    obtain ⟨rows, hrows, rfl⟩ := hread
    have hparts := h.holds.readChunkRange hk hrows
    have hrest : (data.map R.glance).drop (size / cs * cs) ≠ [] := by
      rw [← List.length_pos_iff, List.length_drop, hlen]
      omega
    have hshort : ((data.map R.glance).drop (size / cs * cs)).length ≤ cs := by
      rw [List.length_drop, hlen]
      have hlt := Nat.mod_lt size hpos
      omega
    rw [hcs, List.drop_take, ← pieces_drop hpos, pieces_of_le hrest hshort,
      show size / cs + 1 - size / cs = 1 by omega, List.take_one] at hparts
    cases rows with
    | nil => cases hparts
    | cons row rows => exact (List.cons.inj hparts).1
  next hfull =>
    obtain rfl := Except.ok.inj hread
    rw [List.drop_eq_nil_of_le (by omega), List.map_nil]

/-- The old bytes of a window of chunks. -/
theorem Kept.readWindow {buf : Bytes} {lo hi : ℕ} {srcLast : Int} (hk : R.Fits k V)
    (h : Kept R V db n v size data) (hcs : chunkSizeOf db V = cs) (hpos : 0 < cs) (hlo : lo ≤ hi)
    (hlast : srcLast = if 0 < size then (((size - 1) / cs : ℕ) : Int) else -1)
    (hread : readWindow C k db n v lo (min (hi : Int) srcLast) = .ok buf) :
    buf.map R.glance = ((data.map R.glance).take ((hi + 1) * cs)).drop (lo * cs) := by
  have hlen : (data.map R.glance).length = size := by rw [List.length_map, h.size]
  obtain ⟨hleast, hcover⟩ := covers_srcLast hpos hlast
  rw [Aloelite.readWindow] at hread
  split at hread
  next hle =>
    simp only [bind_eq_ok, pure_eq_ok] at hread
    obtain ⟨rows, hrows, rfl⟩ := hread
    have hparts := h.holds.readChunkRange hk hrows
    rw [List.map_flatten, hparts, hcs, flatten_range hpos]
    -- a window past the last chunk reads to the end
    by_cases hend : (hi : Int) ≤ srcLast
    · have htop : (min (hi : Int) srcLast).toNat = hi := by omega
      rw [htop]
    · have htop : (min (hi : Int) srcLast).toNat + 1 = (srcLast + 1).toNat := by omega
      have hall : size ≤ (hi + 1) * cs := hcover.trans (Nat.mul_le_mul_right cs (by omega))
      rw [htop, List.take_of_length_le (hlen.le.trans hcover),
        List.take_of_length_le (hlen.le.trans hall)]
  next hgt =>
    have hle : (srcLast + 1).toNat ≤ lo := by omega
    have hpast : size ≤ lo * cs := hcover.trans (Nat.mul_le_mul_right cs hle)
    obtain rfl := Except.ok.inj hread
    rw [List.map_nil, eq_comm, List.drop_eq_nil_iff, List.length_take, hlen]
    exact (Nat.min_le_right _ _).trans hpast

/-! ### Writes -/

theorem readContentMeta_of_content {c : ContentRow} (hc : db.content? n = some c) :
    (readContentMeta db n).getD (0, 0) = (c.version, c.size) := by
  rw [readContentMeta, hc]
  rfl

/-- The committed version and the next one of an entry differ. -/
theorem Kept.beside {c : ContentRow} (h : Kept R V tx.db n c.version c.size data)
    (hc : tx.db.content? n = some c) {l : List (ℕ × List σ)}
    (hs : Staged R V n (tx.db.nextVersion n) l tx tx₁) :
    Kept R V tx₁.db n c.version c.size data := by
  refine hs.kept ?_ h
  rintro ⟨-, heq⟩
  have hcommitted : tx.db.committedVersion n = some c.version := by
    rw [Db.committedVersion, hc]
    rfl
  exact absurd heq (lt_nextVersion hcommitted).ne

/-- A version rebuilt from its full leading chunks and a new end. -/
theorem numbered_pieces_extend {g t : List σ} (hpos : 0 < cs) (hle : count * cs ≤ g.length) :
    numbered 0 (pieces cs (g.take (count * cs))) ++ numbered count (pieces cs t) =
      numbered 0 (pieces cs (g.take (count * cs) ++ t)) := by
  refine numbered_pieces_append hpos ?_
  rw [List.length_take]
  omega

/-- `append` of some data rewrites its leaf as it was with the data at its end. -/
theorem append_rewrites (hk : R.FitsMount E k tx.db mount) (hh : tx.db.Homed) (h : tx.Stored R)
    (hdata : data ≠ []) (hwrite : append C E k tx mount path data = .ok (tx', size))
    (hal : R.wary = true → tx'.aliased = false) :
    ∃ m n, openContent E k tx.db mount path = .ok (m, n) ∧ tx.db.home? n = some m.volume ∧
      Rewrites R E m.volume n (tx.committed n ++ data) tx tx' ∧
      size = (tx.committed n ++ data).length := by
  simp only [append, if_neg hdata, bind_eq_ok, pure_eq_ok, refuse_eq_ok, Prod.mk.injEq,
    decide_eq_false_iff_not] at hwrite
  obtain ⟨⟨m, node⟩, hopen, u, hcs, tx₁, hcarry, tail, htail, tx₂, hstage, tx₃, hswap, rfl, rfl⟩ :=
    hwrite
  obtain ⟨hm, hhome, c, hc, hkept⟩ := openContent_leaf h hh hopen
  have hpos : 0 < chunkSizeOf tx.db m.volume := Nat.pos_of_ne_zero hcs
  rw [readContentMeta_of_content hc] at hcarry htail hstage hswap
  have hal₂ : R.wary = true → tx₂.aliased = false := by
    rw [← (Stmt.run_history hswap).2]
    exact hal
  have hal₁ : R.wary = true → tx₁.aliased = false := fun hw => Tx.stageFrom_aliased hstage (hal₂ hw)
  have hcarried := hkept.carryLeading rfl hpos hcarry hal₁
  have htail' := (hkept.beside hc hcarried).readTail (hk true m hm) hcarried.chunkSize hpos htail
  have hstaged := stageFrom_staged (hk true m hm) (hcarried.addressed h.1.addressed) hstage hal₂
  rw [map_pieces, List.map_append, htail'] at hstaged
  have hwhole := hcarried.trans hstaged
  have hle : c.size / chunkSizeOf tx.db m.volume * chunkSizeOf tx.db m.volume ≤
      ((tx.committed node).map R.glance).length := by
    rw [List.length_map, ← hkept.size]
    exact Nat.div_mul_le_self _ _
  rw [numbered_pieces_extend hpos hle, ← List.append_assoc,
    List.take_append_drop, ← List.map_append]
    at hwhole
  have hsame : tx₃.committed node = tx.committed node := by
    rw [(Stmt.run_history hswap).1, hwhole.committed]
  have hnew : c.size + data.length = (tx.committed node ++ data).length := by
    rw [List.length_append, hkept.size]
  rw [hsame]
  refine ⟨m, node, hopen, hhome, ⟨tx₂, tx₃, hwhole, Or.inl hpos, ?_, rfl⟩, ?_⟩
  · rw [← hnew]
    exact hswap
  · rw [readContentMeta_of_content hc]
    exact hnew

theorem append_stored (hk : R.FitsMount E k tx.db mount) (hh : tx.db.Homed) (h : tx.Stored R)
    (hwrite : append C E k tx mount path data = .ok (tx', size))
    (hal : R.wary = true → tx'.aliased = false) : tx'.Stored R := by
  by_cases hdata : data = []
  · simp only [append, if_pos hdata, bind_eq_ok, pure_eq_ok, Prod.mk.injEq] at hwrite
    obtain ⟨size', -, rfl, -⟩ := hwrite
    exact h
  · obtain ⟨m, n, -, hhome, hrewrites, -⟩ := append_rewrites hk hh h hdata hwrite hal
    exact hrewrites.stored h hhome

/-- `write_range` of some data rewrites its leaf as it was, patched. -/
theorem writeRange_rewrites {offset : ℕ} (hk : R.FitsMount E k tx.db mount) (hh : tx.db.Homed)
    (h : tx.Stored R) (hdata : data ≠ [])
    (hwrite : writeRange C E k tx mount path offset data = .ok (tx', size))
    (hal : R.wary = true → tx'.aliased = false) :
    ∃ m n, openContent E k tx.db mount path = .ok (m, n) ∧ tx.db.home? n = some m.volume ∧
      Rewrites R E m.volume n (patchWindow (tx.committed n) offset data) tx tx' ∧
      size = (patchWindow (tx.committed n) offset data).length := by
  simp only [writeRange, if_neg hdata, bind_eq_ok, pure_eq_ok, refuse_eq_ok, Prod.mk.injEq,
    decide_eq_false_iff_not] at hwrite
  obtain ⟨⟨m, node⟩, hopen, u, hcs, tx₁, hlead, tx₂, htrail, buf, hbuf, tx₃, hstage,
    tx₄, hswap, rfl, rfl⟩ :=
    hwrite
  obtain ⟨hm, hhome, c, hc, hkept⟩ := openContent_leaf h hh hopen
  rw [readContentMeta_of_content hc] at hlead htrail hbuf hstage hswap
  have hsize := hkept.size
  generalize hcsize : chunkSizeOf tx.db m.volume = cs at *
  have hpos : 0 < cs := Nat.pos_of_ne_zero hcs
  have hlen : 0 < data.length := List.length_pos_iff.mpr hdata
  have hal₃ : R.wary = true → tx₃.aliased = false := by
    rw [← (Stmt.run_history hswap).2]
    exact hal
  have hal₂ : R.wary = true → tx₂.aliased = false := fun hw => Tx.stageFrom_aliased hstage (hal₃ hw)
  have hal₁ : R.wary = true → tx₁.aliased = false :=
    fun hw => carryTrailing_aliased htrail (hal₂ hw)
  -- the window begins no later than the write and no later than the old end
  have hlo : min (offset / cs) (c.size / cs) ≤ (offset + data.length - 1) / cs :=
    (Nat.min_le_left _ _).trans (Nat.div_le_div_right (by omega))
  have hstart : min (offset / cs) (c.size / cs) * cs ≤ offset :=
    (Nat.mul_le_mul_right cs (Nat.min_le_left _ _)).trans (Nat.div_mul_le_self _ _)
  have hold : min (offset / cs) (c.size / cs) * cs ≤ ((tx.committed node).map R.glance).length := by
    rw [List.length_map, ← hsize]
    exact (Nat.mul_le_mul_right cs (Nat.min_le_right _ _)).trans (Nat.div_mul_le_self _ _)
  have hend : offset + (data.map R.glance).length ≤ ((offset + data.length - 1) / cs + 1) * cs := by
    have hlt := Nat.lt_div_mul_add (a := offset + data.length - 1) hpos
    rw [List.length_map, Nat.add_mul]
    omega
  generalize min (offset / cs) (c.size / cs) = lo at *
  generalize (offset + data.length - 1) / cs = hi at *
  have hleading := hkept.carryLeading hcsize hpos hlead hal₁
  have htrailing :=
    (hkept.beside hc hleading).carryTrailing (hleading.chunkSize.trans hcsize) hpos rfl
    htrail hal₂
  have hcarried := hleading.trans htrailing
  have hbuf' := (hkept.beside hc hcarried).readWindow (hk true m hm)
      (hcarried.chunkSize.trans hcsize)
    hpos hlo rfl hbuf
  have hstaged := stageFrom_staged (hk true m hm) (hcarried.addressed h.1.addressed) hstage hal₃
  have hwindow : (patchWindow buf (offset - lo * cs) data).map R.glance =
      patch (R.glance 0) ((((tx.committed node).map R.glance).take ((hi + 1) * cs)).drop (lo * cs))
        (offset - lo * cs) (data.map R.glance) := by
    rw [← hbuf', ← map_patch]
    rfl
  rw [map_pieces, hwindow] at hstaged
  have horder : ∀ a b d : List (ℕ × List σ), (a ++ b ++ d).Perm (a ++ d ++ b) := by
    intro a b d
    rw [List.append_assoc, List.append_assoc]
    exact List.perm_append_comm.append_left a
  have hwhole := (hcarried.trans hstaged).perm (horder _ _ _)
  rw [numbered_pieces_patch hpos (by omega) hold hstart hend, ← map_patch] at hwhole
  have hsame : tx₄.committed node = tx.committed node := by
    rw [(Stmt.run_history hswap).1, hwhole.committed]
  rw [hsame]
  rw [← hcsize] at hwhole hpos
  have hnew : max c.size (offset + data.length) =
      (patchWindow (tx.committed node) offset data).length := by
    have hlength : (patch 0 (tx.committed node) offset data).length = _ := length_patch
    rw [hsize]
    exact hlength.symm
  refine ⟨m, node, hopen, hhome, ⟨tx₃, tx₄, hwhole, Or.inl hpos, ?_, rfl⟩, ?_⟩
  · rw [← hnew]
    exact hswap
  · rw [readContentMeta_of_content hc]
    exact hnew

theorem writeRange_stored {offset : ℕ} (hk : R.FitsMount E k tx.db mount) (hh : tx.db.Homed)
    (h : tx.Stored R) (hwrite : writeRange C E k tx mount path offset data = .ok (tx', size))
    (hal : R.wary = true → tx'.aliased = false) : tx'.Stored R := by
  by_cases hdata : data = []
  · simp only [writeRange, if_pos hdata, bind_eq_ok, pure_eq_ok, Prod.mk.injEq] at hwrite
    obtain ⟨size', -, rfl, -⟩ := hwrite
    exact h
  · obtain ⟨m, n, -, hhome, hrewrites, -⟩ := writeRange_rewrites hk hh h hdata hwrite hal
    exact hrewrites.stored h hhome

theorem shrinkTo_staged {cur : ℕ} (hk : R.Fits k V) (ha : tx.db.Addressed C)
    (hkept : Kept R V tx.db n v cur data) (hcs : chunkSizeOf tx.db V = cs) (hpos : 0 < cs)
    (hne : v ≠ w) (hlt : size < cur) (h : shrinkTo C E k tx n w v cs size = .ok tx')
    (hal : R.wary = true → tx'.aliased = false) :
    Staged R V n w (numbered 0 (pieces cs ((data.take size).map R.glance))) tx tx' := by
  have hlen : (data.map R.glance).length = cur := by rw [List.length_map, hkept.size]
  have hmod : size / cs * cs + size % cs = size := Nat.div_add_mod' size cs
  rw [List.map_take]
  simp only [shrinkTo, bind_eq_ok] at h
  obtain ⟨tx₁, hcarry, h⟩ := h
  split at h
  -- the last chunk is cut: it is read, shortened and sealed anew
  next hrem =>
    simp only [bind_eq_ok, orRaise_eq_ok] at h
    obtain ⟨rows, hrows, chunk, hchunk, hstage⟩ := h
    have hal₁ : R.wary = true → tx₁.aliased = false :=
      fun hw => Tx.stageChunk_aliased hstage (hal hw)
    have hcarried := hkept.carryLeading hcs hpos hcarry hal₁
    have hthere := hcarried.kept (fun heq => hne heq.2) hkept
    have hparts := hthere.holds.readChunkRange hk hrows
    have hrest : (data.map R.glance).drop (size / cs * cs) ≠ [] := by
      rw [← List.length_pos_iff, List.length_drop, hlen]
      omega
    have hhead : chunk.map R.glance = ((data.map R.glance).drop (size / cs * cs)).take cs := by
      rw [hcarried.chunkSize, hcs, List.drop_take, ← pieces_drop hpos, pieces_eq_cons hpos hrest,
        show size / cs + 1 - size / cs = 1 by omega] at hparts
      cases rows with
      | nil => cases hchunk
      | cons row rows =>
        obtain rfl := Option.some.inj hchunk
        exact (List.cons.inj hparts).1
    have hstaged := stageChunk_staged hk (hcarried.addressed ha) hstage hal
    have hcut : (chunk.take (size % cs)).map R.glance =
        ((data.map R.glance).drop (size / cs * cs)).take (size % cs) := by
      have hle : size % cs ≤ cs := (Nat.mod_lt size hpos).le
      rw [List.map_take, hhead, List.take_take, Nat.min_eq_left hle]
    have hshort : (((data.map R.glance).drop (size / cs * cs)).take (size % cs)).length ≤ cs := by
      rw [List.length_take]
      exact (Nat.min_le_left _ _).trans (Nat.mod_lt size hpos).le
    have hsome : ((data.map R.glance).drop (size / cs * cs)).take (size % cs) ≠ [] := by
      rw [← List.length_pos_iff, List.length_take, List.length_drop, hlen]
      omega
    have hone : numbered (size / cs)
        (pieces cs (((data.map R.glance).drop (size / cs * cs)).take (size % cs))) =
        [(size / cs, (chunk.take (size % cs)).map R.glance)] := by
      rw [pieces_of_le hsome hshort, hcut]
      rfl
    have hsplit : (data.map R.glance).take (size / cs * cs) ++
        ((data.map R.glance).drop (size / cs * cs)).take (size % cs) =
        (data.map R.glance).take size := by
      rw [← List.take_add, hmod]
    have hwhole := hcarried.trans hstaged
    rw [← hone, numbered_pieces_extend hpos (by omega), hsplit] at hwhole
    exact hwhole
  -- the new end is a chunk's end, so all rows are carried
  next hfull =>
    obtain rfl := Except.ok.inj h
    have hcarried := hkept.carryLeading hcs hpos hcarry hal
    have heven : size / cs * cs = size := by omega
    rw [heven] at hcarried
    exact hcarried

theorem growTo_staged {cur : ℕ} (hk : R.Fits k V) (ha : tx.db.Addressed C)
    (hkept : Kept R V tx.db n v cur data) (hcs : chunkSizeOf tx.db V = cs) (hpos : 0 < cs)
    (hne : v ≠ w) (hle : cur ≤ size) (h : growTo C E k tx n w v cs cur size = .ok tx')
    (hal : R.wary = true → tx'.aliased = false) :
    Staged R V n w
      (numbered 0 (pieces cs ((data ++ List.replicate (size - data.length) 0).map R.glance))) tx
        tx' := by
  have hlen : (data.map R.glance).length = cur := by rw [List.length_map, hkept.size]
  have hmod : cur / cs * cs + cur % cs = cur := Nat.div_add_mod' cur cs
  simp only [growTo, bind_eq_ok] at h
  obtain ⟨tx₁, hcarry, tail, htail, hstage⟩ := h
  have hal₁ : R.wary = true → tx₁.aliased = false := fun hw => Tx.stageFrom_aliased hstage (hal hw)
  have hcarried := hkept.carryLeading hcs hpos hcarry hal₁
  have hthere := hcarried.kept (fun heq => hne heq.2) hkept
  have htail' := hthere.readTail hk (hcarried.chunkSize.trans hcs) hpos htail
  have hstaged := stageFrom_staged hk (hcarried.addressed ha) hstage hal
  have htaillen : tail.length = cur - cur / cs * cs := by
    have hlength := congrArg List.length htail'
    rwa [List.length_map, List.length_drop, hlen] at hlength
  have hpad : size - cur / cs * cs - tail.length = size - data.length := by
    rw [htaillen, ← hkept.size]
    omega
  rw [map_pieces, hpad, List.map_append, htail'] at hstaged
  have hwhole := hcarried.trans hstaged
  rw [numbered_pieces_extend hpos (by omega), ← List.append_assoc, List.take_append_drop,
    ← List.map_append] at hwhole
  exact hwhole

/-- `truncate` rewrites its leaf cut or padded, unless it has the size already. -/
theorem truncate_rewrites (hk : R.FitsMount E k tx.db mount) (hh : tx.db.Homed) (h : tx.Stored R)
    (hwrite : truncate C E k tx mount path size = .ok tx')
    (hal : R.wary = true → tx'.aliased = false) :
    ∃ m n, openContent E k tx.db mount path = .ok (m, n) ∧ tx.db.home? n = some m.volume ∧
      (size = (tx.committed n).length ∧ tx' = tx ∨
        size ≠ (tx.committed n).length ∧
          Rewrites R E m.volume n (resized (tx.committed n) size) tx tx') := by
  simp only [truncate, bind_eq_ok] at hwrite
  obtain ⟨⟨m, node⟩, hopen, hwrite⟩ := hwrite
  obtain ⟨hm, hhome, c, hc, hkept⟩ := openContent_leaf h hh hopen
  rw [readContentMeta_of_content hc] at hwrite
  refine ⟨m, node, hopen, hhome, ?_⟩
  rw [← hkept.size]
  split at hwrite
  next hsame =>
    obtain rfl := Except.ok.inj hwrite
    exact Or.inl ⟨hsame, rfl⟩
  next hother =>
  refine Or.inr ⟨hother, ?_⟩
  simp only [bind_eq_ok, refuse_eq_ok, decide_eq_false_iff_not] at hwrite
  obtain ⟨u, hcs, hwrite⟩ := hwrite
  have hpos : 0 < chunkSizeOf tx.db m.volume := Nat.pos_of_ne_zero hcs
  have hne : c.version ≠ tx.db.nextVersion node := by
    have hcommitted : tx.db.committedVersion node = some c.version := by
      rw [Db.committedVersion, hc]
      rfl
    exact (lt_nextVersion hcommitted).ne
  have hsize := hkept.size
  -- both halves leave the content the size asks for in the next version
  have hparts : ∃ tx₁ tx₂, Staged R m.volume node (tx.db.nextVersion node)
      (numbered 0 (pieces (chunkSizeOf tx.db m.volume)
        ((resized (tx.committed node) size).map R.glance)))
      tx tx₁ ∧ tx₁.run E (.updateContent node (tx.db.nextVersion node) size) = .ok tx₂ ∧
      tx' = tx₂.gives node (resized (tx₂.committed node) size) := by
    split at hwrite
    next hlt =>
      simp only [bind_eq_ok, pure_eq_ok] at hwrite
      obtain ⟨tx₁, hshrink, tx₂, hswap, rfl⟩ := hwrite
      have hal₁ : R.wary = true → tx₁.aliased = false := by
        rw [← (Stmt.run_history hswap).2]
        exact hal
      have hstaged := shrinkTo_staged (hk true m hm) h.1.addressed hkept rfl hpos hne hlt hshrink
          hal₁
      have hcut : resized (tx.committed node) size = (tx.committed node).take size := by
        have hzero : size - (tx.committed node).length = 0 := by omega
        rw [resized, hzero, List.replicate_zero, List.append_nil]
      rw [hcut]
      exact ⟨tx₁, tx₂, hstaged, hswap, rfl⟩
    next hge =>
      simp only [bind_eq_ok, pure_eq_ok] at hwrite
      obtain ⟨tx₁, hgrow, tx₂, hswap, rfl⟩ := hwrite
      have hal₁ : R.wary = true → tx₁.aliased = false := by
        rw [← (Stmt.run_history hswap).2]
        exact hal
      have hstaged := growTo_staged (hk true m hm) h.1.addressed hkept rfl hpos hne
          (by omega) hgrow hal₁
      have hpad : resized (tx.committed node) size =
          tx.committed node ++ List.replicate (size - (tx.committed node).length) 0 := by
        rw [resized, List.take_of_length_le (by omega)]
      rw [hpad]
      exact ⟨tx₁, tx₂, hstaged, hswap, rfl⟩
  obtain ⟨tx₁, tx₂, hstaged, hswap, rfl⟩ := hparts
  have hsame : tx₂.committed node = tx.committed node := by
    rw [(Stmt.run_history hswap).1, hstaged.committed]
  have hnew : size = (resized (tx.committed node) size).length := by
    rw [resized, List.length_append, List.length_take, List.length_replicate]
    omega
  rw [hsame]
  refine ⟨tx₁, tx₂, hstaged, Or.inl hpos, ?_, rfl⟩
  rw [← hnew]
  exact hswap

theorem truncate_stored (hk : R.FitsMount E k tx.db mount) (hh : tx.db.Homed) (h : tx.Stored R)
    (hwrite : truncate C E k tx mount path size = .ok tx')
    (hal : R.wary = true → tx'.aliased = false) :
    tx'.Stored R := by
  obtain ⟨m, n, -, hhome, ⟨-, rfl⟩ | ⟨-, hrewrites⟩⟩ := truncate_rewrites hk hh h hwrite hal
  · exact h
  · exact hrewrites.stored h hhome

end Aloelite
