import Aloelite.Downloads
import Aloelite.OverlayFlushes

/-! Reads of an overlay: the size, the opening and the reading are three calls of the engine,
and what they find between them is the committed content under the dirty stretches. -/
namespace Aloelite

open Attempts Attempt Fallible Patches

variable {C : Crypto} {M : Msgpack} {own : VolumeId → Cipher} {E : Env} {k : Cipher} {s s' : Sys}
  {T : ℕ → Moment} {turn i j : ℕ} {mount : MountId} {path : String} {n : NodeId} {V : VolumeId}
  {w : Bool} {a : AloeFuse} {inode : Inode} {o : Overlay} {d : FileDaemon} {off m : ℕ}
  {ref : Bytes}

/-! ### Calls that only look -/

/-- The engine after the next calls, where these only look. -/
def looked (C : Crypto) (M : Msgpack) (T : ℕ → Moment) : ℕ → ℕ → Sys → Sys
  | 0, _, s => s
  | i + 1, turn, s => looked C M T i (turn + 1) ((T turn).meet C M s)

theorem see_eq {α : Type} (f : Env → Cipher → Db → Except FsError α) : a.see C M T f d =
    (d.onSys ((T d.turn).meet C M d.base.sys) (d.turn + 1),
      if (T d.turn).busy then .error .operational
      else f (T d.turn).env (((T d.turn).meet C M d.base.sys).conns a.conn).cipher
        ((T d.turn).meet C M d.base.sys).db) := by
  unfold AloeFuse.see AloeFuse.engine
  simp only
  split
  · rfl
  · rfl

theorem see_ok {α : Type} {f : Env → Cipher → Db → Except FsError α} {x : α}
    (hidle : (T d.turn).busy = false)
    (h : f (T d.turn).env (((T d.turn).meet C M d.base.sys).conns a.conn).cipher
      ((T d.turn).meet C M d.base.sys).db = .ok x) :
    a.see C M T f d = (d.onSys ((T d.turn).meet C M d.base.sys) (d.turn + 1), .ok x) := by
  rw [see_eq, hidle, if_neg Bool.false_ne_true, h]

theorem looked_add : looked C M T (i + j) turn s =
    looked C M T j (turn + i) (looked C M T i turn s) := by
  induction i generalizing turn s with
  | zero => rw [Nat.zero_add, Nat.add_zero, looked]
  | succ i ih =>
    rw [Nat.succ_add, looked, looked, ih]
    congr 1
    omega

/-- A computation that calls the engine at most so many times, and only looks. -/
def Looks (C : Crypto) (M : Msgpack) (T : ℕ → Moment) {α : Type} (j : ℕ)
    (x : FileHandler α) : Prop :=
  ∀ d, ∃ i ≤ j, (x d).1 = d.onSys (looked C M T i d.turn d.base.sys) (d.turn + i)

section

variable {α β : Type} {x y : FileHandler α} {f : α → FileHandler β}

theorem Looks.pure (v : α) : Looks C M T 0 (pure v : FileHandler α) := fun _ => ⟨0, le_refl 0, rfl⟩

theorem Looks.see (f : Env → Cipher → Db → Except FsError α) : Looks C M T 1 (a.see C M T f) := by
  intro d
  rw [see_eq]
  exact ⟨1, le_refl 1, rfl⟩

theorem Looks.bind (hx : Looks C M T i x) (hf : ∀ v, Looks C M T j (f v)) :
    Looks C M T (i + j) (x >>= f) := by
  intro d
  obtain ⟨i', hi', hfirst⟩ := hx d
  rcases hxd : x d with ⟨d', e | v⟩
  · rw [hxd] at hfirst
    rw [bind_of_error hxd]
    exact ⟨i', by omega, hfirst⟩
  · rw [hxd] at hfirst
    obtain rfl : d' = _ := hfirst
    rw [bind_of_ok hxd]
    obtain ⟨j', hj', hthen⟩ := hf v (d.onSys (looked C M T i' d.turn d.base.sys) (d.turn + i'))
    refine ⟨i' + j', by omega, ?_⟩
    rw [hthen, looked_add, ← Nat.add_assoc]
    rfl

theorem Looks.mono (hx : Looks C M T i x) (hij : i ≤ j) : Looks C M T j x := by
  intro d
  obtain ⟨i', hi', hstate⟩ := hx d
  exact ⟨i', hi'.trans hij, hstate⟩

end

/-- Looking at the file changes nothing but what others do. -/
theorem overlayRead_looks : Looks C M T 3 (a.overlayRead C M T o off m) := by
  have hwindow : ∀ committed, Looks C M T 2
      (a.committedWindow C M T o.path off (min (off + m) o.size) committed) := by
    intro committed
    unfold AloeFuse.committedWindow
    split
    · apply Looks.bind (i := 1) (j := 1) (Looks.see _)
      intro r
      exact Looks.bind (i := 1) (j := 0) (Looks.see _) (fun got => Looks.pure got.1)
    · exact (Looks.pure []).mono (Nat.zero_le 2)
  rw [AloeFuse.overlayRead]
  split
  · exact (Looks.pure []).mono (Nat.zero_le 3)
  · apply Looks.bind (i := 1) (j := 2) (Looks.see _)
    intro committed
    exact Looks.bind (i := 2) (j := 0) (hwindow committed) (fun got => Looks.pure _)

theorem LeftAlone.le (h : LeftAlone C M own a path n T j turn s) (hij : i ≤ j) :
    LeftAlone C M own a path n T i turn s := by
  induction i generalizing j turn s with
  | zero => trivial
  | succ i ih =>
    obtain ⟨j, rfl⟩ : ∃ j', j = j' + 1 := ⟨j - 1, by omega⟩
    exact ⟨h.1, ih h.2 (by omega)⟩

theorem LeftAlone.drop (h : LeftAlone C M own a path n T (i + j) turn s) :
    LeftAlone C M own a path n T j (turn + i) (looked C M T i turn s) := by
  induction i generalizing turn s with
  | zero =>
    rw [Nat.zero_add] at h
    exact h
  | succ i ih =>
    rw [Nat.succ_add] at h
    have hlater := ih h.2
    rw [Nat.succ_add] at hlater
    exact hlater

/-- What others do meanwhile is a run that leaves the file alone. -/
theorem LeftAlone.run (h : LeftAlone C M own a path n T i turn s) :
    GuardedRuns.Run (step C M) (SparesFile C M own a path n) s (looked C M T i turn s) := by
  induction i generalizing turn s with
  | zero => exact GuardedRuns.Run.refl s
  | succ i ih => exact (GuardedRuns.Run.foldl h.1).trans (ih h.2)

/-! ### What the calls find -/

/-- A node of a volume that has content. -/
def Db.LeafOf (db : Db) (V : VolumeId) (n : NodeId) : Prop :=
  db.home? n = some V ∧ ∃ type, type ≠ .container ∧ db.nodeType? n = some type

/-- It stays one. -/
theorem run_leafOf {guard guard' : Sys → Label → Prop} (h : Reaches C M guard s)
    (hrun : GuardedRuns.Run (step C M) guard' s s') (hleaf : s.db.LeafOf V n) :
    s'.db.LeafOf V n := by
  have hall : s'.db.Sound ∧ s'.db.LeafOf V n := by
    apply hrun.invariant (P := fun s' => s'.db.Sound ∧ s'.db.LeafOf V n) _ ⟨h.sound, hleaf⟩
    intro s' l _ hs'
    obtain ⟨hsound, hhome, type, hne, htype⟩ := hs'
    have heffect : Effect C l.env s' l.op (exec C M l.env s' l.conn l.op).1.db :=
      exec_effect hsound.linked
    have hids := heffect.identities hsound
    refine ⟨step_sound hsound, home?_persists hids hhome, type, hne, ?_⟩
    rw [Db.nodeType?_eq, Option.map_eq_some_iff] at htype ⊢
    obtain ⟨i, hi, htype⟩ := htype
    exact ⟨i, lookup_identities_persists hids hi, htype⟩
  exact hall.2

theorem Backed.leafOf (h : Backed C M own mount path n s)
    (hleaf : LeafAt w E k s.db mount path V n) : s.db.LeafOf V n := by
  obtain ⟨ctx, found, hm, rfl, hfound, rfl, htype⟩ := hleaf
  exact ⟨h.reaches.homed.resolve hm hfound, found.type, htype, resolve_nodeType hfound⟩

/-- A leaf has a content row, and reads as what was committed to it. -/
theorem Backed.content (h : Backed C M own mount path n s) (hleaf : s.db.LeafOf V n) :
    ∃ r, s.db.content? n = some r ∧ Kept (Reading.exact (C := C) own) V s.db n r.version r.size
      (s.committed n) ∧ readContentBytes C (own V) s.db n = .ok (s.committed n) := by
  obtain ⟨hhome, type, hne, htype⟩ := hleaf
  have hstored : s.begin.Stored (Reading.exact (C := C) own) := h.reaches.orderly.writers.stored
  have hnone : some n ≠ none := Option.some_ne_none n
  obtain ⟨r, hr⟩ := Option.isSome_iff_exists.mp (hstored.2 n type hnone htype hne)
  exact ⟨r, hr, hstored.1.committed hhome hr, h.reaches.readsCommitted hhome hr⟩

theorem Backed.readsWhole (h : Backed C M own mount path n s)
    (hleaf : LeafAt w E k s.db mount path V n) :
    readContentBytes C (own V) s.db n = .ok (s.committed n) := by
  obtain ⟨r, -, -, hwhole⟩ := h.content (h.leafOf hleaf)
  exact hwhole

/-- The size at the path is that of the committed content. -/
theorem Backed.sized (h : Backed C M own mount path n s)
    (hleaf : LeafAt false E k s.db mount path V n) :
    ∃ row, stat E k s.db mount path = .ok row ∧
      ((s.db.content? row.nodeId).map ContentRow.size).getD 0 = (s.committed n).length := by
  obtain ⟨r, hr, hkept, -⟩ := h.content (h.leafOf hleaf)
  obtain ⟨hhome, -⟩ := h.leafOf hleaf
  obtain ⟨ctx, found, hm, rfl, hfound, rfl, htype⟩ := hleaf
  obtain ⟨row, hrow⟩ := Option.isSome_iff_exists.mp (Db.node?_isSome_of_home hhome)
  have hnode : row.nodeId = found.node := KeyedRows.key_of_lookup hrow
  refine ⟨row, ?_, ?_⟩
  · simp only [stat, statById, hm, hfound, ok_bind, hrow]
    rfl
  · rw [hnode, hr]
    exact hkept.size

/-- The reader of a leaf, where it is opened. -/
def readerAt (db : Db) (V : VolumeId) (n : NodeId) : Descriptor :=
  { node := n, volume := V, cs := chunkSizeOf db V, writable := false }

theorem openRead_leafAt {db : Db} (hleaf : LeafAt false E k db mount path V n) :
    openRead E k db mount path = .ok (readerAt db V n) := by
  obtain ⟨ctx, found, hm, rfl, hfound, rfl, htype⟩ := hleaf
  simp only [openRead, hm, hfound, ok_bind, decide_eq_false htype]
  rfl

/-- A reader of the chunk size of its volume gets its range of the committed content. -/
theorem Backed.fetches (hC : C.KeepsLength) (h : Backed C M own mount path n s)
    (hleaf : s.db.LeafOf V n) (off m : ℕ) : ∃ r',
    ((readerAt s.db V n).movedTo off).read C (own V) s.db (some m) =
      .ok (((s.committed n).take (off + m)).drop off, r') := by
  obtain ⟨row, hrow, -, hwhole⟩ := h.content hleaf
  have horderly : Reaches C M (Orderly (Reading.lengths (C := C)) M) s :=
    GuardedRuns.Run.weaken (fun _ _ hg => hg.1.orderly hC) h.reaches
  have hkept : Kept (Reading.lengths (C := C)) V s.db n row.version row.size (s.committed n) :=
    horderly.writers.stored.1.committed hleaf.1 hrow
  have hread := Kept.read_total (m := some m) (d := (readerAt s.db V n).movedTo off)
    hC hkept hrow rfl rfl rfl hwhole
  have hstop : (s.committed n).take (min (s.committed n).length (off + m)) =
      (s.committed n).take (off + m) := by
    rw [List.take_eq_take_iff]
    omega
  exact ⟨_, hread.trans (congrArg (fun b : Bytes => Except.ok (b.drop off, _)) hstop)⟩

/-! ### Reads -/

/-- The file can be read through the mount in the coming moments: none is busy, the path
leads to the file when its size is asked and when it is opened, and the connection has its key
when it is read. -/
def Readable (C : Crypto) (M : Msgpack) (own : VolumeId → Cipher) (a : AloeFuse) (path : String)
    (n : NodeId) (T : ℕ → Moment) (turn : ℕ) (s : Sys) : Prop :=
  (∀ i < 3, (T (turn + i)).busy = false) ∧ ∃ V,
    LeafAt false (T turn).env ((looked C M T 1 turn s).conns a.conn).cipher
      (looked C M T 1 turn s).db a.mount path V n ∧
    LeafAt false (T (turn + 1)).env ((looked C M T 2 turn s).conns a.conn).cipher
      (looked C M T 2 turn s).db a.mount path V n ∧
    ((looked C M T 3 turn s).conns a.conn).cipher = own V

section

variable (h : Backed C M own a.mount path n d.base.sys)
  (hleft : LeftAlone C M own a path n T 3 d.turn d.base.sys)
  (hread : Readable C M own a path n T d.turn d.base.sys)

include h hleft in
theorem looked_committed (hi : i ≤ 3) :
    Backed C M own a.mount path n (looked C M T i d.turn d.base.sys) ∧
      (looked C M T i d.turn d.base.sys).committed n = d.base.sys.committed n :=
  h.run (hleft.le hi).run

include h hleft hread

/-- The size that is asked is that of the committed content. -/
theorem sizeAt_eq : a.sizeAt C M T path d =
    (d.onSys (looked C M T 1 d.turn d.base.sys) (d.turn + 1),
      .ok (d.base.sys.committed n).length) := by
  obtain ⟨hidle, V, hleaf, -⟩ := hread
  obtain ⟨hbacked, hsame⟩ := looked_committed h hleft (i := 1) (by omega)
  obtain ⟨row, hstat, hsize⟩ := hbacked.sized hleaf
  rw [hsame] at hsize
  apply see_ok (hidle 0 (by omega))
  change (do
    let row ← stat (T d.turn).env ((looked C M T 1 d.turn d.base.sys).conns a.conn).cipher
      (looked C M T 1 d.turn d.base.sys).db a.mount path
    return (((looked C M T 1 d.turn d.base.sys).db.content? row.nodeId).map
      ContentRow.size).getD 0) = Except.ok _
  rw [hstat, ok_bind, hsize]
  rfl

/-- The committed part of a window. -/
theorem committedWindow_eq (hC : C.KeepsLength) {stop : ℕ} (hstop : off < stop) :
    (a.committedWindow C M T path off stop (d.base.sys.committed n).length
      (d.onSys (looked C M T 1 d.turn d.base.sys) (d.turn + 1))).2 =
        .ok (((d.base.sys.committed n).take stop).drop off) := by
  unfold AloeFuse.committedWindow
  by_cases hin : off < (d.base.sys.committed n).length
  · rw [if_pos hin]
    obtain ⟨hidle, V, -, hopened, hkey⟩ := hread
    obtain ⟨hbacked, -⟩ := looked_committed h hleft (i := 2) (by omega)
    obtain ⟨hlast, hsame⟩ := looked_committed h hleft (i := 3) (by omega)
    have hleaf := hbacked.leafOf hopened
    have hrun : GuardedRuns.Run (step C M) (SparesFile C M own a path n)
        (looked C M T 2 d.turn d.base.sys) (looked C M T 3 d.turn d.base.sys) :=
      (LeftAlone.drop (i := 2) (j := 1) hleft).run
    -- the file keeps its node and its chunk size between the opening and the reading
    have hleaf' : (looked C M T 3 d.turn d.base.sys).db.LeafOf V n :=
      run_leafOf hbacked.reaches hrun hleaf
    have hvolume := hbacked.reaches.homed.volume n V hleaf.1
    have hcs := ((run_keepsHomes hbacked.reaches hrun).chunkSize V hvolume).2
    have hreader : readerAt (looked C M T 3 d.turn d.base.sys).db V n =
        readerAt (looked C M T 2 d.turn d.base.sys).db V n := by
      rw [readerAt, readerAt, hcs]
    obtain ⟨r', hgot⟩ := hlast.fetches hC hleaf' off
      (min stop (d.base.sys.committed n).length - off)
    have htake : (d.base.sys.committed n).take
        (off + (min stop (d.base.sys.committed n).length - off)) =
        (d.base.sys.committed n).take stop := by
      rw [List.take_eq_take_iff]
      omega
    rw [hsame, htake, hreader, ← hkey] at hgot
    let r := readerAt (looked C M T 2 d.turn d.base.sys).db V n
    have hopen : a.see C M T (fun E k db => do
        let r ← openRead E k db a.mount path
        r.seek db off .set) (d.onSys (looked C M T 1 d.turn d.base.sys) (d.turn + 1)) =
        (d.onSys (looked C M T 2 d.turn d.base.sys) (d.turn + 2), .ok (r.movedTo off)) := by
      apply see_ok (hidle 1 (by omega))
      change (do
        let r ← openRead (T (d.turn + 1)).env
          ((looked C M T 2 d.turn d.base.sys).conns a.conn).cipher
          (looked C M T 2 d.turn d.base.sys).db a.mount path
        r.seek (looked C M T 2 d.turn d.base.sys).db off .set) = Except.ok _
      rw [openRead_leafAt hopened, ok_bind]
      simp only [Descriptor.seek, refuse]
      rfl
    have hfetch : a.see C M T (fun _ k db =>
        (r.movedTo off).read C k db (some (min stop (d.base.sys.committed n).length - off)))
        (d.onSys (looked C M T 2 d.turn d.base.sys) (d.turn + 2)) =
        (d.onSys (looked C M T 3 d.turn d.base.sys) (d.turn + 3),
          .ok (((d.base.sys.committed n).take stop).drop off, r')) := by
      apply see_ok (hidle 2 (by omega))
      exact hgot
    rw [bind_of_ok hopen, bind_of_ok hfetch]
    rfl
  · rw [if_neg hin, List.drop_eq_nil_of_le]
    · rfl
    · rw [List.length_take]
      omega

end

/-- A window over the committed content, with zeros behind it and the stretches on top, is the
range of the byte array. -/
theorem Overlay.Holds.window {c : Bytes} (hholds : o.Holds c ref)
    (hstop : ¬ min (off + m) ref.length ≤ off) :
    let stop := min (off + m) ref.length
    let got := (c.take stop).drop off
    Extents.overlay 0 off stop (got ++ List.replicate (stop - off - got.length) 0) o.extents =
      (ref.drop off).take m := by
  intro stop got
  have hlen : (Extents.lay 0 c o.extents).length = max c.length (Extents.ends o.extents) :=
    Extents.length_lay hholds.apart.clear
  rw [hholds.lays] at hlen
  have hgot : got.length = min stop c.length - off := by
    rw [List.length_drop, List.length_take]
  have hover : Extents.overlay 0 off stop (got ++ List.replicate (stop - off - got.length) 0)
      o.extents = ((Extents.lay 0 c o.extents).drop off).take (stop - off) := by
    apply Extents.overlay_eq hholds.apart.clear
    · rw [List.length_append, List.length_replicate, hgot]
      omega
    · -- a position of the committed part, or of the zeros behind it
      intro i hi
      rw [List.getElem?_append, hgot]
      by_cases hin : i < min stop c.length - off
      · rw [if_pos hin, List.getElem?_drop, List.getElem?_take_of_lt (by omega),
          List.getElem?_eq_getElem (by omega), Option.getD_some]
      · rw [if_neg hin, List.getElem?_replicate, if_pos (by omega),
          List.getElem?_eq_none (by omega), Option.getD_none]
    · omega
  rw [hover, hholds.lays, List.take_eq_take_iff, List.length_drop]
  omega

/-- A read gets its range of the byte array. -/
theorem overlayRead_eq (hC : C.KeepsLength) (h : Backed C M own a.mount o.path n d.base.sys)
    (hleft : LeftAlone C M own a o.path n T 3 d.turn d.base.sys)
    (hread : Readable C M own a o.path n T d.turn d.base.sys)
    (hholds : o.Holds (d.base.sys.committed n) ref) :
    (a.overlayRead C M T o off m d).2 = .ok ((ref.drop off).take m) := by
  rw [AloeFuse.overlayRead, hholds.size]
  by_cases hstop : min (off + m) ref.length ≤ off
  · have hnil : (ref.drop off).take m = [] := by
      apply List.eq_nil_of_length_eq_zero
      rw [List.length_take, List.length_drop]
      omega
    simp only [if_pos hstop, hnil]
    rfl
  · simp only [if_neg hstop]
    rw [bind_of_ok (sizeAt_eq h hleft hread)]
    have hgot := committedWindow_eq h hleft hread hC (not_le.mp hstop)
    rcases hwindow : a.committedWindow C M T o.path off (min (off + m) ref.length)
        (d.base.sys.committed n).length
        (d.onSys (looked C M T 1 d.turn d.base.sys) (d.turn + 1)) with ⟨d', got⟩
    rw [hwindow] at hgot
    obtain rfl : got = _ := hgot
    rw [bind_of_ok hwindow, pure_run, hholds.window hstop]

end Aloelite
