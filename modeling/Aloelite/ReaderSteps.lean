import Aloelite.Pruning

/-! Reads in their single statements. A reader takes the committed pointer of an entry in
one statement and the rows of that version in the next, and transactions of others come
in between. A read is as good as one that runs alone while the version it is about keeps
its rows. -/
namespace Aloelite

open Fallible KeyedRows Numbered Pieces

variable {C : Crypto} {M : Msgpack} {E : Env} {k : Cipher} {db db' db'' : Db} {s s' : Sys}
  {l : Label} {n : NodeId} {v lo hi : ℕ} {V : VolumeId} {now : Int} {f : OpenFile} {op : Op}
  {c : ConnId}

section

variable (C : Crypto) (E : Env) (k : Cipher)

/-- `read_content_bytes`: the pointer is read from one file, the chunks from a later
one. -/
def readContentBytesAcross (db db' : Db) (node : NodeId) : Except FsError Bytes :=
  match db.content? node with
  | none => .ok []
  | some c => do
    let parts ← openChunks C k (db'.readChunks node c.version)
    return parts.flatten

/-- `read_all`, one file a statement: the mount, the path, the pointer, the chunks. -/
def readAllAcross (db₀ db₁ db db' : Db) (mount : MountId) (path : String) :
    Except FsError Bytes := do
  let m ← requireMount E k db₀ mount false
  let found ← resolve db₁ m.mountPoint path
  refuse (found.type = .container) (.notAnEntry found.node)
  readContentBytesAcross C k db db' found.node

namespace Descriptor

/-- `_refresh`: the committed version and its size. -/
def refresh (db : Db) (d : Descriptor) : ℕ × ℕ := (readContentMeta db d.node).getD (0, 0)

/-- The end of the range that `read` is after. -/
def stopAt (d : Descriptor) (size : ℕ) (n : Option ℕ) : ℕ :=
  match n with
  | none => size
  | some n => min size (d.pos + n)

/-- `read`: `_refresh` on one file, `_fetch_range` on a later one. -/
def readAcross (db db' : Db) (d : Descriptor) (n : Option ℕ) :
    Except FsError (Bytes × Descriptor) := do
  refuse d.closed .valueError
  refuse d.writable .unsupported
  let (version, size) := d.refresh db
  let start := d.pos
  let stop := d.stopAt size n
  if stop ≤ start then return ([], d)
  else do
    refuse (d.cs = 0) .valueError
    let lo := start / d.cs
    let rows ← readChunkRange C k db' d.node version lo ((stop - 1) / d.cs)
    let buf := rows.flatten
    return ((buf.take (stop - lo * d.cs)).drop (start - lo * d.cs), { d with pos := stop })

end Descriptor

end

/-- With nothing in between these are the operations themselves. -/
theorem readAllAcross_self {mount : MountId} {path : String} :
    readAllAcross C E k db db db db mount path = readAll C E k db mount path := rfl

theorem Descriptor.readAcross_self {d : Descriptor} {m : Option ℕ} :
    d.readAcross C k db db m = d.read C k db m := by
  cases m <;> rfl

/-! ### The rows of a version -/

/-- A version of an entry with the rows and the pool rows it had. -/
structure SameVersion (n : NodeId) (v : ℕ) (db db' : Db) : Prop where
  manifest : db'.manifest n v = db.manifest n v
  pool : ∀ r ∈ db.manifest n v, db'.chunk? r.chunkHash = db.chunk? r.chunkHash

theorem SameVersion.refl (n : NodeId) (v : ℕ) (db : Db) : SameVersion n v db db :=
  ⟨rfl, fun _ _ => rfl⟩

theorem SameVersion.trans (h : SameVersion n v db db') (h' : SameVersion n v db' db'') :
    SameVersion n v db db'' := by
  refine ⟨h'.manifest.trans h.manifest, ?_⟩
  intro r hr
  rw [h'.pool r (h.manifest ▸ hr), h.pool r hr]

theorem SameVersion.symm (h : SameVersion n v db db') : SameVersion n v db' db := by
  refine ⟨h.manifest.symm, ?_⟩
  intro r hr
  rw [h.manifest] at hr
  exact (h.pool r hr).symm

/-- The pool rows of rows that all keep theirs. -/
theorem filterMap_chunk?_congr {rows : List VersionRow}
    (h : ∀ r ∈ rows, db'.chunk? r.chunkHash = db.chunk? r.chunkHash) :
    rows.filterMap (fun r => db'.chunk? r.chunkHash) =
      rows.filterMap (fun r => db.chunk? r.chunkHash) :=
  List.filterMap_congr h

theorem SameVersion.readChunks (h : SameVersion n v db db') :
    db'.readChunks n v = db.readChunks n v := by
  rw [Db.readChunks, Db.readChunks, h.manifest]
  apply filterMap_chunk?_congr
  intro r hr
  exact h.pool r ((List.mem_insertionSort _).mp hr)

theorem SameVersion.readChunkRange (h : SameVersion n v db db') :
    readChunkRange C k db' n v lo hi = readChunkRange C k db n v lo hi := by
  rw [Aloelite.readChunkRange, Aloelite.readChunkRange, readChunksRange_map_snd,
    readChunksRange_map_snd,
    h.manifest]
  congr 1
  apply filterMap_chunk?_congr
  intro r hr
  exact h.pool r (List.mem_of_mem_filter ((List.mem_insertionSort _).mp hr))

/-- A version of an entry that was steady while nothing wrote into it. -/
theorem Steady.sameVersion {w : ℕ → Prop} (h : Steady w n db db') (hp : db.Pooled) (hv : ¬ w v) :
    SameVersion n v db db' := by
  refine ⟨h.manifest hv, ?_⟩
  intro r hr
  obtain ⟨hrow, hid, -⟩ := Db.mem_manifest.mp hr
  obtain ⟨ch, hch⟩ := Option.isSome_iff_exists.mp (hp r hrow)
  have hmem : r ∈ db.rowsOf n := List.mem_filter.mpr ⟨hrow, by simpa using hid⟩
  rw [hch, h.chunks r hmem ch hch]

theorem pruneContent_sameVersion {volume : Option VolumeId}
    (h : ∀ r ∈ db.manifest n v, db.survivesPrune now volume r = true) :
    SameVersion n v db (db.pruneContentVersions now volume).pruneContentChunks := by
  have hmanifest : (db.pruneContentVersions now volume).pruneContentChunks.manifest n v =
      db.manifest n v := by
    show (db.versions.filter _).filter _ = db.versions.filter _
    rw [List.filter_comm]
    exact List.filter_eq_self.mpr h
  refine ⟨hmanifest, ?_⟩
  intro r hr
  rw [← hmanifest] at hr
  exact chunk?_pruneContent (Db.mem_manifest.mp hr).1

/-! ### Steps between two statements -/

/-- The scope of a prune of content. -/
def Op.pruneScope : Op → Option (Option VolumeId)
  | .pruneContent volume => some volume
  | _ => none

/-- The descriptor whose rows a step stages. -/
def Op.staging (s : Sys) : Op → Option OpenFile
  | .fdFlush fd | .fdClose fd => s.fds[fd]?
  | _ => none

/-- A step that leaves a version of an entry as it is: the number of the version is
taken, no prune drops a row of it, and no stream goes on in it. -/
def LeavesVersion (n : NodeId) (v : ℕ) (s : Sys) (l : Label) : Prop :=
  v < s.db.nextVersion n ∧
    (∀ volume ∈ l.op.pruneScope, ∀ r ∈ s.db.manifest n v,
    s.db.survivesPrune l.env.now volume r = true) ∧
    ∀ f ∈ l.op.staging s, f.d.node = n → f.d.claims s.db ≠ v

instance (n : NodeId) (v : ℕ) (s : Sys) (l : Label) : Decidable (LeavesVersion n v s l) :=
  inferInstanceAs (Decidable (_ ∧ (∀ volume ∈ l.op.pruneScope, ∀ r ∈ s.db.manifest n v,
    s.db.survivesPrune l.env.now volume r = true) ∧
    ∀ f ∈ l.op.staging s, f.d.node = n → f.d.claims s.db ≠ v))

/-- What a step may write into: the version its stream claims, or a new one. -/
theorem Op.license_write_cases (h : (op.license E s).write n v) :
    (∃ f ∈ op.staging s, f.d.node = n ∧ f.d.claims s.db = v) ∨ v = s.db.nextVersion n := by
  cases op with
  | fdFlush fd | fdClose fd =>
    cases hf : s.fds[fd]? with
    | none =>
      simp only [Op.license, hf] at h
      exact h.elim
    | some f =>
      simp only [Op.license, hf] at h
      exact Or.inl ⟨f, hf, h.1.symm, h.2.symm⟩
  | _ =>
    right
    apply Op.license_write _ _ h
    all_goals
      intro fd heq
      cases heq

/-- Such a step is not licensed to write into the version. -/
theorem LeavesVersion.unwritten (h : LeavesVersion n v s l) :
    ¬ (l.op.license l.env s).write n v := by
  obtain ⟨htaken, -, hforeign⟩ := h
  intro hwrite
  rcases Op.license_write_cases hwrite with ⟨f, hf, hnode, hclaims⟩ | hnext
  · exact hforeign f hf hnode hclaims
  · omega

theorem Effect.sameVersion (h : Effect C E s op db) (hs : s.db.Sound) (hp : s.db.Pooled)
    (hn : (s.db.node? n).isSome) (hl : LeavesVersion n v s ⟨E, c, op⟩) :
    SameVersion n v s.db db := by
  have hunwritten := hl.unwritten
  cases h with
  | strides h => exact (h.steady hn).sameVersion hp hunwritten
  | founding h =>
    obtain ⟨-, -, -, -, -, hframe, -, -⟩ := createVolume_shape h
    have hsteady : Steady (fun _ => False) n s.db _ :=
      Steady.of_frame hframe (by simp) (by simp) (by simp)
    exact hsteady.sameVersion hp id
  | prune h =>
    rw [prune_shape h hs]
    exact ⟨rfl, fun _ _ => rfl⟩
  | pruneContent h =>
    rw [pruneContent_shape h]
    exact pruneContent_sameVersion (hl.2.1 _ rfl)

/-- Between two statements of a reader: a version keeps its rows over every run of steps
that leave it as it is. -/
theorem run_sameVersion {guard : Sys → Label → Prop} (h : Reaches C M guard s)
    (hn : (s.db.node? n).isSome) (hrun : GuardedRuns.Run (step C M) (LeavesVersion n v) s s') :
    SameVersion n v s.db s'.db := by
  have hall : (s'.db.Sound ∧ s'.db.Pooled) ∧ (s'.db.node? n).isSome ∧
      SameVersion n v s.db s'.db := by
    refine GuardedRuns.Run.invariant
      (P := fun t : Sys => (t.db.Sound ∧ t.db.Pooled) ∧ (t.db.node? n).isSome ∧
        SameVersion n v s.db t.db)
      ?_ hrun ⟨⟨h.sound, h.pooled⟩, hn, SameVersion.refl n v s.db⟩
    intro t l hl ht
    obtain ⟨⟨hsound, hpooled⟩, hnode, hsame⟩ := ht
    obtain ⟨E, c, op⟩ := l
    have heffect : Effect C E t op (exec C M E t c op).1.db := exec_effect hsound.linked
    refine ⟨⟨step_sound hsound, heffect.pooled hsound hpooled⟩, ?_, ?_⟩
    · exact heffect.node_persists hsound hnode
    · exact hsame.trans (heffect.sameVersion hsound hpooled hnode hl)
  exact hall.2.2

/-! ### Readers -/

/-- A reader on an entry of its volume, in that volume's chunk size. -/
def OpenFile.Reads (db : Db) (f : OpenFile) : Prop :=
  f.d.writable = false → db.home? f.d.node = some f.d.volume ∧ f.d.cs = chunkSizeOf db f.d.volume

theorem exec_reads (hs : s.db.Sound) (hh : s.db.Homed) (hall : ∀ f ∈ s.fds, f.Reads s.db) :
    ∀ f ∈ (exec C M E s c op).1.fds, f.Reads (exec C M E s c op).1.db := by
  intro f' hf' hreader
  obtain ⟨fd, hfd⟩ := List.mem_iff_getElem?.mp hf'
  rcases exec_fds hfd with ⟨f, hf, hsame⟩ | ⟨-, hopen⟩
  · have heffect : Effect C E s op (exec C M E s c op).1.db := exec_effect hs.linked
    obtain ⟨hhome, hcs⟩ := hall f (List.mem_of_getElem? hf) (hsame.writable ▸ hreader)
    have hvolume := hh.volume _ _ hhome
    rw [hsame.node, hsame.volume, hsame.cs]
    refine ⟨home?_persists (heffect.identities hs) hhome, ?_⟩
    rw [(heffect.plans hs hh).chunkSize hvolume]
    exact hcs
  · cases hopen with
    | @read mount path d h =>
      have hdb : (exec C M E s c (.openRead mount path)).1.db = s.db := by
        simp only [exec, h]
      rw [hdb]
      simp only [openRead, bind_eq_ok, pure_eq_ok] at h
      obtain ⟨m, hm, found, hfound, u, -, rfl⟩ := h
      exact ⟨hh.resolve hm hfound, rfl⟩
    | write h =>
      obtain ⟨-, -, -, -, -, -, -, -, -, hw, -⟩ := openWrite_ok h
      cases hreader.symm.trans hw

theorem Reaches.reads {guard : Sys → Label → Prop} (h : Reaches C M guard s) :
    ∀ f ∈ s.fds, f.Reads s.db := by
  have hall : (s.db.Sound ∧ s.db.Homed) ∧ ∀ f ∈ s.fds, f.Reads s.db := by
    refine GuardedRuns.Run.invariant (P := fun s : Sys => (s.db.Sound ∧ s.db.Homed) ∧
      ∀ f ∈ s.fds, f.Reads s.db)
      ?_ h ⟨⟨empty_sound, empty_homed⟩, ?_⟩
    · intro s l _ hs
      exact ⟨⟨step_sound hs.1.1, exec_homed hs.1.1 hs.1.2⟩, exec_reads hs.1.1 hs.1.2 hs.2⟩
    · intro f hf
      cases hf
  exact hall.2

/-! ### Ranges -/

/-- What opens under some cipher is what the rows hold under it. -/
theorem openChunks_opened {σ : Type} {R : Reading C σ} {rows : List VersionRow}
    {chunks : List (List σ)} {i : ℕ} {parts : List Bytes}
    (h : List.Forall₂ (ShowsAt R V db) rows (numbered i chunks))
    (hopen : openChunks C k (rows.filterMap (fun r => db.chunk? r.chunkHash)) = .ok parts) :
    List.Forall₂ (ShowsAt (Reading.exact (C := C) fun _ => k) V db) rows (numbered i parts) := by
  induction chunks generalizing i rows parts with
  | nil =>
    obtain rfl := List.forall₂_nil_right_iff.mp h
    obtain rfl := Except.ok.inj hopen
    exact List.Forall₂.nil
  | cons chunk chunks ih =>
    obtain ⟨r, rs, ⟨hidx, ch, hch, -⟩, hrest, rfl⟩ := List.forall₂_cons_right_iff.mp h
    have hhead : (r :: rs).filterMap (fun r => db.chunk? r.chunkHash) =
        ch :: rs.filterMap (fun r => db.chunk? r.chunkHash) := by
      simp [hch]
    rw [hhead, openChunks, List.mapM_cons] at hopen
    simp only [bind_eq_ok, pure_eq_ok, orRaise_eq_ok] at hopen
    obtain ⟨q, hq, qs, hqs, rfl⟩ := hopen
    exact List.Forall₂.cons ⟨hidx, ch, hch, hq⟩ (ih hrest hqs)

/-- An entry that reads as `whole` holds it in pieces of the chunk size. -/
theorem Kept.opened {r : ContentRow} {data whole : Bytes} (hC : C.KeepsLength)
    (h : Kept (Reading.lengths (C := C)) V db n r.version r.size data) (hr : db.content? n = some r)
    (hread : readContentBytes C k db n = .ok whole) :
    whole.length = r.size ∧ Holds (Reading.exact (C := C) fun _ => k) V db n r.version
      (pieces (chunkSizeOf db V) whole) := by
  have hfits : (Reading.lengths (C := C)).Fits k V := Reading.lengths_fits hC
  rw [readContentBytes, hr] at hread
  simp only [bind_eq_ok, pure_eq_ok, Db.readChunks] at hread
  obtain ⟨parts, hparts, rfl⟩ := hread
  have hsorted := Matches.sorted h.holds
  have hshown := openChunks_shows hfits hsorted hparts
  rw [map_snd_numbered] at hshown
  have hholds : Holds (Reading.exact (C := C) fun _ => k) V db n r.version parts :=
    ⟨_, (List.perm_insertionSort _ _).symm, openChunks_opened hsorted hparts⟩
  have hglance : parts.flatten.map (Reading.lengths (C := C)).glance =
      data.map (Reading.lengths (C := C)).glance := by
    rw [List.map_flatten, hshown]
    rcases h.chunked with hpos | rfl
    · rw [flatten_pieces hpos]
    · rw [List.map_nil, pieces_nil]
      rfl
  have hlen : parts.flatten.length = data.length := by
    have hmap := congrArg List.length hglance
    rwa [List.length_map, List.length_map] at hmap
  refine ⟨hlen.trans h.size.symm, ?_⟩
  have hsame : parts = pieces (chunkSizeOf db V) parts.flatten := by
    rw [List.eq_iff_flatten_eq]
    constructor
    · rcases h.chunked with hpos | rfl
      · rw [flatten_pieces hpos]
      · rw [List.eq_nil_of_length_eq_zero hlen, pieces_nil]
        rfl
    · have hlengths : ∀ xs : List Bytes, xs.map List.length =
          (xs.map (List.map (Reading.lengths (C := C)).glance)).map List.length := by
        intro xs
        rw [List.map_map]
        apply List.map_congr_left
        intro x _
        exact (List.length_map _).symm
      rw [hlengths, hlengths, hshown, map_pieces, hglance]
  rw [← hsame]
  exact hholds

/-- A window cut out of the chunks that cover it. -/
theorem window_of_range {α : Type*} {xs : List α} {a b start stop : ℕ} (ha : a ≤ start)
    (hb : stop ≤ b) :
    (((xs.take b).drop a).take (stop - a)).drop (start - a) = (xs.take stop).drop start := by
  have hwindow : (xs.take b).drop a = (xs.drop a).take (b - a) := List.drop_take
  have hlen : stop - a - (start - a) = stop - start := by omega
  rw [hwindow, List.take_take, Nat.min_eq_left (by omega), List.drop_take, List.drop_drop,
    Nat.add_sub_cancel' ha, hlen, ← List.drop_take]

/-- The chunks that cover a range that is not empty. -/
theorem covering {cs start stop : ℕ} (hcs : 0 < cs) (hlt : start < stop) :
    start / cs * cs ≤ start ∧ stop ≤ ((stop - 1) / cs + 1) * cs := by
  refine ⟨Nat.div_mul_le_self start cs, ?_⟩
  have hlt := Nat.lt_div_mul_add (a := stop - 1) hcs
  rw [Nat.add_mul]
  omega

theorem stopAt_le {d : Descriptor} {m : Option ℕ} (size : ℕ) : d.stopAt size m ≤ size := by
  cases m with
  | none => exact le_rfl
  | some m => exact Nat.min_le_left _ _

theorem refresh_of_no_content {d : Descriptor} (hc : db.content? d.node = none) :
    d.refresh db = (0, 0) := by
  rw [Descriptor.refresh, readContentMeta, hc]
  rfl

/-- What a reader that runs alone gets of an entry that is kept. -/
theorem Kept.read {d d' : Descriptor} {r : ContentRow} {data b : Bytes} {m : Option ℕ}
    (hC : C.KeepsLength) (h : Kept (Reading.lengths (C := C)) V db d.node r.version r.size data)
    (hr : db.content? d.node = some r) (hcs : d.cs = chunkSizeOf db V)
    (hread : d.readAcross C k db db m = .ok (b, d')) :
    b.length = d.stopAt r.size m - d.pos ∧ d' = { d with pos := d.pos + b.length } ∧
      ∀ whole, readContentBytes C k db d.node = .ok whole →
        b = (whole.take (d.stopAt whole.length m)).drop d.pos := by
  have hpointer : d.refresh db = (r.version, r.size) := readContentMeta_of_content hr
  have hle : d.stopAt r.size m ≤ r.size := stopAt_le r.size
  simp only [Descriptor.readAcross, hpointer, bind_eq_ok, refuse_eq_ok] at hread
  obtain ⟨-, -, -, -, hread⟩ := hread
  split at hread
  next hstop =>
    obtain ⟨rfl, rfl⟩ := Prod.mk.inj (Except.ok.inj hread)
    refine ⟨by rw [List.length_nil]; omega, rfl, ?_⟩
    intro whole hwhole
    obtain ⟨hlen, -⟩ := h.opened hC hr hwhole
    rw [hlen, List.drop_eq_nil_of_le]
    exact (List.length_take_le _ _).trans hstop
  next hstop =>
    simp only [bind_eq_ok, pure_eq_ok, refuse_eq_ok, decide_eq_false_iff_not, Prod.mk.injEq]
      at hread
    obtain ⟨-, hzero, rows, hrows, rfl, rfl⟩ := hread
    have hpos : 0 < d.cs := Nat.pos_of_ne_zero hzero
    generalize hend : d.stopAt r.size m = stop at *
    obtain ⟨hlo, hhi⟩ := covering hpos (not_le.mp hstop)
    have hbuf : rows.flatten.length =
        min r.size (((stop - 1) / d.cs + 1) * d.cs) - d.pos / d.cs * d.cs := by
      have hparts := h.holds.readChunkRange (k := k) (Reading.lengths_fits hC) hrows
      have hmap := congrArg List.length (congrArg List.flatten hparts)
      rw [← List.map_flatten, List.length_map, ← hcs, flatten_range hpos, List.length_drop,
        List.length_take,
        List.length_map, ← h.size, Nat.min_comm] at hmap
      exact hmap
    have hlen : ((rows.flatten.take (stop - d.pos / d.cs * d.cs)).drop
        (d.pos - d.pos / d.cs * d.cs)).length = stop - d.pos := by
      rw [List.length_drop, List.length_take, hbuf]
      omega
    refine ⟨hlen, ?_, ?_⟩
    · rw [hlen, Nat.add_sub_cancel' (not_le.mp hstop).le]
    · intro whole hwhole
      obtain ⟨hsize, hexact⟩ := h.opened hC hr hwhole
      have hrange := hexact.readChunkRange_exact (d.pos / d.cs) ((stop - 1) / d.cs)
      obtain rfl := Except.ok.inj (hrows.symm.trans hrange)
      rw [hsize, hend, ← hcs, flatten_range hpos]
      exact window_of_range hlo hhi

/-! ### Both statements -/

/-- While the version is left alone a read is the one its reader would have had alone, at
the moment it took the pointer. -/
theorem SameVersion.readContentBytesAcross
    (h : ∀ v, db.committedVersion n = some v → SameVersion n v db db') :
    readContentBytesAcross C k db db' n = readContentBytes C k db n := by
  rw [Aloelite.readContentBytesAcross, readContentBytes]
  cases hc : db.content? n with
  | none => rfl
  | some r =>
    have hv : db.committedVersion n = some r.version := by
      rw [Db.committedVersion, hc]
      rfl
    simp only [(h r.version hv).readChunks]

theorem SameVersion.readAcross {d : Descriptor} {m : Option ℕ}
    (h : ∀ v, db.committedVersion d.node = some v → SameVersion d.node v db db') :
    d.readAcross C k db db' m = d.readAcross C k db db m := by
  cases hc : db.content? d.node with
  | none =>
    have hstop : d.stopAt 0 m ≤ d.pos := (stopAt_le 0).trans (Nat.zero_le _)
    simp only [Descriptor.readAcross, refresh_of_no_content hc, if_pos hstop]
  | some r =>
    have hv : db.committedVersion d.node = some r.version := by
      rw [Db.committedVersion, hc]
      rfl
    have hpointer : d.refresh db = (r.version, r.size) := readContentMeta_of_content hc
    simp only [Descriptor.readAcross, hpointer, (h r.version hv).readChunkRange]

theorem readAllAcross_of_resolved {db₀ db₁ : Db} {mount : MountId} {path : String} {m : MountCtx}
    {found : Resolved} (hm : requireMount E k db₀ mount false = .ok m)
    (hfound : resolve db₁ m.mountPoint path = .ok found) (hleaf : found.type ≠ .container) :
    readAllAcross C E k db₀ db₁ db db' mount path =
      readContentBytesAcross C k db db' found.node := by
  simp only [readAllAcross, hm, ok_bind, hfound]
  rw [decide_eq_false hleaf]
  rfl

/-- Reads are atomic as long as the version a reader has taken the pointer of is left
alone until the reader has its rows: no prune drops one, no stream goes on in it. -/
theorem reads_atomic (hC : C.KeepsLength) (h : Reaches C M Apart s)
    (hrun : ∀ v, s.db.committedVersion n = some v →
      GuardedRuns.Run (step C M) (LeavesVersion n v) s s') :
    (∀ (E : Env) (k : Cipher) (db₀ db₁ : Db) (mount : MountId) (path : String) (m : MountCtx)
      (found : Resolved),
        requireMount E k db₀ mount false = .ok m → resolve db₁ m.mountPoint path = .ok found →
        found.node = n → found.type ≠ .container →
        readAllAcross C E k db₀ db₁ s.db s'.db mount path = readContentBytes C k s.db n) ∧
      ∀ f ∈ s.fds, f.d.node = n → ∀ (k : Cipher) (m : Option ℕ) (b : Bytes) (d : Descriptor),
        f.d.readAcross C k s.db s'.db m = .ok (b, d) →
          b.length = f.d.stopAt (f.d.refresh s.db).2 m - f.d.pos ∧
            d = { f.d with pos := f.d.pos + b.length } ∧
            ∀ whole, readContentBytes C k s.db n = .ok whole →
              b = (whole.take (f.d.stopAt whole.length m)).drop f.d.pos := by
  have horderly : Reaches C M (Orderly (Reading.lengths (C := C)) M) s :=
    GuardedRuns.Run.weaken (fun _ _ hl => hl.orderly hC) h
  have hstored := horderly.writers.stored.1
  -- between its two statements a reader sees one version, row for row
  have hsame : ∀ v, s.db.committedVersion n = some v → SameVersion n v s.db s'.db := by
    intro v hv
    refine run_sameVersion h ?_ (hrun v hv)
    rw [Db.committedVersion, Option.map_eq_some_iff] at hv
    obtain ⟨r, hr, -⟩ := hv
    obtain ⟨V, hV, -⟩ := hstored.content n r hr
    exact Db.node?_isSome_of_home hV
  constructor
  · rintro E k db₀ db₁ mount path m found hm hfound rfl hleaf
    rw [readAllAcross_of_resolved hm hfound hleaf]
    exact SameVersion.readContentBytesAcross hsame
  · rintro f hf rfl k m b d hread
    rw [SameVersion.readAcross hsame] at hread
    have hreader : f.d.writable = false := by
      rw [Descriptor.readAcross_self] at hread
      exact (read_ok hread).2.1
    obtain ⟨hhome, hcs⟩ := h.reads f hf hreader
    cases hc : s.db.content? f.d.node with
    -- an entry that never had content reads as empty
    | none =>
      have hstop : f.d.stopAt 0 m ≤ f.d.pos := (stopAt_le 0).trans (Nat.zero_le _)
      simp only [Descriptor.readAcross, refresh_of_no_content hc, if_pos hstop, bind_eq_ok] at hread
      obtain ⟨-, -, -, -, hread⟩ := hread
      obtain ⟨rfl, rfl⟩ := Prod.mk.inj (Except.ok.inj hread)
      rw [refresh_of_no_content hc]
      refine ⟨(Nat.sub_eq_zero_of_le hstop).symm, rfl, ?_⟩
      intro whole hwhole
      rw [readContentBytes, hc] at hwhole
      obtain rfl := Except.ok.inj hwhole
      rw [List.take_nil, List.drop_nil]
    | some r =>
      have hkept := hstored.committed hhome hc
      have hpointer : f.d.refresh s.db = (r.version, r.size) := readContentMeta_of_content hc
      rw [hpointer]
      exact hkept.read hC hc hcs hread

/-- Two bytes in an entry that keeps one version, and a reader on it. -/
def readerRun : List Label :=
  [⟨.counting 0, 0, .createVolume none 1 none .none⟩,
    ⟨.counting 1, 0, .mount { volume := 0 }⟩,
    ⟨.counting 2, 1, .mount { volume := 0, allowOverlap := true }⟩,
    ⟨.counting 3, 0, .request 1 (.createEntry "x" [1, 2])⟩,
    ⟨.counting 5, 0, .request 1 (.setRetention "x" (some 1))⟩,
    ⟨.counting 6, 0, .openRead 1 "x"⟩]

theorem readerRun_guards :
    GuardedRuns.Guards (step Crypto.xorStream Msgpack.refusing) Apart {} readerRun := by
  decide +kernel

/-- A write alone between the two statements does no harm. -/
theorem reads_atomic_written :
    readAllAcross Crypto.xorStream (.counting 8) .identity
      (readerRun.foldl (step Crypto.xorStream Msgpack.refusing) {}).db
      (readerRun.foldl (step Crypto.xorStream Msgpack.refusing) {}).db
      (readerRun.foldl (step Crypto.xorStream Msgpack.refusing) {}).db
      (step Crypto.xorStream Msgpack.refusing
        (readerRun.foldl (step Crypto.xorStream Msgpack.refusing) {})
        ⟨.counting 7, 1, .request 2 (.writeAll "x" [3])⟩).db 1 "x" = .ok [1, 2] := by
  let s := readerRun.foldl (step Crypto.xorStream Msgpack.refusing) {}
  let l : Label := ⟨.counting 7, 1, .request 2 (.writeAll "x" [3])⟩
  have hleaves : LeavesVersion 3 1 s l := by decide +kernel
  have hrun : GuardedRuns.Run (step Crypto.xorStream Msgpack.refusing) (LeavesVersion 3 1) s
      (step Crypto.xorStream Msgpack.refusing s l) := (GuardedRuns.Run.refl s).snoc hleaves
  have hpointer : s.db.committedVersion 3 = some 1 := by rfl
  have hm : requireMount (.counting 8) .identity s.db 1 false = .ok ⟨1, 0, 0, .none⟩ := by rfl
  have hfound : resolve s.db 0 "x" = .ok ⟨3, .entry⟩ := by rfl
  have hreads := (reads_atomic (n := 3) xorStream_keepsLength (reaches_foldl readerRun_guards)
    (fun v hv => Option.some.inj (hpointer.symm.trans hv) ▸ hrun)).1
  have hwhole : readContentBytes Crypto.xorStream .identity s.db 3 = .ok [1, 2] := by rfl
  exact (hreads _ .identity s.db s.db 1 "x" _ _ hm hfound rfl (by decide)).trans hwhole

/-- A write and a prune of content on other connections between the two statements: the
entry has never been empty, the reader gets nothing, and a cursor moves over two bytes
that were not returned. -/
theorem read_loses_pruned_version :
    ∃ s s₁ s₂ l₁ l₂, Reaches Crypto.xorStream Msgpack.refusing Apart s ∧ Apart s l₁ ∧ Apart s₁ l₂ ∧
      l₁.conn = 1 ∧ s₁ = step Crypto.xorStream Msgpack.refusing s l₁ ∧
      l₂.conn = 2 ∧ s₂ = step Crypto.xorStream Msgpack.refusing s₁ l₂ ∧
      readContentBytes Crypto.xorStream .identity s.db 3 = .ok [1, 2] ∧
      readContentBytes Crypto.xorStream .identity s₁.db 3 = .ok [3] ∧
      readContentBytes Crypto.xorStream .identity s₂.db 3 = .ok [3] ∧
      readAllAcross Crypto.xorStream (.counting 9) .identity s.db s.db s.db s₂.db 1 "x" = .ok [] ∧
      (s.fds[0]?).map (fun f => (f.conn, f.d.node, f.d.pos)) = some (0, 3, 0) ∧
      (s.fds[0]?).map (fun f =>
        (f.d.readAcross Crypto.xorStream .identity s.db s₂.db none).toOption.map
        fun p => (p.1, p.2.pos)) = some (some ([], 2)) := by
  let s := readerRun.foldl (step Crypto.xorStream Msgpack.refusing) {}
  let l₁ : Label := ⟨.counting 7, 1, .request 2 (.writeAll "x" [3])⟩
  let l₂ : Label := ⟨.counting 8, 2, .pruneContent none⟩
  exact ⟨s, _, _, l₁, l₂, reaches_foldl readerRun_guards,
    by decide +kernel, by decide +kernel, rfl, rfl, rfl, rfl,
    by decide +kernel,
    by decide +kernel, by decide +kernel, by decide +kernel, by decide +kernel, by decide +kernel⟩

end Aloelite
