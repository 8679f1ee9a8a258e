import Aloelite.Streams

/-! Whose key opens the chunks of a file. Every manifest row opens under the cipher of the
volume its entry lives in, as long as what seals does so under that volume's cipher and no
sealed chunk meets a foreign row at its address. -/
namespace Aloelite

open Fallible KeyedRows

variable {C : Crypto} {M : Msgpack} {own : VolumeId → Cipher} {V : VolumeId} {E : Env} {k : Cipher}
  {db db' : Db} {tx tx' tx₁ tx₂ : Tx} {n m : NodeId} {v w i size count : ℕ} {data : Bytes}
  {mount : MountId} {path src dst : String} {ctx : MountCtx} {d : Descriptor}

/-- A manifest row whose chunk opens under the cipher of its entry's volume. -/
def Db.OpensOwn (C : Crypto) (own : VolumeId → Cipher) (db : Db) (r : VersionRow) : Prop :=
  ∃ V, db.home? r.contentId = some V ∧ ∃ p, Shows (Reading.exact (C := C) own) V db r p

/-- Every manifest row does, unless the flag says that a chunk met a foreign row. -/
structure Tx.SealedOwn (C : Crypto) (own : VolumeId → Cipher) (tx : Tx) : Prop where
  addressed : tx.db.Addressed C
  opens : tx.aliased = false → ∀ r ∈ tx.db.versions, tx.db.OpensOwn C own r

/-- A part of a transaction that keeps it so. The flag is never taken back and no entry
leaves its volume. -/
structure Seals (C : Crypto) (own : VolumeId → Cipher) (tx tx' : Tx) : Prop where
  clear : tx'.aliased = false → tx.aliased = false
  homes : ∀ n V, tx.db.home? n = some V → tx'.db.home? n = some V
  sealed : tx.SealedOwn C own → tx'.SealedOwn C own

theorem Seals.refl (tx : Tx) : Seals C own tx tx := ⟨id, fun _ _ h => h, id⟩

theorem Seals.trans (h : Seals C own tx tx₁) (h' : Seals C own tx₁ tx') : Seals C own tx tx' :=
  ⟨fun hal => h.clear (h'.clear hal), fun n V hV => h'.homes n V (h.homes n V hV), fun hs =>
    h'.sealed (h.sealed hs)⟩

/-! ### Statements that cite no chunk -/

theorem Db.OpensOwn.mono {r : VersionRow} (h : db.OpensOwn C own r)
    (hhomes : ∀ n V, db.home? n = some V → db'.home? n = some V) (hpool : KeepsChunks db db' [r]) :
    db'.OpensOwn C own r := by
  obtain ⟨V, hV, p, hp⟩ := h
  exact ⟨V, hhomes _ V hV, p, hp.mono (hpool r (List.mem_singleton_self r))⟩

theorem Seals.of_tables (hversions : tx'.db.versions = tx.db.versions)
    (hchunks : tx'.db.chunks = tx.db.chunks)
    (hhomes : ∀ n V, tx.db.home? n = some V → tx'.db.home? n = some V)
    (haliased : tx'.aliased = tx.aliased) :
    Seals C own tx tx' := by
  refine ⟨fun hal => haliased ▸ hal, hhomes, ?_⟩
  intro hs
  constructor
  · rw [Db.Addressed, hchunks]
    exact hs.addressed
  · intro hal r hr
    rw [hversions] at hr
    refine (hs.opens (haliased ▸ hal) r hr).mono hhomes ?_
    intro r _ ch hch
    rw [Db.chunk?, hchunks]
    exact hch

theorem Calm.seals (h : Calm tx tx') : Seals C own tx tx' := by
  refine Seals.of_tables (h.off.versions (by simp)) (h.off.chunks (by simp)) ?_ h.aliased
  intro n V hV
  rw [h.home]
  exact hV

/-- The content row of an entry made or moved on. -/
theorem run_seals_content {st : Stmt} (h : tx.run E st = .ok tx') (hst : st.touches = [.contents]) :
    Seals C own tx tx' := by
  obtain ⟨db', hexec, rfl⟩ := Tx.run_ok.mp h
  have hframe := Stmt.exec_agreeOff hexec
  rw [hst] at hframe
  refine Seals.of_tables (hframe.versions (by simp)) (hframe.chunks (by simp)) ?_ rfl
  intro n V hV
  rw [home?_congr (hframe.identities (by simp))]
  exact hV

theorem gives_seals : Seals C own tx (tx.gives n data) :=
  Seals.of_tables rfl rfl (fun _ _ h => h) rfl

theorem newNode_seals {type : NodeType} {name : String} {createdAt modifiedAt : Option Int}
    {metadata : Metadata}
    (h : newNode E tx ctx type name createdAt modifiedAt metadata = .ok (tx', n)) :
    Seals C own tx tx' ∧ tx'.db.home? n = some ctx.volume := by
  obtain ⟨-, db₁, hrow, rfl⟩ := newNode_ok h
  obtain ⟨hnone, -, rfl⟩ := Db.createNode_ok hrow
  let row : NodeRow := { nodeId := n, type := type, name := name, createdAt := createdAt.getD E.now,
                         volumeId := ctx.volume, metadata := metadata }
  have hself : lookup NodeRow.nodeId (tx.db.nodes ++ [row]) n = some row :=
    lookup_append_self (r := row) hnone
  constructor
  · refine Seals.of_tables rfl rfl ?_ rfl
    intro m V hV
    obtain ⟨r, hr, hvol⟩ := Option.map_eq_some_iff.mp hV
    have hold : lookup NodeRow.nodeId (tx.db.nodes ++ [row]) m = some r :=
      lookup_append_of_some hr [row]
    show (lookup NodeRow.nodeId (tx.db.nodes ++ [row]) m).map NodeRow.volumeId = some V
    rw [hold, Option.map_some, hvol]
  · show (lookup NodeRow.nodeId (tx.db.nodes ++ [row]) n).map NodeRow.volumeId = some ctx.volume
    rw [hself, Option.map_some]

/-! ### Chunks -/

/-- Rows added to an entry whose chunks open under its volume's cipher. -/
theorem Grown.seals (h : Grown C n v tx tx') (hclear : tx'.aliased = false → tx.aliased = false)
    (hrows : ∀ added, tx'.db.versions = tx.db.versions ++ added → tx.SealedOwn C own →
      tx'.aliased = false →
      ∀ r ∈ added, tx'.db.OpensOwn C own r) : Seals C own tx tx' := by
  have hhomes : ∀ m V, tx.db.home? m = some V → tx'.db.home? m = some V := by
    intro m V hV
    rw [h.home]
    exact hV
  refine ⟨hclear, hhomes, ?_⟩
  intro hs
  refine ⟨h.addressed hs.addressed, ?_⟩
  intro hal r hr
  obtain ⟨added, hversions, -⟩ := h.rows
  rw [hversions] at hr
  rcases List.mem_append.mp hr with hold | hnew
  · exact (hs.opens (hclear hal) r hold).mono hhomes (h.keepsChunks [r])
  · exact hrows added hversions hs hal r hnew

theorem stageChunk_seals (hk : k = own V) (hV : tx.db.home? n = some V)
    (h : tx.stageChunk C E k n v i data = .ok tx') :
    Seals C own tx tx' := by
  have hgrown := stageChunk_grown h
  refine hgrown.seals (Tx.stageChunk_aliased h) ?_
  intro added hadded hs hal r hr
  have hfits : (Reading.exact (C := C) own).Fits k V := hk ▸ Reading.exact_fits
  have hstaged := stageChunk_staged hfits hs.addressed h (fun _ => hal)
  obtain ⟨rows, hperm, hshow⟩ := hstaged.matched added hadded
  obtain ⟨rows', hrows', hkey⟩ := hgrown.rows
  obtain rfl : added = rows' := List.append_cancel_left (hadded.symm.trans hrows')
  obtain ⟨r', rest, ⟨-, hshows⟩, hnil, rfl⟩ := List.forall₂_cons_right_iff.mp hshow
  obtain rfl := List.forall₂_nil_right_iff.mp hnil
  obtain rfl := List.mem_singleton.mp (hperm.mem_iff.mp hr)
  refine ⟨V, ?_, _, hshows⟩
  rw [(hkey r hr).1, hgrown.home]
  exact hV

theorem stageFrom_seals {chunks : List Bytes} (hk : k = own V) (hV : tx.db.home? n = some V)
    (h : tx.stageFrom C E k n v i chunks = .ok tx') : Seals C own tx tx' := by
  induction chunks generalizing tx i with
  | nil =>
    obtain rfl := Except.ok.inj h
    exact Seals.refl tx
  | cons chunk chunks ih =>
    simp only [Tx.stageFrom, bind_eq_ok] at h
    obtain ⟨tx₁, hchunk, hrest⟩ := h
    have hfirst : Seals C own tx tx₁ := stageChunk_seals hk hV hchunk
    exact hfirst.trans (ih (hfirst.homes n V hV) hrest)

theorem stageChunks_seals (hk : k = own V) (hV : tx.db.home? n = some V)
    (h : tx.stageChunks C E k n v V data = .ok tx') : Seals C own tx tx' := by
  simp only [Tx.stageChunks, bind_eq_ok] at h
  obtain ⟨parts, -, hstage⟩ := h
  exact stageFrom_seals hk hV hstage

/-- Rows carried from an entry to one of the same volume. -/
theorem carried_seals {rows : List VersionRow}
    (hrows : ∀ r ∈ rows, r ∈ tx.db.versions ∧ r.contentId = m) (hm : tx.db.home? m = some V)
    (hV : tx.db.home? n = some V) (h : tx.db.insertRefs (Db.carriedRefs rows n v) = .ok db') :
    Seals C own tx { tx with db := db' } := by
  have hgrown : Grown C n v tx { tx with db := db' } := carried_grown h
  refine hgrown.seals id ?_
  intro added hadded hs hal r hr
  obtain rfl := Db.insertRefs_ok h
  obtain rfl := List.append_cancel_left hadded
  obtain ⟨r₀, hr₀, rfl⟩ := List.mem_map.mp hr
  obtain ⟨hmem, hid⟩ := hrows r₀ hr₀
  obtain ⟨W, hW, p, ch, hch, hshow⟩ := hs.opens hal r₀ hmem
  rw [hid] at hW
  obtain rfl := Option.some.inj (hm.symm.trans hW)
  exact ⟨V, hV, p, ch, hch, hshow⟩

theorem copyChunkRefsRange_seals {lo hi : ℕ} (hV : tx.db.home? n = some V)
    (h : tx.run E (.copyChunkRefsRange n v w lo hi) = .ok tx') : Seals C own tx tx' := by
  obtain ⟨db₁, hcopy, rfl⟩ := Tx.run_ok.mp h
  refine carried_seals ?_ hV hV hcopy
  intro r hr
  obtain ⟨hmem, hid, -⟩ := Db.mem_manifest.mp (List.mem_of_mem_filter hr)
  exact ⟨hmem, hid⟩

theorem copyChunkRefs_seals (hm : tx.db.home? m = some V) (hV : tx.db.home? n = some V)
    (h : tx.run E (.copyChunkRefs n v m w) = .ok tx') : Seals C own tx tx' := by
  obtain ⟨db₁, hcopy, rfl⟩ := Tx.run_ok.mp h
  refine carried_seals ?_ hm hV hcopy
  intro r hr
  obtain ⟨hmem, hid, -⟩ := Db.mem_manifest.mp hr
  exact ⟨hmem, hid⟩

theorem carryLeading_seals (hV : tx.db.home? n = some V)
    (h : carryLeading E tx n v w count = .ok tx') :
    Seals C own tx tx' := by
  rw [carryLeading] at h
  split at h
  · exact copyChunkRefsRange_seals hV h
  · obtain rfl := Except.ok.inj h
    exact Seals.refl tx

theorem carryTrailing_seals {hi : ℕ} {srcLast : Int} (hV : tx.db.home? n = some V)
    (h : carryTrailing E tx n v w hi srcLast = .ok tx') : Seals C own tx tx' := by
  rw [carryTrailing] at h
  split at h
  · exact copyChunkRefsRange_seals hV h
  · obtain rfl := Except.ok.inj h
    exact Seals.refl tx

theorem putInitialContent_seals (hk : data ≠ [] → k = own ctx.volume)
    (hV : tx.db.home? n = some ctx.volume) (h : putInitialContent C E k tx ctx n data = .ok tx') :
    Seals C own tx tx' := by
  simp only [putInitialContent, bind_eq_ok] at h
  obtain ⟨tx₁, hcreate, h⟩ := h
  have hrow : Seals C own tx (tx₁.gives n data) := (run_seals_content hcreate rfl).trans gives_seals
  split at h
  · obtain rfl := Except.ok.inj h
    exact hrow
  next hdata => exact hrow.trans (stageChunks_seals (hk hdata) (hrow.homes n _ hV) h)

/-! ### Operations -/

/-- The cipher on the connection is the own one of the volume a mount acts on, wherever the
mount is let through. -/
def OwnKey (own : VolumeId → Cipher) (E : Env) (k : Cipher) (db : Db) (mount : MountId) : Prop :=
  ∀ write ctx, requireMount E k db mount write = .ok ctx → k = own ctx.volume

theorem openContent_home (hh : tx.db.Homed) (h : openContent E k tx.db mount path = .ok (ctx, n)) :
    requireMount E k tx.db mount true = .ok ctx ∧ tx.db.home? n = some ctx.volume := by
  obtain ⟨hm, type, -, hfound⟩ := openContent_ok h
  exact ⟨hm, hh.resolve hm hfound⟩

theorem writeAll_seals (hk : OwnKey own E k tx.db mount) (hh : tx.db.Homed)
    (h : writeAll C E k tx mount path data = .ok tx') : Seals C own tx tx' := by
  simp only [writeAll, bind_eq_ok, pure_eq_ok] at h
  obtain ⟨⟨ctx, node⟩, hopen, tx₁, hstage, tx₂, hswap, rfl⟩ := h
  obtain ⟨hm, hhome⟩ := openContent_home hh hopen
  exact ((stageChunks_seals (hk true ctx hm) hhome hstage).trans
    (run_seals_content hswap rfl)).trans gives_seals

theorem append_seals (hk : OwnKey own E k tx.db mount) (hh : tx.db.Homed)
    (h : append C E k tx mount path data = .ok (tx', size)) : Seals C own tx tx' := by
  by_cases hdata : data = []
  · simp only [append, if_pos hdata, bind_eq_ok, pure_eq_ok, Prod.mk.injEq] at h
    obtain ⟨size', -, rfl, -⟩ := h
    exact Seals.refl tx
  · simp only [append, if_neg hdata, bind_eq_ok, pure_eq_ok, refuse_eq_ok, Prod.mk.injEq] at h
    obtain ⟨⟨ctx, node⟩, hopen, u, -, tx₁, hcarry, tail, -, tx₂, hstage, tx₃, hswap, rfl, -⟩ := h
    obtain ⟨hm, hhome⟩ := openContent_home hh hopen
    have hcarried : Seals C own tx tx₁ := carryLeading_seals hhome hcarry
    have hstaged : Seals C own tx₁ tx₂ :=
      stageFrom_seals (hk true ctx hm) (hcarried.homes _ _ hhome) hstage
    exact ((hcarried.trans hstaged).trans (run_seals_content hswap rfl)).trans gives_seals

theorem writeRange_seals {offset : ℕ} (hk : OwnKey own E k tx.db mount) (hh : tx.db.Homed)
    (h : writeRange C E k tx mount path offset data = .ok (tx', size)) : Seals C own tx tx' := by
  by_cases hdata : data = []
  · simp only [writeRange, if_pos hdata, bind_eq_ok, pure_eq_ok, Prod.mk.injEq] at h
    obtain ⟨size', -, rfl, -⟩ := h
    exact Seals.refl tx
  · simp only [writeRange, if_neg hdata, bind_eq_ok, pure_eq_ok, refuse_eq_ok, Prod.mk.injEq] at h
    obtain ⟨⟨ctx, node⟩, hopen, u, -, tx₁, hlead, tx₂, htrail, buf, -, tx₃, hstage,
      tx₄, hswap, rfl, -⟩ := h
    obtain ⟨hm, hhome⟩ := openContent_home hh hopen
    have hleading : Seals C own tx tx₁ := carryLeading_seals hhome hlead
    have hcarried : Seals C own tx tx₂ :=
      hleading.trans (carryTrailing_seals (hleading.homes _ _ hhome) htrail)
    have hstaged : Seals C own tx₂ tx₃ :=
      stageFrom_seals (hk true ctx hm) (hcarried.homes _ _ hhome) hstage
    exact ((hcarried.trans hstaged).trans (run_seals_content hswap rfl)).trans gives_seals

theorem shrinkTo_seals {cs : ℕ} (hk : k = own V) (hV : tx.db.home? n = some V)
    (h : shrinkTo C E k tx n v w cs size = .ok tx') : Seals C own tx tx' := by
  simp only [shrinkTo, bind_eq_ok] at h
  obtain ⟨tx₁, hcarry, h⟩ := h
  have hcarried : Seals C own tx tx₁ := carryLeading_seals hV hcarry
  split at h
  · simp only [bind_eq_ok, orRaise_eq_ok] at h
    obtain ⟨rows, -, chunk, -, hstage⟩ := h
    exact hcarried.trans (stageChunk_seals hk (hcarried.homes n V hV) hstage)
  · obtain rfl := Except.ok.inj h
    exact hcarried

theorem growTo_seals {cs cur : ℕ} (hk : k = own V) (hV : tx.db.home? n = some V)
    (h : growTo C E k tx n v w cs cur size = .ok tx') : Seals C own tx tx' := by
  simp only [growTo, bind_eq_ok] at h
  obtain ⟨tx₁, hcarry, tail, -, hstage⟩ := h
  have hcarried : Seals C own tx tx₁ := carryLeading_seals hV hcarry
  exact hcarried.trans (stageFrom_seals hk (hcarried.homes n V hV) hstage)

theorem truncate_seals (hk : OwnKey own E k tx.db mount) (hh : tx.db.Homed)
    (h : truncate C E k tx mount path size = .ok tx') : Seals C own tx tx' := by
  simp only [truncate, bind_eq_ok] at h
  obtain ⟨⟨ctx, node⟩, hopen, h⟩ := h
  obtain ⟨hm, hhome⟩ := openContent_home hh hopen
  have hown := hk true ctx hm
  split at h
  · obtain rfl := Except.ok.inj h
    exact Seals.refl tx
  simp only [bind_eq_ok, refuse_eq_ok] at h
  obtain ⟨u, -, h⟩ := h
  split at h
  · simp only [bind_eq_ok, pure_eq_ok] at h
    obtain ⟨tx₁, hshrink, tx₂, hswap, rfl⟩ := h
    exact ((shrinkTo_seals hown hhome hshrink).trans (run_seals_content hswap rfl)).trans
      gives_seals
  · simp only [bind_eq_ok, pure_eq_ok] at h
    obtain ⟨tx₁, hgrow, tx₂, hswap, rfl⟩ := h
    exact ((growTo_seals hown hhome hgrow).trans (run_seals_content hswap rfl)).trans gives_seals

theorem createContainer_seals (h : createContainer E k tx mount path = .ok (tx', n)) :
    Seals C own tx tx' := by
  simp only [createContainer, bind_eq_ok, pure_eq_ok, Prod.mk.injEq] at h
  obtain ⟨ctx, -, p, -, u, -, ⟨tx₁, node⟩, hnew, tx₂, hlink, rfl, -⟩ := h
  exact (newNode_seals hnew).1.trans (linkChild_calm hlink).seals

theorem createLeaf_seals {type : NodeType} (hk : data ≠ [] → OwnKey own E k tx.db mount)
    (h : createLeaf C E k tx mount path type data = .ok (tx', n)) :
    Seals C own tx tx' ∧ ∃ ctx, requireMount E k tx.db mount true = .ok ctx ∧ tx'.db.home? n =
      some ctx.volume := by
  simp only [createLeaf, bind_eq_ok, pure_eq_ok, Prod.mk.injEq] at h
  obtain ⟨ctx, hm, p, -, u, -, ⟨tx₁, node⟩, hnew, tx₂, hput, tx₃, hlink, rfl, rfl⟩ := h
  obtain ⟨hborn, hhome⟩ : Seals C own tx tx₁ ∧ _ := newNode_seals hnew
  have hfilled : Seals C own tx₁ tx₂ :=
    putInitialContent_seals (fun hdata => hk hdata true ctx hm) hhome hput
  have hlinked : Seals C own tx₂ tx₃ := (linkChild_calm hlink).seals
  exact ⟨(hborn.trans hfilled).trans hlinked, ctx, hm, hlinked.homes _ _ (hfilled.homes _ _ hhome)⟩

/-! ### Trees -/

theorem copyContent_seals (hm : tx.db.home? m = some V) (hV : tx.db.home? n = some V)
    (h : copyContent E tx m n = .ok tx') : Seals C own tx tx' := by
  simp only [copyContent, bind_eq_ok] at h
  obtain ⟨tx₁, hcreate, h⟩ := h
  have hrow : Seals C own tx (tx₁.gives n (tx₁.committed m)) :=
    (run_seals_content hcreate rfl).trans gives_seals
  split at h
  · exact hrow.trans (copyChunkRefs_seals (hrow.homes m V hm) (hrow.homes n V hV) h)
  · obtain rfl := Except.ok.inj h
    exact hrow

theorem copyRow_seals {p : Parent} {s t : Tx × IdMap NodeId} {r : SubtreeRow}
    (hs : Seals C own tx s.1) (hr : tx.db.home? r.nodeId = some ctx.volume)
    (h : copyRow E ctx p s r = .ok t) :
    Seals C own tx t.1 := by
  simp only [copyRow, bind_eq_ok, pure_eq_ok, orRaise_eq_ok] at h
  obtain ⟨info, -, parent, -, ⟨tx₁, new⟩, hnew, tx₂, hfill, tx₃, hlink, rfl⟩ := h
  obtain ⟨hborn, hhome⟩ : Seals C own _ tx₁ ∧ _ := newNode_seals hnew
  have hfilled : Seals C own tx₁ tx₂ := by
    rw [fillCopy] at hfill
    split at hfill
    · obtain rfl := Except.ok.inj hfill
      exact Seals.refl tx₁
    · exact copyContent_seals (hborn.homes _ _ (hs.homes _ _ hr)) hhome hfill
  exact hs.trans ((hborn.trans hfilled).trans (linkChild_calm hlink).seals)

theorem copy_seals (hh : tx.db.Homed) (h : copy E k tx mount src dst = .ok (tx', n)) :
    Seals C own tx tx' := by
  simp only [copy, bind_eq_ok, pure_eq_ok, Prod.mk.injEq] at h
  obtain ⟨ctx, hm, found, hfound, p, -, u, -, s, hfold, root, -, rfl, -⟩ := h
  have hhome := hh.resolve hm hfound
  refine foldlM_invariant (P := fun s : Tx × IdMap NodeId => Seals C own tx s.1) ?_ hfold
    (Seals.refl tx)
  intro s r t hr hs hrow
  have hbelow : r.nodeId ∈ tx.db.subtreeIds found.node := List.mem_map_of_mem hr
  exact copyRow_seals hs (hh.below (Db.below_of_mem_subtreeIds hbelow) hhome) hrow

theorem pack_seals (hk : OwnKey own E k tx.db mount)
    (h : pack C M E k tx mount path = .ok (tx', n)) :
    Seals C own tx tx' := by
  simp only [pack, bind_eq_ok, pure_eq_ok, orRaise_eq_ok, Prod.mk.injEq] at h
  obtain ⟨ctx, hm, found, -, u, -, u₁, -, e, -, cont, -, nodes, -, blob, -, tx₁, hraze,
    ⟨tx₂, packed⟩, hnew, tx₃, hput, tx₄, hlink, rfl, -⟩ := h
  have hrazed : Seals C own tx tx₁ := (run_calm hraze trivial).seals
  obtain ⟨hborn, hhome⟩ : Seals C own tx₁ tx₂ ∧ _ := newNode_seals hnew
  have hfilled := putInitialContent_seals (fun _ => hk true ctx hm) hhome hput
  exact ((hrazed.trans hborn).trans hfilled).trans (linkChild_calm hlink).seals

theorem unpackNode_seals {parent : NodeId} {s t : Tx × List NodeId} {pn : PackNode}
    (hk : k = own ctx.volume) (h : unpackNode C E k ctx parent s pn = .ok t) :
    Seals C own s.1 t.1 := by
  simp only [unpackNode, bind_eq_ok, pure_eq_ok] at h
  obtain ⟨type, -, target, -, metadata, -, u, -, ⟨tx₁, new⟩, hnew, tx₂, hfill, tx₃, hlink, tx₄,
    howner, tx₅,
    hxattrs, tx₆, hretention, rfl⟩ := h
  have hcalm : Calm tx₂ tx₆ := (linkChild_calm hlink).trans
    (((restoreOwner_calm howner).trans (restoreXattrs_calm hxattrs)).trans
      (restoreRetention_calm hretention))
  obtain ⟨hborn, hhome⟩ : Seals C own _ tx₁ ∧ _ := newNode_seals hnew
  rw [fillUnpacked] at hfill
  split at hfill
  · obtain rfl := Except.ok.inj hfill
    exact hborn.trans hcalm.seals
  · exact (hborn.trans (putInitialContent_seals (fun _ => hk) hhome hfill)).trans hcalm.seals

theorem unpack_seals (hk : OwnKey own E k tx.db mount)
    (h : unpack C M E k tx mount path = .ok tx') :
    Seals C own tx tx' := by
  simp only [unpack, bind_eq_ok, pure_eq_ok] at h
  obtain ⟨ctx, hm, found, -, u, -, u₁, -, blob, -, nodes, -, e, -, tx₁, harch, s, hfold, rfl⟩ := h
  refine foldlM_invariant (P := fun s : Tx × List NodeId => Seals C own tx s.1) ?_ hfold
    (run_calm harch trivial).seals
  intro s pn t _ hs hrow
  exact hs.trans (unpackNode_seals (hk true ctx hm) hrow)

/-! ### Requests and streams -/

/-- Every request keeps the file sealed. -/
theorem request_seals {r : Request} {a : Reply} (hk : r.seals = true → OwnKey own E k tx.db mount)
    (hh : tx.db.Homed) (h : r.run C M E k tx mount = .ok (tx', a)) : Seals C own tx tx' := by
  cases r with
  | createContainer path =>
    obtain ⟨n, hr, -⟩ := asReply_ok h
    exact createContainer_seals hr
  | createEntry path data =>
    obtain ⟨n, hr, -⟩ := asReply_ok h
    exact (createLeaf_seals (fun _ => hk rfl) hr).1
  | createSpecial path type data =>
    obtain ⟨n, hr, -⟩ := asReply_ok h
    simp only [Aloelite.createSpecial, bind_eq_ok] at hr
    obtain ⟨u, -, hr⟩ := hr
    exact (createLeaf_seals (fun _ => hk rfl) hr).1
  | writeAll path data => exact writeAll_seals (hk rfl) hh (noReply_ok h)
  | append path data =>
    obtain ⟨n, hr, -⟩ := asReply_ok h
    exact append_seals (hk rfl) hh hr
  | writeRange path offset data =>
    obtain ⟨n, hr, -⟩ := asReply_ok h
    exact writeRange_seals (hk rfl) hh hr
  | truncate path size => exact truncate_seals (hk rfl) hh (noReply_ok h)
  | copy src dst =>
    obtain ⟨n, hr, -⟩ := asReply_ok h
    exact copy_seals hh hr
  | pack path =>
    obtain ⟨n, hr, -⟩ := asReply_ok h
    exact pack_seals (hk rfl) hr
  | unpack path => exact unpack_seals (hk rfl) (noReply_ok h)
  | _ =>
    refine (request_calm ?_ h).seals
    trivial

/-- Opening a stream seals nothing. -/
theorem openWrite_seals {mode : WriteMode} {lock : Option LockId} (hh : tx.db.Homed)
    (h : openWrite C E k tx mount path mode lock = .ok (tx', d)) :
    Seals C own tx tx' ∧ tx'.db.home? d.node = some d.volume := by
  obtain ⟨ctx, tx₁, l, hm, htarget, hlock, -, hvolume, -⟩ := openWrite_ok h
  have hopened : Seals C own tx tx₁ ∧ tx₁.db.home? d.node = some ctx.volume := by
    simp only [openTarget] at htarget
    split at htarget
    next found hfound =>
      simp only [bind_eq_ok, pure_eq_ok, Prod.mk.injEq] at htarget
      obtain ⟨u, -, rfl, hnode⟩ := htarget
      rw [← hnode]
      exact ⟨Seals.refl _, hh.resolve hm hfound⟩
    · split at htarget
      · cases htarget
      · obtain ⟨hseals, ctx', hm', hhome⟩ := createLeaf_seals (fun hne => absurd rfl hne) htarget
        obtain rfl := Except.ok.inj (hm.symm.trans hm')
        exact ⟨hseals, hhome⟩
    · cases htarget
  obtain ⟨hseals, hhome⟩ := hopened
  rw [hvolume]
  rcases writerLock_ok hlock with ⟨-, rfl, -⟩ | ⟨-, -, -, -, -, -, rfl⟩
  · exact ⟨hseals, hhome⟩
  · exact ⟨hseals.trans (Seals.of_tables rfl rfl (fun _ _ hV => hV) rfl), hhome⟩

theorem claimVersion_seals (hV : tx.db.home? d.node = some V)
    (h : (d.claimVersion E tx).2 = .ok tx') :
    Seals C own tx tx' := by
  rcases (claimVersion_ok h).2 with ⟨-, rfl⟩ | ⟨-, hcarry⟩
  · exact Seals.refl _
  · exact carryLeading_seals hV hcarry

theorem flushOneChunk_seals (hk : k = own V) (hV : tx.db.home? d.node = some V)
    (h : (d.flushOneChunk C E k tx).2 = .ok tx') : Seals C own tx tx' := by
  obtain ⟨tx₁, hclaim, hstage, -⟩ := flushOneChunk_ok h
  have hclaimed : Seals C own tx tx₁ := claimVersion_seals hV hclaim
  exact hclaimed.trans (stageChunk_seals hk (hclaimed.homes _ V hV) hstage)

theorem releaseOwnLock_seals (h : d.releaseOwnLock E tx = .ok tx') : Seals C own tx tx' := by
  rcases releaseOwnLock_ok h with rfl | ⟨l, -, rfl⟩
  · exact Seals.refl _
  · exact Seals.of_tables rfl rfl (fun _ _ hV => hV) rfl

theorem close_seals (hk : d.writable = true → d.closed = false → d.pending ≠ [] → k = own V)
    (hV : tx.db.home? d.node = some V) (h : d.close C E k tx = .ok tx') : Seals C own tx tx' := by
  rw [Descriptor.close] at h
  split at h
  · obtain rfl := Except.ok.inj h
    exact Seals.refl _
  next hopen =>
  rw [not_or, Bool.not_eq_true, Bool.not_eq_false] at hopen
  obtain ⟨-, tx₁, tx₂, tx₃, hclaim, hstage, hswap, hrelease⟩ := commit_ok h
  have hclaimed : Seals C own tx tx₁ := claimVersion_seals hV hclaim
  have hstaged : Seals C own tx₁ tx₂ := by
    rw [Descriptor.stagePending] at hstage
    split at hstage
    · obtain rfl := Except.ok.inj hstage
      exact Seals.refl _
    next hpending =>
      exact stageChunk_seals (hk hopen.2 hopen.1 hpending) (hclaimed.homes _ V hV) hstage
  have hswapped := (hclaimed.trans hstaged).trans (run_seals_content hswap rfl)
  exact (hswapped.trans gives_seals).trans (releaseOwnLock_seals hrelease)

theorem abort_seals (h : d.abort E tx = .ok tx') : Seals C own tx tx' := by
  rw [Descriptor.abort] at h
  split at h
  · obtain rfl := Except.ok.inj h
    exact Seals.refl _
  · exact releaseOwnLock_seals h

end Aloelite
