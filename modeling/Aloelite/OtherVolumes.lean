import Aloelite.LockExclusion
import Aloelite.Descriptors
import Aloelite.Homes
import Aloelite.VolumeShares

/-! What an operation through a mount of one volume does to another: all its statements are
about nodes of its own volume, or about the nodes it has just made. -/
namespace Aloelite
open Fallible KeyedRows ForestOrder Relation

variable {C : Crypto} {M : Msgpack} {E : Env} {k : Cipher} {now : Int} {db db' : Db}
  {tx tx' tx₁ tx₂ : Tx} {W : VolumeId} {p : NodeId → Bool} {n c : NodeId} {mount : MountId}
  {path src dst : String} {m : MountCtx}

/-- No mount row of that id is bound to the volume. -/
def Db.OffMount (db : Db) (W : VolumeId) (mount : MountId) : Prop :=
  ∀ r ∈ db.mounts, r.mountId = mount → r.volumeId ≠ W

instance (db : Db) (W : VolumeId) (mount : MountId) : Decidable (db.OffMount W mount) :=
  inferInstanceAs (Decidable (∀ r ∈ db.mounts, r.mountId = mount → r.volumeId ≠ W))

/-- The lock is held through a mount of the volume that its node lives in. -/
def Db.LockHomed (db : Db) (lk : LockRow) : Prop :=
  ∃ r ∈ db.mounts, r.mountId = lk.mountId ∧ db.home? lk.nodeId = some r.volumeId

def Db.LocksHomed (db : Db) : Prop := ∀ lk ∈ db.locks, db.LockHomed lk

theorem requireMount_off {write : Bool} (hoff : db.OffMount W mount)
    (h : requireMount E k db mount write = .ok m) :
    m.volume ≠ W := by
  obtain ⟨row, volume, hrow, -, -, rfl⟩ := requireMount_ok h
  have hfound : db.mount? mount = some row := (Option.filter_eq_some_iff.mp hrow).1
  exact hoff row (mem_of_lookup hfound) (key_of_lookup hfound)

/-! ### Parts of operations -/

theorem run_avoids {st : Stmt} (h : tx.run E st = .ok tx') (hst : Avoids W p tx.db st) :
    Steps (Avoids W p) E.now tx.db tx'.db := Tx.run_steps h hst

theorem Avoids.identities (h : Steps (Avoids W p) now db db') :
    ∃ added, db'.identities = db.identities ++ added := by
  induction h with
  | refl => exact ⟨[], by simp⟩
  | tail _ hstep ih =>
    obtain ⟨st, hst, hexec⟩ := hstep
    obtain ⟨added, hadded⟩ := ih
    by_cases ht : Table.identities ∈ st.touches
    · cases st with
      | createNode row modifiedAt =>
        obtain ⟨-, -, rfl⟩ := Db.createNode_ok hexec
        refine ⟨added ++ [row.identity], ?_⟩
        rw [← List.append_assoc, ← hadded]
        exact List.map_append
      | pruneNodes V => exact hst.elim
      | _ => simp [Stmt.touches] at ht
    · exact ⟨added, ((Stmt.exec_agreeOff hexec).identities ht).trans hadded⟩

/-- The nodes of `p` are in the file. -/
def Db.Has (db : Db) (p : NodeId → Bool) : Prop := ∀ n, p n = true → (db.node? n).isSome

theorem Avoids.has (h : Steps (Avoids W p) now db db') (hhas : db.Has p) : db'.Has p :=
  fun n hn => node?_isSome_persists (Avoids.identities h) (hhas n hn)

theorem Fills.avoids (hn : p n = false) (h : Steps (Fills n) now db db') :
    Steps (Avoids W p) now db db' := by
  refine ReflTransGen.mono ?_ _ _ h
  rintro a b ⟨st, hst, hexec⟩
  refine ⟨st, ?_, hexec⟩
  cases st with
  | createContent m version size =>
    have heq : m = n := hst
    exact heq ▸ hn
  | upsertChunk row => trivial
  | insertChunkRef row =>
    have heq : row.contentId = n := hst
    exact (congrArg p heq).trans hn
  | copyChunkRefs m v src w =>
    have heq : m = n := hst
    exact heq ▸ hn
  | _ => exact hst.elim

theorem Stages.avoids {v : ℕ} (hn : p n = false) (h : Steps (Stages n v) now db db') :
    Steps (Avoids W p) now db db' := by
  apply Fills.avoids hn
  refine ReflTransGen.mono ?_ _ _ h
  rintro a b ⟨st, hst, hexec⟩
  exact ⟨st, Stages.fills a st hst, hexec⟩

/-- A new node is none of `p`, since those are there already. -/
theorem newNode_off {type : NodeType} {name : String} {createdAt modifiedAt : Option Int}
    {metadata : Metadata} (hhas : tx.db.Has p)
    (h : newNode E tx m type name createdAt modifiedAt metadata = .ok (tx', c)) : p c = false := by
  obtain ⟨-, db₁, hrow, -⟩ := newNode_ok h
  obtain ⟨hnone, -, -⟩ := Db.createNode_ok hrow
  apply Bool.eq_false_iff.mpr
  intro hp
  have hthere := hhas c hp
  rw [show tx.db.node? c = none from hnone] at hthere
  cases hthere

/-- A birth through a mount of another volume. -/
theorem birth_avoids {type : NodeType} {name : String} {createdAt modifiedAt : Option Int}
    {metadata : Metadata} {parent : NodeId} (hhas : tx.db.Has p) (hvolume : m.volume ≠ W)
    (hnew : newNode E tx m type name createdAt modifiedAt metadata = .ok (tx₁, c))
    (hfill : Steps (Fills c) E.now tx₁.db tx₂.db)
    (hlink : linkChild E tx₂ m parent c none = .ok tx') :
    Steps (Avoids W p) E.now tx.db tx'.db := by
  have hc := newNode_off hhas hnew
  obtain ⟨-, db₁, hrow, rfl⟩ := newNode_ok hnew
  obtain ⟨db₂, hedge, rfl⟩ := linkChild_ok hlink
  have hborn : Steps (Avoids W p) E.now tx.db db₁ :=
    ReflTransGen.single ⟨.createNode _ modifiedAt, ⟨hc, hvolume⟩, hrow⟩
  have hplaced : Steps (Avoids W p) E.now tx₂.db db₂ :=
    ReflTransGen.single ⟨.createEdge _ parent c m.volume none, hc, hedge⟩
  exact (hborn.trans (Fills.avoids hc hfill)).trans hplaced

theorem linkChild_avoids {parent : NodeId} {name : Option String} (hc : p c = false)
    (h : linkChild E tx m parent c name = .ok tx') : Steps (Avoids W p) E.now tx.db tx'.db := by
  obtain ⟨db₁, hedge, rfl⟩ := linkChild_ok h
  exact ReflTransGen.single ⟨.createEdge _ parent c m.volume name, hc, hedge⟩

theorem swap_avoids {v size : ℕ} (hc : p c = false)
    (h : tx.run E (.updateContent c v size) = .ok tx') :
    Steps (Avoids W p) E.now tx.db tx'.db := run_avoids h hc

theorem carryLeading_avoids {v w count : ℕ} (hc : p c = false)
    (h : carryLeading E tx c v w count = .ok tx') :
    Steps (Avoids W p) E.now tx.db tx'.db := by
  rw [carryLeading] at h
  split at h
  · exact run_avoids h hc
  · obtain rfl := Except.ok.inj h
    exact ReflTransGen.refl

theorem carryTrailing_avoids {v w hi : ℕ} {last : Int} (hc : p c = false)
    (h : carryTrailing E tx c v w hi last = .ok tx') : Steps (Avoids W p) E.now tx.db tx'.db := by
  rw [carryTrailing] at h
  split at h
  · exact run_avoids h hc
  · obtain rfl := Except.ok.inj h
    exact ReflTransGen.refl

theorem stageFrom_avoids {v i : ℕ} {chunks : List Bytes} (hc : p c = false)
    (h : tx.stageFrom C E k c v i chunks = .ok tx') : Steps (Avoids W p) E.now tx.db tx'.db :=
  Stages.avoids hc (Tx.stageFrom_steps h)

/-! ### Requests through a mount of another volume -/

/-- What the operations below are given: `p` picks nodes of the volume `W`, and the mount is
bound to another. -/
structure Abroad (W : VolumeId) (p : NodeId → Bool) (db : Db) (mount : MountId) : Prop where
  homed : db.Homed
  lives : ∀ n, p n = true → db.home? n = some W
  off : db.OffMount W mount

variable (ha : Abroad W p tx.db mount)

theorem Abroad.has (ha : Abroad W p db mount) : db.Has p := by
  intro n hn
  have hhome := ha.lives n hn
  rw [Db.home?, Option.map_eq_some_iff] at hhome
  obtain ⟨row, hrow, -⟩ := hhome
  rw [hrow]
  rfl

theorem Abroad.off_of_home {V : VolumeId} (ha : Abroad W p db mount) (hhome : db.home? n = some V)
    (hV : V ≠ W) : p n = false := by
  apply Bool.eq_false_iff.mpr
  intro hp
  exact hV (Option.some.inj (hhome.symm.trans (ha.lives n hp)))

/-- What a path leads to through the mount. -/
theorem Abroad.resolve {write : Bool} {found : Resolved} (ha : Abroad W p db mount)
    (hm : requireMount E k db mount write = .ok m) (h : resolve db m.mountPoint path = .ok found) :
    p found.node = false :=
  ha.off_of_home (ha.homed.resolve hm h) (requireMount_off ha.off hm)

/-- So does all that lies below it. -/
theorem Abroad.subtree {write : Bool} {found : Resolved} (ha : Abroad W p db mount)
    (hm : requireMount E k db mount write = .ok m)
    (h : Aloelite.resolve db m.mountPoint path = .ok found) :
    ∀ n ∈ db.subtreeIds found.node, p n = false := by
  intro n hn
  have hbelow := Db.below_of_mem_subtreeIds hn
  exact ha.off_of_home (ha.homed.below hbelow (ha.homed.resolve hm h)) (requireMount_off ha.off hm)

theorem Abroad.openContent (ha : Abroad W p db mount)
    (h : openContent E k db mount path = .ok (m, c)) : p c = false := by
  obtain ⟨hm, type, -, hfound⟩ := openContent_ok h
  have hleaf := ha.resolve hm hfound
  exact hleaf

include ha in
theorem createContainer_avoids (h : createContainer E k tx mount path = .ok (tx', c)) :
    Steps (Avoids W p) E.now tx.db tx'.db := by
  simp only [createContainer, bind_eq_ok, pure_eq_ok, Prod.mk.injEq] at h
  obtain ⟨m, hm, parent, -, u, -, ⟨tx₁, node⟩, hnew, tx₂, hlink, rfl, rfl⟩ := h
  exact birth_avoids ha.has (requireMount_off ha.off hm) hnew ReflTransGen.refl hlink

include ha in
theorem createLeaf_avoids {type : NodeType} {data : Bytes}
    (h : createLeaf C E k tx mount path type data = .ok (tx', c)) :
    Steps (Avoids W p) E.now tx.db tx'.db := by
  simp only [createLeaf, bind_eq_ok, pure_eq_ok, Prod.mk.injEq] at h
  obtain ⟨m, hm, parent, -, u, -, ⟨tx₁, node⟩, hnew, tx₂, hput, tx₃, hlink, rfl, rfl⟩ := h
  exact birth_avoids ha.has (requireMount_off ha.off hm) hnew (putInitialContent_steps hput) hlink

include ha in
theorem createLeaf_off {type : NodeType} {data : Bytes}
    (h : createLeaf C E k tx mount path type data = .ok (tx', c)) :
    p c = false := by
  simp only [createLeaf, bind_eq_ok, pure_eq_ok, Prod.mk.injEq] at h
  obtain ⟨m, -, parent, -, u, -, ⟨tx₁, node⟩, hnew, tx₂, -, tx₃, -, -, rfl⟩ := h
  exact newNode_off ha.has hnew

include ha in
theorem writeAll_avoids {data : Bytes} (h : writeAll C E k tx mount path data = .ok tx') :
    Steps (Avoids W p) E.now tx.db tx'.db := by
  simp only [writeAll, bind_eq_ok, pure_eq_ok] at h
  obtain ⟨⟨m, node⟩, hopen, tx₁, hstage, tx₂, hswap, rfl⟩ := h
  have hnode := ha.openContent hopen
  have hstaged : Steps (Avoids W p) E.now tx.db tx₁.db :=
    Stages.avoids hnode (Tx.stageChunks_steps hstage)
  have hswapped := swap_avoids (W := W) hnode hswap
  exact hstaged.trans hswapped

include ha in
theorem append_avoids {data : Bytes} {size : ℕ}
    (h : append C E k tx mount path data = .ok (tx', size)) :
    Steps (Avoids W p) E.now tx.db tx'.db := by
  simp only [append] at h
  split at h
  · simp only [bind_eq_ok, pure_eq_ok, Prod.mk.injEq] at h
    obtain ⟨size', -, rfl, -⟩ := h
    exact ReflTransGen.refl
  · simp only [bind_eq_ok, pure_eq_ok, Prod.mk.injEq] at h
    obtain ⟨⟨m, node⟩, hopen, u, -, tx₁, hcarry, tail, -, tx₂, hstage, tx₃, hswap, rfl, -⟩ := h
    have hnode := ha.openContent hopen
    have hcarried := carryLeading_avoids (W := W) hnode hcarry
    have hstaged := stageFrom_avoids (W := W) hnode hstage
    have hswapped := swap_avoids (W := W) hnode hswap
    exact (hcarried.trans hstaged).trans hswapped

include ha in
theorem writeRange_avoids {offset : ℕ} {data : Bytes} {size : ℕ}
    (h : writeRange C E k tx mount path offset data = .ok (tx', size)) :
    Steps (Avoids W p) E.now tx.db tx'.db := by
  simp only [writeRange] at h
  split at h
  · simp only [bind_eq_ok, pure_eq_ok, Prod.mk.injEq] at h
    obtain ⟨size', -, rfl, -⟩ := h
    exact ReflTransGen.refl
  · simp only [bind_eq_ok, pure_eq_ok, Prod.mk.injEq] at h
    obtain ⟨⟨m, node⟩, hopen, u, -, tx₁, hlead, tx₂, htrail, buf, -, tx₃, hstage,
      tx₄, hswap, rfl, -⟩ := h
    have hnode := ha.openContent hopen
    have hleading := carryLeading_avoids (W := W) hnode hlead
    have htrailing := carryTrailing_avoids (W := W) hnode htrail
    have hstaged := stageFrom_avoids (W := W) hnode hstage
    have hswapped := swap_avoids (W := W) hnode hswap
    exact ((hleading.trans htrailing).trans hstaged).trans hswapped

theorem shrinkTo_avoids {v w cs size : ℕ} (hc : p c = false)
    (h : shrinkTo C E k tx c v w cs size = .ok tx') :
    Steps (Avoids W p) E.now tx.db tx'.db := by
  simp only [shrinkTo, bind_eq_ok] at h
  obtain ⟨tx₁, hcarry, h⟩ := h
  have hcarried := carryLeading_avoids (W := W) hc hcarry
  split at h
  · simp only [bind_eq_ok] at h
    obtain ⟨rows, -, chunk, -, hstage⟩ := h
    exact hcarried.trans (Stages.avoids hc (Tx.stageChunk_steps hstage))
  · obtain rfl := Except.ok.inj h
    exact hcarried

theorem growTo_avoids {v w cs cur size : ℕ} (hc : p c = false)
    (h : growTo C E k tx c v w cs cur size = .ok tx') :
    Steps (Avoids W p) E.now tx.db tx'.db := by
  simp only [growTo, bind_eq_ok] at h
  obtain ⟨tx₁, hcarry, tail, -, hstage⟩ := h
  exact (carryLeading_avoids (W := W) hc hcarry).trans (stageFrom_avoids hc hstage)

include ha in
theorem truncate_avoids {size : ℕ} (h : truncate C E k tx mount path size = .ok tx') :
    Steps (Avoids W p) E.now tx.db tx'.db := by
  simp only [truncate, bind_eq_ok] at h
  obtain ⟨⟨m, node⟩, hopen, h⟩ := h
  have hnode := ha.openContent hopen
  split at h
  · obtain rfl := Except.ok.inj h
    exact ReflTransGen.refl
  simp only [bind_eq_ok] at h
  obtain ⟨u, -, h⟩ := h
  split at h
  · simp only [bind_eq_ok, pure_eq_ok] at h
    obtain ⟨tx₁, hshrink, tx₂, hswap, rfl⟩ := h
    have hswapped := swap_avoids (W := W) hnode hswap
    exact (shrinkTo_avoids hnode hshrink).trans hswapped
  · simp only [bind_eq_ok, pure_eq_ok] at h
    obtain ⟨tx₁, hgrow, tx₂, hswap, rfl⟩ := h
    have hswapped := swap_avoids (W := W) hnode hswap
    exact (growTo_avoids hnode hgrow).trans hswapped

include ha in
theorem rename_avoids {name : String} (h : rename E k tx mount path name = .ok tx') :
    Steps (Avoids W p) E.now tx.db tx'.db := by
  simp only [rename, bind_eq_ok] at h
  obtain ⟨m, hm, u, -, parent, -, found, hfound, u', -, tx₁, hplace, hnode⟩ := h
  have hoff := ha.resolve hm hfound
  exact (run_avoids hplace hoff).trans (run_avoids hnode hoff)

include ha in
theorem link_avoids (h : link E k tx mount src dst = .ok tx') :
    Steps (Avoids W p) E.now tx.db tx'.db := by
  simp only [link, bind_eq_ok] at h
  obtain ⟨m, hm, found, hfound, u, -, u', -, parent, -, u₂, -, u₃, -, hlink⟩ := h
  exact linkChild_avoids (ha.resolve hm hfound) hlink

include ha in
theorem move_avoids (h : move E k tx mount src dst = .ok tx') :
    Steps (Avoids W p) E.now tx.db tx'.db := by
  simp only [move, bind_eq_ok] at h
  obtain ⟨m, hm, found, hfound, u, -, sp, -, dp, -, u₁, -, u₂, -, u₃, -, tx₁, harch,
    tx₂, hlink, hname⟩ := h
  have hoff := ha.resolve hm hfound
  have hmoved := (run_avoids (W := W) harch hoff).trans (linkChild_avoids hoff hlink)
  split at hname
  · exact hmoved.trans (run_avoids hname hoff)
  · obtain rfl := Except.ok.inj hname
    exact hmoved

include ha in
theorem remove_avoids (h : remove E k tx mount path = .ok tx') :
    Steps (Avoids W p) E.now tx.db tx'.db := by
  simp only [remove, bind_eq_ok] at h
  obtain ⟨m, hm, found, hfound, u, -, u₁, -, parent, -, u₂, -, hrun⟩ := h
  exact run_avoids hrun (ha.resolve hm hfound)

include ha in
theorem removeRecursive_avoids (h : removeRecursive E k tx mount path = .ok tx') :
    Steps (Avoids W p) E.now tx.db tx'.db := by
  simp only [removeRecursive, bind_eq_ok] at h
  obtain ⟨m, hm, found, hfound, u, -, hrun⟩ := h
  exact run_avoids hrun (ha.subtree hm hfound)

include ha in
theorem copy_avoids (h : copy E k tx mount src dst = .ok (tx', c)) :
    Steps (Avoids W p) E.now tx.db tx'.db := by
  simp only [copy, bind_eq_ok, pure_eq_ok, Prod.mk.injEq] at h
  obtain ⟨m, hm, found, -, parent, -, u, -, s, hfold, root, -, rfl, -⟩ := h
  refine foldlM_invariant (P := fun s : Tx × IdMap NodeId => Steps (Avoids W p) E.now tx.db s.1.db)
    ?_ hfold ReflTransGen.refl
  intro a r b _ hpre hrow
  -- one round makes one node and fills it from the node it copies
  simp only [copyRow, bind_eq_ok, pure_eq_ok] at hrow
  obtain ⟨info, -, above, -, ⟨tx₁, new⟩, hnew, tx₂, hfill, tx₃, hlink, rfl⟩ := hrow
  exact hpre.trans (birth_avoids (Avoids.has hpre ha.has) (requireMount_off ha.off hm) hnew
    (fillCopy_steps hfill) hlink)

include ha in
theorem pack_avoids (h : pack C M E k tx mount path = .ok (tx', c)) :
    Steps (Avoids W p) E.now tx.db tx'.db := by
  simp only [pack, bind_eq_ok, pure_eq_ok, orRaise_eq_ok, Prod.mk.injEq] at h
  obtain ⟨m, hm, found, hfound, u, -, u₁, -, e, -, cont, -, nodes, -, blob, -, tx₁, hraze,
    ⟨tx₂, packed⟩, hnew, tx₃, hput, tx₄, hlink, rfl, -⟩ := h
  have hrazed := run_avoids (W := W) hraze (ha.subtree hm hfound)
  exact hrazed.trans (birth_avoids (Avoids.has hrazed ha.has) (requireMount_off ha.off hm) hnew
    (putInitialContent_steps hput) hlink)

theorem restoreOwner_avoids {pn : PackNode} (hc : p c = false)
    (h : restoreOwner E tx pn c = .ok tx') :
    Steps (Avoids W p) E.now tx.db tx'.db := by
  rw [restoreOwner] at h
  split at h
  · obtain ⟨-, -, h⟩ := bind_eq_ok.mp h
    exact run_avoids h hc
  · obtain rfl := Except.ok.inj h
    exact ReflTransGen.refl

theorem restoreXattrs_avoids {pn : PackNode} (hc : p c = false)
    (h : restoreXattrs E tx pn c = .ok tx') :
    Steps (Avoids W p) E.now tx.db tx'.db := by
  refine foldlM_invariant (P := fun t : Tx => Steps (Avoids W p) E.now tx.db t.db) ?_ h
    ReflTransGen.refl
  intro a kv b _ hpre hrun
  exact hpre.trans (run_avoids hrun hc)

theorem restoreRetention_avoids {pn : PackNode} {type : NodeType} (hc : p c = false)
    (h : restoreRetention E tx pn type c = .ok tx') : Steps (Avoids W p) E.now tx.db tx'.db := by
  rw [restoreRetention] at h
  split at h
  · obtain ⟨-, -, h⟩ := bind_eq_ok.mp h
    exact run_avoids h hc
  · obtain rfl := Except.ok.inj h
    exact ReflTransGen.refl

/-- One node of a package, with what is restored on it. -/
theorem unpackNode_avoids {parent : NodeId} {s t : Tx × List NodeId} {pn : PackNode}
    (hhas : s.1.db.Has p) (hvolume : m.volume ≠ W) (h : unpackNode C E k m parent s pn = .ok t) :
    Steps (Avoids W p) E.now s.1.db t.1.db := by
  simp only [unpackNode, bind_eq_ok, pure_eq_ok] at h
  obtain ⟨type, -, target, -, metadata, -, u, -, ⟨tx₁, new⟩, hnew, tx₂, hfill, tx₃, hlink, tx₄,
    howner, tx₅, hxattrs, tx₆, hretention, rfl⟩ := h
  have hc := newNode_off hhas hnew
  have hborn := birth_avoids hhas hvolume hnew (fillUnpacked_steps hfill) hlink
  have hrest := (restoreOwner_avoids (W := W) hc howner).trans
    ((restoreXattrs_avoids hc hxattrs).trans (restoreRetention_avoids hc hretention))
  exact hborn.trans hrest

include ha in
theorem unpack_avoids (hkeyed : KeyedRows.Keyed EdgeRow.edgeId tx.db.edges)
    (h : unpack C M E k tx mount path = .ok tx') :
    Steps (Avoids W p) E.now tx.db tx'.db := by
  simp only [unpack, bind_eq_ok, pure_eq_ok, orRaise_eq_ok] at h
  obtain ⟨m, hm, found, hfound, u, -, u₁, -, blob, -, nodes, -, e, he, tx₁, harch, s, hfold, rfl⟩ :=
    h
  have hmem : e ∈ tx.db.edges := (Db.mem_activeEdges.mp (List.mem_of_find?_eq_some he)).1
  have harchived : Steps (Avoids W p) E.now tx.db tx₁.db := by
    refine run_avoids harch ?_
    intro e' he' hid
    have heq : e' = e := eq_of_key_eq hkeyed (Db.mem_activeEdges.mp he').1 hmem hid
    rw [heq, getActiveParent_toId he]
    exact ha.resolve hm hfound
  refine foldlM_invariant (P := fun s : Tx × List NodeId => Steps (Avoids W p) E.now tx.db s.1.db)
    ?_ hfold harchived
  intro a pn b _ hpre hrow
  exact hpre.trans (unpackNode_avoids (Avoids.has hpre ha.has) (requireMount_off ha.off hm) hrow)

include ha in
/-- A lock of the mount is on a node of the mount's volume. -/
theorem requireOwnLock_off {l : LockId} {row : LockRow} (hlocks : tx.db.LocksHomed)
    (hkeyed : KeyedRows.Keyed LockRow.lockId tx.db.locks)
    (h : requireOwnLock E tx.db mount l = .ok row) :
    ∀ r ∈ tx.db.locks, r.lockId = l → p r.nodeId = false := by
  intro r hr hid
  obtain ⟨hrow, -, hown⟩ := requireOwnLock_ok h
  have heq : r = row :=
    eq_of_key_eq hkeyed hr (mem_of_lookup hrow) (hid.trans (key_of_lookup hrow).symm)
  obtain ⟨mrow, hmrow, hmid, hhome⟩ := hlocks r hr
  apply ha.off_of_home hhome
  exact ha.off mrow hmrow (by rw [hmid, heq, hown])

/-- The node of a call that is addressed by id is not of the volume. -/
def Request.Off (db : Db) (W : VolumeId) : Request → Prop
  | .setAtime n _ | .setMtime n _ => db.home? n ≠ some W
  | _ => True

instance (db : Db) (W : VolumeId) (r : Request) : Decidable (r.Off db W) := by
  unfold Request.Off
  split <;> infer_instance

include ha in
/-- All that a request through a mount of another volume does is about other nodes. -/
theorem request_avoids {r : Request} {reply : Reply} (hr : r.Off tx.db W)
    (hlocks : tx.db.LocksHomed) (hedges : KeyedRows.Keyed EdgeRow.edgeId tx.db.edges)
    (hkeyed : KeyedRows.Keyed LockRow.lockId tx.db.locks)
    (h : r.run C M E k tx mount = .ok (tx', reply)) : Steps (Avoids W p) E.now tx.db tx'.db := by
  have hid : ∀ n, tx.db.home? n ≠ some W → p n = false :=
    fun n hn => Bool.eq_false_iff.mpr (fun hp => hn (ha.lives n hp))
  -- every path is walked below the mount's own root, so what it finds is in the mount's volume
  cases r with
  | createContainer path =>
    obtain ⟨a, h, -⟩ := asReply_ok h
    exact createContainer_avoids ha h
  | createEntry path data =>
    obtain ⟨a, h, -⟩ := asReply_ok h
    exact createLeaf_avoids ha h
  | createSpecial path type data =>
    obtain ⟨a, h, -⟩ := asReply_ok h
    simp only [createSpecial, bind_eq_ok] at h
    obtain ⟨u, -, hleaf⟩ := h
    exact createLeaf_avoids ha hleaf
  | writeAll path data => exact writeAll_avoids ha (noReply_ok h)
  | append path data =>
    obtain ⟨a, h, -⟩ := asReply_ok h
    exact append_avoids ha h
  | writeRange path offset data =>
    obtain ⟨a, h, -⟩ := asReply_ok h
    exact writeRange_avoids ha h
  | truncate path size => exact truncate_avoids ha (noReply_ok h)
  | rename path name => exact rename_avoids ha (noReply_ok h)
  | link src dst => exact link_avoids ha (noReply_ok h)
  | move src dst => exact move_avoids ha (noReply_ok h)
  | remove path => exact remove_avoids ha (noReply_ok h)
  | removeRecursive path => exact removeRecursive_avoids ha (noReply_ok h)
  | copy src dst =>
    obtain ⟨a, h, -⟩ := asReply_ok h
    exact copy_avoids ha h
  | pack path =>
    obtain ⟨a, h, -⟩ := asReply_ok h
    exact pack_avoids ha h
  | unpack path => exact unpack_avoids ha hedges (noReply_ok h)
  | setMetadata path metadata =>
    have h := noReply_ok h
    simp only [setMetadata, bind_eq_ok] at h
    obtain ⟨m, hm, found, hfound, u, -, hrun⟩ := h
    exact run_avoids hrun (ha.resolve hm hfound)
  | setOwner path uid gid mode =>
    have h := noReply_ok h
    simp only [setOwner, bind_eq_ok] at h
    obtain ⟨m, hm, found, hfound, hrun⟩ := h
    exact run_avoids hrun (ha.resolve hm hfound)
  | setAtime node ts =>
    have h := noReply_ok h
    simp only [setAtime, bind_eq_ok] at h
    obtain ⟨m, -, hrun⟩ := h
    exact run_avoids hrun (hid node hr)
  | setMtime node ts =>
    have h := noReply_ok h
    simp only [setMtime, bind_eq_ok] at h
    obtain ⟨m, -, hrun⟩ := h
    exact run_avoids hrun (hid node hr)
  | setXattr path name value =>
    have h := noReply_ok h
    simp only [setXattr, bind_eq_ok] at h
    obtain ⟨m, hm, found, hfound, hrun⟩ := h
    exact run_avoids hrun (ha.resolve hm hfound)
  | removeXattr path name =>
    obtain ⟨a, h, -⟩ := asReply_ok h
    simp only [removeXattr, bind_eq_ok, pure_eq_ok, Prod.mk.injEq] at h
    obtain ⟨m, hm, found, hfound, tx₁, hrun, rfl, -⟩ := h
    exact run_avoids hrun (ha.resolve hm hfound)
  | setRetention path keep =>
    have h := noReply_ok h
    simp only [setRetention, bind_eq_ok] at h
    obtain ⟨m, hm, found, hfound, u, -, hrun⟩ := h
    exact run_avoids hrun (ha.resolve hm hfound)
  | readAll path =>
    simp only [Request.run, map_eq_ok, Prod.mk.injEq] at h
    obtain ⟨b, -, rfl, -⟩ := h
    exact ReflTransGen.refl
  | lock path ttlMs =>
    obtain ⟨l, h, -⟩ := asReply_ok h
    simp only [lock, bind_eq_ok, pure_eq_ok, Prod.mk.injEq] at h
    obtain ⟨m, hm, found, hfound, u, -, tx₁, hrun, rfl, -⟩ := h
    exact run_avoids hrun (ha.resolve hm hfound)
  -- locks are named by id: the row has to belong to the mount
  | unlock l =>
    have h := noReply_ok h
    simp only [unlock, bind_eq_ok] at h
    obtain ⟨m, -, row, hown, hrun⟩ := h
    exact run_avoids hrun (requireOwnLock_off ha hlocks hkeyed hown)
  | renewLock l ttlMs =>
    have h := noReply_ok h
    simp only [renewLock, bind_eq_ok] at h
    obtain ⟨m, -, row, hown, hrun⟩ := h
    exact run_avoids hrun (requireOwnLock_off ha hlocks hkeyed hown)
  | renewMount ttlMs =>
    have h := noReply_ok h
    simp only [renewMount, bind_eq_ok] at h
    obtain ⟨m, -, hrun⟩ := h
    exact run_avoids hrun ha.off

/-! ### Streams -/

include ha in
theorem openWrite_avoids {mode : WriteMode} {supplied : Option LockId} {d : Descriptor}
    (h : openWrite C E k tx mount path mode supplied = .ok (tx', d)) :
    Steps (Avoids W p) E.now tx.db tx'.db ∧ p d.node = false := by
  obtain ⟨ctx, tx₁, l, hm, htarget, hlock, -⟩ := openWrite_ok h
  have hfirst : Steps (Avoids W p) E.now tx.db tx₁.db ∧ p d.node = false := by
    simp only [openTarget] at htarget
    split at htarget
    next found hfound =>
      simp only [bind_eq_ok, pure_eq_ok, Prod.mk.injEq] at htarget
      obtain ⟨u, -, rfl, hnode⟩ := htarget
      exact ⟨ReflTransGen.refl, hnode ▸ ha.resolve hm hfound⟩
    next =>
      split at htarget
      · cases htarget
      · exact ⟨createLeaf_avoids ha htarget, createLeaf_off ha htarget⟩
    next => cases htarget
  refine ⟨hfirst.1.trans ?_, hfirst.2⟩
  simp only [writerLock] at hlock
  split at hlock
  · simp only [bind_eq_ok, pure_eq_ok, Prod.mk.injEq] at hlock
    obtain ⟨row, -, u, -, rfl, -⟩ := hlock
    exact ReflTransGen.refl
  · simp only [bind_eq_ok, pure_eq_ok, Prod.mk.injEq] at hlock
    obtain ⟨u, -, tx₂, hrun, rfl, -⟩ := hlock
    exact run_avoids hrun hfirst.2

theorem claimVersion_avoids {d : Descriptor} (hd : p d.node = false)
    (h : (d.claimVersion E tx).2 = .ok tx') :
    Steps (Avoids W p) E.now tx.db tx'.db := by
  rcases (claimVersion_ok h).2 with ⟨-, rfl⟩ | ⟨-, hcarry⟩
  · exact ReflTransGen.refl
  · exact carryLeading_avoids hd hcarry

theorem flushOneChunk_avoids {d : Descriptor} (hd : p d.node = false)
    (h : (d.flushOneChunk C E k tx).2 = .ok tx') :
    Steps (Avoids W p) E.now tx.db tx'.db := by
  obtain ⟨tx₁, hclaim, hstage, -⟩ := flushOneChunk_ok h
  exact (claimVersion_avoids hd hclaim).trans (Stages.avoids hd (Tx.stageChunk_steps hstage))

/-- The lock that a descriptor gives back is on the descriptor's own entry. -/
theorem releaseOwnLock_avoids {d : Descriptor}
    (hl : ∀ l, d.lock = some l → ∀ r ∈ tx.db.locks, r.lockId = l → p r.nodeId = false)
    (h : d.releaseOwnLock E tx = .ok tx') : Steps (Avoids W p) E.now tx.db tx'.db := by
  rcases releaseOwnLock_ok h with rfl | ⟨l, hlock, rfl⟩
  · exact ReflTransGen.refl
  · exact ReflTransGen.single ⟨.releaseLock l, hl l hlock, rfl⟩

theorem close_avoids {d : Descriptor} (hd : p d.node = false)
    (hl : d.writable = true → ∀ l, d.lock = some l → ∀ r ∈ tx.db.locks, r.lockId = l →
      p r.nodeId = false)
    (h : d.close C E k tx = .ok tx') : Steps (Avoids W p) E.now tx.db tx'.db := by
  rw [Descriptor.close] at h
  split at h
  · obtain rfl := Except.ok.inj h
    exact ReflTransGen.refl
  next hopen =>
    obtain ⟨-, tx₁, tx₂, tx₃, hclaim, hstage, hswap, hrelease⟩ := commit_ok h
    have hwritable : d.writable = true := by
      rw [not_or, Bool.not_eq_false] at hopen
      exact hopen.2
    have hclaimed := claimVersion_avoids (W := W) hd hclaim
    have hstaged := Stages.avoids (W := W) hd (stagePending_steps hstage)
    have hswapped := swap_avoids (W := W) hd hswap
    -- none of the three has touched the lock table
    have hlocks : tx₃.db.locks = tx.db.locks := by
      obtain ⟨db₃, hexec, rfl⟩ := Tx.run_ok.mp hswap
      rw [(Stmt.exec_agreeOff hexec).locks (by simp [Stmt.touches]),
        (Stages.agreeOff (stagePending_steps hstage)).locks (by simp),
        (claimVersion_agreeOff hclaim).locks (by simp)]
    have hreleased : Steps (Avoids W p) E.now (tx₃.gives d.node d.stream).db tx'.db := by
      refine releaseOwnLock_avoids ?_ hrelease
      intro l hlock r hr
      have hold : r ∈ tx.db.locks := hlocks ▸ hr
      exact hl hwritable l hlock r hold
    exact ((hclaimed.trans hstaged).trans hswapped).trans hreleased

theorem abort_avoids {d : Descriptor}
    (hl : d.writable = true → ∀ l, d.lock = some l → ∀ r ∈ tx.db.locks, r.lockId = l →
      p r.nodeId = false)
    (h : d.abort E tx = .ok tx') : Steps (Avoids W p) E.now tx.db tx'.db := by
  rw [Descriptor.abort] at h
  split at h
  · obtain rfl := Except.ok.inj h
    exact ReflTransGen.refl
  next hopen =>
    rw [not_or, Bool.not_eq_false] at hopen
    exact releaseOwnLock_avoids (hl hopen.2) h

end Aloelite
