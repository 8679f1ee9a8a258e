import Aloelite.VersionPointers
import Aloelite.Descriptors

/-! The names in a file: what the active placements say, and which statements leave
them and the names of the nodes alone. Only creation, `rename`, `link`, `move`, `copy`,
`pack` and `unpack` give names. -/
namespace Aloelite

open Fallible KeyedRows Relation

variable {C : Crypto} {M : Msgpack} {E : Env} {k : Cipher} {now : Int} {db db' db'' : Db}
  {tx tx' tx₁ tx₂ : Tx} {mount : MountId} {path src dst name : String} {n : NodeId} {st : Stmt}
  {s : Sys} {c : ConnId} {op : Op}

/-- What a placement says: the container, the node and the name. -/
def EdgeRow.placement (e : EdgeRow) : NodeId × NodeId × String := (e.fromId, e.toId, e.name)

/-- The active placements. -/
def Db.placements (db : Db) : List (NodeId × NodeId × String) :=
  db.activeEdges.map EdgeRow.placement

theorem mem_placements {p : NodeId × NodeId × String} :
    p ∈ db.placements ↔ ∃ e ∈ db.activeEdges, e.placement = p := List.mem_map

theorem placement_mem_placements {e : EdgeRow} (h : e ∈ db.activeEdges) :
    e.placement ∈ db.placements :=
  List.mem_map_of_mem h

theorem isPlacement_iff {parent : NodeId} {e : EdgeRow} :
    Db.isPlacement parent n name e = true ↔ e.placement = (parent, n, name) := by
  simp [Db.isPlacement, EdgeRow.placement]

/-- The own name of a node. -/
def Db.nodeName? (db : Db) (n : NodeId) : Option String := (db.node? n).map NodeRow.name

/-- No placement comes or is renamed, no node comes or changes its name. -/
structure Settled (db db' : Db) : Prop where
  placements : db'.placements.Sublist db.placements
  names : ∀ n, db'.nodeName? n = db.nodeName? n
  types : ∀ n, db'.nodeType? n = db.nodeType? n

theorem Settled.refl (db : Db) : Settled db db := ⟨List.Sublist.refl _, fun _ => rfl, fun _ => rfl⟩

theorem Settled.trans (h : Settled db db') (h' : Settled db' db'') : Settled db db'' :=
  ⟨h'.placements.trans h.placements, fun n => (h'.names n).trans (h.names n),
    fun n => (h'.types n).trans (h.types n)⟩

theorem Settled.of_agreeOff {ts : List Table} (h : AgreeOff ts db db') (he : .edges ∉ ts)
    (hn : .nodes ∉ ts) :
    Settled db db' := by
  have hnode : ∀ n, db'.node? n = db.node? n := by
    intro n
    rw [Db.node?, Db.node?, h.nodes hn]
  refine ⟨?_, ?_, ?_⟩
  · rw [Db.placements, Db.placements, Db.activeEdges, Db.activeEdges, h.edges he]
  · intro n
    rw [Db.nodeName?, Db.nodeName?, hnode]
  · intro n
    rw [Db.nodeType?, Db.nodeType?, hnode]

/-! ### Statements -/

theorem archiveWhere_placements (p : EdgeRow → Bool) :
    (db.archiveWhere now p).placements =
      (db.activeEdges.filter (fun e => !p e)).map EdgeRow.placement := by
  rw [Db.placements, Db.activeEdges_archiveWhere]

theorem archiveWhere_settled (p : EdgeRow → Bool) : Settled db (db.archiveWhere now p) := by
  refine ⟨?_, fun _ => rfl, fun _ => rfl⟩
  rw [archiveWhere_placements]
  exact List.filter_sublist.map _

/-- A node changes something other than the field `g`. -/
theorem map_lookup_amend {α : Type*} {f : NodeRow → NodeRow} {g : NodeRow → α} {m : NodeId}
    {nodes : List NodeRow} (hid : ∀ r, (f r).nodeId = r.nodeId) (hg : ∀ r, g (f r) = g r) :
    (lookup NodeRow.nodeId (amend NodeRow.nodeId nodes m f) n).map g =
      (lookup NodeRow.nodeId nodes n).map g := by
  rw [lookup_amend hid]
  split
  · rw [Option.map_map]
    congr 1
    funext r
    exact hg r
  · rfl

theorem Settled.of_amend (f : NodeRow → NodeRow) {m : NodeId} (hid : ∀ r, (f r).nodeId = r.nodeId)
    (hname : ∀ r, (f r).name = r.name) (htype : ∀ r, (f r).type = r.type)
    (hnodes : db'.nodes = amend NodeRow.nodeId db.nodes m f) (hedges : db'.edges = db.edges) :
    Settled db db' := by
  refine ⟨?_, ?_, ?_⟩
  · rw [Db.placements, Db.placements, Db.activeEdges, Db.activeEdges, hedges]
  · intro n
    rw [Db.nodeName?, Db.node?, hnodes]
    exact map_lookup_amend hid hname
  · intro n
    rw [Db.nodeType?, Db.node?, hnodes]
    exact map_lookup_amend hid htype

/-- The statements that give no name. -/
def Stmt.quiet : Stmt → Prop
  | .createNode .. | .createEdge .. | .renamePlacement .. | .renameNodeIfSole .. | .pruneNodes .. =>
    False
  | _ => True

theorem Stmt.settled (hq : st.quiet) (h : st.exec now db = .ok db') : Settled db db' := by
  cases st with
  | createNode row modifiedAt => exact hq.elim
  | createEdge id f t v nm => exact hq.elim
  | renamePlacement parent n old nm => exact hq.elim
  | renameNodeIfSole n nm => exact hq.elim
  | pruneNodes volume => exact hq.elim
  | archivePlacement parent n nm =>
    obtain rfl := Except.ok.inj h
    exact archiveWhere_settled _
  | archiveEdge id =>
    obtain rfl := Except.ok.inj h
    exact archiveWhere_settled _
  | archiveSubtree root =>
    obtain rfl := Except.ok.inj h
    exact archiveWhere_settled _
  | setOwner m uid gid mode =>
    obtain rfl := Except.ok.inj h
    let f : NodeRow → NodeRow :=
      fun r => { r with uid := uid <|> r.uid, gid := gid <|> r.gid, mode := mode <|> r.mode }
    exact Settled.of_amend f (fun _ => rfl) (fun _ => rfl) (fun _ => rfl) rfl rfl
  | setMetadata m metadata =>
    obtain rfl := Except.ok.inj h
    let f : NodeRow → NodeRow := fun r => { r with metadata := metadata }
    exact Settled.of_amend f (fun _ => rfl) (fun _ => rfl) (fun _ => rfl) rfl rfl
  | _ =>
    exact Settled.of_agreeOff (Stmt.exec_agreeOff h) (by simp [Stmt.touches])
      (by simp [Stmt.touches])

theorem Steps.settled {P : Db → Stmt → Prop} (hP : ∀ db st, P db st → st.quiet)
    (h : Steps P now db db') :
    Settled db db' := by
  induction h with
  | refl => exact Settled.refl db
  | tail _ hstep ih =>
    obtain ⟨st, hst, hexec⟩ := hstep
    exact ih.trans (Stmt.settled (hP _ st hst) hexec)

theorem Fills.quiet (db : Db) (st : Stmt) (h : Fills n db st) : st.quiet := by
  cases st <;> first | exact h.elim | exact trivial

theorem Stages.quiet {version : ℕ} (db : Db) (st : Stmt) (h : Stages n version db st) : st.quiet :=
  Fills.quiet db st (Stages.fills db st h)

theorem run_settled (h : tx.run E st = .ok tx') (hq : st.quiet) : Settled tx.db tx'.db := by
  obtain ⟨db', hexec, rfl⟩ := Tx.run_ok.mp h
  exact Stmt.settled hq hexec

/-! ### Operations that give no name -/

theorem carryLeading_settled {version srcVersion count : ℕ}
    (h : carryLeading E tx n version srcVersion count = .ok tx') : Settled tx.db tx'.db :=
  Settled.of_agreeOff (carryLeading_agreeOff h) (by simp) (by simp)

theorem carryTrailing_settled {version srcVersion hi : ℕ} {srcLast : Int}
    (h : carryTrailing E tx n version srcVersion hi srcLast = .ok tx') : Settled tx.db tx'.db := by
  rw [carryTrailing] at h
  split at h
  · exact run_settled h trivial
  · obtain rfl := Except.ok.inj h
    exact Settled.refl _

theorem writeAll_settled {data : Bytes} (h : writeAll C E k tx mount path data = .ok tx') :
    Settled tx.db tx'.db := by
  simp only [writeAll, bind_eq_ok, pure_eq_ok] at h
  obtain ⟨⟨m, node⟩, -, tx₁, hstage, tx₂, hswap, rfl⟩ := h
  have hstaged : Settled tx.db tx₁.db := (Tx.stageChunks_steps hstage).settled Stages.quiet
  have hswapped : Settled tx₁.db tx₂.db := run_settled hswap trivial
  exact hstaged.trans hswapped

theorem append_settled {data : Bytes} {size : ℕ}
    (h : append C E k tx mount path data = .ok (tx', size)) :
    Settled tx.db tx'.db := by
  simp only [append] at h
  split at h
  · simp only [bind_eq_ok, pure_eq_ok, Prod.mk.injEq] at h
    obtain ⟨size', -, rfl, -⟩ := h
    exact Settled.refl _
  · simp only [bind_eq_ok, pure_eq_ok, Prod.mk.injEq] at h
    obtain ⟨⟨m, node⟩, -, u, -, tx₁, hcarry, tail, -, tx₂, hstage, tx₃, hswap, rfl, -⟩ := h
    have hstaged : Settled tx₁.db tx₂.db := (Tx.stageFrom_steps hstage).settled Stages.quiet
    have hswapped : Settled tx₂.db tx₃.db := run_settled hswap trivial
    exact ((carryLeading_settled hcarry).trans hstaged).trans hswapped

theorem writeRange_settled {offset : ℕ} {data : Bytes} {size : ℕ}
    (h : writeRange C E k tx mount path offset data = .ok (tx', size)) : Settled tx.db tx'.db := by
  simp only [writeRange] at h
  split at h
  · simp only [bind_eq_ok, pure_eq_ok, Prod.mk.injEq] at h
    obtain ⟨size', -, rfl, -⟩ := h
    exact Settled.refl _
  · simp only [bind_eq_ok, pure_eq_ok, Prod.mk.injEq] at h
    obtain ⟨⟨m, node⟩, -, u, -, tx₁, hlead, tx₂, htrail, buf, -, tx₃, hstage, tx₄, hswap, rfl, -⟩ :=
      h
    have hstaged : Settled tx₂.db tx₃.db := (Tx.stageFrom_steps hstage).settled Stages.quiet
    have hswapped : Settled tx₃.db tx₄.db := run_settled hswap trivial
    exact (((carryLeading_settled hlead).trans (carryTrailing_settled htrail)).trans hstaged).trans
      hswapped

theorem shrinkTo_settled {version srcVersion cs size : ℕ}
    (h : shrinkTo C E k tx n version srcVersion cs size = .ok tx') : Settled tx.db tx'.db := by
  simp only [shrinkTo, bind_eq_ok] at h
  obtain ⟨tx₁, hcarry, h⟩ := h
  have hcarried := carryLeading_settled hcarry
  split at h
  · simp only [bind_eq_ok] at h
    obtain ⟨rows, -, chunk, -, hstage⟩ := h
    exact hcarried.trans ((Tx.stageChunk_steps hstage).settled Stages.quiet)
  · obtain rfl := Except.ok.inj h
    exact hcarried

theorem growTo_settled {version srcVersion cs cur size : ℕ}
    (h : growTo C E k tx n version srcVersion cs cur size = .ok tx') : Settled tx.db tx'.db := by
  simp only [growTo, bind_eq_ok] at h
  obtain ⟨tx₁, hcarry, tail, -, hstage⟩ := h
  exact (carryLeading_settled hcarry).trans ((Tx.stageFrom_steps hstage).settled Stages.quiet)

theorem truncate_settled {size : ℕ} (h : truncate C E k tx mount path size = .ok tx') :
    Settled tx.db tx'.db := by
  simp only [truncate, bind_eq_ok] at h
  obtain ⟨⟨m, node⟩, -, h⟩ := h
  split at h
  · obtain rfl := Except.ok.inj h
    exact Settled.refl _
  simp only [bind_eq_ok] at h
  obtain ⟨u, -, h⟩ := h
  split at h
  · simp only [bind_eq_ok, pure_eq_ok] at h
    obtain ⟨tx₁, hshrink, tx₂, hswap, rfl⟩ := h
    have hswapped : Settled tx₁.db tx₂.db := run_settled hswap trivial
    exact (shrinkTo_settled hshrink).trans hswapped
  · simp only [bind_eq_ok, pure_eq_ok] at h
    obtain ⟨tx₁, hgrow, tx₂, hswap, rfl⟩ := h
    have hswapped : Settled tx₁.db tx₂.db := run_settled hswap trivial
    exact (growTo_settled hgrow).trans hswapped

theorem remove_settled (h : remove E k tx mount path = .ok tx') : Settled tx.db tx'.db := by
  simp only [remove, bind_eq_ok] at h
  obtain ⟨m, -, found, -, u, -, u₁, -, p, -, u₂, -, hrun⟩ := h
  exact run_settled hrun trivial

theorem removeRecursive_settled (h : removeRecursive E k tx mount path = .ok tx') :
    Settled tx.db tx'.db := by
  simp only [removeRecursive, bind_eq_ok] at h
  obtain ⟨m, -, found, -, u, -, hrun⟩ := h
  exact run_settled hrun trivial

/-- The requests that give names. -/
def Request.naming : Request → Prop
  | .createContainer .. | .createEntry .. | .createSpecial .. | .rename .. | .link .. | .move ..
  | .copy .. | .pack .. | .unpack .. => True
  | _ => False

theorem request_settled {r : Request} {reply : Reply} (hr : ¬ r.naming)
    (h : r.run C M E k tx mount = .ok (tx', reply)) : Settled tx.db tx'.db := by
  cases r with
  | writeAll path data => exact writeAll_settled (noReply_ok h)
  | append path data =>
    obtain ⟨a, h, -⟩ := asReply_ok h
    exact append_settled h
  | writeRange path offset data =>
    obtain ⟨a, h, -⟩ := asReply_ok h
    exact writeRange_settled h
  | truncate path size => exact truncate_settled (noReply_ok h)
  | remove path => exact remove_settled (noReply_ok h)
  | removeRecursive path => exact removeRecursive_settled (noReply_ok h)
  | setOwner path uid gid mode =>
    have hset := noReply_ok h
    simp only [setOwner, bind_eq_ok] at hset
    obtain ⟨m, -, found, -, hrun⟩ := hset
    exact run_settled hrun trivial
  | setAtime node ts =>
    have hset := noReply_ok h
    simp only [setAtime, bind_eq_ok] at hset
    obtain ⟨m, -, hrun⟩ := hset
    exact run_settled hrun trivial
  | setMtime node ts =>
    have hset := noReply_ok h
    simp only [setMtime, bind_eq_ok] at hset
    obtain ⟨m, -, hrun⟩ := hset
    exact run_settled hrun trivial
  | setXattr path name value =>
    have hset := noReply_ok h
    simp only [setXattr, bind_eq_ok] at hset
    obtain ⟨m, -, found, -, hrun⟩ := hset
    exact run_settled hrun trivial
  | removeXattr path name =>
    obtain ⟨a, h, -⟩ := asReply_ok h
    simp only [removeXattr, bind_eq_ok, pure_eq_ok, Prod.mk.injEq] at h
    obtain ⟨m, -, found, -, tx₁, hrun, rfl, -⟩ := h
    exact run_settled hrun trivial
  | setMetadata path metadata =>
    have hset := noReply_ok h
    simp only [setMetadata, bind_eq_ok] at hset
    obtain ⟨m, -, found, -, u, -, hrun⟩ := hset
    exact run_settled hrun trivial
  | setRetention path keep =>
    have hset := noReply_ok h
    simp only [setRetention, bind_eq_ok] at hset
    obtain ⟨m, -, found, -, u, -, hrun⟩ := hset
    exact run_settled hrun trivial
  | readAll path =>
    simp only [Request.run, readAll, map_eq_ok, bind_eq_ok, Prod.mk.injEq] at h
    obtain ⟨b, -, rfl, -⟩ := h
    exact Settled.refl _
  | lock path ttlMs =>
    obtain ⟨a, h, -⟩ := asReply_ok h
    simp only [lock, bind_eq_ok, pure_eq_ok, Prod.mk.injEq] at h
    obtain ⟨m, -, found, -, u, -, tx₁, hrun, rfl, -⟩ := h
    exact run_settled hrun trivial
  | unlock l =>
    have hset := noReply_ok h
    simp only [unlock, bind_eq_ok] at hset
    obtain ⟨m, -, row, -, hrun⟩ := hset
    exact run_settled hrun trivial
  | renewLock l ttlMs =>
    have hset := noReply_ok h
    simp only [renewLock, bind_eq_ok] at hset
    obtain ⟨m, -, row, -, hrun⟩ := hset
    exact run_settled hrun trivial
  | renewMount ttlMs =>
    have hset := noReply_ok h
    simp only [renewMount, bind_eq_ok] at hset
    obtain ⟨m, -, hrun⟩ := hset
    exact run_settled hrun trivial
  | _ => exact absurd trivial hr

theorem releaseOwnLock_settled {d : Descriptor} (h : d.releaseOwnLock E tx = .ok tx') :
    Settled tx.db tx'.db := by
  rw [Descriptor.releaseOwnLock.eq_def] at h
  split at h
  · exact run_settled h trivial
  · obtain rfl := Except.ok.inj h
    exact Settled.refl _

theorem close_settled {d : Descriptor} (h : d.close C E k tx = .ok tx') : Settled tx.db tx'.db := by
  rw [Descriptor.close] at h
  split at h
  · obtain rfl := Except.ok.inj h
    exact Settled.refl _
  obtain ⟨-, tx₁, tx₂, tx₃, hclaim, hstage, hswap, hrelease⟩ := commit_ok h
  have hclaimed : Settled tx.db tx₁.db :=
    Settled.of_agreeOff (claimVersion_agreeOff hclaim) (by simp) (by simp)
  have hstaged : Settled tx₁.db tx₂.db := (stagePending_steps hstage).settled Stages.quiet
  have hswapped : Settled tx₂.db tx₃.db := run_settled hswap trivial
  have hreleased : Settled (tx₃.gives d.node d.stream).db tx'.db := releaseOwnLock_settled hrelease
  exact ((hclaimed.trans hstaged).trans hswapped).trans hreleased

theorem abort_settled {d : Descriptor} (h : d.abort E tx = .ok tx') : Settled tx.db tx'.db := by
  rw [Descriptor.abort] at h
  split at h
  · obtain rfl := Except.ok.inj h
    exact Settled.refl _
  · exact releaseOwnLock_settled h

/-- The steps that give names. -/
def Op.naming : Op → Prop
  | .request _ r => r.naming
  | .createVolume .. | .openWrite .. => True
  | _ => False

theorem exec_settled (hs : s.db.Sound) (hop : ¬ op.naming) :
    Settled s.db (exec C M E s c op).1.db := by
  have hsame := Settled.refl s.db
  have hfd : ∀ fd, op.fd? = some fd → Settled s.db (onFd C E s fd op).1.db := by
    intro fd hfd
    refine onFd_db (P := fun db => Settled s.db db) hsame ?_
    intro f hf
    cases op with
    | fdFlush fd' =>
      simp only [fdStep]
      split
      · refine fdTransact_db (P := fun db => Settled s.db db) hsame ?_
        intro tx h
        exact Settled.of_agreeOff (flushOneChunk_agreeOff h) (by simp) (by simp)
      · exact hsame
    | fdClose fd' =>
      simp only [fdStep]
      split
      · exact hsame
      · exact fdTransact_db (P := fun db => Settled s.db db) hsame (fun tx h => close_settled h)
    | fdAbort fd' =>
      simp only [fdStep]
      split
      · exact hsame
      · exact fdTransact_db (P := fun db => Settled s.db db) hsame (fun tx h => abort_settled h)
    | fdRead fd' n | fdWrite fd' data | fdSeek fd' offset whence =>
      simp only [fdStep]
      split
      · exact hsame
      · split <;> exact hsame
    | _ => cases hfd
  cases op with
  | request mount r =>
    refine transact_db (P := fun db => Settled s.db db) (fun _ _ => rfl) hsame ?_
    intro tx a h
    exact request_settled hop h
  | createVolume name chunkSize pin mode => exact absurd trivial hop
  | openWrite mount path mode lock => exact absurd trivial hop
  | changePin volume oldPin newPin =>
    refine transact_db (P := fun db => Settled s.db db) (fun _ _ => rfl) hsame ?_
    intro tx a h
    simp only [asReply, map_eq_ok, Prod.mk.injEq] at h
    obtain ⟨⟨t, u⟩, ⟨t', h, ht⟩, rfl, -⟩ := h
    obtain ⟨rfl, -⟩ := Prod.mk.inj ht
    simp only [changePin, bind_eq_ok] at h
    obtain ⟨row, -, root, -, u, -, key, -, hrun⟩ := h
    obtain ⟨db₁, hexec, rfl⟩ := Tx.run_ok.mp hrun
    exact Settled.of_agreeOff (Stmt.exec_agreeOff hexec) (by simp [Stmt.touches])
      (by simp [Stmt.touches])
  | mount args =>
    refine transact_db (P := fun db => Settled s.db db) (fun _ _ => rfl) hsame ?_
    intro tx a h
    obtain ⟨mid, conn⟩ := a
    simp only [Aloelite.mount, bind_eq_ok, pure_eq_ok, Prod.mk.injEq] at h
    obtain ⟨row, -, root, -, anchor, -, u, -, tx₁, hcreate, conn', -, tx₂, hstate, rfl, -, -⟩ := h
    have hcreated : Settled s.begin.db tx₁.db := run_settled hcreate trivial
    exact hcreated.trans (run_settled hstate trivial)
  | unmount mount =>
    refine transact_db (P := fun db => Settled s.db db) (fun _ _ => rfl) hsame ?_
    intro tx a h
    have hrun : Settled s.begin.db tx.db := run_settled (noReply_ok h) trivial
    exact hrun
  | openRead mount path =>
    simp only [exec]
    split <;> exact hsame
  | fdRead fd n => exact hfd fd rfl
  | fdWrite fd data => exact hfd fd rfl
  | fdFlush fd => exact hfd fd rfl
  | fdSeek fd offset whence => exact hfd fd rfl
  | fdClose fd => exact hfd fd rfl
  | fdAbort fd => exact hfd fd rfl
  | prune volume =>
    refine transact_db (P := fun db => Settled s.db db) (fun _ _ => rfl) hsame ?_
    intro tx r h
    rw [prune_shape h hs]
    exact ⟨List.Sublist.refl _, fun _ => rfl, fun _ => rfl⟩
  | pruneContent volume =>
    refine transact_db (P := fun db => Settled s.db db) (fun _ _ => rfl) hsame ?_
    intro tx r h
    rw [pruneContent_shape h]
    exact ⟨List.Sublist.refl _, fun _ => rfl, fun _ => rfl⟩

/-! ### Births -/

/-- A new node, placed for the first time. -/
structure Born (p : NodeId × NodeId × String) (db db' : Db) : Prop where
  fresh : db.node? p.2.1 = none
  placements : db'.placements = db.placements ++ [p]
  self : db'.nodeName? p.2.1 = some p.2.2
  others : ∀ n ≠ p.2.1, db'.nodeName? n = db.nodeName? n
  types : ∀ n ≠ p.2.1, db'.nodeType? n = db.nodeType? n

theorem placements_append {e : EdgeRow} (hedges : db'.edges = db.edges ++ [e])
    (he : e.archived = false) :
    db'.placements = db.placements ++ [e.placement] := by
  rw [Db.placements, Db.placements, Db.activeEdges, Db.activeEdges, hedges, List.filter_append,
    List.map_append, List.filter_cons_of_pos (by simp [he])]
  rfl

theorem birth_born {m : MountCtx} {type : NodeType} {createdAt modifiedAt : Option Int}
    {metadata : Metadata} {parent : NodeId}
    (hnew : newNode E tx m type name createdAt modifiedAt metadata = .ok (tx₁, n))
    (hfill : Steps (Fills n) E.now tx₁.db tx₂.db)
    (hlink : linkChild E tx₂ m parent n none = .ok tx') :
    Born (parent, n, name) tx.db tx'.db := by
  obtain ⟨-, db₁, hrow, rfl⟩ := newNode_ok hnew
  obtain ⟨db₂, hedge, rfl⟩ := linkChild_ok hlink
  obtain ⟨hnone, hnodes, -, -, -, -, -, hedges⟩ := birth_shape hrow hfill hedge
  refine ⟨hnone, placements_append hedges rfl, ?_, ?_, ?_⟩
  · rw [Db.nodeName?, Db.node?, hnodes]
    exact congrArg (Option.map NodeRow.name) (lookup_append_self hnone)
  · intro n' hne
    rw [Db.nodeName?, Db.node?, hnodes]
    exact congrArg (Option.map NodeRow.name) (lookup_append_of_ne hne.symm)
  · intro n' hne
    rw [Db.nodeType?, Db.node?, hnodes]
    exact congrArg (Option.map NodeRow.type) (lookup_append_of_ne hne.symm)

theorem createContainer_born (h : createContainer E k tx mount path = .ok (tx', n)) :
    ∃ m p, requireMount E k tx.db mount true = .ok m ∧
      resolveParent tx.db m.mountPoint path = .ok p ∧
      Born (p.container, n, p.name) tx.db tx'.db := by
  simp only [createContainer, bind_eq_ok, pure_eq_ok, Prod.mk.injEq] at h
  obtain ⟨m, hm, p, hp, u, -, ⟨tx₁, node⟩, hnew, tx₂, hlink, rfl, rfl⟩ := h
  exact ⟨m, p, hm, hp, birth_born hnew ReflTransGen.refl hlink⟩

theorem createLeaf_names {type : NodeType} {data : Bytes}
    (h : createLeaf C E k tx mount path type data = .ok (tx', n)) :
    ∃ m p, requireMount E k tx.db mount true = .ok m ∧
      resolveParent tx.db m.mountPoint path = .ok p ∧
      Born (p.container, n, p.name) tx.db tx'.db := by
  simp only [createLeaf, bind_eq_ok, pure_eq_ok, Prod.mk.injEq] at h
  obtain ⟨m, hm, p, hp, u, -, ⟨tx₁, node⟩, hnew, tx₂, hput, tx₃, hlink, rfl, rfl⟩ := h
  exact ⟨m, p, hm, hp, birth_born hnew (putInitialContent_steps hput) hlink⟩

theorem createSpecial_names {type : NodeType} {data : Bytes}
    (h : createSpecial C E k tx mount path type data = .ok (tx', n)) :
    ∃ m p, requireMount E k tx.db mount true = .ok m ∧
      resolveParent tx.db m.mountPoint path = .ok p ∧
      Born (p.container, n, p.name) tx.db tx'.db := by
  simp only [createSpecial, bind_eq_ok] at h
  obtain ⟨u, -, hleaf⟩ := h
  exact createLeaf_names hleaf

/-- `open_write` makes at most the entry it truncates. -/
theorem openWrite_names {mode : WriteMode} {supplied : Option LockId} {d : Descriptor}
    (h : openWrite C E k tx mount path mode supplied = .ok (tx', d)) :
    Settled tx.db tx'.db ∨ ∃ m p, ∃ tx₁ : Tx, requireMount E k tx.db mount true = .ok m ∧
      resolveParent tx.db m.mountPoint path = .ok p ∧
        Born (p.container, d.node, p.name) tx.db tx₁.db ∧
      Settled tx₁.db tx'.db := by
  obtain ⟨ctx, tx₁, l, hm, htarget, hlock, -⟩ := openWrite_ok h
  have hlocked : Settled tx₁.db tx'.db := by
    simp only [writerLock] at hlock
    split at hlock
    · simp only [bind_eq_ok, pure_eq_ok, Prod.mk.injEq] at hlock
      obtain ⟨row, -, u, -, rfl, -⟩ := hlock
      exact Settled.refl _
    · simp only [bind_eq_ok, pure_eq_ok, Prod.mk.injEq] at hlock
      obtain ⟨u, -, tx₂, hrun, rfl, -⟩ := hlock
      exact run_settled hrun trivial
  simp only [openTarget] at htarget
  split at htarget
  · simp only [bind_eq_ok, pure_eq_ok, Prod.mk.injEq] at htarget
    obtain ⟨u, -, rfl, -⟩ := htarget
    exact Or.inl hlocked
  · split at htarget
    · cases htarget
    · obtain ⟨m, p, hm', hp, hborn⟩ := createLeaf_names htarget
      exact Or.inr ⟨m, p, tx₁, hm', hp, hborn, hlocked⟩
  · cases htarget

/-! ### Renaming and placing -/

/-- What `rename_placement` makes of a placement. -/
def renamed (parent n : NodeId) (old name : String) (p : NodeId × NodeId × String) :
    NodeId × NodeId × String :=
  if p = (parent, n, old) then (parent, n, name) else p

theorem renamePlacement_placements (parent n : NodeId) (old name : String) :
    (db.renamePlacement parent n old name).placements =
      db.placements.map (renamed parent n old name) := by
  rw [Db.placements, Db.placements, Db.activeEdges_renamePlacement, List.map_map, List.map_map]
  apply List.map_congr_left
  intro e _
  simp only [Function.comp_apply, renamed, isPlacement_iff]
  by_cases heq : e.placement = (parent, n, old)
  · rw [if_pos heq, if_pos heq]
    simp only [EdgeRow.placement, Prod.mk.injEq] at heq ⊢
    exact ⟨heq.1, heq.2.1, trivial⟩
  · rw [if_neg heq, if_neg heq]

/-- `rename_node_if_sole` changes one name at most. -/
theorem renameNodeIfSole_names (m : NodeId) (name : String) :
    (db.renameNodeIfSole now m name).placements = db.placements ∧
      ∀ n, (db.renameNodeIfSole now m name).nodeName? n = db.nodeName? n ∨
        (n = m ∧ (db.node? n).isSome ∧
          (db.renameNodeIfSole now m name).nodeName? n = some name) := by
  rw [Db.renameNodeIfSole]
  split
  · refine ⟨rfl, ?_⟩
    intro n
    let f : NodeRow → NodeRow := fun r => { r with name := name }
    have hlook : lookup NodeRow.nodeId (amend NodeRow.nodeId db.nodes m f) n =
        if n = m then (db.node? n).map f else db.node? n := lookup_amend (fun _ => rfl)
    show (lookup NodeRow.nodeId (amend NodeRow.nodeId db.nodes m f) n).map NodeRow.name =
        db.nodeName? n ∨
      (n = m ∧ _ ∧ (lookup NodeRow.nodeId (amend NodeRow.nodeId db.nodes m f) n).map NodeRow.name =
      _)
    rw [hlook]
    by_cases heq : n = m
    · rw [if_pos heq]
      cases hn : db.node? n with
      | none => exact Or.inl (by rw [Db.nodeName?, hn]; rfl)
      | some r => exact Or.inr ⟨heq, rfl, rfl⟩
    · rw [if_neg heq]
      exact Or.inl rfl
  · exact ⟨rfl, fun _ => Or.inl rfl⟩

theorem renameNodeIfSole_types (m : NodeId) (name : String) (n : NodeId) :
    (db.renameNodeIfSole now m name).nodeType? n = db.nodeType? n := by
  rw [Db.renameNodeIfSole]
  split
  · exact map_lookup_amend (fun _ => rfl) (fun _ => rfl)
  · rfl

theorem rename_names (h : rename E k tx mount path name = .ok tx') :
    ∃ m p found, requireMount E k tx.db mount true = .ok m ∧
      resolveParent tx.db m.mountPoint path = .ok p ∧
      resolve tx.db m.mountPoint path = .ok found ∧
      tx'.db.placements = tx.db.placements.map (renamed p.container found.node p.name name) ∧
      (∀ n, tx'.db.nodeName? n = tx.db.nodeName? n ∨
        (n = found.node ∧ tx'.db.nodeName? n = some name)) ∧
      ∀ n, tx'.db.nodeType? n = tx.db.nodeType? n := by
  simp only [rename, bind_eq_ok] at h
  obtain ⟨m, hm, u, -, p, hp, found, hfound, u', -, tx₁, hplace, hnode⟩ := h
  obtain ⟨db₁, hexec, rfl⟩ := Tx.run_ok.mp hplace
  obtain rfl := Except.ok.inj hexec
  obtain ⟨db₂, hexec, rfl⟩ := Tx.run_ok.mp hnode
  obtain rfl := Except.ok.inj hexec
  refine ⟨m, p, found, hm, hp, hfound, ?_, ?_, fun n => renameNodeIfSole_types _ _ _⟩
  · exact (renameNodeIfSole_names found.node name).1.trans (renamePlacement_placements _ _ _ _)
  · intro n
    rcases (renameNodeIfSole_names found.node name).2 n with hsame | ⟨heq, -, hnew⟩
    · exact Or.inl hsame
    · exact Or.inr ⟨heq, hnew⟩

theorem linkChild_names {m : MountCtx} {parent : NodeId} {given : Option String}
    (h : linkChild E tx m parent n given = .ok tx')
    (hname : given.getD ((tx.db.nodeName? n).getD "") = name) :
    tx'.db.placements = tx.db.placements ++ [(parent, n, name)] ∧ tx'.db.nodes = tx.db.nodes := by
  obtain ⟨db₁, hedge, rfl⟩ := linkChild_ok h
  obtain ⟨src, dst, -, hdst, -, -, -, -, -, rfl⟩ := Db.createEdge_ok hedge
  refine ⟨?_, rfl⟩
  rw [Db.nodeName?, hdst] at hname
  rw [← hname]
  let e : EdgeRow :=
    { edgeId := E.ids tx.idCount, fromId := parent, toId := n, volumeId := m.volume,
                       name := given.getD dst.name }
  exact placements_append (e := e) rfl rfl

theorem link_names (h : link E k tx mount src dst = .ok tx') :
    ∃ m p found, requireMount E k tx.db mount true = .ok m ∧
      resolveParent tx.db m.mountPoint dst = .ok p ∧
      resolve tx.db m.mountPoint src = .ok found ∧ found.type ≠ .container ∧
      tx.db.resolveSegment p.container p.name = none ∧
      tx'.db.placements = tx.db.placements ++ [(p.container, found.node, p.name)] ∧
      tx'.db.nodes = tx.db.nodes := by
  simp only [link, bind_eq_ok, refuse_eq_ok, decide_eq_false_iff_not] at h
  obtain ⟨m, hm, found, hfound, u, hleaf, u', -, p, hp, u₂, -, u₃, hfree, hlink⟩ := h
  have hname : (if tx.db.nodeName? found.node = some p.name then none else some p.name).getD
      ((tx.db.nodeName? found.node).getD "") = p.name := by
    split
    next heq =>
      rw [heq]
      rfl
    next => rfl
  obtain ⟨hplacements, hnames⟩ := linkChild_names hlink hname
  exact ⟨m, p, found, hm, hp, hfound, hleaf, by simpa using hfree, hplacements, hnames⟩

theorem archivePlacement_placements (parent n : NodeId) (name : String) :
    (db.archiveWhere now (Db.isPlacement parent n name)).placements =
      db.placements.filter (fun p => p ≠ (parent, n, name)) := by
  rw [archiveWhere_placements, Db.placements, List.filter_map]
  congr 1
  apply List.filter_congr
  intro e _
  have hiff : Db.isPlacement parent n name e = decide (e.placement = (parent, n, name)) := by
    rw [Bool.eq_iff_iff, isPlacement_iff, decide_eq_true_eq]
  simp [hiff]

theorem move_names (h : move E k tx mount src dst = .ok tx') :
    ∃ m sp p found, requireMount E k tx.db mount true = .ok m ∧
      resolveParent tx.db m.mountPoint src = .ok sp ∧
      resolveParent tx.db m.mountPoint dst = .ok p ∧ resolve tx.db m.mountPoint src = .ok found ∧
      (sp.container, found.node, sp.name) ∈ tx.db.placements ∧
      tx'.db.placements =
        tx.db.placements.filter (fun q => q ≠ (sp.container, found.node, sp.name)) ++
        [(p.container, found.node, p.name)] ∧
      (∀ n, tx'.db.nodeName? n = tx.db.nodeName? n ∨
        (n = found.node ∧ tx'.db.nodeName? n = some p.name)) ∧
      ∀ n, tx'.db.nodeType? n = tx.db.nodeType? n := by
  simp only [move, bind_eq_ok] at h
  obtain ⟨m, hm, found, hfound, u, -, sp, hsp, p, hp, u₁, -, u₂, -, u₃, hcount, tx₁, harch, tx₂,
    hlink,
    hname⟩ := h
  -- the walked placement is counted before it is archived
  have hwalked : (sp.container, found.node, sp.name) ∈ tx.db.placements := by
    simp only [refuse_eq_ok, decide_eq_false_iff_not, Db.placementCount, List.length_eq_zero_iff]
      at hcount
    obtain ⟨e, he⟩ := List.exists_mem_of_ne_nil _ hcount
    obtain ⟨hmem, hplaced⟩ := List.mem_filter.mp he
    simp only [Db.isPlacement, decide_eq_true_eq] at hplaced
    refine mem_placements.mpr ⟨e, hmem, ?_⟩
    rw [EdgeRow.placement, hplaced.1, hplaced.2.1, hplaced.2.2]
  obtain ⟨db₁, hexec, rfl⟩ := Tx.run_ok.mp harch
  obtain rfl := Except.ok.inj hexec
  have hgiven : (if (tx.db.node? found.node).any (fun r => r.name ≠ p.name) then
      some p.name else none).getD
      (((tx.db.node? found.node).map NodeRow.name).getD "") = p.name := by
    cases hn : tx.db.node? found.node with
    | none =>
      obtain ⟨db₂, hedge, -⟩ := linkChild_ok hlink
      obtain ⟨-, dst', -, hdst, -⟩ := Db.createEdge_ok hedge
      cases hn.symm.trans hdst
    | some r =>
      by_cases heq : r.name = p.name
      · simp [heq]
      · simp [heq]
  obtain ⟨hplacements, hnodes⟩ := linkChild_names hlink hgiven
  rw [archivePlacement_placements] at hplacements
  have hnode : ∀ n, tx₂.db.node? n = tx.db.node? n := by
    intro n
    rw [Db.node?, hnodes]
    rfl
  refine ⟨m, sp, p, found, hm, hsp, hp, hfound, hwalked, ?_, ?_, ?_⟩
  · split at hname
    · obtain ⟨db₂, hexec, rfl⟩ := Tx.run_ok.mp hname
      obtain rfl := Except.ok.inj hexec
      exact (renameNodeIfSole_names _ _).1.trans hplacements
    · obtain rfl := Except.ok.inj hname
      exact hplacements
  · intro n
    split at hname
    · obtain ⟨db₂, hexec, rfl⟩ := Tx.run_ok.mp hname
      obtain rfl := Except.ok.inj hexec
      rcases (renameNodeIfSole_names found.node p.name).2 n with hsame | ⟨heq, -, hnew⟩
      · exact Or.inl (hsame.trans (congrArg (Option.map NodeRow.name) (hnode n)))
      · exact Or.inr ⟨heq, hnew⟩
    · obtain rfl := Except.ok.inj hname
      exact Or.inl (congrArg (Option.map NodeRow.name) (hnode n))
  · intro n
    have hlinked : tx₂.db.nodeType? n = tx.db.nodeType? n :=
      congrArg (Option.map NodeRow.type) (hnode n)
    split at hname
    · obtain ⟨db₂, hexec, rfl⟩ := Tx.run_ok.mp hname
      obtain rfl := Except.ok.inj hexec
      exact (renameNodeIfSole_types _ _ _).trans hlinked
    · obtain rfl := Except.ok.inj hname
      exact hlinked

/-! ### Trees -/

/-- Nodes are born under names of `P`, and nothing else is named. -/
def Grows (P : String → Prop) : Db → Db → Prop :=
  ReflTransGen (fun db db' => Settled db db' ∨ ∃ p : NodeId × NodeId × String,
    P p.2.2 ∧ Born p db db')

theorem Settled.grows {P : String → Prop} (h : Settled db db') : Grows P db db' :=
  ReflTransGen.single (Or.inl h)

theorem Born.grows {P : String → Prop} {p : NodeId × NodeId × String} (h : Born p db db')
    (hp : P p.2.2) :
    Grows P db db' := ReflTransGen.single (Or.inr ⟨p, hp, h⟩)

/-- Below its root the walk names its rows after placements. -/
theorem name_of_levelsFrom {fuel : ℕ} {level : List SubtreeRow} {r : SubtreeRow}
    (h : r ∈ db.levelsFrom fuel level) : r ∈ level ∨ ∃ q ∈ db.placements, q.2.2 = r.name := by
  induction fuel generalizing level with
  | zero => exact Or.inl h
  | succ fuel ih =>
    rw [Db.levelsFrom, List.mem_append] at h
    rcases h with h | h
    · exact Or.inl h
    rcases ih h with hnext | hplaced
    · obtain ⟨row, -, hchild⟩ := Db.mem_nextLevel.mp hnext
      obtain ⟨e, he, -, rfl⟩ := Db.mem_childRows.mp hchild
      exact Or.inr ⟨e.placement, placement_mem_placements he, rfl⟩
    · exact Or.inr hplaced

theorem name_of_enumerateSubtree {root : NodeId} {r : SubtreeRow}
    (h : r ∈ db.enumerateSubtree root) :
    r.parentId = none ∨ ∃ q ∈ db.placements, q.2.2 = r.name := by
  rw [Db.enumerateSubtree] at h
  split at h
  · cases h
  · rcases name_of_levelsFrom h with hroot | hplaced
    · rw [List.mem_singleton.mp hroot]
      exact Or.inl rfl
    · exact Or.inr hplaced

/-- The names a copy gives: the one it was asked for and those it finds. -/
def copied (db : Db) (given name : String) : Prop :=
  name = given ∨ ∃ q ∈ db.placements, q.2.2 = name

theorem copy_names (h : copy E k tx mount src dst = .ok (tx', n)) :
    ∃ m p, requireMount E k tx.db mount true = .ok m ∧
      resolveParent tx.db m.mountPoint dst = .ok p ∧
      Grows (copied tx.db p.name) tx.db tx'.db := by
  simp only [copy, bind_eq_ok, pure_eq_ok, Prod.mk.injEq] at h
  obtain ⟨m, hm, found, -, p, hp, u, -, s, hfold, root, -, rfl, -⟩ := h
  refine ⟨m, p, hm, hp, ?_⟩
  refine foldlM_invariant (P := fun s : Tx × IdMap NodeId =>
    Grows (copied tx.db p.name) tx.db s.1.db) ?_ hfold
    ReflTransGen.refl
  intro s r t hr hs hrow
  simp only [copyRow, bind_eq_ok, pure_eq_ok] at hrow
  obtain ⟨info, -, parent, -, ⟨tx₁, new⟩, hnew, tx₂, hfill, tx₃, hlink, rfl⟩ := hrow
  have hborn := birth_born hnew (fillCopy_steps hfill) hlink
  have hname : copied tx.db p.name (if r.parentId.isNone then p.name else r.name) := by
    split
    next => exact Or.inl rfl
    next hroot =>
      rcases name_of_enumerateSubtree hr with hnone | hplaced
      · simp [hnone] at hroot
      · exact Or.inr hplaced
  have hgrown : Grows (copied tx.db p.name) s.1.db tx₃.db := hborn.grows hname
  exact hs.trans hgrown

theorem pack_names (h : pack C M E k tx mount path = .ok (tx', n)) :
    ∃ m found e cont, ∃ tx₁ : Tx, requireMount E k tx.db mount true = .ok m ∧
      resolve tx.db m.mountPoint path = .ok found ∧ found.type = .container ∧
      tx.db.getActiveParent found.node = some e ∧
      tx.db.node? found.node = some cont ∧ Settled tx.db tx₁.db ∧
      Born (e.fromId, n, cont.name) tx₁.db tx'.db := by
  simp only [pack, bind_eq_ok, pure_eq_ok, orRaise_eq_ok, Prod.mk.injEq] at h
  obtain ⟨m, hm, found, hfound, u, hcontainer, u₁, -, e, he, cont, hcont, nodes, -, blob, -, tx₁,
    hraze,
    ⟨tx₂, packed⟩, hnew, tx₃, hput, tx₄, hlink, rfl, rfl⟩ := h
  have htype : found.type = .container := by simpa using hcontainer
  exact ⟨m, found, e, cont, tx₁, hm, hfound, htype, he, hcont, run_settled hraze trivial,
    birth_born hnew (putInitialContent_steps hput) hlink⟩

/-- The nodes an `unpack` through a mount reads off its entry; none when it cannot. -/
def unpackedNodes (C : Crypto) (M : Msgpack) (E : Env) (k : Cipher) (db : Db) (mount : MountId)
    (path : String) :
    List PackNode :=
  let nodes : Except FsError (List PackNode) := do
    let m ← requireMount E k db mount true
    let found ← resolve db m.mountPoint path
    let blob ← readContentBytes C k db found.node
    decodePack M blob
  nodes.toOption.getD []

theorem unpackNode_names {P : String → Prop} {m : MountCtx} {parent : NodeId}
    {s t : Tx × List NodeId} {pn : PackNode} (hp : P pn.n)
    (h : unpackNode C E k m parent s pn = .ok t) : Grows P s.1.db t.1.db := by
  simp only [unpackNode, bind_eq_ok, pure_eq_ok] at h
  obtain ⟨type, -, target, -, metadata, -, u, -, ⟨tx₁, new⟩, hnew, tx₂, hfill, tx₃, hlink, tx₄,
    howner, tx₅, hxattrs,
    tx₆, hretention, rfl⟩ := h
  have hborn := birth_born hnew (fillUnpacked_steps hfill) hlink
  have hgrown : Grows P s.1.db tx₃.db := hborn.grows hp
  have howned : Settled tx₃.db tx₄.db := by
    rw [restoreOwner] at howner
    split at howner
    · obtain ⟨-, -, howner⟩ := bind_eq_ok.mp howner
      exact run_settled howner trivial
    · obtain rfl := Except.ok.inj howner
      exact Settled.refl _
  have hextended : Settled tx₄.db tx₅.db := by
    refine foldlM_invariant (P := fun t : Tx => Settled tx₄.db t.db) ?_ hxattrs (Settled.refl _)
    intro t kv t' _ ht hrun
    exact ht.trans (run_settled hrun trivial)
  have hretained : Settled tx₅.db tx₆.db := by
    rw [restoreRetention] at hretention
    split at hretention
    · obtain ⟨-, -, hretention⟩ := bind_eq_ok.mp hretention
      exact run_settled hretention trivial
    · obtain rfl := Except.ok.inj hretention
      exact Settled.refl _
  have hsettled : Grows P tx₃.db tx₆.db := ((howned.trans hextended).trans hretained).grows
  exact hgrown.trans hsettled

theorem unpack_names (h : unpack C M E k tx mount path = .ok tx') :
    Grows (fun name => ∃ pn ∈ unpackedNodes C M E k tx.db mount path, pn.n = name) tx.db
      tx'.db := by
  simp only [unpack, bind_eq_ok, pure_eq_ok, orRaise_eq_ok] at h
  obtain ⟨m, hm, found, hfound, u, -, u₁, -, blob, hblob, nodes, hnodes, e, he, tx₁,
    harch, s, hfold, rfl⟩ := h
  have hread : unpackedNodes C M E k tx.db mount path = nodes := by
    simp only [unpackedNodes, hm, hfound, hblob, hnodes, ok_bind]
    rfl
  rw [hread]
  have harchived : Settled tx.db tx₁.db := run_settled harch trivial
  have hfirst : Grows (fun name => ∃ pn ∈ nodes, pn.n = name) tx.db tx₁.db := harchived.grows
  have hrest : Grows (fun name => ∃ pn ∈ nodes, pn.n = name) tx₁.db s.1.db := by
    refine foldlM_invariant
      (P := fun s : Tx × List NodeId => Grows (fun name => ∃ pn ∈ nodes, pn.n = name) tx₁.db s.1.db)
        ?_ hfold
      ReflTransGen.refl
    intro s pn t hpn hs hrow
    have hgrown : Grows (fun name => ∃ pn ∈ nodes, pn.n = name) s.1.db t.1.db :=
      unpackNode_names ⟨pn, hpn, rfl⟩ hrow
    exact hs.trans hgrown
  exact hfirst.trans hrest

end Aloelite
