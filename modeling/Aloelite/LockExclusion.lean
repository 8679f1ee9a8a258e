import Aloelite.Footprint

/-! ACC-11: while one mount holds a valid lock on a node, nothing done through
another mount changes what the node is. Each operation is shown to consist of
statements that spare the locked node; what remains is the stream that flushes
into a version it lost. -/
namespace Aloelite

open Fallible KeyedRows ForestOrder Relation

variable {C : Crypto} {M : Msgpack} {E : Env} {k : Cipher} {L : License} {now : Int} {db db' : Db}
  {tx tx' tx₁ tx₂ : Tx} {s : Sys} {n c : NodeId} {mount : MountId} {path src dst : String}

/-! ### Parts of operations -/

theorem Steps.identities (h : Steps (Spares n) now db db') :
    ∃ added, db'.identities = db.identities ++ added := by
  induction h with
  | refl => exact ⟨[], by simp⟩
  | tail _ hstep ih =>
    obtain ⟨st, hst, hexec⟩ := hstep
    obtain ⟨added, hadded⟩ := ih
    by_cases ht : Table.identities ∈ st.touches
    · cases st with
      | createNode row modifiedAt =>
        obtain ⟨-, -, rfl⟩ := Db.createNode_ok hexec
        exact ⟨added ++ [row.identity], by simp [Db.identities] at hadded ⊢; simp [hadded]⟩
      | pruneNodes volume => exact hst.elim
      | _ => simp [Stmt.touches] at ht
    · exact ⟨added, ((Stmt.exec_agreeOff hexec).identities ht).trans hadded⟩

theorem Steps.spared_exists (h : Steps (Spares n) now db db') (hn : (db.node? c).isSome) :
    (db'.node? c).isSome :=
  node?_isSome_persists h.identities hn

theorem requireUnlocked_ne {m : NodeId} {u : Unit} (hheld : db.checkLockHeld E.now n mount = true)
    (h : requireUnlocked E db m mount = .ok u) : m ≠ n := by
  rintro rfl
  rw [requireUnlocked, refuse_eq_ok, hheld] at h
  cases h

/-- A node under another mount's valid lock is in no subtree that passes the
transitive check. -/
theorem requireSubtreeUnlocked_not_mem {root : NodeId} {u : Unit}
    (hheld : db.checkLockHeld E.now n mount = true)
    (h : requireSubtreeUnlocked E db root mount = .ok u) : n ∉ db.subtreeIds root := by
  intro hmem
  rw [requireSubtreeUnlocked] at h
  split at h
  next hnone =>
    rw [Db.checkLockHeldSubtree, Option.map_eq_none_iff, List.find?_eq_none] at hnone
    rw [Db.checkLockHeld, List.any_eq_true] at hheld
    obtain ⟨l, hl, hprop⟩ := hheld
    obtain ⟨hnode, hmount⟩ := of_decide_eq_true hprop
    exact hnone l hl (by simpa [hnode, hmem] using hmount)
  next => cases h

theorem Fills.spares {m : NodeId} (hm : m ≠ n) (h : Steps (Fills m) now db db') :
    Steps (Spares n) now db db' := by
  refine ReflTransGen.mono ?_ _ _ h
  rintro a b ⟨st, hst, hexec⟩
  refine ⟨st, ?_, hexec⟩
  cases st with
  | createContent m' version size =>
    have heq : m' = m := hst
    exact heq ▸ hm
  | upsertChunk row => trivial
  | insertChunkRef row =>
    have heq : row.contentId = m := hst
    exact fun hn => absurd (heq.symm.trans hn) hm
  | copyChunkRefs dst v src w =>
    have heq : dst = m := hst
    exact fun hn => absurd (heq.symm.trans hn) hm
  | _ => exact hst.elim

theorem Stages.spares {m : NodeId} {v : ℕ} (hm : m = n → db.committedVersion n ≠ some v)
    (h : Steps (Stages m v) now db db') : Steps (Spares n) now db db' := by
  have hall : Steps (Spares n) now db db' ∧ db'.contents = db.contents := by
    induction h with
    | refl => exact ⟨ReflTransGen.refl, rfl⟩
    | tail hpre hstep ih =>
      obtain ⟨st, hst, hexec⟩ := hstep
      have hsame := ((Stages.agreeOff hpre).contents (by simp))
      have hframe := Stmt.exec_agreeOff hexec
      cases st with
      | upsertChunk row =>
        exact ⟨ih.1.tail ⟨.upsertChunk row, trivial, hexec⟩,
          (hframe.contents (by simp [Stmt.touches])).trans ih.2⟩
      | insertChunkRef row =>
        obtain ⟨hid, hver⟩ := hst
        refine ⟨ih.1.tail ⟨.insertChunkRef row, ?_, hexec⟩,
          (hframe.contents (by simp [Stmt.touches])).trans ih.2⟩
        intro hn
        rw [Db.committedVersion, Db.content?, hsame, hver]
        exact hm (hid.symm.trans hn)
      | _ => exact hst.elim
  exact hall.1

/-- A birth spares every node there was. -/
theorem birth_spares {m : MountCtx} {type : NodeType} {name : String}
    {createdAt modifiedAt : Option Int} {metadata : Metadata} {parent : NodeId}
    (hnew : newNode E tx m type name createdAt modifiedAt metadata = .ok (tx₁, c))
    (hfill : Steps (Fills c) E.now tx₁.db tx₂.db)
    (hlink : linkChild E tx₂ m parent c none = .ok tx') (hn : (tx.db.node? n).isSome) :
    Steps (Spares n) E.now tx.db tx'.db := by
  obtain ⟨-, db₁, hrow, rfl⟩ := newNode_ok hnew
  obtain ⟨hnone, -, -⟩ := Db.createNode_ok hrow
  have hne : c ≠ n := by
    rintro rfl
    rw [show tx.db.node? c = none from hnone] at hn
    cases hn
  obtain ⟨db₂, hedge, rfl⟩ := linkChild_ok hlink
  have hfirst : Steps (Spares n) E.now tx.db db₁ :=
    ReflTransGen.single ⟨.createNode _ modifiedAt, trivial, hrow⟩
  have hlast : Steps (Spares n) E.now tx₂.db db₂ :=
    ReflTransGen.single ⟨.createEdge _ parent c m.volume none, hne, hedge⟩
  exact (hfirst.trans (Fills.spares hne hfill)).trans hlast

theorem run_spares {st : Stmt} (h : tx.run E st = .ok tx') (hst : Spares n tx.db st) :
    Steps (Spares n) E.now tx.db tx'.db := Tx.run_steps h hst

theorem swap_spares {v size : ℕ} (hne : c ≠ n) (h : tx.run E (.updateContent c v size) = .ok tx') :
    Steps (Spares n) E.now tx.db tx'.db := run_spares h hne

theorem carryLeading_spares {v src count : ℕ} (hm : c = n → tx.db.committedVersion n ≠ some v)
    (h : carryLeading E tx c v src count = .ok tx') : Steps (Spares n) E.now tx.db tx'.db := by
  rw [carryLeading] at h
  split at h
  · exact run_spares h hm
  · obtain rfl := Except.ok.inj h
    exact ReflTransGen.refl

theorem carryTrailing_spares {v src hi : ℕ} {last : Int} (hm : c ≠ n)
    (h : carryTrailing E tx c v src hi last = .ok tx') : Steps (Spares n) E.now tx.db tx'.db := by
  rw [carryTrailing] at h
  split at h
  · exact run_spares h (fun heq => absurd heq hm)
  · obtain rfl := Except.ok.inj h
    exact ReflTransGen.refl

theorem stageFrom_spares {v i : ℕ} {chunks : List Bytes} (hm : c ≠ n)
    (h : tx.stageFrom C E k c v i chunks = .ok tx') : Steps (Spares n) E.now tx.db tx'.db :=
  Stages.spares (fun heq => absurd heq hm) (Tx.stageFrom_steps h)

/-! ### Requests through another mount -/

theorem createContainer_spares (h : createContainer E k tx mount path = .ok (tx', c))
    (hn : (tx.db.node? n).isSome) : Steps (Spares n) E.now tx.db tx'.db := by
  simp only [createContainer, bind_eq_ok, pure_eq_ok, Prod.mk.injEq] at h
  obtain ⟨m, -, p, -, u, -, ⟨tx₁, node⟩, hnew, tx₂, hlink, rfl, rfl⟩ := h
  exact birth_spares hnew ReflTransGen.refl hlink hn

theorem createLeaf_spares {type : NodeType} {data : Bytes}
    (h : createLeaf C E k tx mount path type data = .ok (tx', c)) (hn : (tx.db.node? n).isSome) :
    Steps (Spares n) E.now tx.db tx'.db := by
  simp only [createLeaf, bind_eq_ok, pure_eq_ok, Prod.mk.injEq] at h
  obtain ⟨m, -, p, -, u, -, ⟨tx₁, node⟩, hnew, tx₂, hput, tx₃, hlink, rfl, rfl⟩ := h
  exact birth_spares hnew (putInitialContent_steps hput) hlink hn

theorem createSpecial_spares {type : NodeType} {data : Bytes}
    (h : createSpecial C E k tx mount path type data = .ok (tx', c)) (hn : (tx.db.node? n).isSome) :
    Steps (Spares n) E.now tx.db tx'.db := by
  simp only [createSpecial, bind_eq_ok] at h
  obtain ⟨u, -, hleaf⟩ := h
  exact createLeaf_spares hleaf hn

theorem openContent_ne {m : MountCtx} (hheld : db.checkLockHeld E.now n mount = true)
    (h : openContent E k db mount path = .ok (m, c)) : c ≠ n := by
  simp only [openContent, bind_eq_ok, pure_eq_ok, Prod.mk.injEq] at h
  obtain ⟨m', -, found, -, u, -, u', hfree, -, rfl⟩ := h
  exact requireUnlocked_ne hheld hfree

theorem writeAll_spares {data : Bytes} (hheld : tx.db.checkLockHeld E.now n mount = true)
    (h : writeAll C E k tx mount path data = .ok tx') : Steps (Spares n) E.now tx.db tx'.db := by
  simp only [writeAll, bind_eq_ok, pure_eq_ok] at h
  obtain ⟨⟨m, node⟩, hopen, tx₁, hstage, tx₂, hswap, rfl⟩ := h
  have hne := openContent_ne hheld hopen
  have hstaged := Stages.spares (fun heq => absurd heq hne) (Tx.stageChunks_steps hstage)
  have hswapped := swap_spares hne hswap
  exact hstaged.trans hswapped

theorem append_spares {data : Bytes} {size : ℕ} (hheld : tx.db.checkLockHeld E.now n mount = true)
    (h : append C E k tx mount path data = .ok (tx', size)) :
    Steps (Spares n) E.now tx.db tx'.db := by
  simp only [append] at h
  split at h
  · simp only [bind_eq_ok, pure_eq_ok, Prod.mk.injEq] at h
    obtain ⟨size', -, rfl, -⟩ := h
    exact ReflTransGen.refl
  · simp only [bind_eq_ok, pure_eq_ok, Prod.mk.injEq] at h
    obtain ⟨⟨m, node⟩, hopen, u, -, tx₁, hcarry, tail, -, tx₂, hstage, tx₃, hswap, rfl, -⟩ := h
    have hne := openContent_ne hheld hopen
    have hcarried := carryLeading_spares (fun heq => absurd heq hne) hcarry
    have hstaged := stageFrom_spares hne hstage
    have hswapped := swap_spares hne hswap
    exact (hcarried.trans hstaged).trans hswapped

theorem writeRange_spares {offset : ℕ} {data : Bytes} {size : ℕ}
    (hheld : tx.db.checkLockHeld E.now n mount = true)
    (h : writeRange C E k tx mount path offset data = .ok (tx', size)) :
    Steps (Spares n) E.now tx.db tx'.db := by
  simp only [writeRange] at h
  split at h
  · simp only [bind_eq_ok, pure_eq_ok, Prod.mk.injEq] at h
    obtain ⟨size', -, rfl, -⟩ := h
    exact ReflTransGen.refl
  · simp only [bind_eq_ok, pure_eq_ok, Prod.mk.injEq] at h
    obtain ⟨⟨m, node⟩, hopen, u, -, tx₁, hlead, tx₂, htrail, buf, -, tx₃, hstage,
      tx₄, hswap, rfl, -⟩ := h
    have hne := openContent_ne hheld hopen
    have hleading := carryLeading_spares (fun heq => absurd heq hne) hlead
    have htrailing := carryTrailing_spares hne htrail
    have hstaged := stageFrom_spares hne hstage
    have hswapped := swap_spares hne hswap
    exact ((hleading.trans htrailing).trans hstaged).trans hswapped

theorem shrinkTo_spares {v w cs size : ℕ} (hne : c ≠ n)
    (h : shrinkTo C E k tx c v w cs size = .ok tx') : Steps (Spares n) E.now tx.db tx'.db := by
  simp only [shrinkTo, bind_eq_ok] at h
  obtain ⟨tx₁, hcarry, h⟩ := h
  have hcarried := carryLeading_spares (fun heq => absurd heq hne) hcarry
  split at h
  · simp only [bind_eq_ok] at h
    obtain ⟨rows, -, chunk, -, hstage⟩ := h
    exact hcarried.trans (Stages.spares (fun heq => absurd heq hne) (Tx.stageChunk_steps hstage))
  · obtain rfl := Except.ok.inj h
    exact hcarried

theorem growTo_spares {v w cs cur size : ℕ} (hne : c ≠ n)
    (h : growTo C E k tx c v w cs cur size = .ok tx') : Steps (Spares n) E.now tx.db tx'.db := by
  simp only [growTo, bind_eq_ok] at h
  obtain ⟨tx₁, hcarry, tail, -, hstage⟩ := h
  exact (carryLeading_spares (fun heq => absurd heq hne) hcarry).trans (stageFrom_spares hne hstage)

theorem truncate_spares {size : ℕ} (hheld : tx.db.checkLockHeld E.now n mount = true)
    (h : truncate C E k tx mount path size = .ok tx') : Steps (Spares n) E.now tx.db tx'.db := by
  simp only [truncate, bind_eq_ok] at h
  obtain ⟨⟨m, node⟩, hopen, h⟩ := h
  have hne := openContent_ne hheld hopen
  split at h
  · obtain rfl := Except.ok.inj h
    exact ReflTransGen.refl
  simp only [bind_eq_ok] at h
  obtain ⟨u, -, h⟩ := h
  split at h
  · simp only [bind_eq_ok, pure_eq_ok] at h
    obtain ⟨tx₁, hshrink, tx₂, hswap, rfl⟩ := h
    have hswapped := swap_spares hne hswap
    exact (shrinkTo_spares hne hshrink).trans hswapped
  · simp only [bind_eq_ok, pure_eq_ok] at h
    obtain ⟨tx₁, hgrow, tx₂, hswap, rfl⟩ := h
    have hswapped := swap_spares hne hswap
    exact (growTo_spares hne hgrow).trans hswapped

theorem rename_spares {name : String} (hheld : tx.db.checkLockHeld E.now n mount = true)
    (h : rename E k tx mount path name = .ok tx') : Steps (Spares n) E.now tx.db tx'.db := by
  simp only [rename, bind_eq_ok] at h
  obtain ⟨m, -, u, -, p, -, found, -, u', hfree, tx₁, hplace, hnode⟩ := h
  have hne := requireUnlocked_ne hheld hfree
  exact (run_spares hplace hne).trans (run_spares hnode trivial)

theorem linkChild_spares {m : MountCtx} {parent child : NodeId} {name : Option String}
    (hne : child ≠ n) (h : linkChild E tx m parent child name = .ok tx') :
    Steps (Spares n) E.now tx.db tx'.db := by
  obtain ⟨db₁, hedge, rfl⟩ := linkChild_ok h
  exact ReflTransGen.single ⟨.createEdge _ parent child m.volume name, hne, hedge⟩

theorem link_spares (hheld : tx.db.checkLockHeld E.now n mount = true)
    (h : link E k tx mount src dst = .ok tx') : Steps (Spares n) E.now tx.db tx'.db := by
  simp only [link, bind_eq_ok] at h
  obtain ⟨m, -, found, -, u, -, u', hfree, p, -, u₂, -, u₃, -, hlink⟩ := h
  exact linkChild_spares (requireUnlocked_ne hheld hfree) hlink

theorem move_spares (hheld : tx.db.checkLockHeld E.now n mount = true)
    (h : move E k tx mount src dst = .ok tx') : Steps (Spares n) E.now tx.db tx'.db := by
  simp only [move, bind_eq_ok] at h
  obtain ⟨m, -, found, -, u, hfree, sp, -, p, -, u₁, -, u₂, -, u₃, -, tx₁, harch, tx₂, hlink,
    hname⟩ := h
  have hne := requireUnlocked_ne hheld hfree
  have hmoved := (run_spares harch hne).trans (linkChild_spares hne hlink)
  split at hname
  · exact hmoved.trans (run_spares hname trivial)
  · obtain rfl := Except.ok.inj hname
    exact hmoved

theorem remove_spares (hheld : tx.db.checkLockHeld E.now n mount = true)
    (h : remove E k tx mount path = .ok tx') : Steps (Spares n) E.now tx.db tx'.db := by
  simp only [remove, bind_eq_ok] at h
  obtain ⟨m, -, found, -, u, hfree, u₁, -, p, -, u₂, -, hrun⟩ := h
  exact run_spares hrun (requireUnlocked_ne hheld hfree)

theorem removeRecursive_spares (hheld : tx.db.checkLockHeld E.now n mount = true)
    (h : removeRecursive E k tx mount path = .ok tx') : Steps (Spares n) E.now tx.db tx'.db := by
  simp only [removeRecursive, bind_eq_ok] at h
  obtain ⟨m, -, found, -, u, hfree, hrun⟩ := h
  exact run_spares hrun (requireSubtreeUnlocked_not_mem hheld hfree)

theorem copyRow_spares {m : MountCtx} {p : Parent} {s t : Tx × IdMap NodeId} {r : SubtreeRow}
    (h : copyRow E m p s r = .ok t) (hn : (s.1.db.node? n).isSome) :
    Steps (Spares n) E.now s.1.db t.1.db := by
  simp only [copyRow, bind_eq_ok, pure_eq_ok] at h
  obtain ⟨info, -, parent, -, ⟨tx₁, new⟩, hnew, tx₂, hfill, tx₃, hlink, rfl⟩ := h
  exact birth_spares hnew (fillCopy_steps hfill) hlink hn

theorem copy_spares (h : copy E k tx mount src dst = .ok (tx', c)) (hn : (tx.db.node? n).isSome) :
    Steps (Spares n) E.now tx.db tx'.db := by
  simp only [copy, bind_eq_ok, pure_eq_ok, Prod.mk.injEq] at h
  obtain ⟨m, -, found, -, p, -, u, -, s, hfold, root, -, rfl, -⟩ := h
  refine foldlM_invariant
    (P := fun s : Tx × IdMap NodeId => Steps (Spares n) E.now tx.db s.1.db) ?_ hfold
      ReflTransGen.refl
  intro a r b _ ha hrow
  exact ha.trans (copyRow_spares hrow (ha.spared_exists hn))

theorem pack_spares (hheld : tx.db.checkLockHeld E.now n mount = true)
    (h : pack C M E k tx mount path = .ok (tx', c)) (hn : (tx.db.node? n).isSome) :
    Steps (Spares n) E.now tx.db tx'.db := by
  simp only [pack, bind_eq_ok, pure_eq_ok, orRaise_eq_ok, Prod.mk.injEq] at h
  obtain ⟨m, -, found, -, u, -, u₁, hfree, e, -, cont, -, nodes, -, blob, -, tx₁, hraze,
    ⟨tx₂, packed⟩, hnew, tx₃, hput, tx₄, hlink, rfl, -⟩ := h
  have hrazed := run_spares hraze (requireSubtreeUnlocked_not_mem hheld hfree)
  exact hrazed.trans
    (birth_spares hnew (putInitialContent_steps hput) hlink (hrazed.spared_exists hn))

theorem restoreXattrs_spares {pn : PackNode} (h : restoreXattrs E tx pn c = .ok tx') :
    Steps (Spares n) E.now tx.db tx'.db := by
  refine foldlM_invariant (P := fun t : Tx => Steps (Spares n) E.now tx.db t.db) ?_ h
    ReflTransGen.refl
  intro a kv b _ ha hrun
  exact ha.trans (run_spares hrun trivial)

theorem restoreOwner_spares {pn : PackNode} (h : restoreOwner E tx pn c = .ok tx') :
    Steps (Spares n) E.now tx.db tx'.db := by
  rw [restoreOwner] at h
  split at h
  · obtain ⟨-, -, h⟩ := bind_eq_ok.mp h
    exact run_spares h trivial
  · obtain rfl := Except.ok.inj h
    exact ReflTransGen.refl

theorem restoreRetention_spares {pn : PackNode} {type : NodeType}
    (h : restoreRetention E tx pn type c = .ok tx') : Steps (Spares n) E.now tx.db tx'.db := by
  rw [restoreRetention] at h
  split at h
  · obtain ⟨-, -, h⟩ := bind_eq_ok.mp h
    exact run_spares h trivial
  · obtain rfl := Except.ok.inj h
    exact ReflTransGen.refl

theorem unpackNode_spares {m : MountCtx} {parent : NodeId} {s t : Tx × List NodeId} {pn : PackNode}
    (h : unpackNode C E k m parent s pn = .ok t) (hn : (s.1.db.node? n).isSome) :
    Steps (Spares n) E.now s.1.db t.1.db := by
  simp only [unpackNode, bind_eq_ok, pure_eq_ok] at h
  obtain ⟨type, -, target, -, metadata, -, u, -, ⟨tx₁, new⟩, hnew, tx₂, hfill, tx₃, hlink, tx₄,
    howner, tx₅, hxattrs, tx₆, hretention, rfl⟩ := h
  have hborn := birth_spares hnew (fillUnpacked_steps hfill) hlink hn
  have hextras := (restoreOwner_spares (n := n) howner).trans
    ((restoreXattrs_spares hxattrs).trans (restoreRetention_spares hretention))
  exact hborn.trans hextras

theorem getActiveParent_toId {e : EdgeRow} (h : db.getActiveParent c = some e) : e.toId = c := by
  simpa using List.find?_some h

theorem unpack_spares (hheld : tx.db.checkLockHeld E.now n mount = true)
    (hk : Keyed EdgeRow.edgeId tx.db.edges) (h : unpack C M E k tx mount path = .ok tx')
    (hn : (tx.db.node? n).isSome) : Steps (Spares n) E.now tx.db tx'.db := by
  simp only [unpack, bind_eq_ok, pure_eq_ok, orRaise_eq_ok] at h
  obtain ⟨m, -, found, -, u, -, u₁, hfree, blob, -, nodes, -, e, he, tx₁, harch, s, hfold, rfl⟩ := h
  have hne := requireUnlocked_ne hheld hfree
  have hmem : e ∈ tx.db.edges := (Db.mem_activeEdges.mp (List.mem_of_find?_eq_some he)).1
  have harchived : Steps (Spares n) E.now tx.db tx₁.db := by
    refine run_spares harch ?_
    intro e' he' hid
    have heq : e' = e := eq_of_key_eq hk (Db.mem_activeEdges.mp he').1 hmem hid
    rw [heq, getActiveParent_toId he]
    exact hne
  refine foldlM_invariant
    (P := fun s : Tx × List NodeId => Steps (Spares n) E.now tx.db s.1.db) ?_ hfold harchived
  intro a pn b _ ha hrow
  exact ha.trans (unpackNode_spares hrow (ha.spared_exists hn))

theorem setMetadata_spares {metadata : Metadata} (hheld : tx.db.checkLockHeld E.now n mount = true)
    (h : setMetadata E k tx mount path metadata = .ok tx') :
    Steps (Spares n) E.now tx.db tx'.db := by
  simp only [setMetadata, bind_eq_ok] at h
  obtain ⟨m, -, found, -, u, hfree, hrun⟩ := h
  exact run_spares hrun (requireUnlocked_ne hheld hfree)

/-- No request through another mount touches a locked node. -/
theorem request_spares {r : Request} {reply : Reply}
    (hheld : tx.db.checkLockHeld E.now n mount = true) (hk : Keyed EdgeRow.edgeId tx.db.edges)
    (h : r.run C M E k tx mount = .ok (tx', reply)) (hn : (tx.db.node? n).isSome) :
    Steps (Spares n) E.now tx.db tx'.db := by
  cases r with
  | createContainer path =>
    obtain ⟨a, h, -⟩ := asReply_ok h
    exact createContainer_spares h hn
  | createEntry path data =>
    obtain ⟨a, h, -⟩ := asReply_ok h
    exact createLeaf_spares h hn
  | createSpecial path type data =>
    obtain ⟨a, h, -⟩ := asReply_ok h
    exact createSpecial_spares h hn
  | writeAll path data => exact writeAll_spares hheld (noReply_ok h)
  | append path data =>
    obtain ⟨a, h, -⟩ := asReply_ok h
    exact append_spares hheld h
  | writeRange path offset data =>
    obtain ⟨a, h, -⟩ := asReply_ok h
    exact writeRange_spares hheld h
  | truncate path size => exact truncate_spares hheld (noReply_ok h)
  | rename path name => exact rename_spares hheld (noReply_ok h)
  | link src dst => exact link_spares hheld (noReply_ok h)
  | move src dst => exact move_spares hheld (noReply_ok h)
  | remove path => exact remove_spares hheld (noReply_ok h)
  | removeRecursive path => exact removeRecursive_spares hheld (noReply_ok h)
  | copy src dst =>
    obtain ⟨a, h, -⟩ := asReply_ok h
    exact copy_spares h hn
  | pack path =>
    obtain ⟨a, h, -⟩ := asReply_ok h
    exact pack_spares hheld h hn
  | unpack path => exact unpack_spares hheld hk (noReply_ok h) hn
  | setMetadata path metadata => exact setMetadata_spares hheld (noReply_ok h)
  | setOwner path uid gid mode =>
    have h := noReply_ok h
    simp only [setOwner, bind_eq_ok] at h
    obtain ⟨m, -, found, -, hrun⟩ := h
    exact run_spares hrun trivial
  | setAtime node ts =>
    have h := noReply_ok h
    simp only [setAtime, bind_eq_ok] at h
    obtain ⟨m, -, hrun⟩ := h
    exact run_spares hrun trivial
  | setMtime node ts =>
    have h := noReply_ok h
    simp only [setMtime, bind_eq_ok] at h
    obtain ⟨m, -, hrun⟩ := h
    exact run_spares hrun trivial
  | setXattr path name value =>
    have h := noReply_ok h
    simp only [setXattr, bind_eq_ok] at h
    obtain ⟨m, -, found, -, hrun⟩ := h
    exact run_spares hrun trivial
  | removeXattr path name =>
    obtain ⟨a, h, -⟩ := asReply_ok h
    simp only [removeXattr, bind_eq_ok, pure_eq_ok, Prod.mk.injEq] at h
    obtain ⟨m, -, found, -, tx₁, hrun, rfl, -⟩ := h
    exact run_spares hrun trivial
  | setRetention path keep =>
    have h := noReply_ok h
    simp only [setRetention, bind_eq_ok] at h
    obtain ⟨m, -, found, -, u, -, hrun⟩ := h
    exact run_spares hrun trivial
  | readAll path =>
    simp only [Request.run, map_eq_ok, Prod.mk.injEq] at h
    obtain ⟨b, -, rfl, -⟩ := h
    exact ReflTransGen.refl
  | lock path ttlMs =>
    obtain ⟨l, h, -⟩ := asReply_ok h
    simp only [lock, bind_eq_ok, pure_eq_ok, Prod.mk.injEq] at h
    obtain ⟨m, -, found, -, u, -, tx₁, hrun, rfl, -⟩ := h
    exact run_spares hrun trivial
  | unlock l =>
    have h := noReply_ok h
    simp only [unlock, bind_eq_ok] at h
    obtain ⟨m, -, row, -, hrun⟩ := h
    exact run_spares hrun trivial
  | renewLock l ttlMs =>
    have h := noReply_ok h
    simp only [renewLock, bind_eq_ok] at h
    obtain ⟨m, -, row, -, hrun⟩ := h
    exact run_spares hrun trivial
  | renewMount ttlMs =>
    have h := noReply_ok h
    simp only [renewMount, bind_eq_ok] at h
    obtain ⟨m, -, hrun⟩ := h
    exact run_spares hrun trivial

end Aloelite
