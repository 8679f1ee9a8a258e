import Aloelite.UnpackParts

/-! The restore loop of `unpack`: a round goes through just if its map can be restored, and it
plants one node under the one made for the map's parent. -/
namespace Aloelite

open Fallible KeyedRows Relation

variable {C : Crypto} {E : Env} {k : Cipher} {now : Int} {db db' : Db} {tx tx' tx₁ : Tx} {s : Sys}
  {c : ConnId} {n parent : NodeId} {V : VolumeId} {m : MountCtx} {ids : List NodeId}
  {pn : PackNode} {earlier nodes : List PackNode} {cs : ℕ}

/-- The placement that a round makes. -/
def madeEdge (E : Env) (m : MountCtx) (target : NodeId) (pn : PackNode) (tx : Tx) : EdgeRow :=
  { edgeId := E.ids (tx.idCount + 1), fromId := target, toId := E.ids tx.idCount,
    volumeId := m.volume, name := pn.n }

/-- A round that goes through: one new node with the type and name of its entry, one
placement of it, under a container. -/
structure Planted (E : Env) (m : MountCtx) (target : NodeId) (type : NodeType) (pn : PackNode)
    (tx tx' : Tx) : Prop where
  fresh : tx.db.node? (E.ids tx.idCount) = none
  identities : ∃ birth, tx'.db.identities = tx.db.identities ++
    [(E.ids tx.idCount, type, m.volume, birth)]
  name : tx'.db.nodeName? (E.ids tx.idCount) = some pn.n
  names : ∀ n ≠ E.ids tx.idCount, tx'.db.nodeName? n = tx.db.nodeName? n
  edges : tx'.db.edges = tx.db.edges ++ [madeEdge E m target pn tx]
  volumes : tx'.db.volumes = tx.db.volumes
  container : tx'.db.nodeType? target = some .container
  idCount : tx'.idCount = tx.idCount + 2
  filed : tx.db.Filed → tx'.db.Filed

theorem unpackNode_made {t : Tx × List NodeId}
    (h : unpackNode C E k m parent (tx, ids) pn = .ok t) :
    ∃ type target, NodeType.ofValue pn.t = some type ∧ unpackTarget parent ids pn.p = .ok target ∧
      t.2 = ids ++ [E.ids tx.idCount] ∧ Planted E m target type pn tx t.1 := by
  simp only [unpackNode, bind_eq_ok, pure_eq_ok, orRaise_eq_ok] at h
  obtain ⟨type, htype, target, htarget, metadata, -, u, -, ⟨tx₁, new⟩, hnew, tx₂, hfill, tx₃, hlink,
    tx₄, howner,
    tx₅, hxattrs, tx₆, hretention, rfl⟩ := h
  have hdone : Decorated tx₃ tx₆ :=
    ((restoreOwner_decorated howner).trans (restoreXattrs_decorated hxattrs)).trans
      (restoreRetention_decorated hretention)
  have hborn := birth_born hnew (fillUnpacked_steps hfill) hlink
  have hcount := fillUnpacked_idCount hfill
  have hfills := fillUnpacked_steps hfill
  obtain ⟨rfl, db₁, hrow, rfl⟩ := newNode_ok hnew
  obtain ⟨db₂, hedge, rfl⟩ := linkChild_ok hlink
  have hcount' : tx₂.idCount = tx.idCount + 1 := hcount
  rw [hcount'] at hedge
  obtain ⟨hnone, hnodes, -, hvolumes, -, -, hcontainer, hedges⟩ := birth_shape hrow hfills hedge
  refine ⟨type, target, htype, htarget, rfl, hnone, ⟨pn.c.getD E.now, ?_⟩, ?_, ?_,
    hdone.edges.trans hedges,
    hdone.volumes.trans hvolumes, ?_, ?_, ?_⟩
  · rw [hdone.identities, Db.identities, hnodes]
    exact List.map_append
  · rw [hdone.names]
    exact hborn.self
  · intro n' hne
    rw [hdone.names]
    exact hborn.others n' hne
  · rw [Db.nodeType?_eq, hdone.identities, ← Db.nodeType?_eq]
    exact hcontainer
  · rw [hdone.idCount]
    show tx₂.idCount + 1 = tx.idCount + 2
    omega
  · intro hf
    apply hdone.filed
    have hnode : (Stmt.createNode _ pn.m).exec E.now tx.db = .ok db₁ := hrow
    have hplace : (Stmt.createEdge _ target _ m.volume none).exec E.now tx₂.db = .ok db₂ := hedge
    have hids : ∃ added, db₁.identities = tx.db.identities ++ added := by
      obtain ⟨-, -, rfl⟩ := Db.createNode_ok hrow
      exact ⟨_, List.map_append⟩
    have hlinked : db₂.identities = tx₂.db.identities :=
      (Stmt.exec_agreeOff hplace).identities (by simp [Stmt.touches])
    refine Stmt.filed hplace ⟨[], by rw [hlinked, List.append_nil]⟩ (Fills.filed hfills ?_)
    exact Stmt.filed hnode hids hf

theorem Planted.type {target : NodeId} {type : NodeType} (h : Planted E m target type pn tx tx') :
    tx'.db.nodeType? (E.ids tx.idCount) = some type ∧ tx'.db.home? (E.ids tx.idCount) =
      some m.volume := by
  obtain ⟨birth, hids⟩ := h.identities
  have hnone : lookup Prod.fst tx.db.identities (E.ids tx.idCount) = none := by
    have hfresh := h.fresh
    rw [← Option.not_isSome_iff_eq_none, Db.node?_isSome_eq, Option.not_isSome_iff_eq_none]
      at hfresh
    exact hfresh
  have hself : lookup Prod.fst tx'.db.identities (E.ids tx.idCount) =
      some (E.ids tx.idCount, type, m.volume, birth) := by
    rw [hids]
    exact lookup_append_self (r := (E.ids tx.idCount, type, m.volume, birth)) hnone
  rw [Db.nodeType?_eq, home?_eq, hself]
  exact ⟨rfl, rfl⟩

theorem Planted.persists {target : NodeId} {type : NodeType}
    (h : Planted E m target type pn tx tx') :
    ∃ added, tx'.db.identities = tx.db.identities ++ added := by
  obtain ⟨birth, hids⟩ := h.identities
  exact ⟨_, hids⟩

theorem Planted.placements {target : NodeId} {type : NodeType}
    (h : Planted E m target type pn tx tx') :
    tx'.db.placements = tx.db.placements ++ [(target, E.ids tx.idCount, pn.n)] :=
  placements_append h.edges rfl

/-- One node for each entry, of its type, under its name, placed in the container that
was unpacked into or under an earlier entry. -/
structure Restored (db : Db) (parent : NodeId) (nodes : List PackNode) (ids : List NodeId) :
    Prop where
  length : ids.length = nodes.length
  nodup : ids.Nodup
  node : ∀ (i : ℕ) pn, nodes[i]? = some pn → ∃ id f, ids[i]? = some id ∧
    (∃ type, NodeType.ofValue pn.t = some type ∧ db.nodeType? id = some type) ∧
    db.nodeName? id = some pn.n ∧
    (f, id, pn.n) ∈ db.placements ∧
    ((pn.p = -1 ∧ f = parent) ∨ ∃ j : ℕ, j < i ∧ pn.p = j ∧ ids[j]? = some f)

/-- The placement that was unpacked is archived and no other; what is restored in its
container is new. -/
structure Unpacked (db db' : Db) (e : EdgeRow) (nodes : List PackNode) (ids : List NodeId) :
    Prop where
  restored : Restored db' e.fromId nodes ids
  fresh : ∀ id ∈ ids, db.node? id = none
  archived : ∀ e' ∈ db.activeEdges, e' ∈ db'.activeEdges ↔ e' ≠ e

/-- What the loop of `unpack` stands on after `nodes`. -/
structure Restoring (E : Env) (m : MountCtx) (parent : NodeId) (cs : ℕ) (nodes : List PackNode)
    (tx : Tx) (ids : List NodeId) : Prop where
  restored : Restored tx.db parent nodes ids
  homes : ∀ id ∈ parent :: ids, tx.db.home? id = some m.volume
  container : tx.db.nodeType? parent = some .container
  filed : tx.db.Filed
  child : ∀ e ∈ tx.db.edges, (tx.db.node? e.toId).isSome
  fresh : ∀ j ≥ tx.idCount, tx.db.node? (E.ids j) = none ∧ tx.db.edge? (E.ids j) = none
  volume : (tx.db.volume? m.volume).isSome
  chunkSize : chunkSizeOf tx.db m.volume = cs

/-- The parent a round picks, in terms of the entries. -/
theorem unpackTarget_ok {p : Int} {target : NodeId} (h : unpackTarget parent ids p = .ok target) :
    (p = -1 ∧ target = parent) ∨ ∃ j : ℕ, j < ids.length ∧ p = j ∧ ids[j]? = some target := by
  rw [unpackTarget] at h
  split at h
  next hroot => exact Or.inl ⟨hroot, (Except.ok.inj h).symm⟩
  next =>
    rw [nodeAt, orRaise_eq_ok] at h
    split at h
    next hpos =>
      refine Or.inr ⟨p.toNat, (List.getElem?_eq_some_iff.mp h).1, ?_, h⟩
      omega
    next => cases h

theorem Restored.next {t : Tx × List NodeId} (h : Restored tx.db parent earlier ids)
    (hthere : ∀ id ∈ ids, (tx.db.node? id).isSome)
    (hok : unpackNode C E k m parent (tx, ids) pn = .ok t) :
    Restored t.1.db parent (earlier ++ [pn]) t.2 ∧ ∀ id ∈ t.2, (t.1.db.node? id).isSome := by
  obtain ⟨type, target, htype, htarget, hids, hmade⟩ := unpackNode_made hok
  have hself := hmade.type.1
  have hlen := h.length
  have hnew : ∀ id ∈ ids, id ≠ E.ids tx.idCount := by
    intro id hid heq
    have hsome := hthere id hid
    rw [heq, hmade.fresh] at hsome
    cases hsome
  have hplaced := hmade.placements
  rw [hids]
  refine ⟨⟨?_, ?_, ?_⟩, ?_⟩
  · rw [List.length_append, List.length_append, hlen]
    rfl
  · rw [List.nodup_append]
    refine ⟨h.nodup, List.nodup_singleton _, ?_⟩
    intro a ha b hb
    rw [List.mem_singleton.mp hb]
    exact hnew a ha
  · intro i q hq
    rcases Nat.lt_or_ge i earlier.length with hold | hlast
    · rw [List.getElem?_append_left hold] at hq
      obtain ⟨id, f, hid, ⟨type', htype', hsame⟩, hname, hmem, hparent⟩ := h.node i q hq
      have hne := hnew id (List.mem_of_getElem? hid)
      refine ⟨id, f, ?_, ⟨type', htype', nodeType?_persists hmade.persists hsame⟩, ?_, ?_, ?_⟩
      · rw [List.getElem?_append_left (by omega), hid]
      · rw [hmade.names id hne, hname]
      · rw [hplaced]
        exact List.mem_append_left _ hmem
      · refine hparent.imp_right ?_
        rintro ⟨j, hj, hp, hf⟩
        refine ⟨j, hj, hp, ?_⟩
        rw [List.getElem?_append_left (by omega), hf]
    · rw [List.getElem?_append_right hlast] at hq
      obtain rfl : i = earlier.length := by
        have hlt := (List.getElem?_eq_some_iff.mp hq).1
        rw [List.length_singleton] at hlt
        omega
      rw [Nat.sub_self] at hq
      obtain rfl := Option.some.inj hq
      refine ⟨E.ids tx.idCount, target, ?_, ⟨type, htype, hself⟩, hmade.name, ?_, ?_⟩
      · rw [← hlen, List.getElem?_append_right le_rfl, Nat.sub_self]
        rfl
      · rw [hplaced]
        exact List.mem_append_right _ List.mem_cons_self
      · refine (unpackTarget_ok htarget).imp_right ?_
        rintro ⟨j, hj, hp, hf⟩
        refine ⟨j, hlen ▸ hj, hp, ?_⟩
        rw [List.getElem?_append_left hj, hf]
  · intro id hid
    rcases List.mem_append.mp hid with hid | hid
    · exact node?_isSome_persists hmade.persists (hthere id hid)
    · rw [List.mem_singleton.mp hid]
      exact Db.node?_isSome_of_type hself

/-- What the loop has restored, whatever the file was. -/
theorem restored_of_foldlM {t : Tx × List NodeId} (h : Restored tx.db parent earlier ids)
    (hthere : ∀ id ∈ ids, (tx.db.node? id).isSome)
    (hok : nodes.foldlM (unpackNode C E k m parent) (tx, ids) = .ok t) :
    Restored t.1.db parent (earlier ++ nodes) t.2 := by
  induction nodes generalizing earlier tx ids with
  | nil =>
    obtain rfl := Except.ok.inj hok
    rw [List.append_nil]
    exact h
  | cons pn rest ih =>
    rw [List.foldlM_cons] at hok
    obtain ⟨t₁, hround, hrest⟩ := bind_eq_ok.mp hok
    obtain ⟨hnext, hthere'⟩ := h.next hthere hround
    rw [List.append_cons]
    exact ih hnext hthere' hrest

/-- The loop adds nodes and placements under ids it mints, and takes none away. -/
theorem unpackNodes_minted {s t : Tx × List NodeId}
    (h : nodes.foldlM (unpackNode C E k m parent) s = .ok t) :
    (∃ added, t.1.db.edges = s.1.db.edges ++ added ∧ ∀ e ∈ added, ∃ j, e.edgeId = E.ids j) ∧
      ∀ id ∈ t.2, id ∈ s.2 ∨ ∃ j, id = E.ids j := by
  let P : Tx × List NodeId → Prop := fun t =>
    (∃ added, t.1.db.edges = s.1.db.edges ++ added ∧ ∀ e ∈ added, ∃ j, e.edgeId = E.ids j) ∧
      ∀ id ∈ t.2, id ∈ s.2 ∨ ∃ j, id = E.ids j
  refine foldlM_invariant (P := P) ?_ h ⟨⟨[], by simp, by simp⟩, fun id hid => Or.inl hid⟩
  intro t pn t' _ hold hround
  obtain ⟨⟨added, hadded, hminted⟩, hids⟩ := hold
  obtain ⟨type, target, -, -, hnew, hmade⟩ := unpackNode_made hround
  constructor
  · refine ⟨added ++ [madeEdge E m target pn t.1], ?_, ?_⟩
    · rw [hmade.edges, hadded, List.append_assoc]
    · intro e he
      rcases List.mem_append.mp he with he | he
      · exact hminted e he
      · exact ⟨t.1.idCount + 1, by rw [List.mem_singleton.mp he]; rfl⟩
  · intro id hid
    rw [hnew] at hid
    rcases List.mem_append.mp hid with hid | hid
    · exact hids id hid
    · exact Or.inr ⟨t.1.idCount, List.mem_singleton.mp hid⟩

theorem Restoring.next {t : Tx × List NodeId} (h : Restoring E m parent cs earlier tx ids)
    (hok : unpackNode C E k m parent (tx, ids) pn = .ok t) :
    Restoring E m parent cs (earlier ++ [pn]) t.1 t.2 := by
  have hthere : ∀ id ∈ ids, (tx.db.node? id).isSome := by
    intro id hid
    exact Db.node?_isSome_of_home (h.homes id (List.mem_cons_of_mem _ hid))
  have hnext := (h.restored.next hthere hok).1
  obtain ⟨type, target, htype, htarget, hids, hmade⟩ := unpackNode_made hok
  obtain ⟨hself, hhome⟩ := hmade.type
  rw [hids] at hnext ⊢
  refine ⟨hnext, ?_, ?_, hmade.filed h.filed, ?_, ?_, ?_, ?_⟩
  · intro id hid
    rw [← List.cons_append] at hid
    rcases List.mem_append.mp hid with hid | hid
    · exact home?_persists hmade.persists (h.homes id hid)
    · rw [List.mem_singleton.mp hid]
      exact hhome
  · exact nodeType?_persists hmade.persists h.container
  · intro e he
    rw [hmade.edges] at he
    rcases List.mem_append.mp he with he | he
    · exact node?_isSome_persists hmade.persists (h.child e he)
    · rw [List.mem_singleton.mp he]
      exact Db.node?_isSome_of_type hself
  · -- later ids are greater than the two that were minted
    intro j hj
    rw [hmade.idCount] at hj
    obtain ⟨hnode, hedge⟩ := h.fresh j (by omega)
    have hne : E.ids tx.idCount ≠ E.ids j := (E.ids_strictMono (by omega)).ne
    have hne' : E.ids (tx.idCount + 1) ≠ E.ids j := (E.ids_strictMono (by omega)).ne
    constructor
    · obtain ⟨birth, hidentities⟩ := hmade.identities
      rw [← Option.not_isSome_iff_eq_none, Db.node?_isSome_eq, Option.not_isSome_iff_eq_none]
        at hnode ⊢
      rw [hidentities, lookup_append_of_ne (r := (E.ids tx.idCount, type, m.volume, birth)) hne]
      exact hnode
    · rw [Db.edge?, hmade.edges]
      exact (lookup_append_of_ne (r := madeEdge E m target pn tx) hne').trans hedge
  · rw [Db.volume?, hmade.volumes]
    exact h.volume
  · rw [← h.chunkSize, chunkSizeOf, chunkSizeOf, Db.volume?, Db.volume?, hmade.volumes]

/-- Nothing refers to a node just made. -/
theorem newNode_unfilled {type : NodeType} {name : String} {createdAt modifiedAt : Option Int}
    {metadata : Metadata} (hf : tx.db.Filed)
    (hnew : newNode E tx m type name createdAt modifiedAt metadata = .ok (tx₁, n)) :
    (tx₁.db.node? n).isSome ∧ tx₁.db.content? n = none ∧ (∀ r ∈ tx₁.db.versions, r.contentId ≠ n) ∧
      chunkSizeOf tx₁.db V = chunkSizeOf tx.db V := by
  obtain ⟨-, db₁, hrow, rfl⟩ := newNode_ok hnew
  obtain ⟨hnone, -, rfl⟩ := Db.createNode_ok hrow
  refine ⟨?_, ?_, ?_, rfl⟩
  · apply Option.isSome_iff_exists.mpr
    exact lookup_isSome_of_mem (List.mem_append_right tx.db.nodes List.mem_cons_self)
  · apply lookup_eq_none.mpr
    intro r hr heq
    have hsome := hf.content r hr
    rw [heq, hnone] at hsome
    cases hsome
  · intro r hr heq
    have hsome := hf.version r hr
    rw [heq, hnone] at hsome
    cases hsome

/-- A node without a placement is placed under a container of its volume. -/
theorem linkChild_total (hsrc : tx.db.nodeType? parent = some .container)
    (hhome : tx.db.home? parent = some m.volume) (hdst : tx.db.home? n = some m.volume)
    (hedge : tx.db.edge? (E.ids tx.idCount) = none) (hlone : ∀ e ∈ tx.db.edges, e.toId ≠ n)
    (hvolume : (tx.db.volume? m.volume).isSome) :
    ∃ tx', linkChild E tx m parent n none = .ok tx' := by
  obtain ⟨src, hsrcRow, htype⟩ := Option.map_eq_some_iff.mp hsrc
  obtain ⟨dst, hdstRow, hdstVolume⟩ := Option.map_eq_some_iff.mp hdst
  have hsrcVolume : src.volumeId = m.volume := by
    rw [Db.home?, hsrcRow] at hhome
    exact Option.some.inj hhome
  have hfree : tx.db.activeEdges.any (fun e => e.toId = n) = false := by
    rw [List.any_eq_false]
    intro e he heq
    exact hlone e (Db.mem_activeEdges.mp he).1 (of_decide_eq_true heq)
  have hcreate : ∃ db₁, tx.db.createEdge E.now (E.ids tx.idCount) parent n m.volume none =
      .ok db₁ := by
    rw [Db.createEdge, hsrcRow, hdstRow, hedge]
    simp only [orRaise, ok_bind, htype, hfree, hsrcVolume, hdstVolume,
      Option.isNone_eq_false_iff.mpr hvolume]
    exact ⟨_, by simp [refuse]; rfl⟩
  obtain ⟨db₁, hcreate⟩ := hcreate
  exact ⟨_, linkChild_of_ok hcreate⟩

/-- A round goes through exactly when its entry can be restored. -/
theorem unpackNode_iff (h : Restoring E m parent cs earlier tx ids) :
    (∃ t, unpackNode C E k m parent (tx, ids) pn = .ok t) ↔ pn.Restorable cs earlier := by
  have hlen := h.restored.length
  have hroom := h.chunkSize
  constructor
  -- each call of the round that went through gives one clause of `Restorable`
  · rintro ⟨t, hok⟩
    obtain ⟨type, target, htype, htarget, -, hmade⟩ := unpackNode_made hok
    have hparent : pn.p = -1 ∨ ∃ i : ℕ, i < earlier.length ∧ pn.p = i ∧
        (earlier[i]?).map PackNode.t = some "container" := by
      refine (unpackTarget_ok htarget).imp (fun hroot => hroot.1) ?_
      rintro ⟨j, hj, hp, hid⟩
      rw [hlen] at hj
      obtain ⟨q, hq⟩ : ∃ q, earlier[j]? = some q := ⟨_, List.getElem?_eq_getElem hj⟩
      obtain ⟨id, f, hid', ⟨type', htype', hsame⟩, -⟩ := h.restored.node j q hq
      obtain rfl := Option.some.inj (hid.symm.trans hid')
      have hcontainer : type' = .container :=
        Option.some.inj ((nodeType?_persists hmade.persists hsame).symm.trans hmade.container)
      refine ⟨j, hj, hp, ?_⟩
      rw [hq, Option.map_some, (container_iff htype').mp hcontainer]
    simp only [unpackNode, bind_eq_ok, pure_eq_ok, orRaise_eq_ok] at hok
    obtain ⟨type', htype', target', -, metadata, hmeta, u, htimes, ⟨tx₁, new⟩, hnew, tx₂, hfill,
      tx₃, -, tx₄, howner,
      tx₅, -, tx₆, hretention, -⟩ := hok
    obtain rfl := Option.some.inj (htype.symm.trans htype')
    have hmetadata : (Value.map (pn.x.getD [])).jsonable jsonMaxDepth = true := by
      simp only [metadataOf, bind_eq_ok, refuse_eq_ok, Bool.not_eq_false'] at hmeta
      exact hmeta.choose_spec.1
    have hdata : type = .container ∨ pn.d.getD [] = [] ∨ 0 < cs := by
      obtain ⟨hthere, hcontent, hrows, hsize⟩ := newNode_unfilled (V := m.volume) h.filed hnew
      rw [← hroom, ← hsize]
      exact (fillUnpacked_iff hthere hcontent hrows).mp ⟨tx₂, hfill⟩
    refine ⟨by rw [htype]; rfl, hparent, hmetadata, bindInts_eq_ok.mp htimes,
      restoreOwner_iff.mp ⟨tx₄, howner⟩, ?_, ?_⟩
    · exact (restoreRetention_iff.mp ⟨tx₆, hretention⟩).imp_left (container_iff htype).mp
    · exact hdata.imp_left (container_iff htype).mp
  -- conversely every call goes through: the parent, the row, its content, the edge, the owner,
  -- the attributes and the retention, in the order of `unpack_node`
  · intro hr
    obtain ⟨type, htype⟩ := Option.isSome_iff_exists.mp hr.type
    -- the parent: the container that is unpacked into, or an earlier one
    obtain ⟨target, htarget, hcontainer, hhome⟩ : ∃ target,
      unpackTarget parent ids pn.p = .ok target ∧
        tx.db.nodeType? target = some .container ∧ tx.db.home? target = some m.volume := by
      rcases hr.parent with hroot | ⟨i, hi, hp, hq⟩
      · refine ⟨parent, ?_, h.container, h.homes parent List.mem_cons_self⟩
        rw [unpackTarget, if_pos hroot]
      · obtain ⟨q, hq, hcontainer⟩ := Option.map_eq_some_iff.mp hq
        obtain ⟨id, f, hid, ⟨type', htype', hsame⟩, -⟩ := h.restored.node i q hq
        refine ⟨id, ?_, ?_, h.homes id (List.mem_cons_of_mem _ (List.mem_of_getElem? hid))⟩
        · rw [unpackTarget, if_neg (by omega), nodeAt, if_pos (by omega), hp,
            Int.toNat_natCast, hid]
          rfl
        · rw [hsame, (container_iff htype').mpr hcontainer]
    obtain ⟨metadata, hmeta⟩ : ∃ metadata, metadataOf pn.x = .ok metadata := by
      rw [metadataOf]
      simp only [hr.metadata]
      exact ⟨_, rfl⟩
    have htimes := bindInts_eq_ok (u := ()).mpr hr.times
    obtain ⟨hfresh, -⟩ := h.fresh tx.idCount le_rfl
    obtain ⟨tx₁, hnew⟩ : ∃ tx₁, newNode E tx m type pn.n pn.c pn.m metadata =
      .ok (tx₁, E.ids tx.idCount) := by
      have hrow : ∃ db₁, tx.db.createNode
          { nodeId := E.ids tx.idCount, type := type, name := pn.n, createdAt := pn.c.getD E.now,
            volumeId := m.volume,
            metadata := metadata } pn.m = .ok db₁ := by
        rw [Db.createNode, hfresh, Option.isNone_eq_false_iff.mpr h.volume]
        exact ⟨_, rfl⟩
      obtain ⟨db₁, hrow⟩ := hrow
      exact ⟨_, newNode_of_ok hrow⟩
    obtain ⟨hthere, hcontent, hrows, hsize⟩ := newNode_unfilled (V := m.volume) h.filed hnew
    obtain ⟨tx₂, hfill⟩ : ∃ tx₂, fillUnpacked C E k tx₁ m type (E.ids tx.idCount) pn.d =
      .ok tx₂ := by
      apply (fillUnpacked_iff hthere hcontent hrows).mpr
      rw [hsize, hroom]
      exact hr.data.imp_left (container_iff htype).mpr
    -- filling the node leaves its identity and the edges, so the placement can be made
    have hborn : ∃ birth, tx₁.db.identities = tx.db.identities ++
        [(E.ids tx.idCount, type, m.volume, birth)] := by
      obtain ⟨-, db₁, hrow, rfl⟩ := newNode_ok hnew
      obtain ⟨-, -, rfl⟩ := Db.createNode_ok hrow
      exact ⟨_, List.map_append⟩
    obtain ⟨birth, hborn⟩ := hborn
    have hframe := Fills.agreeOff (fillUnpacked_steps hfill)
    have hids : tx₂.db.identities = tx.db.identities ++
        [(E.ids tx.idCount, type, m.volume, birth)] :=
      (hframe.identities (by decide)).trans hborn
    have hlast : lookup Prod.fst tx₂.db.identities (E.ids tx.idCount) =
        some (E.ids tx.idCount, type, m.volume, birth) := by
      rw [hids]
      apply lookup_append_self
      rw [← Option.not_isSome_iff_eq_none, Db.node?_isSome_eq, Option.not_isSome_iff_eq_none]
        at hfresh
      exact hfresh
    have hedges : tx₂.db.edges = tx.db.edges ∧ tx₂.db.volumes = tx.db.volumes ∧ tx₂.idCount =
        tx.idCount + 1 := by
      obtain ⟨-, db₁, hrow, rfl⟩ := newNode_ok hnew
      obtain ⟨-, -, rfl⟩ := Db.createNode_ok hrow
      exact ⟨hframe.edges (by decide), hframe.volumes (by decide), fillUnpacked_idCount hfill⟩
    obtain ⟨hedges, hvolumes, hcount⟩ := hedges
    obtain ⟨tx₃, hlink⟩ : ∃ tx₃, linkChild E tx₂ m target (E.ids tx.idCount) none = .ok tx₃ := by
      refine linkChild_total (nodeType?_persists ⟨_, hids⟩ hcontainer)
        (home?_persists ⟨_, hids⟩ hhome) ?_ ?_ ?_ ?_
      · rw [home?_eq, hlast]
        rfl
      · rw [hcount, Db.edge?, hedges]
        exact (h.fresh (tx.idCount + 1) (Nat.le_succ _)).2
      · intro e he heq
        rw [hedges] at he
        have hsome := h.child e he
        rw [heq, hfresh] at hsome
        cases hsome
      · rw [Db.volume?, hvolumes]
        exact h.volume
    have hn₃ : (tx₃.db.node? (E.ids tx.idCount)).isSome := by
      obtain ⟨db₃, hedge, rfl⟩ := linkChild_ok hlink
      have hplace : (Stmt.createEdge _ target (E.ids tx.idCount) m.volume none).exec E.now tx₂.db =
          .ok db₃ := hedge
      rw [Db.node?_isSome_eq,
        (Stmt.exec_agreeOff hplace).identities (by simp [Stmt.touches]), hlast]
      rfl
    obtain ⟨tx₄, howner⟩ : ∃ tx₄, restoreOwner E tx₃ pn (E.ids tx.idCount) = .ok tx₄ :=
      restoreOwner_iff.mpr hr.owner
    have hn₄ : (tx₄.db.node? (E.ids tx.idCount)).isSome := by
      rw [Db.node?_isSome_eq, (restoreOwner_decorated howner).identities, ← Db.node?_isSome_eq]
      exact hn₃
    obtain ⟨tx₅, hxattrs⟩ : ∃ tx₅, restoreXattrs E tx₄ pn (E.ids tx.idCount) = .ok tx₅ :=
      restoreXattrs_total hn₄
    obtain ⟨tx₆, hretention⟩ : ∃ tx₆, restoreRetention E tx₅ pn type (E.ids tx.idCount) = .ok tx₆ :=
      restoreRetention_iff.mpr (hr.retention.imp_left (container_iff htype).mpr)
    refine ⟨(tx₆, ids ++ [E.ids tx.idCount]), ?_⟩
    simp only [unpackNode, htype, orRaise, htarget, hmeta, htimes, hnew, hfill, hlink, howner,
      hxattrs, hretention,
      ok_bind]
    rfl

/-- The loop goes through exactly when every entry can be restored after the ones before
it. -/
theorem unpackNodes_iff (h : Restoring E m parent cs earlier tx ids) :
    (∃ t, nodes.foldlM (unpackNode C E k m parent) (tx, ids) = .ok t) ↔
      RestorableAfter cs earlier nodes := by
  induction nodes generalizing earlier tx ids with
  | nil => exact ⟨fun _ => trivial, fun _ => ⟨_, rfl⟩⟩
  | cons pn rest ih =>
    rw [List.foldlM_cons]
    constructor
    · rintro ⟨t, hok⟩
      obtain ⟨t₁, hround, hrest⟩ := bind_eq_ok.mp hok
      exact ⟨(unpackNode_iff h).mp ⟨t₁, hround⟩, (ih (h.next hround)).mp ⟨t, hrest⟩⟩
    · rintro ⟨hpn, hrest⟩
      obtain ⟨t₁, hround⟩ := (unpackNode_iff (C := C) (k := k) h).mpr hpn
      obtain ⟨t, hgo⟩ := (ih (h.next hround)).mpr hrest
      exact ⟨t, bind_eq_ok.mpr ⟨t₁, hround, hgo⟩⟩

theorem Restoring.run {t : Tx × List NodeId} (h : Restoring E m parent cs earlier tx ids)
    (hok : nodes.foldlM (unpackNode C E k m parent) (tx, ids) = .ok t) :
    Restoring E m parent cs (earlier ++ nodes) t.1 t.2 := by
  induction nodes generalizing earlier tx ids with
  | nil =>
    obtain rfl := Except.ok.inj hok
    rw [List.append_nil]
    exact h
  | cons pn rest ih =>
    rw [List.foldlM_cons] at hok
    obtain ⟨t₁, hround, hrest⟩ := bind_eq_ok.mp hok
    rw [List.append_cons]
    exact ih (h.next hround) hrest

end Aloelite
