import Aloelite.Footprint
import Aloelite.Library.Portions

/-! What a file holds for one of its volumes: the volume's rows, the rows of its nodes, and the
pool rows their manifests name. A statement that is about other nodes leaves that share as it
is, though every volume stands in the same tables. -/
namespace Aloelite
open Fallible KeyedRows Portions Relation

variable {now : Int} {db db' db'' : Db} {W : VolumeId} {p : NodeId → Bool} {n : NodeId} {st : Stmt}

/-- The rows of the nodes of `p` and of the volume `W`. An edge goes with the node it places, a
pool row with every manifest that names it; locks are kept apart. -/
def Db.share (db : Db) (W : VolumeId) (p : NodeId → Bool) : Db where
  nodes := db.nodes.filter (fun r => p r.nodeId)
  times := db.times.filter (fun r => p r.nodeId)
  contents := db.contents.filter (fun r => p r.nodeId)
  chunks := db.chunks.filter
    (fun c => db.versions.any (fun r => p r.contentId && r.chunkHash = c.chunkHash))
  versions := db.versions.filter (fun r => p r.contentId)
  volumes := db.volumes.filter (fun v => v.volumeId = W)
  edges := db.edges.filter (fun e => p e.toId)
  mounts := db.mounts.filter (fun m => m.volumeId = W)
  xattrs := db.xattrs.filter (fun r => p r.nodeId)

/-- The share and the lock rows of the nodes of `p` are as they were. -/
structure Spared (W : VolumeId) (p : NodeId → Bool) (db db' : Db) : Prop where
  share : db'.share W p = db.share W p
  locks : db'.locks.filter (fun l => p l.nodeId) = db.locks.filter (fun l => p l.nodeId)

theorem Spared.refl (W : VolumeId) (p : NodeId → Bool) (db : Db) : Spared W p db db := ⟨rfl, rfl⟩

theorem Spared.trans (h : Spared W p db db') (h' : Spared W p db' db'') : Spared W p db db'' :=
  ⟨h'.share.trans h.share, h'.locks.trans h.locks⟩

/-- The statements about no node of `p` and not about the volume `W`. The two prunes that work
on every volume are not among them. -/
def Avoids (W : VolumeId) (p : NodeId → Bool) (db : Db) : Stmt → Prop
  | .createNode row _ => p row.nodeId = false ∧ row.volumeId ≠ W
  | .createEdge _ _ m _ _ | .archivePlacement _ m _ | .renamePlacement _ m _ _ | .renameNodeIfSole m
    _ | .createContent m _ _
  | .updateContent m _ _ | .copyChunkRefs m _ _ _ | .copyChunkRefsRange m _ _ _
    _ | .setRetentionKeep m _ | .setOwner m _ _ _
  | .setAtime m _ | .setModifiedAt m _ | .setMetadata m _ | .xattrRemove m _ => p m = false
  | .archiveEdge id => ∀ e ∈ db.activeEdges, e.edgeId = id → p e.toId = false
  | .archiveSubtree root => ∀ m ∈ db.subtreeIds root, p m = false
  | .upsertChunk _ => True
  | .insertChunkRef row => p row.contentId = false
  | .xattrSet row => p row.nodeId = false
  | .createVolume row => row.volumeId ≠ W
  | .linkRoot V _ | .updateVolumeCrypto V _ _ _ => V ≠ W
  | .createMount row => row.volumeId ≠ W
  | .setMountState m _ | .renewMount m _ => ∀ r ∈ db.mounts, r.mountId = m → r.volumeId ≠ W
  | .createLock row => p row.nodeId = false
  | .releaseLock l | .renewLock l _ => ∀ r ∈ db.locks, r.lockId = l → p r.nodeId = false
  | .pruneNodes .. | .pruneLocks | .pruneContentVersions .. | .pruneContentChunks => False

/-! ### Single tables -/

theorem filter_touchCtime {nodes : List NodeId} (ts : List TimesRow)
    (h : ∀ m ∈ nodes, p m = false) :
    (Db.touchCtime now nodes ts).filter (fun t => p t.nodeId) =
      ts.filter (fun t => p t.nodeId) := by
  apply filter_map_off
  · intro t _ hp
    have hout : t.nodeId ∉ nodes := fun hm => absurd ((h _ hm).symm.trans hp) (by decide)
    rw [if_neg hout]
  · intro t _ hp
    by_cases hm : t.nodeId ∈ nodes
    · rw [if_pos hm]
      exact hp
    · rw [if_neg hm]
      exact hp

theorem filter_touchModified (ts : List TimesRow) (h : p n = false) :
    (Db.touchModified now n ts).filter (fun t => p t.nodeId) = ts.filter (fun t => p t.nodeId) := by
  apply filter_amend_off
  · intro t _ heq
    rw [heq, h]
  · intro t _ heq
    show p t.nodeId = false
    rw [heq, h]

/-- Amending the row of a node outside `p`, in any table that nodes are the key of. -/
theorem filter_amend_node {ρ : Type*} {key : ρ → NodeId} {f : ρ → ρ} (rows : List ρ)
    (hf : ∀ r, key (f r) = key r) (h : p n = false) :
    (amend key rows n f).filter (fun r => p (key r)) = rows.filter (fun r => p (key r)) := by
  apply filter_amend_off
  · intro r _ heq
    rw [heq, h]
  · intro r _ heq
    rw [hf, heq, h]

/-- New manifest rows of other nodes change neither the manifests of the share nor its pool. -/
theorem Spared.versions {rows : List VersionRow} (h : ∀ r ∈ rows, p r.contentId = false) :
    Spared W p db { db with versions := db.versions ++ rows } := by
  have hversions : (db.versions ++ rows).filter (fun r => p r.contentId) =
      db.versions.filter (fun r => p r.contentId) :=
    filter_append_off h
  have hnamed (c : ChunkRow) : (db.versions ++ rows).any
      (fun r => p r.contentId && r.chunkHash = c.chunkHash) =
      db.versions.any (fun r => p r.contentId && r.chunkHash = c.chunkHash) := by
    have hnone : rows.any (fun r => p r.contentId && r.chunkHash = c.chunkHash) = false := by
      apply List.any_eq_false.mpr
      intro r hr
      rw [h r hr, Bool.false_and]
      decide
    rw [List.any_append, hnone, Bool.or_false]
  exact ⟨by simp only [Db.share, hversions, hnamed], rfl⟩

theorem Spared.archived {q : EdgeRow → Bool}
    (h : ∀ e ∈ db.activeEdges, q e = true → p e.toId = false) :
    Spared W p db (db.archiveWhere now q) := by
  have hedges : (db.edges.map (fun e => if !e.archived && q e then
      { e with archived := true } else e)).filter (fun e => p e.toId) =
      db.edges.filter (fun e => p e.toId) := by
    apply filter_map_off
    · intro e he hp
      have hkept : ¬ (!e.archived && q e) = true := by
        intro hboth
        rw [Bool.and_eq_true, Bool.not_eq_true'] at hboth
        exact absurd ((h e (Db.mem_activeEdges.mpr ⟨he, hboth.1⟩) hboth.2).symm.trans hp)
          (by decide)
      rw [if_neg hkept]
    · intro e _ hp
      split <;> exact hp
  have htimes : (Db.touchCtime now ((db.activeEdges.filter q).map EdgeRow.toId) db.times).filter
      (fun t => p t.nodeId) =
      db.times.filter (fun t => p t.nodeId) := by
    apply filter_touchCtime
    intro m hm
    obtain ⟨e, he, rfl⟩ := List.mem_map.mp hm
    exact h e (List.mem_filter.mp he).1 (List.mem_filter.mp he).2
  exact ⟨by simp only [Db.share, Db.archiveWhere, hedges, htimes], rfl⟩

theorem Spared.renamed {parent : NodeId} {old name : String} (h : p n = false) :
    Spared W p db (db.renamePlacement parent n old name) := by
  have hedges : (db.renamePlacement parent n old name).edges.filter (fun e => p e.toId) =
      db.edges.filter (fun e => p e.toId) := by
    apply filter_map_off
    · intro e _ hp
      have hkept : ¬ (!e.archived && Db.isPlacement parent n old e) = true := by
        intro hboth
        simp only [Bool.and_eq_true, Db.isPlacement, decide_eq_true_eq] at hboth
        rw [hboth.2.2.1, h] at hp
        cases hp
      rw [if_neg hkept]
    · intro e _ hp
      split <;> exact hp
  exact ⟨by rw [Db.share, hedges]; rfl, rfl⟩

/-- No manifest of the share names a pool row that is new: what they name was there before. -/
theorem Spared.pooled {row : ChunkRow} (hp : db.Pooled) : Spared W p db (db.upsertChunk row) := by
  obtain ⟨added, heq, hadded⟩ := Db.upsertChunk_eq db row
  have hchunks : (db.chunks ++ added).filter
      (fun c => db.versions.any (fun r => p r.contentId && r.chunkHash = c.chunkHash)) =
      db.chunks.filter
        (fun c => db.versions.any (fun r => p r.contentId && r.chunkHash = c.chunkHash)) := by
    apply filter_append_off
    intro c hc
    rcases hadded with rfl | ⟨rfl, hnew⟩
    · cases hc
    · obtain rfl := List.mem_singleton.mp hc
      apply List.any_eq_false.mpr
      intro r hr hboth
      rw [Bool.and_eq_true, decide_eq_true_eq] at hboth
      have hthere := hp r hr
      rw [hboth.2, hnew] at hthere
      cases hthere
  rw [heq]
  exact ⟨by simp only [Db.share, hchunks], rfl⟩

theorem Spared.xattrSet {row : XattrRow} (h : p row.nodeId = false)
    (hok : db.xattrSet row = .ok db') : Spared W p db db' := by
  simp only [Db.xattrSet, bind_eq_ok, refuse_eq_ok] at hok
  obtain ⟨u, -, hok⟩ := hok
  split at hok
  · obtain rfl := Except.ok.inj hok
    have hxattrs : (db.xattrs.map (fun r => if r.nodeId = row.nodeId ∧ r.name =
        row.name then row else r)).filter
        (fun r => p r.nodeId) = db.xattrs.filter (fun r => p r.nodeId) := by
      apply filter_map_off
      · intro r _ hp
        have hne : ¬ (r.nodeId = row.nodeId ∧ r.name = row.name) := by
          intro hboth
          rw [hboth.1, h] at hp
          cases hp
        rw [if_neg hne]
      · intro r _ hp
        split
        · exact h
        · exact hp
    exact ⟨by simp only [Db.share, hxattrs], rfl⟩
  · obtain rfl := Except.ok.inj hok
    have hxattrs : (db.xattrs ++ [row]).filter (fun r => p r.nodeId) =
        db.xattrs.filter (fun r => p r.nodeId) :=
      filter_append_off (List.forall_mem_singleton.mpr h)
    exact ⟨by simp only [Db.share, hxattrs], rfl⟩

/-! ### Statements -/

/-- One table is replaced by one with the same rows of the share. -/
theorem Spared.of_nodes {nodes : List NodeRow} {times : List TimesRow}
    (hnodes : nodes.filter (fun r => p r.nodeId) = db.nodes.filter (fun r => p r.nodeId))
    (htimes : times.filter (fun r => p r.nodeId) = db.times.filter (fun r => p r.nodeId)) :
    Spared W p db { db with nodes := nodes, times := times } :=
  ⟨by simp only [Db.share, hnodes, htimes], rfl⟩

theorem Spared.of_contents {contents : List ContentRow} {times : List TimesRow}
    (hcontents : contents.filter (fun r => p r.nodeId) = db.contents.filter (fun r => p r.nodeId))
    (htimes : times.filter (fun r => p r.nodeId) = db.times.filter (fun r => p r.nodeId)) :
    Spared W p db { db with contents := contents, times := times } :=
  ⟨by simp only [Db.share, hcontents, htimes], rfl⟩

theorem Spared.of_volumes {volumes : List VolumeRow}
    (h : volumes.filter (fun v => decide (v.volumeId = W)) =
      db.volumes.filter (fun v => decide (v.volumeId = W))) :
    Spared W p db { db with volumes := volumes } :=
  ⟨by simp only [Db.share, h], rfl⟩

theorem Spared.of_mounts {mounts : List MountRow}
    (h : mounts.filter (fun m => decide (m.volumeId = W)) =
      db.mounts.filter (fun m => decide (m.volumeId = W))) :
    Spared W p db { db with mounts := mounts } :=
  ⟨by simp only [Db.share, h], rfl⟩

theorem filter_amend_volume {f : VolumeRow → VolumeRow} {V : VolumeId} (rows : List VolumeRow)
    (hf : ∀ v, (f v).volumeId = v.volumeId) (h : V ≠ W) :
    (amend VolumeRow.volumeId rows V f).filter (fun v => decide (v.volumeId = W)) =
      rows.filter (fun v => decide (v.volumeId = W)) := by
  apply filter_amend_off
  · intro v _ heq
    exact decide_eq_false (heq ▸ h)
  · intro v _ heq
    exact decide_eq_false (by rw [hf, heq]; exact h)

theorem filter_amend_mount {f : MountRow → MountRow} {m : MountId} {rows : List MountRow}
    (hf : ∀ r, (f r).volumeId = r.volumeId) (h : ∀ r ∈ rows, r.mountId = m → r.volumeId ≠ W) :
    (amend MountRow.mountId rows m f).filter (fun r => decide (r.volumeId = W)) =
      rows.filter (fun r => decide (r.volumeId = W)) := by
  apply filter_amend_off
  · intro r hr heq
    exact decide_eq_false (h r hr heq)
  · intro r hr heq
    exact decide_eq_false (by rw [hf]; exact h r hr heq)

/-- A statement about other nodes and volumes leaves the share alone. -/
theorem Stmt.spared (h : st.exec now db = .ok db') (hst : Avoids W p db st) (hpool : db.Pooled) :
    Spared W p db db' := by
  -- one case a statement: what `Avoids` asks of it keeps its rows out of the share
  cases st with
  | createNode row modifiedAt =>
    obtain ⟨-, -, rfl⟩ := Db.createNode_ok h
    apply Spared.of_nodes
    · exact filter_append_off (List.forall_mem_singleton.mpr hst.1)
    · exact filter_append_off (List.forall_mem_singleton.mpr hst.1)
  | createEdge id f m V name =>
    have hm : p m = false := hst
    obtain ⟨src, dst, -, -, -, -, -, -, -, rfl⟩ := Db.createEdge_ok h
    have hedges : (db.edges ++
        [({ edgeId := id, fromId := f, toId := m, volumeId := V,
            name := name.getD dst.name } : EdgeRow)]).filter
        (fun e => p e.toId) = db.edges.filter (fun e => p e.toId) :=
          filter_append_off (List.forall_mem_singleton.mpr hm)
    have htimes : (Db.touchCtime now [m] db.times).filter (fun t => p t.nodeId) =
        db.times.filter (fun t => p t.nodeId) :=
      filter_touchCtime db.times (List.forall_mem_singleton.mpr hm)
    exact ⟨by simp only [Db.share, hedges, htimes], rfl⟩
  | archivePlacement parent m name =>
    obtain rfl := Except.ok.inj h
    apply Spared.archived
    intro e _ hplaced
    simp only [Db.isPlacement, decide_eq_true_eq] at hplaced
    rw [hplaced.2.1]
    exact hst
  | archiveEdge id =>
    obtain rfl := Except.ok.inj h
    apply Spared.archived
    intro e he hid
    exact hst e he (of_decide_eq_true hid)
  | archiveSubtree root =>
    obtain rfl := Except.ok.inj h
    apply Spared.archived
    intro e _ hin
    exact hst e.toId (of_decide_eq_true hin)
  | renamePlacement parent m old name =>
    obtain rfl := Except.ok.inj h
    exact Spared.renamed hst
  | renameNodeIfSole m name =>
    obtain rfl := Except.ok.inj h
    rw [Db.renameNodeIfSole]
    split
    · refine Spared.of_nodes (filter_amend_node db.nodes (fun _ => rfl) hst) ?_
      split
      · exact filter_touchModified db.times hst
      · rfl
    · exact Spared.refl W p db
  | createContent m version size =>
    obtain ⟨-, -, rfl⟩ := Db.createContent_ok h
    exact Spared.of_contents (filter_append_off (List.forall_mem_singleton.mpr hst)) rfl
  | updateContent m version size =>
    obtain rfl := Except.ok.inj h
    refine Spared.of_contents (filter_amend_node db.contents (fun _ => rfl) hst) ?_
    split
    · exact filter_touchModified db.times hst
    · rfl
  -- the pool belongs to no volume: a chunk already there keeps its row
  | upsertChunk row =>
    obtain rfl := Except.ok.inj h
    exact Spared.pooled hpool
  | insertChunkRef row =>
    obtain ⟨-, -, -, rfl⟩ := Db.insertChunkRef_ok h
    exact Spared.versions (List.forall_mem_singleton.mpr hst)
  | copyChunkRefs m v src w =>
    obtain rfl := Db.insertRefs_ok h
    apply Spared.versions
    intro r hr
    obtain ⟨r₀, -, rfl⟩ := List.mem_map.mp hr
    exact hst
  | copyChunkRefsRange m v w lo hi =>
    obtain rfl := Db.insertRefs_ok h
    apply Spared.versions
    intro r hr
    obtain ⟨r₀, -, rfl⟩ := List.mem_map.mp hr
    exact hst
  | setRetentionKeep m keep =>
    obtain rfl := Except.ok.inj h
    exact Spared.of_contents (filter_amend_node db.contents (fun _ => rfl) hst) rfl
  | setOwner m uid gid mode =>
    obtain rfl := Except.ok.inj h
    exact Spared.of_nodes (filter_amend_node db.nodes (fun _ => rfl) hst)
      (filter_touchCtime db.times (List.forall_mem_singleton.mpr hst))
  | setAtime m ts =>
    obtain rfl := Except.ok.inj h
    exact Spared.of_nodes rfl (filter_amend_node db.times (fun _ => rfl) hst)
  | setModifiedAt m ts =>
    obtain rfl := Except.ok.inj h
    exact Spared.of_nodes rfl (filter_amend_node db.times (fun _ => rfl) hst)
  | setMetadata m metadata =>
    obtain rfl := Except.ok.inj h
    exact Spared.of_nodes (filter_amend_node db.nodes (fun _ => rfl) hst) rfl
  | xattrSet row => exact Spared.xattrSet hst h
  | xattrRemove m name =>
    obtain rfl := Except.ok.inj h
    have hm : p m = false := hst
    have hxattrs : (db.xattrs.filter (fun r => !(r.nodeId = m ∧ r.name = name))).filter
        (fun r => p r.nodeId) =
        db.xattrs.filter (fun r => p r.nodeId) := by
      apply filter_filter_off
      intro r _ hp
      have hne : r.nodeId ≠ m := fun heq => absurd (hm.symm.trans (heq ▸ hp)) (by decide)
      simp [hne]
    exact ⟨by rw [Db.share, Db.xattrRemove, hxattrs]; rfl, rfl⟩
  | createVolume row =>
    obtain ⟨-, rfl⟩ := Db.createVolume_ok h
    exact Spared.of_volumes
      (filter_append_off (List.forall_mem_singleton.mpr (decide_eq_false hst)))
  | linkRoot V root =>
    obtain ⟨-, rfl⟩ := Db.linkRoot_ok h
    exact Spared.of_volumes (filter_amend_volume db.volumes (fun _ => rfl) hst)
  | updateVolumeCrypto V mode key nonce =>
    obtain rfl := Except.ok.inj h
    exact Spared.of_volumes (filter_amend_volume db.volumes (fun _ => rfl) hst)
  | createMount row =>
    obtain ⟨-, -, rfl⟩ := Db.createMount_ok h
    exact Spared.of_mounts (filter_append_off (List.forall_mem_singleton.mpr (decide_eq_false hst)))
  | setMountState m state =>
    obtain rfl := Except.ok.inj h
    exact Spared.of_mounts (filter_amend_mount (fun _ => rfl) hst)
  | renewMount m exp =>
    obtain rfl := Except.ok.inj h
    exact Spared.of_mounts (filter_amend_mount (fun _ => rfl) hst)
  | createLock row =>
    obtain ⟨-, -, rfl⟩ := Db.createLock_ok h
    exact ⟨rfl, filter_append_off (List.forall_mem_singleton.mpr hst)⟩
  | releaseLock l =>
    obtain rfl := Except.ok.inj h
    refine ⟨rfl, filter_filter_off ?_⟩
    intro r hr hp
    exact decide_eq_true (fun heq => absurd ((hst r hr heq).symm.trans hp) (by decide))
  | renewLock l exp =>
    obtain rfl := Except.ok.inj h
    refine ⟨rfl, filter_amend_off ?_ ?_⟩
    · intro r hr heq
      exact hst r hr heq
    · intro r hr heq
      exact hst r hr heq
  -- the prunes range over every row, so no share avoids them
  | pruneNodes V => exact hst.elim
  | pruneLocks => exact hst.elim
  | pruneContentVersions V => exact hst.elim
  | pruneContentChunks => exact hst.elim

/-- A run of such statements. -/
theorem Steps.spared (h : Steps (Avoids W p) now db db') (hpool : db.Pooled) :
    Spared W p db db' := by
  induction h with
  | refl => exact Spared.refl W p db
  | tail hpre hstep ih =>
    obtain ⟨st, hst, hexec⟩ := hstep
    exact ih.trans (Stmt.spared hexec hst (Steps.pooled hpre hpool))

end Aloelite
