import Aloelite.LockedNodes
import Aloelite.ContentOps

/-! The manifest rows of one entry across a step. No two rows share a place. An
operation adds rows only to the versions its license lets it write, and pruning
leaves an entry under a valid lock alone. -/
namespace Aloelite

open Fallible KeyedRows Relation

variable {C : Crypto} {M : Msgpack} {E : Env} {L : License} {now : Int} {db db' db'' : Db} {s : Sys}
  {n m : NodeId} {c : ConnId} {op : Op} {st : Stmt} {w w' : ℕ → Prop}

/-! ### The primary key -/

/-- The key of `content_version`. -/
def VersionRow.place (r : VersionRow) : NodeId × ℕ × ℕ := (r.contentId, r.version, r.chunkIndex)

def Db.RowsKeyed (db : Db) : Prop := (db.versions.map VersionRow.place).Nodup

theorem Db.RowsKeyed.inj (hk : db.RowsKeyed) {r r' : VersionRow} (hr : r ∈ db.versions)
    (hr' : r' ∈ db.versions) (h : r.place = r'.place) : r = r' :=
  List.inj_on_of_nodup_map hk hr hr' h

theorem insertChunkRef_keyed {row : VersionRow} (hk : db.RowsKeyed)
    (h : db.insertChunkRef row = .ok db') : db'.RowsKeyed := by
  obtain ⟨hkey, -, -, rfl⟩ := Db.insertChunkRef_ok h
  rw [Db.RowsKeyed, List.map_append, List.nodup_append]
  refine ⟨hk, List.nodup_singleton _, ?_⟩
  intro a ha b hb heq
  obtain ⟨r, hr, rfl⟩ := List.mem_map.mp ha
  rw [List.map_singleton, List.mem_singleton] at hb
  rw [hb, VersionRow.place, VersionRow.place, Prod.mk.injEq, Prod.mk.injEq] at heq
  exact hkey r hr heq.1 heq.2.1 heq.2.2

theorem insertRefs_keyed {rows : List VersionRow} (hk : db.RowsKeyed)
    (h : db.insertRefs rows = .ok db') : db'.RowsKeyed :=
  foldlM_invariant (P := Db.RowsKeyed) (fun _ _ _ _ hs hrow => insertChunkRef_keyed hs hrow) h hk

theorem Db.RowsKeyed.filter (hk : db.RowsKeyed) {p : VersionRow → Bool}
    (h : db'.versions = db.versions.filter p) : db'.RowsKeyed := by
  rw [Db.RowsKeyed, h]
  exact List.Nodup.sublist (List.filter_sublist.map _) hk

theorem Stmt.rowsKeyed (h : st.exec now db = .ok db') (hk : db.RowsKeyed) : db'.RowsKeyed := by
  cases st with
  | insertChunkRef row => exact insertChunkRef_keyed hk h
  | copyChunkRefs dst v src w => exact insertRefs_keyed hk h
  | copyChunkRefsRange m v w lo hi => exact insertRefs_keyed hk h
  | pruneContentVersions volume =>
    obtain rfl := Except.ok.inj h
    exact hk.filter rfl
  | pruneNodes volume =>
    obtain ⟨-, -, rfl⟩ := Db.pruneNodes_ok h
    exact hk.filter rfl
  | _ =>
    rw [Db.RowsKeyed, (Stmt.exec_agreeOff h).versions (by simp [touches])]
    exact hk

theorem Steps.rowsKeyed {P : Db → Stmt → Prop} (h : Steps P now db db') (hk : db.RowsKeyed) :
    db'.RowsKeyed := by
  induction h with
  | refl => exact hk
  | tail _ hstep ih =>
    obtain ⟨st, -, hexec⟩ := hstep
    exact Stmt.rowsKeyed hexec ih

theorem Stride.rowsKeyed (h : Stride L now db db') (hk : db.RowsKeyed) : db'.RowsKeyed := by
  cases h with
  | stmt st hst hexec => exact Stmt.rowsKeyed hexec hk
  | @birth db₁ db₂ _ row modifiedAt id f hhost hf hrow hfill hedge =>
    have hnode : (Stmt.createNode row modifiedAt).exec now db = .ok db₁ := hrow
    have hplace : (Stmt.createEdge id f row.nodeId row.volumeId none).exec now db₂ = .ok db' :=
      hedge
    exact Stmt.rowsKeyed hplace (hfill.rowsKeyed (Stmt.rowsKeyed hnode hk))

theorem Strides.rowsKeyed (h : Strides L now db db') (hk : db.RowsKeyed) : db'.RowsKeyed := by
  induction h with
  | refl => exact hk
  | tail _ hstride ih => exact hstride.rowsKeyed ih

theorem Effect.rowsKeyed (h : Effect C E s op db) (hs : s.db.Sound) (hk : s.db.RowsKeyed) :
    db.RowsKeyed := by
  cases h with
  | strides h => exact h.rowsKeyed hk
  | founding h =>
    obtain ⟨-, -, -, -, -, hframe, -, -⟩ := createVolume_shape h
    rw [Db.RowsKeyed, hframe.versions (by simp)]
    exact hk
  | prune h =>
    rw [prune_shape h hs]
    exact hk
  | @pruneContent volume _ _ h =>
    rw [pruneContent_shape h]
    exact hk.filter rfl

theorem Reaches.rowsKeyed {guard : Sys → Label → Prop} (h : Reaches C M guard s) :
    s.db.RowsKeyed := by
  have hboth : s.db.Sound ∧ s.db.RowsKeyed := by
    refine GuardedRuns.Run.invariant (P := fun s : Sys => s.db.Sound ∧ s.db.RowsKeyed) ?_ h
      ⟨empty_sound, List.nodup_nil⟩
    intro s l _ hs
    exact ⟨step_sound hs.1, (exec_effect hs.1.linked).rowsKeyed hs.1 hs.2⟩
  exact hboth.2

/-! ### Steadiness -/

/-- The manifest rows of an entry, all versions. -/
def Db.rowsOf (db : Db) (n : NodeId) : List VersionRow :=
  db.versions.filter (fun r => r.contentId = n)

theorem manifest_eq_rowsOf (db : Db) (n : NodeId) (v : ℕ) :
    db.manifest n v = (db.rowsOf n).filter (fun r => r.version = v) := by
  rw [Db.manifest, Db.rowsOf, List.filter_filter]
  apply List.filter_congr
  intro r _
  simp [Bool.and_comm]

/-- A step as one entry sees it: rows come only to the versions of `w`, no pool row in
use changes, the pointer moves only to a version of `w`. -/
structure Steady (w : ℕ → Prop) (n : NodeId) (db db' : Db) : Prop where
  rows : ∃ added, db'.rowsOf n = db.rowsOf n ++ added ∧ ∀ r ∈ added, w r.version
  chunks : KeepsChunks db db' (db.rowsOf n)
  pointer : ∀ v, db.committedVersion n = some v →
    ∃ v', db'.committedVersion n = some v' ∧ (v' = v ∨ w v')

theorem Steady.refl (w : ℕ → Prop) (n : NodeId) (db : Db) : Steady w n db db :=
  ⟨⟨[], (List.append_nil _).symm, by simp⟩, fun _ _ _ hch => hch, fun v hv => ⟨v, hv, Or.inl rfl⟩⟩

theorem Steady.trans (h : Steady w n db db') (h' : Steady w n db' db'') : Steady w n db db'' := by
  obtain ⟨added, hrows, hadded⟩ := h.rows
  obtain ⟨added', hrows', hadded'⟩ := h'.rows
  refine ⟨⟨added ++ added', ?_, ?_⟩, ?_, ?_⟩
  · rw [hrows', hrows, List.append_assoc]
  · intro r hr
    rcases List.mem_append.mp hr with hr | hr
    · exact hadded r hr
    · exact hadded' r hr
  · intro r hr ch hch
    refine h'.chunks r ?_ ch (h.chunks r hr ch hch)
    rw [hrows]
    exact List.mem_append_left _ hr
  · intro v hv
    obtain ⟨v₁, hv₁, hor₁⟩ := h.pointer v hv
    obtain ⟨v₂, hv₂, rfl | hw⟩ := h'.pointer v₁ hv₁
    · exact ⟨v₂, hv₂, hor₁⟩
    · exact ⟨v₂, hv₂, Or.inr hw⟩

/-- A version outside `w` keeps its rows. -/
theorem Steady.manifest {v : ℕ} (h : Steady w n db db') (hv : ¬ w v) :
    db'.manifest n v = db.manifest n v := by
  obtain ⟨added, hrows, hadded⟩ := h.rows
  have hnil : added.filter (fun r => r.version = v) = [] := by
    rw [List.filter_eq_nil_iff]
    intro r hr heq
    simp only [decide_eq_true_eq] at heq
    exact hv (heq ▸ hadded r hr)
  rw [manifest_eq_rowsOf, manifest_eq_rowsOf, hrows, List.filter_append, hnil, List.append_nil]

theorem Steady.of_tables (hversions : db'.versions = db.versions) (hchunks : db'.chunks = db.chunks)
    (hpointer : ∀ v, db.committedVersion n = some v →
      ∃ v', db'.committedVersion n = some v' ∧ (v' = v ∨ w v')) : Steady w n db db' := by
  refine ⟨⟨[], ?_, by simp⟩, ?_, hpointer⟩
  · rw [List.append_nil, Db.rowsOf, Db.rowsOf, hversions]
  · intro r _ ch hch
    rw [Db.chunk?, hchunks]
    exact hch

theorem Steady.of_frame {ts : List Table} (h : AgreeOff ts db db') (hv : .versions ∉ ts)
    (hc : .chunks ∉ ts) (ht : .contents ∉ ts) : Steady w n db db' := by
  refine Steady.of_tables (h.versions hv) (h.chunks hc) ?_
  intro v hver
  refine ⟨v, ?_, Or.inl rfl⟩
  rw [Db.committedVersion, Db.content?, h.contents ht]
  exact hver

/-- Rows added after the others. -/
theorem Steady.of_append {rows : List VersionRow} (h : ∀ r ∈ rows, r.contentId = n → w r.version) :
    Steady w n db { db with versions := db.versions ++ rows } := by
  refine ⟨⟨rows.filter (fun r => r.contentId = n), ?_, ?_⟩, fun _ _ _ hch => hch,
    fun v hv => ⟨v, hv, Or.inl rfl⟩⟩
  · rw [Db.rowsOf, Db.rowsOf, List.filter_append]
  intro r hr
  obtain ⟨hmem, hid⟩ := List.mem_filter.mp hr
  exact h r hmem (by simpa using hid)

theorem Steady.of_pool {added : List ChunkRow} :
    Steady w n db { db with chunks := db.chunks ++ added } :=
  ⟨⟨[], (List.append_nil _).symm, by simp⟩, fun _ _ _ hch => chunk?_append rfl hch,
    fun v hv => ⟨v, hv, Or.inl rfl⟩⟩

theorem License.steady_of_grants (hst : L.grants db st) (h : st.exec now db = .ok db') :
    Steady (L.write n) n db db' := by
  cases st with
  | upsertChunk row =>
    obtain rfl := Except.ok.inj h
    obtain ⟨added, hadd, -⟩ := upsertChunk_pool db row
    rw [hadd]
    exact Steady.of_pool
  | insertChunkRef row =>
    obtain ⟨-, -, -, rfl⟩ := Db.insertChunkRef_ok h
    refine Steady.of_append ?_
    intro r hr hid
    rw [List.mem_singleton] at hr
    rw [← hid, hr]
    exact hst
  | copyChunkRefs dst v src w =>
    obtain rfl := Db.insertRefs_ok h
    refine Steady.of_append ?_
    intro r hr hid
    obtain ⟨r₀, -, rfl⟩ := List.mem_map.mp hr
    rw [← hid]
    exact hst
  | copyChunkRefsRange m v w lo hi =>
    obtain rfl := Db.insertRefs_ok h
    refine Steady.of_append ?_
    intro r hr hid
    obtain ⟨r₀, -, rfl⟩ := List.mem_map.mp hr
    rw [← hid]
    exact hst
  | createContent m v size => exact hst.elim
  | pruneNodes volume => exact hst.elim
  | pruneContentVersions volume => exact hst.elim
  | pruneContentChunks => exact hst.elim
  | updateContent m v size =>
    have hframe := Stmt.exec_agreeOff h
    refine Steady.of_tables (hframe.versions (by simp [Stmt.touches]))
      (hframe.chunks (by simp [Stmt.touches])) ?_
    intro v' hv'
    obtain ⟨c', hc', heq | ⟨size', heq⟩⟩ := committedVersion_exec h (by simp) hv'
    · exact ⟨c', hc', Or.inl heq⟩
    · injection heq with hm hc
      rw [hm, hc] at hst
      exact ⟨c', hc', Or.inr hst⟩
  | setRetentionKeep m keep =>
    have hframe := Stmt.exec_agreeOff h
    refine Steady.of_tables (hframe.versions (by simp [Stmt.touches]))
      (hframe.chunks (by simp [Stmt.touches])) ?_
    intro v' hv'
    obtain ⟨c', hc', heq | ⟨size', heq⟩⟩ := committedVersion_exec h (by simp) hv'
    · exact ⟨c', hc', Or.inl heq⟩
    · cases heq
  | _ =>
    exact Steady.of_frame (Stmt.exec_agreeOff h) (by simp [Stmt.touches]) (by simp [Stmt.touches])
      (by simp [Stmt.touches])

/-- What fills another node. -/
theorem Fills.steady (h : Steps (Fills m) now db db') (hne : m ≠ n) : Steady w n db db' := by
  induction h with
  | refl => exact Steady.refl w n db
  | @tail db₁ db₂ _ hstep ih =>
    obtain ⟨st, hst, hexec⟩ := hstep
    refine ih.trans ?_
    have hothers : ∀ rows : List VersionRow, (∀ r ∈ rows, r.contentId = m) →
        ∀ r ∈ rows, r.contentId = n → w r.version :=
      fun rows hrows r hr hid => absurd ((hrows r hr).symm.trans hid) hne
    cases st with
    | upsertChunk row =>
      obtain rfl := Except.ok.inj hexec
      obtain ⟨added, hadd, -⟩ := upsertChunk_pool db₁ row
      rw [hadd]
      exact Steady.of_pool
    | insertChunkRef row =>
      obtain ⟨-, -, -, rfl⟩ := Db.insertChunkRef_ok hexec
      refine Steady.of_append (hothers _ ?_)
      intro r hr
      rw [List.mem_singleton.mp hr]
      exact hst
    | copyChunkRefs dst v src v' =>
      obtain rfl := Db.insertRefs_ok hexec
      refine Steady.of_append (hothers _ ?_)
      intro r hr
      obtain ⟨r₀, -, rfl⟩ := List.mem_map.mp hr
      exact hst
    | createContent m' v size =>
      refine Steady.of_tables ?_ ?_ ?_
      · exact (Stmt.exec_agreeOff hexec).versions (by simp [Stmt.touches])
      · exact (Stmt.exec_agreeOff hexec).chunks (by simp [Stmt.touches])
      · intro v' hv'
        obtain ⟨c', hc', heq | ⟨size', heq⟩⟩ := committedVersion_exec hexec (by simp) hv'
        · exact ⟨c', hc', Or.inl heq⟩
        · cases heq
    | _ => exact hst.elim

theorem Stride.steady (h : Stride L now db db') (hn : (db.node? n).isSome) :
    Steady (L.write n) n db db' := by
  cases h with
  | stmt st hst hexec => exact License.steady_of_grants hst hexec
  | birth row modifiedAt id f hhost hf hrow hfill hedge =>
    obtain ⟨hnone, -, rfl⟩ := Db.createNode_ok hrow
    obtain ⟨-, -, -, -, -, -, -, -, -, rfl⟩ := Db.createEdge_ok hedge
    have hne : row.nodeId ≠ n := by
      rintro rfl
      rw [hnone] at hn
      cases hn
    have hfilled : Steady (L.write n) n _ _ := Fills.steady hfill hne
    exact ⟨hfilled.rows, hfilled.chunks, hfilled.pointer⟩

theorem Strides.steady (h : Strides L now db db') (hn : (db.node? n).isSome) :
    Steady (L.write n) n db db' := by
  induction h with
  | refl => exact Steady.refl _ n db
  | tail hrest hstride ih =>
    have hpersist : ((_ : Db).node? n).isSome := node?_isSome_persists (Strides.identities hrest) hn
    exact ih.trans (hstride.steady hpersist)

/-- Pruning leaves an entry under a valid lock alone. -/
theorem pruneContent_steady {volume : Option VolumeId} (hlock : db.checkAnyLock now n = true) :
    Steady w n db (db.pruneContentVersions now volume).pruneContentChunks := by
  have hkept : ∀ r ∈ db.rowsOf n, db.survivesPrune now volume r = true := by
    intro r hr
    have hid : r.contentId = n := by simpa using (List.mem_filter.mp hr).2
    rw [Db.survivesPrune, hid, hlock, Bool.or_true, Bool.true_or]
  have hrows : ((db.pruneContentVersions now volume).pruneContentChunks).rowsOf n =
      db.rowsOf n := by
    show (db.versions.filter _).filter _ = db.versions.filter _
    rw [List.filter_comm]
    exact List.filter_eq_self.mpr hkept
  refine ⟨⟨[], ?_, by simp⟩, ?_, fun v hv => ⟨v, hv, Or.inl rfl⟩⟩
  · rw [hrows, List.append_nil]
  · intro r hr ch hch
    rw [← hrows] at hr
    rw [chunk?_pruneContent (List.mem_filter.mp hr).1]
    exact hch

/-- What a step does to an entry under a valid lock is in its license. -/
theorem Effect.steady (h : Effect C E s op db) (hs : s.db.Sound) (hn : (s.db.node? n).isSome)
    (hlock : s.db.checkAnyLock E.now n = true) : Steady ((op.license E s).write n) n s.db db := by
  cases h with
  | strides h => exact h.steady hn
  | founding h =>
    obtain ⟨-, -, -, -, -, hframe, -, -⟩ := createVolume_shape h
    exact Steady.of_frame hframe (by simp) (by simp) (by simp)
  | prune h =>
    rw [prune_shape h hs]
    exact Steady.of_tables rfl rfl (fun v hv => ⟨v, hv, Or.inl rfl⟩)
  | pruneContent h =>
    rw [pruneContent_shape h]
    exact pruneContent_steady hlock

end Aloelite
