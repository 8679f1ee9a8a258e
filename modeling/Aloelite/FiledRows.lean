import Aloelite.Naming
import Aloelite.Streams

/-! Every edge, content and version of a file is of a node the file has, after every operation. -/
namespace Aloelite

open Fallible KeyedRows Relation

variable {C : Crypto} {M : Msgpack} {E : Env} {L : License} {now : Int} {db db' : Db} {s : Sys}
  {n : NodeId} {m : MountCtx} {nodes : List PackNode}

/-- Content and manifest rows belong to nodes that are there. -/
structure Db.Filed (db : Db) : Prop where
  content : ∀ r ∈ db.contents, (db.node? r.nodeId).isSome
  version : ∀ r ∈ db.versions, (db.node? r.contentId).isSome

theorem Db.Filed.mono (hf : db.Filed) (hids : ∃ added, db'.identities = db.identities ++ added)
    (hc : ∀ r ∈ db'.contents, ∃ r₀ ∈ db.contents, r₀.nodeId = r.nodeId)
    (hv : ∀ r ∈ db'.versions, ∃ r₀ ∈ db.versions, r₀.contentId = r.contentId) : db'.Filed := by
  constructor
  · intro r hr
    obtain ⟨r₀, hr₀, heq⟩ := hc r hr
    exact heq ▸ node?_isSome_persists hids (hf.content r₀ hr₀)
  · intro r hr
    obtain ⟨r₀, hr₀, heq⟩ := hv r hr
    exact heq ▸ node?_isSome_persists hids (hf.version r₀ hr₀)

theorem amend_contents_ids {f : ContentRow → ContentRow} (hid : ∀ r, (f r).nodeId = r.nodeId)
    {rows : List ContentRow} :
    ∀ r ∈ amend ContentRow.nodeId rows n f, ∃ r₀ ∈ rows, r₀.nodeId = r.nodeId := by
  intro r hr
  obtain ⟨r₀, hr₀, rfl⟩ := List.mem_map.mp hr
  refine ⟨r₀, hr₀, ?_⟩
  split
  · exact (hid r₀).symm
  · rfl

theorem insertChunkRef_filed {row : VersionRow} (hf : db.Filed)
    (h : db.insertChunkRef row = .ok db') :
    db'.Filed := by
  obtain ⟨-, hn, -, rfl⟩ := Db.insertChunkRef_ok h
  constructor
  · exact hf.content
  · intro r hr
    rcases List.mem_append.mp hr with hr | hr
    · exact hf.version r hr
    · rw [List.mem_singleton.mp hr]
      exact hn

theorem insertRefs_filed {rows : List VersionRow} (hf : db.Filed)
    (h : db.insertRefs rows = .ok db') : db'.Filed :=
  foldlM_invariant (P := Db.Filed) (fun _ _ _ _ hs hrow => insertChunkRef_filed hs hrow) h hf

theorem Stmt.filed {st : Stmt} (h : st.exec now db = .ok db')
    (hids : ∃ added, db'.identities = db.identities ++ added) (hf : db.Filed) : db'.Filed := by
  have hcontents : ∀ r ∈ db.contents, ∃ r₀ ∈ db.contents, r₀.nodeId = r.nodeId :=
    fun r hr => ⟨r, hr, rfl⟩
  have hversions : ∀ r ∈ db.versions, ∃ r₀ ∈ db.versions, r₀.contentId = r.contentId :=
    fun r hr => ⟨r, hr, rfl⟩
  cases st with
  | createContent m version size =>
    obtain ⟨-, hn, rfl⟩ := Db.createContent_ok h
    constructor
    · intro r hr
      rcases List.mem_append.mp hr with hr | hr
      · exact hf.content r hr
      · rw [List.mem_singleton.mp hr]
        exact hn
    · exact hf.version
  | updateContent m version size =>
    obtain rfl := Except.ok.inj h
    exact hf.mono hids
      (amend_contents_ids (f := fun r => { r with version := version, size := size }) fun _ => rfl)
      hversions
  | setRetentionKeep m keep =>
    obtain rfl := Except.ok.inj h
    exact hf.mono hids
      (amend_contents_ids (f := fun r => { r with retentionKeep := keep }) fun _ => rfl) hversions
  | insertChunkRef row => exact insertChunkRef_filed hf h
  | copyChunkRefs dst v src w => exact insertRefs_filed hf h
  | copyChunkRefsRange m v w lo hi => exact insertRefs_filed hf h
  | pruneContentVersions volume =>
    obtain rfl := Except.ok.inj h
    exact hf.mono hids hcontents (fun r hr => ⟨r, List.mem_of_mem_filter hr, rfl⟩)
  | pruneNodes volume =>
    obtain ⟨-, -, rfl⟩ := Db.pruneNodes_ok h
    exact hf.mono hids (fun r hr => ⟨r, List.mem_of_mem_filter hr, rfl⟩)
      (fun r hr => ⟨r, List.mem_of_mem_filter hr, rfl⟩)
  | _ =>
    have hframe := Stmt.exec_agreeOff h
    refine hf.mono hids ?_ ?_
    · rw [hframe.contents (by simp [touches])]
      exact hcontents
    · rw [hframe.versions (by simp [touches])]
      exact hversions

theorem Fills.filed (h : Steps (Fills n) now db db') (hf : db.Filed) : db'.Filed := by
  induction h with
  | refl => exact hf
  | tail _ hstep ih =>
    obtain ⟨st, hst, hexec⟩ := hstep
    have hframe := Fills.agreeOff (ReflTransGen.single ⟨st, hst, hexec⟩)
    exact Stmt.filed hexec ⟨[], by rw [hframe.identities (by decide), List.append_nil]⟩ ih

theorem Stride.filed (h : Stride L now db db') (hf : db.Filed) : db'.Filed := by
  have hids := h.identities
  cases h with
  | stmt st hst hexec => exact Stmt.filed hexec hids hf
  | @birth db₁ db₂ _ row modifiedAt id f hhost hf' hrow hfill hedge =>
    have hnode : (Stmt.createNode row modifiedAt).exec now db = .ok db₁ := hrow
    have hplace : (Stmt.createEdge id f row.nodeId row.volumeId none).exec now db₂ = .ok db' :=
      hedge
    have hborn : db₁.identities = db.identities ++ [row.identity] := by
      obtain ⟨-, -, rfl⟩ := Db.createNode_ok hrow
      exact List.map_append
    have hlinked : db'.identities = db₂.identities :=
      (Stmt.exec_agreeOff hplace).identities (by simp [Stmt.touches])
    refine Stmt.filed hplace ⟨[], by rw [hlinked, List.append_nil]⟩ (Fills.filed hfill ?_)
    exact Stmt.filed hnode ⟨_, hborn⟩ hf

theorem Strides.filed (h : Strides L now db db') (hf : db.Filed) : db'.Filed := by
  induction h with
  | refl => exact hf
  | tail _ hstride ih => exact hstride.filed ih

theorem Effect.filed {op : Op} (h : Effect C E s op db) (hs : s.db.Sound) (hf : s.db.Filed) :
    db.Filed := by
  have hids := h.identities hs
  cases h with
  | strides h => exact h.filed hf
  | founding h =>
    obtain ⟨-, -, -, -, -, hframe, -, -⟩ := createVolume_shape h
    refine hf.mono hids ?_ ?_
    · rw [hframe.contents (by simp)]
      exact fun r hr => ⟨r, hr, rfl⟩
    · rw [hframe.versions (by simp)]
      exact fun r hr => ⟨r, hr, rfl⟩
  | prune h =>
    rw [prune_shape h hs]
    exact ⟨hf.content, hf.version⟩
  | pruneContent h =>
    rw [pruneContent_shape h] at hids ⊢
    exact hf.mono hids (fun r hr => ⟨r, hr, rfl⟩) (fun r hr => ⟨r, List.mem_of_mem_filter hr, rfl⟩)

theorem Reaches.filed {guard : Sys → Label → Prop} (h : Reaches C M guard s) : s.db.Filed := by
  have hboth : s.db.Sound ∧ s.db.Filed := by
    refine GuardedRuns.Run.invariant (P := fun s : Sys => s.db.Sound ∧ s.db.Filed) ?_ h
      ⟨empty_sound, ?_⟩
    · intro s l _ hs
      exact ⟨step_sound hs.1, (exec_effect hs.1.linked).filed hs.1 hs.2⟩
    · constructor
      · intro r hr
        cases hr
      · intro r hr
        cases hr
  exact hboth.2

end Aloelite
