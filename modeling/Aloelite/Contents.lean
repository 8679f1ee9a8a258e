import Aloelite.Homes
import Aloelite.Manifests
import Aloelite.VersionPointers

/-! What every entry is to hold: the committed version's manifest carries the bytes
last given to the entry, in pieces of the volume's chunk size. The parts that
operations are made of keep this: statements off content, staging into a version
that is not committed, the pointer swap, the birth of a node. -/
namespace Aloelite

open Fallible KeyedRows ForestOrder Relation Numbered Pieces

variable {C : Crypto} {σ : Type} {R : Reading C σ} {V W : VolumeId} {E : Env} {k : Cipher}
  {db db' : Db} {tx tx' tx₁ tx₂ : Tx} {n m : NodeId} {v w size : ℕ} {data : Bytes}
  {given given' : NodeId → Bytes} {l : List (ℕ × List σ)}

/-- One version of an entry of a volume holds `data`. Version 0 holds nothing. -/
structure Kept (R : Reading C σ) (V : VolumeId) (db : Db) (n : NodeId) (v size : ℕ) (data : Bytes) :
    Prop where
  size : size = data.length
  chunked : 0 < chunkSizeOf db V ∨ data = []
  started : v = 0 → data = []
  holds : Holds R V db n v (pieces (chunkSizeOf db V) (data.map R.glance))

/-- Every entry holds what it was last given; leaves and manifest rows are whole. -/
structure Stored (R : Reading C σ) (db : Db) (given : NodeId → Bytes) : Prop where
  addressed : db.Addressed C
  owned : ∀ r ∈ db.versions, (db.node? r.contentId).isSome
  content : ∀ n c, db.content? n = some c →
    ∃ V, db.home? n = some V ∧ Kept R V db n c.version c.size (given n)

/-- Every leaf but `n` has its content row. -/
def Db.LeavesBut (db : Db) (n : Option NodeId) : Prop :=
  ∀ m t, some m ≠ n → db.nodeType? m = some t → t ≠ .container → (db.content? m).isSome

def Tx.Stored (R : Reading C σ) (tx : Tx) : Prop :=
  Aloelite.Stored R tx.db tx.committed ∧ tx.db.LeavesBut none

theorem Kept.frame (h : Kept R V db n v size data) (hcs : chunkSizeOf db' V = chunkSizeOf db V)
    (hman : db'.manifest n v = db.manifest n v) (hpool : KeepsChunks db db' (db.manifest n v)) :
    Kept R V db' n v size data := by
  refine ⟨h.size, ?_, h.started, ?_⟩
  · rw [hcs]
    exact h.chunked
  · rw [hcs]
    exact HoldsAt.frame h.holds hman hpool

theorem Stored.committed {c : ContentRow} (h : Stored R db given) (hV : db.home? n = some V)
    (hc : db.content? n = some c) : Kept R V db n c.version c.size (given n) := by
  obtain ⟨W, hW, hkept⟩ := h.content n c hc
  obtain rfl := Option.some.inj (hV.symm.trans hW)
  exact hkept

/-! ### Statements off content -/

/-- Two transactions between which no content, node or volume changed. -/
structure Calm (tx tx' : Tx) : Prop where
  contents : ∀ n, readContentMeta tx'.db n = readContentMeta tx.db n
  off : AgreeOff [.nodes, .contents, .edges, .mounts, .locks, .xattrs] tx.db tx'.db
  aliased : tx'.aliased = tx.aliased
  committed : tx'.committed = tx.committed

theorem Calm.refl (tx : Tx) : Calm tx tx := ⟨fun _ => rfl, AgreeOff.refl _ _, rfl, rfl⟩

theorem Calm.trans (h : Calm tx tx₁) (h' : Calm tx₁ tx') : Calm tx tx' :=
  ⟨fun n => (h'.contents n).trans (h.contents n), h.off.trans h'.off, h'.aliased.trans h.aliased,
    h'.committed.trans h.committed⟩

/-- The statements that change no content. -/
def Stmt.calm : Stmt → Prop
  | .createEdge .. | .archivePlacement .. | .archiveEdge .. | .archiveSubtree ..
  | .renamePlacement .. | .renameNodeIfSole .. | .setRetentionKeep .. | .setOwner ..
  | .setAtime .. | .setModifiedAt .. | .setMetadata .. | .xattrSet .. | .xattrRemove ..
  | .createMount .. | .setMountState .. | .renewMount .. | .createLock .. | .releaseLock ..
  | .renewLock .. | .pruneLocks => True
  | _ => False

theorem run_calm {st : Stmt} (h : tx.run E st = .ok tx') (hst : st.calm) : Calm tx tx' := by
  obtain ⟨db', hexec, rfl⟩ := Tx.run_ok.mp h
  have hframe := Stmt.exec_agreeOff hexec
  refine ⟨?_, hframe.weaken ?_, rfl, rfl⟩
  · intro n
    by_cases ht : Table.contents ∈ st.touches
    · cases st with
      | setRetentionKeep m keep =>
        obtain rfl := Except.ok.inj hexec
        show readContentMeta (tx.db.setRetentionKeep m keep) n = _
        rw [readContentMeta, readContentMeta, content?_setRetentionKeep]
        split
        · rw [Option.map_map]
          rfl
        · rfl
      | createContent m version size => exact hst.elim
      | updateContent m version size => exact hst.elim
      | pruneNodes volume => exact hst.elim
      | _ => simp [Stmt.touches] at ht
    · rw [readContentMeta, readContentMeta, Db.content?, Db.content?, hframe.contents ht]
  · cases st <;> first | exact hst.elim | simp [Stmt.touches]

theorem Calm.home (h : Calm tx tx') : tx'.db.home? n = tx.db.home? n :=
  home?_congr (h.off.identities (by simp))

theorem Calm.chunkSize (h : Calm tx tx') : chunkSizeOf tx'.db V = chunkSizeOf tx.db V := by
  rw [chunkSizeOf, chunkSizeOf, Db.volume?, Db.volume?, h.off.volumes (by simp)]

theorem content?_of_meta {c : ContentRow} (hmeta : readContentMeta db' n = readContentMeta db n)
    (hc : db'.content? n = some c) :
    ∃ c₀, db.content? n = some c₀ ∧ c₀.version = c.version ∧ c₀.size = c.size := by
  rw [readContentMeta, readContentMeta, hc, Option.map_some, eq_comm, Option.map_eq_some_iff]
    at hmeta
  obtain ⟨c₀, hc₀, heq⟩ := hmeta
  obtain ⟨hv, hs⟩ := Prod.mk.inj heq
  exact ⟨c₀, hc₀, hv, hs⟩

theorem content?_isSome_of_meta (hmeta : readContentMeta db' n = readContentMeta db n) :
    (db'.content? n).isSome = (db.content? n).isSome := by
  have hsome := congrArg Option.isSome hmeta
  rw [readContentMeta, readContentMeta, Option.isSome_map, Option.isSome_map] at hsome
  exact hsome

theorem Stored.calm (h : Stored R tx.db tx.committed) (hc : Calm tx tx') :
    Stored R tx'.db tx'.committed := by
  have hpool : tx'.db.chunks = tx.db.chunks := hc.off.chunks (by simp)
  have hversions : tx'.db.versions = tx.db.versions := hc.off.versions (by simp)
  refine ⟨?_, ?_, ?_⟩
  · rw [Db.Addressed, hpool]
    exact h.addressed
  · rw [hversions]
    intro r hr
    rw [Db.node?_isSome_eq, hc.off.identities (by simp), ← Db.node?_isSome_eq]
    exact h.owned r hr
  · intro n c hrow
    obtain ⟨c₀, hc₀, hv, hs⟩ := content?_of_meta (hc.contents n) hrow
    obtain ⟨V, hV, hkept⟩ := h.content n c₀ hc₀
    refine ⟨V, hc.home.trans hV, ?_⟩
    rw [hv, hs] at hkept
    rw [hc.committed]
    refine hkept.frame hc.chunkSize ?_ ?_
    · rw [Db.manifest, Db.manifest, hversions]
    · intro r _ ch hch
      rw [Db.chunk?, hpool]
      exact hch

theorem Db.LeavesBut.calm {n : Option NodeId} (h : tx.db.LeavesBut n) (hc : Calm tx tx') :
    tx'.db.LeavesBut n := by
  intro m t hne ht hleaf
  rw [content?_isSome_of_meta (hc.contents m)]
  refine h m t hne ?_ hleaf
  rw [Db.nodeType?_eq, ← hc.off.identities (by simp), ← Db.nodeType?_eq]
  exact ht

theorem Tx.Stored.calm (h : tx.Stored R) (hc : Calm tx tx') : tx'.Stored R :=
  ⟨Aloelite.Stored.calm h.1 hc, h.2.calm hc⟩

/-! ### Staging -/

theorem Grown.home (h : Grown C n v tx tx') : tx'.db.home? m = tx.db.home? m :=
  home?_congr (h.off.identities (by simp))

theorem Grown.chunkSize (h : Grown C n v tx tx') : chunkSizeOf tx'.db W = chunkSizeOf tx.db W := by
  rw [chunkSizeOf, chunkSizeOf, Db.volume?, Db.volume?, h.off.volumes (by simp)]

theorem Grown.content (h : Grown C n v tx tx') : tx'.db.content? m = tx.db.content? m := by
  rw [Db.content?, Db.content?, h.off.contents (by simp)]

theorem Grown.kept {data : Bytes} (h : Grown C n v tx tx') (hne : ¬ (m = n ∧ w = v))
    (hk : Kept R W tx.db m w size data) : Kept R W tx'.db m w size data :=
  hk.frame h.chunkSize (h.manifest_other hne) (h.keepsChunks _)

theorem Grown.owned (h : Grown C n v tx tx')
    (ho : ∀ r ∈ tx.db.versions, (tx.db.node? r.contentId).isSome) (hn : (tx.db.node? n).isSome) :
    ∀ r ∈ tx'.db.versions, (tx'.db.node? r.contentId).isSome := by
  obtain ⟨added, hrows, hkey⟩ := h.rows
  intro r hr
  rw [Db.node?_isSome_eq, h.off.identities (by simp), ← Db.node?_isSome_eq]
  rw [hrows] at hr
  rcases List.mem_append.mp hr with hr | hr
  · exact ho r hr
  · rw [(hkey r hr).1]
    exact hn

/-- Rows added to a version that is not the committed one. -/
theorem Stored.grown (h : Stored R tx.db tx.committed) (hs : Grown C n v tx tx')
    (hn : (tx.db.node? n).isSome) (hv : tx.db.committedVersion n ≠ some v) :
    Stored R tx'.db tx'.committed := by
  refine ⟨hs.addressed h.addressed, hs.owned h.owned hn, ?_⟩
  intro m c hc
  rw [hs.content] at hc
  obtain ⟨W, hW, hkept⟩ := h.content m c hc
  refine ⟨W, hs.home.trans hW, ?_⟩
  rw [hs.committed]
  refine hs.kept ?_ hkept
  rintro ⟨rfl, rfl⟩
  exact hv (by rw [Db.committedVersion, hc]; rfl)

theorem Db.LeavesBut.grown {o : Option NodeId} (h : tx.db.LeavesBut o) (hs : Grown C n v tx tx') :
    tx'.db.LeavesBut o := by
  intro m t hne ht hleaf
  rw [hs.content]
  refine h m t hne ?_ hleaf
  rw [Db.nodeType?_eq, ← hs.off.identities (by simp), ← Db.nodeType?_eq]
  exact ht

theorem Tx.Stored.grown (h : tx.Stored R) (hs : Grown C n v tx tx') (hn : (tx.db.node? n).isSome)
    (hv : tx.db.committedVersion n ≠ some v) : tx'.Stored R :=
  ⟨Aloelite.Stored.grown h.1 hs hn hv, h.2.grown hs⟩

theorem lt_nextVersion_of_mem {r : VersionRow} (hr : r ∈ db.versions) :
    r.version < db.nextVersion r.contentId := by
  have hmem : r.version ∈
      (db.versions.filter (fun x => x.contentId = r.contentId)).map VersionRow.version :=
    List.mem_map_of_mem (List.mem_filter.mpr ⟨hr, by simp⟩)
  have hle := List.le_max?_getD_of_mem (k := 0) hmem
  rw [Db.nextVersion]
  omega

/-- The next version of an entry has no rows yet and is not the committed one. -/
theorem manifest_nextVersion : db.manifest n (db.nextVersion n) = [] := by
  rw [Db.manifest, List.filter_eq_nil_iff]
  intro r hr hkey
  simp only [decide_eq_true_eq] at hkey
  obtain ⟨rfl, hver⟩ := hkey
  exact absurd hver (lt_nextVersion_of_mem hr).ne

theorem committedVersion_ne_nextVersion : db.committedVersion n ≠ some (db.nextVersion n) :=
  fun h => lt_irrefl _ (lt_nextVersion h)

theorem nextVersion_pos : db.nextVersion n ≠ 0 := by
  rw [Db.nextVersion]
  omega

/-! ### The pointer swap -/

/-- The swap to a version that holds the new bytes. -/
theorem Tx.Stored.swap (h : tx.Stored R) (hrun : tx.run E (.updateContent n v size) = .ok tx')
    (hV : tx.db.home? n = some V) (hkept : Kept R V tx.db n v size data) :
    (tx'.gives n data).Stored R := by
  obtain ⟨db', hexec, rfl⟩ := Tx.run_ok.mp hrun
  obtain rfl := Except.ok.inj hexec
  have hrow : ∀ m, (tx.db.updateContent E.now n v size).content? m =
      if m = n then (tx.db.content? m).map (fun r => { r with version := v, size := size })
      else tx.db.content? m := fun m => content?_updateContent
  refine ⟨⟨h.1.addressed, h.1.owned, ?_⟩, ?_⟩
  · intro m c hc
    have hc' : (tx.db.updateContent E.now n v size).content? m = some c := hc
    rw [hrow] at hc'
    by_cases hm : m = n
    · rw [if_pos hm, Option.map_eq_some_iff] at hc'
      obtain ⟨c₀, -, rfl⟩ := hc'
      refine ⟨V, hm ▸ hV, ?_⟩
      have hgiven : (Function.update tx.committed n data) m = data := by
        rw [hm, Function.update_self]
      show Kept R V _ m v size ((Function.update tx.committed n data) m)
      rw [hgiven, hm]
      exact hkept.frame rfl rfl (fun _ _ _ hch => hch)
    · rw [if_neg hm] at hc'
      obtain ⟨W, hW, hk⟩ := h.1.content m c hc'
      refine ⟨W, hW, ?_⟩
      have hgiven : (Function.update tx.committed n data) m = tx.committed m :=
        Function.update_of_ne hm _ _
      show Kept R W _ m c.version c.size ((Function.update tx.committed n data) m)
      rw [hgiven]
      exact hk.frame rfl rfl (fun _ _ _ hch => hch)
  · intro m t hne ht hleaf
    have hold : (tx.db.content? m).isSome := h.2 m t hne ht hleaf
    show ((tx.db.updateContent E.now n v size).content? m).isSome
    rw [hrow]
    split
    · rw [Option.isSome_map]
      exact hold
    · exact hold

/-! ### Births -/

/-- A new node has neither content nor manifest rows. -/
theorem Stored.newNode {ctx : MountCtx} {type : NodeType} {name : String}
    {createdAt modifiedAt : Option Int} {metadata : Metadata} (h : tx.Stored R)
    (hnew : newNode E tx ctx type name createdAt modifiedAt metadata = .ok (tx₁, n)) :
    Stored R tx₁.db tx₁.committed ∧ tx₁.db.LeavesBut (some n) ∧
      (type = .container → tx₁.db.LeavesBut none) ∧
      tx₁.db.home? n = some ctx.volume ∧ tx₁.db.content? n = none ∧
        (∀ v, tx₁.db.manifest n v = []) ∧
      (∀ m V, tx.db.home? m = some V → tx₁.db.home? m = some V) ∧
      (∀ m, (tx.db.node? m).isSome → m ≠ n) ∧ tx₁.db.contents = tx.db.contents ∧
      tx₁.db.versions = tx.db.versions ∧ tx₁.db.chunks = tx.db.chunks ∧
      tx₁.db.volumes = tx.db.volumes ∧ tx₁.committed = tx.committed ∧ tx₁.aliased = tx.aliased := by
  obtain ⟨-, db₁, hrow, rfl⟩ := newNode_ok hnew
  obtain ⟨hnone, hvol, rfl⟩ := Db.createNode_ok hrow
  have hfresh : tx.db.node? n = none := hnone
  -- the id is fresh, so every old node is another one
  have hne : ∀ m, (tx.db.node? m).isSome → m ≠ n := by
    rintro m hm rfl
    rw [hfresh] at hm
    cases hm
  have hcontent : tx.db.content? n = none := by
    cases hc : tx.db.content? n with
    | none => rfl
    | some c =>
      obtain ⟨W, hW, -⟩ := h.1.content n c hc
      rw [Db.home?, hfresh] at hW
      cases hW
  let row : NodeRow := { nodeId := n, type := type, name := name, createdAt := createdAt.getD E.now,
                         volumeId := ctx.volume, metadata := metadata }
  have hself : lookup NodeRow.nodeId (tx.db.nodes ++ [row]) n = some row :=
    lookup_append_self (r := row) hnone
  have hold : ∀ m, m ≠ n → lookup NodeRow.nodeId (tx.db.nodes ++ [row]) m = tx.db.node? m :=
    fun m hm => lookup_append_of_ne (r := row) (fun heq => hm heq.symm)
  have hhome : ∀ m V, tx.db.home? m = some V →
      (lookup NodeRow.nodeId (tx.db.nodes ++ [row]) m).map NodeRow.volumeId = some V := by
    intro m V hm
    have hsome : (tx.db.node? m).isSome := by
      rw [Db.home?, Option.map_eq_some_iff] at hm
      obtain ⟨r, hr, -⟩ := hm
      exact Option.isSome_iff_exists.mpr ⟨r, hr⟩
    rw [hold m (hne m hsome)]
    exact hm
  refine ⟨⟨h.1.addressed, ?_, ?_⟩, ?_, ?_, ?_, hcontent, ?_, hhome, hne, rfl, rfl,
    rfl, rfl, rfl, rfl⟩
  · intro r hr
    have hsome := h.1.owned r hr
    show (lookup NodeRow.nodeId (tx.db.nodes ++ [row]) r.contentId).isSome
    rw [hold _ (hne _ hsome)]
    exact hsome
  · intro m c hc
    obtain ⟨W, hW, hkept⟩ := h.1.content m c hc
    exact ⟨W, hhome m W hW, hkept.frame rfl rfl (fun _ _ _ hch => hch)⟩
  · intro m t hm ht hleaf
    have hmn : m ≠ n := fun heq => hm (by rw [heq])
    refine h.2 m t (by simp) ?_ hleaf
    have ht' : (lookup NodeRow.nodeId (tx.db.nodes ++ [row]) m).map NodeRow.type = some t := ht
    rw [hold m hmn] at ht'
    exact ht'
  · intro hcont m t _ ht hleaf
    have ht' : (lookup NodeRow.nodeId (tx.db.nodes ++ [row]) m).map NodeRow.type = some t := ht
    by_cases hmn : m = n
    · rw [hmn, hself] at ht'
      exact absurd ((Option.some.inj ht').symm.trans hcont) hleaf
    · rw [hold m hmn] at ht'
      exact h.2 m t (by simp) ht' hleaf
  · show (lookup NodeRow.nodeId (tx.db.nodes ++ [row]) n).map NodeRow.volumeId = some ctx.volume
    rw [hself]
    rfl
  · intro v
    rw [Db.manifest, List.filter_eq_nil_iff]
    intro r hr hkey
    simp only [decide_eq_true_eq] at hkey
    exact hne _ (h.1.owned r hr) hkey.1

/-- The first content of a node that has none. -/
theorem Stored.createContent (h : Stored R tx.db tx.committed) (hleaves : tx.db.LeavesBut (some n))
    (hrun : tx.run E (.createContent n v size) = .ok tx₁) :
    tx₁.db.content? n = some { nodeId := n, version := v, size := size } ∧
      (∀ m, m ≠ n → tx₁.db.content? m = tx.db.content? m) ∧ tx₁.db.LeavesBut none ∧
      tx₁.db.Addressed C ∧ (∀ r ∈ tx₁.db.versions, (tx₁.db.node? r.contentId).isSome) ∧
      AgreeOff [.contents] tx.db tx₁.db ∧ tx₁.committed = tx.committed ∧ tx₁.aliased =
        tx.aliased := by
  obtain ⟨db₁, hexec, rfl⟩ := Tx.run_ok.mp hrun
  have hframe := Stmt.exec_agreeOff hexec
  obtain ⟨hnone, -, rfl⟩ := Db.createContent_ok hexec
  let row : ContentRow := { nodeId := n, version := v, size := size }
  have hself : lookup ContentRow.nodeId (tx.db.contents ++ [row]) n = some row :=
    lookup_append_self (r := row) hnone
  have hold : ∀ m, m ≠ n → lookup ContentRow.nodeId (tx.db.contents ++ [row]) m =
      tx.db.content? m :=
    fun m hm => lookup_append_of_ne (r := row) (fun heq => hm heq.symm)
  refine ⟨hself, hold, ?_, h.addressed, h.owned, hframe, rfl, rfl⟩
  intro m t _ ht hleaf
  show (lookup ContentRow.nodeId (tx.db.contents ++ [row]) m).isSome
  by_cases hm : m = n
  · rw [hm, hself]
    rfl
  · rw [hold m hm]
    exact hleaves m t (fun heq => hm (Option.some.inj heq)) ht hleaf

/-- A new leaf from its content row on, once its first version holds the bytes. -/
theorem Stored.filled (h : Stored R tx.db tx.committed) (hleaves : tx.db.LeavesBut (some n))
    (hV : tx.db.home? n = some V) (hempty : ∀ v, tx.db.manifest n v = [])
    (hsize : size = data.length)
    (hcs : 0 < chunkSizeOf tx.db V ∨ data = []) (hzero : v = 0 → data = [])
    (hcreate : tx.run E (.createContent n v size) = .ok tx₁)
    (hstaged : Staged R V n v (numbered 0 (pieces (chunkSizeOf tx.db V) (data.map R.glance)))
      (tx₁.gives n data) tx') : tx'.Stored R := by
  obtain ⟨hself, hold, hleaves₁, haddr₁, howned₁, hoff, hcommitted, -⟩ :=
    Stored.createContent h hleaves hcreate
  have hhome : ∀ m, tx'.db.home? m = tx.db.home? m := fun m =>
    hstaged.home.trans (home?_congr (hoff.identities (by simp)))
  have hcs₁ : ∀ W, chunkSizeOf tx₁.db W = chunkSizeOf tx.db W := by
    intro W
    rw [chunkSizeOf, chunkSizeOf, Db.volume?, Db.volume?, hoff.volumes (by simp)]
  have hman : ∀ m w, tx₁.db.manifest m w = tx.db.manifest m w := by
    intro m w
    rw [Db.manifest, Db.manifest, hoff.versions (by simp)]
  have hexists : (tx₁.db.node? n).isSome := by
    have hsome : tx₁.db.home? n = some V := (home?_congr (hoff.identities (by simp))).trans hV
    rw [Db.home?, Option.map_eq_some_iff] at hsome
    obtain ⟨r, hr, -⟩ := hsome
    exact Option.isSome_iff_exists.mpr ⟨r, hr⟩
  have hleaves' : (tx₁.gives n data).db.LeavesBut none := hleaves₁
  refine ⟨⟨hstaged.addressed haddr₁, hstaged.owned howned₁ hexists, ?_⟩,
    hleaves'.grown hstaged.toGrown⟩
  intro m c hc
  rw [hstaged.content] at hc
  by_cases hm : m = n
  · rw [hm] at hc ⊢
    obtain rfl := Option.some.inj (hself.symm.trans hc)
    have hgiven : tx'.committed n = data := by
      rw [hstaged.committed]
      exact Function.update_self ..
    have hnone : HoldsAt R V (tx₁.gives n data).db n v [] :=
      holdsAt_nil ((hman n v).trans (hempty v))
    have hholds := hstaged.holdsAt hnone
    have hcs' : chunkSizeOf tx'.db V = chunkSizeOf tx.db V := hstaged.chunkSize.trans (hcs₁ V)
    refine ⟨V, (hhome n).trans hV, ?_⟩
    rw [hgiven]
    refine ⟨hsize, ?_, hzero, ?_⟩
    · rw [hcs']
      exact hcs
    · rw [hcs']
      exact hholds
  · -- the other entries are as before, whatever is staged for the new node
    have hc' : tx.db.content? m = some c := (hold m hm).symm.trans hc
    obtain ⟨W, hW, hkept⟩ := h.content m c hc'
    have hgiven : tx'.committed m = tx.committed m := by
      rw [hstaged.committed]
      show Function.update tx₁.committed n data m = _
      rw [Function.update_of_ne hm, hcommitted]
    have hkept₁ : Kept R W (tx₁.gives n data).db m c.version c.size (tx.committed m) := by
      refine hkept.frame (hcs₁ W) (hman m _) ?_
      intro r _ ch hch
      show tx₁.db.chunk? _ = _
      rw [Db.chunk?, hoff.chunks (by simp)]
      exact hch
    refine ⟨W, (hhome m).trans hW, ?_⟩
    rw [hgiven]
    exact hstaged.kept (fun heq => hm heq.1) hkept₁

/-- A new leaf with its first content, from the node row on. -/
theorem Stored.putInitialContent {ctx : MountCtx} (hk : R.Fits k ctx.volume)
    (h : Stored R tx.db tx.committed) (hleaves : tx.db.LeavesBut (some n))
    (hV : tx.db.home? n = some ctx.volume) (hempty : ∀ v, tx.db.manifest n v = [])
    (hput : putInitialContent C E k tx ctx n data = .ok tx')
    (hal : R.wary = true → tx'.aliased = false) :
    tx'.Stored R := by
  simp only [Aloelite.putInitialContent, bind_eq_ok] at hput
  obtain ⟨tx₁, hcreate, hput⟩ := hput
  obtain ⟨-, -, -, haddr₁, -, hoff, -, -⟩ := Stored.createContent h hleaves hcreate
  have hcs : chunkSizeOf tx₁.db ctx.volume = chunkSizeOf tx.db ctx.volume := by
    rw [chunkSizeOf, chunkSizeOf, Db.volume?, Db.volume?, hoff.volumes (by simp)]
  split at hput
  next hdata =>
    obtain rfl := Except.ok.inj hput
    refine h.filled hleaves hV hempty rfl (Or.inr hdata) (fun _ => hdata) hcreate ?_
    have hnil : numbered 0 (pieces (chunkSizeOf tx.db ctx.volume) (data.map R.glance)) = [] := by
      rw [hdata, List.map_nil, pieces_nil, numbered_nil]
    rw [hnil]
    exact Staged.refl hal
  next hdata =>
    have hput' : (tx₁.gives n data).stageChunks C E k n 1 ctx.volume data = .ok tx' := by
      simpa only [hdata, if_false] using hput
    have haddr : (tx₁.gives n data).db.Addressed C := haddr₁
    obtain ⟨hstaged, hsize⟩ := stageChunks_staged hk haddr hput' hal
    have hcs' : chunkSizeOf (tx₁.gives n data).db ctx.volume = chunkSizeOf tx.db ctx.volume := hcs
    rw [hcs'] at hstaged hsize
    rw [if_neg hdata] at hcreate
    exact h.filled hleaves hV hempty rfl hsize (fun hv => absurd hv one_ne_zero) hcreate hstaged

end Aloelite
