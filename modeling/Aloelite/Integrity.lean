import Aloelite.EngineStrides

/-! Referential integrity of every reachable file: placements, mounts and volumes
point at nodes that exist, ids are unique, and no node is ever without a
placement, so that `prune` never deletes one. -/
namespace Aloelite

open Fallible KeyedRows ForestOrder Relation

variable {C : Crypto} {M : Msgpack} {E : Env} {L : License} {now : Int} {db db' : Db} {tx : Tx}

/-- PI-3: a node is volatile only while it is being made; every node has a
placement, archived or not, or is a volume's root. -/
def Db.Placed (db : Db) : Prop :=
  ∀ i ∈ db.identities, (∃ e ∈ db.edges, e.toId = i.1) ∨
    ∃ v ∈ db.volumes, v.rootNodeId = some i.1

structure Db.Sound (db : Db) : Prop where
  linked : db.Linked
  keyed : (db.identities.map Prod.fst).Nodup
  placed : db.Placed

/-- Each placement of the second file is one of the first, perhaps archived or
under another name. -/
def EdgesFrom (db db' : Db) : Prop :=
  ∀ e ∈ db'.edges, ∃ e₀ ∈ db.edges, e₀.fromId = e.fromId ∧ e₀.toId = e.toId

/-- No node loses its last placement. -/
def EdgesKept (db db' : Db) : Prop := ∀ e ∈ db.edges, ∃ e' ∈ db'.edges, e'.toId = e.toId

theorem Db.Linked.mono (hl : db.Linked) (hn : ∃ added, db'.identities = db.identities ++ added)
    (he : EdgesFrom db db') (hm : ∀ m ∈ db'.mounts, (db'.node? m.mountPoint).isSome)
    (hv : ∀ v ∈ db'.volumes, ∀ r, v.rootNodeId = some r → db'.nodeType? r = some .container) :
    db'.Linked := by
  refine ⟨?_, ?_, hm, hv⟩
  · intro e hmem
    obtain ⟨e₀, he₀, hf, -⟩ := he e hmem
    rw [← hf]
    exact nodeType?_persists hn (hl.parent e₀ he₀)
  · intro e hmem
    obtain ⟨e₀, he₀, -, ht⟩ := he e hmem
    rw [← ht]
    exact node?_isSome_persists hn (hl.child e₀ he₀)

/-- Archiving keeps every placement in the table. -/
theorem archiveWhere_edges (p : EdgeRow → Bool) :
    EdgesFrom db (db.archiveWhere now p) ∧ EdgesKept db (db.archiveWhere now p) := by
  constructor
  · intro e he
    obtain ⟨e₀, he₀, rfl⟩ := List.mem_map.mp he
    refine ⟨e₀, he₀, ?_⟩
    split <;> exact ⟨rfl, rfl⟩
  · intro e he
    refine ⟨_, List.mem_map_of_mem he, ?_⟩
    split <;> rfl

theorem renamePlacement_edges (parent n : NodeId) (old name : String) :
    EdgesFrom db (db.renamePlacement parent n old name) ∧
      EdgesKept db (db.renamePlacement parent n old name) := by
  constructor
  · intro e he
    obtain ⟨e₀, he₀, rfl⟩ := List.mem_map.mp he
    refine ⟨e₀, he₀, ?_⟩
    split <;> exact ⟨rfl, rfl⟩
  · intro e he
    refine ⟨_, List.mem_map_of_mem he, ?_⟩
    split <;> rfl

/-- A granted statement other than `create_edge` only archives or renames
placements. -/
theorem License.edges_of_grants {st : Stmt} (hst : L.grants db st) (h : st.exec now db = .ok db')
    (hne : ∀ id f t v n, st ≠ .createEdge id f t v n) : EdgesFrom db db' ∧ EdgesKept db db' := by
  by_cases ht : Table.edges ∈ st.touches
  · cases st with
    | createEdge id f t v n => exact absurd rfl (hne id f t v n)
    | archivePlacement parent n name =>
      obtain rfl := Except.ok.inj h
      exact archiveWhere_edges _
    | archiveEdge id =>
      obtain rfl := Except.ok.inj h
      exact archiveWhere_edges _
    | archiveSubtree root =>
      obtain rfl := Except.ok.inj h
      exact archiveWhere_edges _
    | renamePlacement parent n old name =>
      obtain rfl := Except.ok.inj h
      exact renamePlacement_edges parent n old name
    | _ => simp [Stmt.touches] at ht
  · have heq := (Stmt.exec_agreeOff h).edges ht
    constructor
    · intro e he
      exact ⟨e, heq ▸ he, rfl, rfl⟩
    · intro e he
      exact ⟨e, heq ▸ he, rfl⟩

/-- Granted statements never touch where a mount or a volume is anchored. -/
theorem License.anchors_of_grants {st : Stmt} (hst : L.grants db st) (h : st.exec now db = .ok db')
    (hl : db.Linked) :
    (∀ m ∈ db'.mounts, (db.node? m.mountPoint).isSome) ∧
      ∀ v ∈ db'.volumes, ∃ v₀ ∈ db.volumes, v₀.rootNodeId = v.rootNodeId := by
  have hframe := Stmt.exec_agreeOff h
  constructor
  · by_cases ht : Table.mounts ∈ st.touches
    · cases st with
      | createMount row =>
        obtain ⟨-, hrow, rfl⟩ := Db.createMount_ok h
        intro m hm
        rcases List.mem_append.mp hm with hm | hm
        · exact hl.anchor m hm
        · rw [List.mem_singleton.mp hm]
          exact hrow
      | setMountState mount state =>
        obtain rfl := Except.ok.inj h
        intro m hm
        rcases mem_amend.mp hm with ⟨hm, -⟩ | ⟨m₀, hm₀, -, rfl⟩
        · exact hl.anchor m hm
        · exact hl.anchor m₀ hm₀
      | renewMount mount expiresAt =>
        obtain rfl := Except.ok.inj h
        intro m hm
        rcases mem_amend.mp hm with ⟨hm, -⟩ | ⟨m₀, hm₀, -, rfl⟩
        · exact hl.anchor m hm
        · exact hl.anchor m₀ hm₀
      | _ => simp [Stmt.touches] at ht
    · rw [hframe.mounts ht]
      exact hl.anchor
  · by_cases ht : Table.volumes ∈ st.touches
    · cases st with
      | updateVolumeCrypto volume mode key nonce =>
        obtain rfl := Except.ok.inj h
        intro v hv
        rcases mem_amend.mp hv with ⟨hv, -⟩ | ⟨v₀, hv₀, -, rfl⟩
        · exact ⟨v, hv, rfl⟩
        · exact ⟨v₀, hv₀, rfl⟩
      | createVolume row => exact hst.elim
      | linkRoot volume root => exact hst.elim
      | _ => simp [Stmt.touches] at ht
    · rw [hframe.volumes ht]
      intro v hv
      exact ⟨v, hv, rfl⟩

/-- Volumes lose neither rows nor roots to a granted statement. -/
theorem License.roots_of_grants {st : Stmt} (hst : L.grants db st) (h : st.exec now db = .ok db') :
    ∀ v ∈ db.volumes, ∃ v' ∈ db'.volumes, v'.rootNodeId = v.rootNodeId := by
  by_cases ht : Table.volumes ∈ st.touches
  · cases st with
    | updateVolumeCrypto volume mode key nonce =>
      obtain rfl := Except.ok.inj h
      intro v hv
      by_cases hid : v.volumeId = volume
      · exact ⟨_, mem_amend.mpr (Or.inr ⟨v, hv, hid, rfl⟩), rfl⟩
      · exact ⟨v, mem_amend.mpr (Or.inl ⟨hv, hid⟩), rfl⟩
    | createVolume row => exact hst.elim
    | linkRoot volume root => exact hst.elim
    | _ => simp [Stmt.touches] at ht
  · rw [(Stmt.exec_agreeOff h).volumes ht]
    intro v hv
    exact ⟨v, hv, rfl⟩

/-- Integrity survives a change that extends the nodes, keeps every placement
and anchors everything at nodes. -/
theorem Db.Placed.mono (hp : db.Placed) (hid : db'.identities = db.identities)
    (he : EdgesKept db db')
    (hv : ∀ v ∈ db.volumes, ∃ v' ∈ db'.volumes, v'.rootNodeId = v.rootNodeId) : db'.Placed := by
  intro i hi
  rw [hid] at hi
  rcases hp i hi with ⟨e, hmem, hto⟩ | ⟨v, hmem, hroot⟩
  · obtain ⟨e', hmem', hto'⟩ := he e hmem
    exact Or.inl ⟨e', hmem', hto'.trans hto⟩
  · obtain ⟨v', hmem', hroot'⟩ := hv v hmem
    exact Or.inr ⟨v', hmem', hroot'.trans hroot⟩

theorem Stride.sound_stmt {st : Stmt} (hst : L.grants db st) (h : st.exec now db = .ok db')
    (hs : db.Sound) : db'.Sound := by
  have hid := (Stmt.exec_agreeOff h).identities (L.not_identities db st hst)
  have hext : ∃ added, db'.identities = db.identities ++ added := ⟨[], by simp [hid]⟩
  obtain ⟨hm, hv⟩ := License.anchors_of_grants hst h hs.linked
  have hm' : ∀ m ∈ db'.mounts, (db'.node? m.mountPoint).isSome :=
    fun m hmem => node?_isSome_persists hext (hm m hmem)
  have hv' : ∀ v ∈ db'.volumes, ∀ r, v.rootNodeId = some r → db'.nodeType? r = some .container := by
    intro v hmem r hr
    obtain ⟨v₀, hv₀, heq⟩ := hv v hmem
    exact nodeType?_persists hext (hs.linked.root v₀ hv₀ r (heq.trans hr))
  refine ⟨?_, by rw [hid]; exact hs.keyed, ?_⟩
  · by_cases hedge : ∃ id f t v n, st = .createEdge id f t v n
    · obtain ⟨id, f, t, v, n, rfl⟩ := hedge
      obtain ⟨src, dst, hsrc, hdst, -, hcont, -, -, -, rfl⟩ := Db.createEdge_ok h
      refine ⟨?_, ?_, hm', hv'⟩
      · intro e he
        rcases List.mem_append.mp he with he | he
        · exact hs.linked.parent e he
        · rw [List.mem_singleton.mp he]
          show (db.node? f).map NodeRow.type = _
          rw [hsrc, Option.map_some, hcont]
      · intro e he
        rcases List.mem_append.mp he with he | he
        · exact hs.linked.child e he
        · rw [List.mem_singleton.mp he]
          exact Option.isSome_iff_exists.mpr ⟨dst, hdst⟩
    · have hne : ∀ id f t v n, st ≠ .createEdge id f t v n :=
        fun id f t v n heq => hedge ⟨id, f, t, v, n, heq⟩
      exact hs.linked.mono hext (License.edges_of_grants hst h hne).1 hm' hv'
  · refine hs.placed.mono hid ?_ (License.roots_of_grants hst h)
    by_cases hedge : ∃ id f t v n, st = .createEdge id f t v n
    · obtain ⟨id, f, t, v, n, rfl⟩ := hedge
      obtain ⟨src, dst, -, -, -, -, -, -, -, rfl⟩ := Db.createEdge_ok h
      exact fun e he => ⟨e, List.mem_append_left _ he, rfl⟩
    · have hne : ∀ id f t v n, st ≠ .createEdge id f t v n :=
        fun id f t v n heq => hedge ⟨id, f, t, v, n, heq⟩
      exact (License.edges_of_grants hst h hne).2

/-- A birth, as the file shows it afterwards: one more node and one more
placement, of that node. -/
theorem birth_shape {db₁ db₂ : Db} {row : NodeRow} {modifiedAt : Option Int} {id : EdgeId}
    {f : NodeId} (hrow : db.createNode row modifiedAt = .ok db₁)
    (hfill : Steps (Fills row.nodeId) now db₁ db₂)
    (hedge : db₂.createEdge now id f row.nodeId row.volumeId none = .ok db') :
    db.node? row.nodeId = none ∧ db'.nodes = db.nodes ++ [row] ∧ db'.mounts = db.mounts ∧
      db'.volumes = db.volumes ∧ db'.locks = db.locks ∧ db'.xattrs = db.xattrs ∧
      db'.nodeType? f = some .container ∧
      db'.edges = db.edges ++ [{ edgeId := id, fromId := f, toId := row.nodeId,
                                 volumeId := row.volumeId, name := row.name }] := by
  obtain ⟨hnone, -, rfl⟩ := Db.createNode_ok hrow
  have hframe := Fills.agreeOff hfill
  have hnodes := hframe.nodes (by simp)
  obtain ⟨src, dst, hsrc, hdst, -, hcont, -, -, -, rfl⟩ := Db.createEdge_ok hedge
  have hself : db₂.node? row.nodeId = some row := by
    rw [Db.node?, hnodes]
    exact lookup_append_self hnone
  obtain rfl := Option.some.inj (hdst.symm.trans hself)
  refine ⟨hnone, hnodes, hframe.mounts (by simp), hframe.volumes (by simp), hframe.locks (by simp),
    hframe.xattrs (by simp), ?_, ?_⟩
  · show (db₂.node? f).map NodeRow.type = _
    rw [hsrc, Option.map_some, hcont]
  · simp [hframe.edges (by simp)]

theorem Stride.sound (h : Stride L now db db') (hs : db.Sound) : db'.Sound := by
  have hext := h.identities
  cases h with
  | stmt st hst hexec => exact Stride.sound_stmt hst hexec hs
  | birth row modifiedAt id f hhost hf hrow hfill hedge =>
    obtain ⟨hnone, hnodes, hmounts, hvolumes, -, -, hparent, hedges⟩ := birth_shape hrow hfill hedge
    have hids : db'.identities = db.identities ++ [row.identity] := by simp [Db.identities, hnodes]
    have hnew : (db'.node? row.nodeId).isSome := by
      rw [Db.node?, hnodes, lookup_append_self hnone]
      rfl
    refine ⟨⟨?_, ?_, ?_, ?_⟩, ?_, ?_⟩
    · intro e he
      rw [hedges] at he
      rcases List.mem_append.mp he with he | he
      · exact nodeType?_persists hext (hs.linked.parent e he)
      · rw [List.mem_singleton.mp he]
        exact hparent
    · intro e he
      rw [hedges] at he
      rcases List.mem_append.mp he with he | he
      · exact node?_isSome_persists hext (hs.linked.child e he)
      · rw [List.mem_singleton.mp he]
        exact hnew
    · intro m hm
      rw [hmounts] at hm
      exact node?_isSome_persists hext (hs.linked.anchor m hm)
    · intro v hv r hr
      rw [hvolumes] at hv
      exact nodeType?_persists hext (hs.linked.root v hv r hr)
    · rw [hids]
      have hfresh : lookup Prod.fst db.identities row.identity.1 = none := by
        rw [Db.lookup_identities]
        show (db.node? row.nodeId).map NodeRow.identity = none
        rw [hnone]
        rfl
      exact keyed_append hs.keyed hfresh
    · intro i hi
      rw [hids] at hi
      rcases List.mem_append.mp hi with hi | hi
      · rcases hs.placed i hi with ⟨e, he, hto⟩ | ⟨v, hv, hr⟩
        · exact Or.inl ⟨e, by rw [hedges]; exact List.mem_append_left _ he, hto⟩
        · exact Or.inr ⟨v, by rw [hvolumes]; exact hv, hr⟩
      · rw [List.mem_singleton.mp hi]
        refine Or.inl ⟨_,
          by rw [hedges]; exact List.mem_append_right _ (List.mem_singleton_self _), ?_⟩
        rfl

theorem Strides.sound (h : Strides L now db db') (hs : db.Sound) : db'.Sound := by
  induction h with
  | refl => exact hs
  | tail _ hstride ih => exact hstride.sound ih

/-! ### Founding a volume -/

/-- The root container a new volume gets. -/
def foundedRoot (E : Env) (tx : Tx) : NodeRow :=
  { nodeId := E.ids tx.idCount, type := .container, name := "/", createdAt := E.now,
    volumeId := E.uuid }

/-- The row of a new volume, its key sealed when there is a pin. -/
def foundedVolume (C : Crypto) (E : Env) (tx : Tx) (name : Option String) (chunkSize : ℕ)
    (pin : Option Bytes) (mode : EncMode) : VolumeRow :=
  { volumeId := E.uuid
    rootNodeId := some (E.ids tx.idCount)
    name := name
    createdAt := E.now
    chunkSize := chunkSize
    encMode := if pin.isSome then mode else .none
    wrappedKey := pin.map (fun p =>
      C.encrypt (C.deriveUnlockKey p (C.volumeHash E.uuid (E.ids tx.idCount)))
        (E.random (tx.randomCount + 1)) (E.random tx.randomCount))
    wrapNonce := pin.map (fun _ => E.random (tx.randomCount + 1)) }

theorem amend_twice_append_fresh {rows : List VolumeRow} {row : VolumeRow}
    (f g : VolumeRow → VolumeRow) (hf : (f row).volumeId = row.volumeId)
    (hnone : lookup VolumeRow.volumeId rows row.volumeId = none) :
    amend VolumeRow.volumeId (amend VolumeRow.volumeId (rows ++ [row]) row.volumeId f)
      row.volumeId g = rows ++ [g (f row)] := by
  rw [amend_append_fresh f hnone, ← hf]
  exact amend_append_fresh g (by rw [hf]; exact hnone)

/-- What a successful `create_volume` makes of a file: a volume, its root
container, and nothing else. -/
theorem createVolume_shape {tx' : Tx} {name : Option String} {chunkSize : ℕ} {pin : Option Bytes}
    {mode : EncMode} {v : VolumeId}
    (h : createVolume C E tx name chunkSize pin mode = .ok (tx', v)) :
    v = E.uuid ∧ tx.db.node? (E.ids tx.idCount) = none ∧ tx.db.volume? E.uuid = none ∧
      tx'.db.nodes = tx.db.nodes ++ [foundedRoot E tx] ∧
      tx'.db.volumes = tx.db.volumes ++ [foundedVolume C E tx name chunkSize pin mode] ∧
      AgreeOff [.identities, .nodes, .volumes] tx.db tx'.db ∧ tx'.committed = tx.committed ∧
      tx'.aliased = tx.aliased := by
  simp only [createVolume, Tx.mint, bind_eq_ok] at h
  obtain ⟨tx₁, hvol, tx₂, hnode, tx₃, hroot, h⟩ := h
  obtain ⟨db₁, hvol', rfl⟩ := Tx.run_ok.mp hvol
  obtain ⟨hfreshVol, rfl⟩ := Db.createVolume_ok hvol'
  obtain ⟨db₂, hnode', rfl⟩ := Tx.run_ok.mp hnode
  obtain ⟨hfresh, -, rfl⟩ := Db.createNode_ok hnode'
  obtain ⟨db₃, hroot', rfl⟩ := Tx.run_ok.mp hroot
  obtain ⟨-, rfl⟩ := Db.linkRoot_ok hroot'
  cases pin with
  | none =>
    simp only [pure_eq_ok, Prod.mk.injEq] at h
    obtain ⟨rfl, rfl⟩ := h
    refine ⟨rfl, hfresh, hfreshVol, rfl, ?_, ?_, rfl, rfl⟩
    · exact amend_append_fresh _ hfreshVol
    · constructor <;> simp
  | some p =>
    simp only [bind_eq_ok, pure_eq_ok, Prod.mk.injEq] at h
    obtain ⟨tx₄, hcrypto, rfl, rfl⟩ := h
    obtain ⟨db₄, hcrypto', rfl⟩ := Tx.run_ok.mp hcrypto
    obtain rfl := Except.ok.inj hcrypto'
    refine ⟨rfl, hfresh, hfreshVol, rfl, ?_, ?_, rfl, rfl⟩
    · exact amend_twice_append_fresh _ _ rfl hfreshVol
    · constructor <;> simp [Db.updateVolumeCrypto]

theorem createVolume_sound {tx' : Tx} {name : Option String} {chunkSize : ℕ} {pin : Option Bytes}
    {mode : EncMode} {v : VolumeId}
    (h : createVolume C E tx name chunkSize pin mode = .ok (tx', v)) (hs : tx.db.Sound) :
    tx'.db.Sound := by
  obtain ⟨-, hfresh, -, hnodes, hvolumes, hframe, -, -⟩ := createVolume_shape h
  have hids : tx'.db.identities = tx.db.identities ++ [(foundedRoot E tx).identity] := by
    simp [Db.identities, hnodes]
  have hext : ∃ added, tx'.db.identities = tx.db.identities ++ added := ⟨_, hids⟩
  have hedges := hframe.edges (by simp)
  have hnew : tx'.db.node? (E.ids tx.idCount) = some (foundedRoot E tx) := by
    rw [Db.node?, hnodes]
    exact lookup_append_self hfresh
  refine ⟨hs.linked.mono hext ?_ ?_ ?_, ?_, ?_⟩
  · intro e he
    exact ⟨e, hedges ▸ he, rfl, rfl⟩
  · intro m hm
    rw [hframe.mounts (by simp)] at hm
    exact node?_isSome_persists hext (hs.linked.anchor m hm)
  · intro r hr root hroot
    rw [hvolumes] at hr
    rcases List.mem_append.mp hr with hr | hr
    · exact nodeType?_persists hext (hs.linked.root r hr root hroot)
    · rw [List.mem_singleton.mp hr] at hroot
      obtain rfl := Option.some.inj hroot
      show (tx'.db.node? _).map NodeRow.type = _
      rw [hnew]
      rfl
  · rw [hids]
    have hfree : lookup Prod.fst tx.db.identities (foundedRoot E tx).identity.1 = none := by
      rw [Db.lookup_identities]
      show (tx.db.node? (E.ids tx.idCount)).map NodeRow.identity = none
      rw [hfresh]
      rfl
    exact keyed_append hs.keyed hfree
  · intro i hi
    rw [hids] at hi
    rcases List.mem_append.mp hi with hi | hi
    · rcases hs.placed i hi with ⟨e, he, hto⟩ | ⟨r, hr, hroot⟩
      · exact Or.inl ⟨e, by rw [hedges]; exact he, hto⟩
      · exact Or.inr ⟨r, by rw [hvolumes]; exact List.mem_append_left _ hr, hroot⟩
    · rw [List.mem_singleton.mp hi]
      exact Or.inr ⟨_,
        by rw [hvolumes]; exact List.mem_append_right _ (List.mem_singleton_self _), rfl⟩

/-! ### Pruning -/

/-- PI-3 at work: no node of a sound file is volatile, so there is none to
prune. -/
theorem prunableNodes_eq_nil (hs : db.Sound) (volume : Option VolumeId) :
    db.prunableNodes volume = [] := by
  rw [Db.prunableNodes, List.map_eq_nil_iff, List.filter_eq_nil_iff]
  intro r hr hp
  simp only [Db.isVolatile, Bool.and_eq_true, Bool.not_eq_true', List.any_eq_false,
    decide_eq_true_eq] at hp
  rcases hs.placed r.identity (List.mem_map_of_mem hr) with ⟨e, he, hto⟩ | ⟨v, hv, hroot⟩
  · exact hp.1.1 e he hto
  · exact hp.1.2 v hv hroot

/-- `prune` on a sound file only drops locks. -/
theorem prune_shape {tx' : Tx} {volume : Option VolumeId} {r : ℕ × ℕ}
    (h : prune E tx volume = .ok (tx', r)) (hs : tx.db.Sound) :
    tx' = { tx with db := tx.db.pruneLocks E.now } := by
  simp only [prune, bind_eq_ok, pure_eq_ok, Prod.mk.injEq] at h
  obtain ⟨tx₁, hlocks, tx₂, hnodes, rfl, -⟩ := h
  obtain ⟨db₁, hlocks', rfl⟩ := Tx.run_ok.mp hlocks
  obtain rfl := Except.ok.inj hlocks'
  obtain ⟨db₂, hnodes', rfl⟩ := Tx.run_ok.mp hnodes
  obtain ⟨-, -, rfl⟩ := Db.pruneNodes_ok hnodes'
  have hnil : (tx.db.pruneLocks E.now).prunableNodes volume = [] := prunableNodes_eq_nil hs volume
  simp only [hnil, List.not_mem_nil, not_false_eq_true, decide_true, List.filter_true]

theorem pruneContent_shape {tx' : Tx} {volume : Option VolumeId} {r : ℕ × ℕ}
    (h : pruneContent E tx volume = .ok (tx', r)) :
    tx' = { tx with db := (tx.db.pruneContentVersions E.now volume).pruneContentChunks } := by
  simp only [pruneContent, bind_eq_ok, pure_eq_ok, Prod.mk.injEq] at h
  obtain ⟨tx₁, hversions, tx₂, hchunks, rfl, -⟩ := h
  obtain ⟨db₁, hversions', rfl⟩ := Tx.run_ok.mp hversions
  obtain rfl := Except.ok.inj hversions'
  obtain ⟨db₂, hchunks', rfl⟩ := Tx.run_ok.mp hchunks
  obtain rfl := Except.ok.inj hchunks'
  rfl

/-! ### Reachable states -/

variable {s : Sys} {c : ConnId} {op : Op}

theorem Effect.sound (h : Effect C E s op db) (hs : s.db.Sound) : db.Sound := by
  cases h with
  | strides h => exact h.sound hs
  | founding h => exact createVolume_sound h hs
  | prune h =>
    rw [prune_shape h hs]
    exact ⟨⟨hs.linked.parent, hs.linked.child, hs.linked.anchor, hs.linked.root⟩,
      hs.keyed, hs.placed⟩
  | pruneContent h =>
    rw [pruneContent_shape h]
    exact ⟨⟨hs.linked.parent, hs.linked.child, hs.linked.anchor, hs.linked.root⟩,
      hs.keyed, hs.placed⟩

theorem step_sound {l : Label} (hs : s.db.Sound) : (step C M s l).db.Sound :=
  (exec_effect hs.linked).sound hs

theorem empty_sound : Db.Sound {} := by
  refine ⟨⟨?_, ?_, ?_, ?_⟩, ?_, ?_⟩
  · intro e he
    cases he
  · intro e he
    cases he
  · intro m hm
    cases hm
  · intro v hv
    cases hv
  · exact List.nodup_nil
  · intro i hi
    cases hi

/-- Referential integrity holds in every state the engine reaches. -/
theorem Reaches.sound {guard : Sys → Label → Prop} (h : Reaches C M guard s) : s.db.Sound := by
  refine GuardedRuns.Run.invariant (P := fun s : Sys => s.db.Sound) ?_ h empty_sound
  intro s l _ hs
  exact step_sound hs

end Aloelite
