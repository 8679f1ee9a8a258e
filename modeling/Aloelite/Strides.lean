import Aloelite.StoreEffects
import Aloelite.Descent
import Aloelite.Transactions

/-! What an operation may do to a file, as a chain of strides: one granted
statement, or the birth of one node from its row to its placement. Every
invariant is proved of a stride once, and then holds of every operation. -/
namespace Aloelite

open Fallible KeyedRows ForestOrder Relation

/-- Statements that satisfy `P`, one after another. -/
def Steps (P : Db → Stmt → Prop) (now : Int) : Db → Db → Prop :=
  ReflTransGen (fun db db' => ∃ st, P db st ∧ st.exec now db = .ok db')

/-- The statements that fill a node before it is placed. -/
def Fills (n : NodeId) (_ : Db) : Stmt → Prop
  | .createContent m _ _ => m = n
  | .upsertChunk _ => True
  | .insertChunkRef row => row.contentId = n
  | .copyChunkRefs dst _ _ _ => dst = n
  | _ => False

/-- What one operation is entitled to: the containers that may receive a
placement, the one node already placed that may get another, the placements that
may be archived or renamed, the versions that may be written, and whether mounts,
locks and volume keys may change. -/
structure License where
  host : NodeId → Prop
  adopt : Option (NodeId × NodeId)
  detach : EdgeRow → Prop
  write : NodeId → ℕ → Prop
  session : Prop

namespace License

/-- The statements a license grants outside births. -/
def grants (L : License) (db : Db) : Stmt → Prop
  | .createEdge _ f t _ _ => L.adopt = some (f, t) ∧ L.host f
  | .archivePlacement parent n name =>
    ∀ e ∈ db.activeEdges, Db.isPlacement parent n name e = true → L.detach e
  | .archiveEdge id => ∀ e ∈ db.activeEdges, e.edgeId = id → L.detach e
  | .archiveSubtree root => ∀ e ∈ db.activeEdges, e.toId ∈ db.subtreeIds root → L.detach e
  | .renamePlacement parent n old _ =>
    ∀ e ∈ db.activeEdges, Db.isPlacement parent n old e = true → L.detach e
  -- the statements that move a pointer or add rows, by the version they are of
  | .updateContent n version _ => L.write n version
  | .insertChunkRef row => L.write row.contentId row.version
  | .copyChunkRefs dst version _ _ => L.write dst version
  | .copyChunkRefsRange n version _ _ _ => L.write n version
  | .renameNodeIfSole .. | .upsertChunk .. | .setRetentionKeep .. | .setOwner .. | .setAtime ..
  | .setModifiedAt .. | .setMetadata .. | .xattrSet .. | .xattrRemove .. => True
  | .updateVolumeCrypto .. | .createMount .. | .setMountState .. | .renewMount .. | .createLock ..
  | .releaseLock .. | .renewLock .. => L.session
  | _ => False

end License

/-- One granted statement, or one birth: the row, what fills it, the placement
under a host that was there before. -/
inductive Stride (L : License) (now : Int) : Db → Db → Prop
  | stmt {db db' : Db} (st : Stmt) (hst : L.grants db st) (h : st.exec now db = .ok db') :
    Stride L now db db'
  | birth {db db₁ db₂ db' : Db} (row : NodeRow) (modifiedAt : Option Int) (id : EdgeId) (f : NodeId)
      (hhost : L.host f) (hf : (db.node? f).isSome)
      (hrow : db.createNode row modifiedAt = .ok db₁) (hfill : Steps (Fills row.nodeId) now db₁ db₂)
      (hedge : db₂.createEdge now id f row.nodeId row.volumeId none = .ok db') :
    Stride L now db db'

/-- An operation's effect. -/
def Strides (L : License) (now : Int) : Db → Db → Prop := ReflTransGen (Stride L now)

/-- The usual license through a mount anchored at `a`: placements in the subtree
of `a` or under what the operation itself made, and one new version of an
entry. -/
def License.standard (db : Db) (a : NodeId) : License where
  host f := db.Below a f ∨ db.node? f = none
  adopt := none
  detach e := db.Below a e.fromId
  write n version := version = db.nextVersion n
  session := False

/-- A license that also lets one placed node have another placement. -/
def License.adopting (L : License) (pair : Option (NodeId × NodeId)) : License :=
  { L with adopt := pair }

/-- A license that also lets the placements of `p` be archived. -/
def License.detaching (L : License) (p : EdgeRow → Prop) : License :=
  { L with detach := fun e => L.detach e ∨ p e }

/-- A license for an operation on mounts, locks or keys. -/
def License.inSession (L : License) : License := { L with session := True }

variable {C : Crypto} {E : Env} {k : Cipher} {L : License} {now : Int} {db db' : Db}
  {tx tx' : Tx} {P : Db → Stmt → Prop}

/-- A license that also lets nodes be placed under the containers of `p`. -/
def License.hosting (L : License) (p : NodeId → Prop) : License :=
  { L with host := fun f => L.host f ∨ p f }

/-- What a license grants it also grants in session. -/
theorem Stride.inSession (h : Stride L now db db') : Stride L.inSession now db db' := by
  cases h with
  | stmt st hst hexec =>
    refine Stride.stmt st ?_ hexec
    cases st <;> first | exact hst | exact trivial
  | birth row modifiedAt id f hhost hf hrow hfill hedge =>
    exact Stride.birth row modifiedAt id f hhost hf hrow hfill hedge

theorem Strides.inSession (h : Strides L now db db') : Strides L.inSession now db db' :=
  ReflTransGen.mono (fun _ _ hs => hs.inSession) _ _ h

/-! ### Nodes persist -/

theorem Steps.agreeOff {ts : List Table} (hP : ∀ db st, P db st → st.touches ⊆ ts)
    (h : Steps P now db db') : AgreeOff ts db db' := by
  induction h with
  | refl => exact AgreeOff.refl ts db
  | tail _ hstep ih =>
    obtain ⟨st, hst, hexec⟩ := hstep
    exact ih.trans ((Stmt.exec_agreeOff hexec).weaken (hP _ st hst))

/-- Filling a node leaves everything but content alone. -/
theorem Fills.agreeOff {n : NodeId} (h : Steps (Fills n) now db db') :
    AgreeOff [.contents, .chunks, .versions] db db' := by
  refine Steps.agreeOff ?_ h
  intro db st hst
  cases st <;> first | exact hst.elim | simp [Stmt.touches]

theorem License.not_identities (L : License) (db : Db) (st : Stmt) (h : L.grants db st) :
    .identities ∉ st.touches := by
  cases st <;> first | exact h.elim | simp [Stmt.touches]

/-- A stride keeps every node with its type and volume, and a birth adds its
own. -/
theorem Stride.identities (h : Stride L now db db') :
    ∃ added, db'.identities = db.identities ++ added := by
  cases h with
  | stmt st hst hexec =>
    exact ⟨[], by simp [(Stmt.exec_agreeOff hexec).identities (L.not_identities db st hst)]⟩
  | @birth db₁ db₂ _ row modifiedAt id f hhost hf hrow hfill hedge =>
    refine ⟨[row.identity], ?_⟩
    have hexec : (Stmt.createEdge id f row.nodeId row.volumeId none).exec now db₂ = .ok db' := hedge
    obtain ⟨-, -, rfl⟩ := Db.createNode_ok hrow
    rw [(Stmt.exec_agreeOff hexec).identities (by simp [Stmt.touches]),
      (Fills.agreeOff hfill).identities (by simp)]
    simp [Db.identities]

theorem Strides.identities (h : Strides L now db db') :
    ∃ added, db'.identities = db.identities ++ added := by
  induction h with
  | refl => exact ⟨[], by simp⟩
  | tail _ hstride ih =>
    obtain ⟨added, hadded⟩ := ih
    obtain ⟨more, hmore⟩ := hstride.identities
    exact ⟨added ++ more, by rw [hmore, hadded, List.append_assoc]⟩

theorem lookup_identities_persists {n : NodeId} {i : NodeId × NodeType × VolumeId × Int}
    (h : ∃ added, db'.identities = db.identities ++ added)
    (hi : lookup Prod.fst db.identities n = some i) :
    lookup Prod.fst db'.identities n = some i := by
  obtain ⟨added, hadded⟩ := h
  rw [hadded]
  exact lookup_append_of_some hi added

theorem nodeType?_persists {n : NodeId} {type : NodeType}
    (h : ∃ added, db'.identities = db.identities ++ added) (ht : db.nodeType? n = some type) :
    db'.nodeType? n = some type := by
  rw [Db.nodeType?_eq, Option.map_eq_some_iff] at ht ⊢
  obtain ⟨i, hi, hit⟩ := ht
  exact ⟨i, lookup_identities_persists h hi, hit⟩

theorem node?_isSome_persists {n : NodeId} (h : ∃ added, db'.identities = db.identities ++ added)
    (hn : (db.node? n).isSome) : (db'.node? n).isSome := by
  rw [Db.node?_isSome_eq] at hn ⊢
  obtain ⟨i, hi⟩ := Option.isSome_iff_exists.mp hn
  rw [lookup_identities_persists h hi]
  rfl

/-! ### Single functions -/

theorem Tx.run_ok {st : Stmt} :
    tx.run E st = .ok tx' ↔ ∃ db', st.exec E.now tx.db = .ok db' ∧ tx' = { tx with db := db' } := by
  simp only [Tx.run, bind_eq_ok, pure_eq_ok]
  constructor
  · rintro ⟨db', h, rfl⟩
    exact ⟨db', h, rfl⟩
  · rintro ⟨db', h, rfl⟩
    exact ⟨db', h, rfl⟩

theorem Tx.run_steps {st : Stmt} (h : tx.run E st = .ok tx') (hst : P tx.db st) :
    Steps P E.now tx.db tx'.db := by
  obtain ⟨db', hexec, rfl⟩ := Tx.run_ok.mp h
  exact ReflTransGen.single ⟨st, hst, hexec⟩

theorem Tx.run_strides {st : Stmt} (h : tx.run E st = .ok tx') (hst : L.grants tx.db st) :
    Strides L E.now tx.db tx'.db := by
  obtain ⟨db', hexec, rfl⟩ := Tx.run_ok.mp h
  exact ReflTransGen.single (Stride.stmt st hst hexec)

theorem Steps.strides (h : Steps P now db db') (hP : ∀ db st, P db st → L.grants db st) :
    Strides L now db db' := by
  refine ReflTransGen.mono ?_ db db' h
  intro a b hstep
  obtain ⟨st, hst, hexec⟩ := hstep
  exact Stride.stmt st (hP a st hst) hexec

/-- Staging touches the pool and one version of one entry. -/
def Stages (n : NodeId) (version : ℕ) (_ : Db) : Stmt → Prop
  | .upsertChunk _ => True
  | .insertChunkRef row => row.contentId = n ∧ row.version = version
  | _ => False

theorem Tx.stageChunk_steps {n : NodeId} {version index : ℕ} {data : Bytes}
    (h : tx.stageChunk C E k n version index data = .ok tx') :
    Steps (Stages n version) E.now tx.db tx'.db := by
  simp only [Tx.stageChunk, bind_eq_ok] at h
  obtain ⟨tx₁, hup, href⟩ := h
  have hfirst := Tx.run_steps (P := Stages n version) hup trivial
  exact hfirst.trans (Tx.run_steps href ⟨rfl, rfl⟩)

theorem Tx.stageFrom_steps {n : NodeId} {version index : ℕ} {chunks : List Bytes}
    (h : tx.stageFrom C E k n version index chunks = .ok tx') :
    Steps (Stages n version) E.now tx.db tx'.db := by
  induction chunks generalizing tx index with
  | nil =>
    obtain rfl := Except.ok.inj h
    exact ReflTransGen.refl
  | cons chunk chunks ih =>
    simp only [Tx.stageFrom, bind_eq_ok] at h
    obtain ⟨tx₁, hchunk, hrest⟩ := h
    exact (Tx.stageChunk_steps hchunk).trans (ih hrest)

theorem Tx.stageChunks_steps {n : NodeId} {version : ℕ} {volume : VolumeId} {data : Bytes}
    (h : tx.stageChunks C E k n version volume data = .ok tx') :
    Steps (Stages n version) E.now tx.db tx'.db := by
  simp only [Tx.stageChunks, bind_eq_ok] at h
  obtain ⟨chunks, -, hstage⟩ := h
  exact Tx.stageFrom_steps hstage

theorem Stages.fills {n : NodeId} {version : ℕ} (db : Db) (st : Stmt) (h : Stages n version db st) :
    Fills n db st := by
  cases st with
  | upsertChunk row => trivial
  | insertChunkRef row => exact h.1
  | _ => exact h.elim

theorem Stages.granted {n : NodeId} {version : ℕ} (hw : L.write n version) (db : Db) (st : Stmt)
    (h : Stages n version db st) : L.grants db st := by
  cases st with
  | upsertChunk row => trivial
  | insertChunkRef row =>
    obtain ⟨rfl, rfl⟩ := h
    exact hw
  | _ => exact h.elim

theorem Stages.agreeOff {n : NodeId} {version : ℕ} (h : Steps (Stages n version) now db db') :
    AgreeOff [.chunks, .versions] db db' := by
  refine Steps.agreeOff ?_ h
  intro db st hst
  cases st <;> first | exact hst.elim | simp [Stmt.touches]

theorem putInitialContent_steps {m : MountCtx} {n : NodeId} {data : Bytes}
    (h : putInitialContent C E k tx m n data = .ok tx') : Steps (Fills n) E.now tx.db tx'.db := by
  simp only [putInitialContent, bind_eq_ok] at h
  obtain ⟨tx₁, hcreate, h⟩ := h
  have hfirst := Tx.run_steps (P := Fills n) hcreate rfl
  split at h
  · obtain rfl := Except.ok.inj h
    exact hfirst
  · have hrest := Tx.stageChunks_steps h
    refine hfirst.trans (ReflTransGen.mono ?_ _ _ hrest)
    intro a b hstep
    obtain ⟨st, hst, hexec⟩ := hstep
    exact ⟨st, Stages.fills a st hst, hexec⟩

theorem newNode_ok {m : MountCtx} {type : NodeType} {name : String}
    {createdAt modifiedAt : Option Int} {metadata : Metadata} {n : NodeId}
    (h : newNode E tx m type name createdAt modifiedAt metadata = .ok (tx', n)) :
    n = E.ids tx.idCount ∧ ∃ db₁,
      tx.db.createNode
        { nodeId := n, type := type, name := name, createdAt := createdAt.getD E.now,
          volumeId := m.volume, metadata := metadata } modifiedAt = .ok db₁ ∧
      tx' = { tx with idCount := tx.idCount + 1, db := db₁ } := by
  simp only [newNode, Tx.mint, bind_eq_ok, pure_eq_ok, Tx.run_ok, Stmt.exec, Prod.mk.injEq] at h
  obtain ⟨tx₁, ⟨db₁, hcreate, rfl⟩, rfl, rfl⟩ := h
  exact ⟨rfl, db₁, hcreate, rfl⟩

theorem linkChild_ok {m : MountCtx} {parent child : NodeId} {name : Option String}
    (h : linkChild E tx m parent child name = .ok tx') :
    ∃ db₁, tx.db.createEdge E.now (E.ids tx.idCount) parent child m.volume name = .ok db₁ ∧
      tx' = { tx with idCount := tx.idCount + 1, db := db₁ } := by
  simp only [linkChild, Tx.mint, Tx.run_ok, Stmt.exec] at h
  exact h

theorem newNode_of_ok {m : MountCtx} {type : NodeType} {name : String}
    {createdAt modifiedAt : Option Int} {metadata : Metadata} {db₁ : Db}
    (h : tx.db.createNode
      { nodeId := E.ids tx.idCount, type := type, name := name, createdAt := createdAt.getD E.now,
        volumeId := m.volume, metadata := metadata } modifiedAt = .ok db₁) :
    newNode E tx m type name createdAt modifiedAt metadata =
      .ok ({ tx with idCount := tx.idCount + 1, db := db₁ }, E.ids tx.idCount) := by
  simp only [newNode, Tx.mint, Tx.run, Stmt.exec, h, ok_bind]
  rfl

theorem linkChild_of_ok {m : MountCtx} {parent child : NodeId} {name : Option String} {db₁ : Db}
    (h : tx.db.createEdge E.now (E.ids tx.idCount) parent child m.volume name = .ok db₁) :
    linkChild E tx m parent child name =
      .ok { tx with idCount := tx.idCount + 1, db := db₁ } := by
  simp only [linkChild, Tx.mint, Tx.run, Stmt.exec, h, ok_bind]
  rfl

theorem linkChild_strides {m : MountCtx} {parent child : NodeId} {name : Option String}
    (h : linkChild E tx m parent child name = .ok tx') (hadopt : L.adopt = some (parent, child))
    (hhost : L.host parent) : Strides L E.now tx.db tx'.db := by
  obtain ⟨db₁, hedge, rfl⟩ := linkChild_ok h
  exact ReflTransGen.single (Stride.stmt (.createEdge (E.ids tx.idCount) parent child m.volume name)
    ⟨hadopt, hhost⟩ hedge)

/-- A new node, filled and placed under a host, is one birth. -/
theorem birth_strides {m : MountCtx} {type : NodeType} {name : String}
    {createdAt modifiedAt : Option Int} {metadata : Metadata} {n parent : NodeId} {tx₁ tx₂ : Tx}
    (hnew : newNode E tx m type name createdAt modifiedAt metadata = .ok (tx₁, n))
    (hfill : Steps (Fills n) E.now tx₁.db tx₂.db)
    (hlink : linkChild E tx₂ m parent n none = .ok tx') (hhost : L.host parent)
    (hparent : (tx.db.node? parent).isSome) :
    Strides L E.now tx.db tx'.db := by
  obtain ⟨-, db₁, hrow, rfl⟩ := newNode_ok hnew
  obtain ⟨db₂, hedge, rfl⟩ := linkChild_ok hlink
  exact ReflTransGen.single (Stride.birth _ modifiedAt _ parent hhost hparent hrow hfill hedge)

theorem requireMount_ok {mount : MountId} {write : Bool} {m : MountCtx}
    (h : requireMount E k db mount write = .ok m) :
    ∃ row volume, db.validMount? E.now mount = some row ∧ db.volume? row.volumeId = some volume ∧
      (volume.encMode ≠ .none ↔ k.encrypts = true) ∧
      m = ⟨mount, row.mountPoint, row.volumeId, volume.encMode⟩ := by
  simp only [requireMount, bind_eq_ok, orRaise_eq_ok, refuse_eq_ok, pure_eq_ok] at h
  obtain ⟨row, hrow, volume, hvol, u, henc, u', -, rfl⟩ := h
  refine ⟨row, volume, hrow, hvol, ?_, rfl⟩
  by_cases hmode : volume.encMode = .none
  · simp_all
  · simp_all

/-- The anchor of a mount that the preconditions accept is an existing node. -/
theorem anchor_exists {mount : MountId} {write : Bool} {m : MountCtx}
    (hmounts : ∀ r ∈ db.mounts, (db.node? r.mountPoint).isSome)
    (h : requireMount E k db mount write = .ok m) : (db.node? m.mountPoint).isSome := by
  obtain ⟨row, volume, hrow, -, -, rfl⟩ := requireMount_ok h
  have hmount : db.mount? mount = some row := (Option.filter_eq_some_iff.mp hrow).1
  exact hmounts row (mem_of_lookup hmount)

end Aloelite
