import Aloelite.FiledRows

/-! The parts of a round of `unpack`: which maps can be restored, what is set on the node once it
is placed, and the payload of a leaf. -/
namespace Aloelite

open Fallible KeyedRows Relation

variable {C : Crypto} {E : Env} {k : Cipher} {db : Db} {tx tx' tx₁ : Tx} {c : ConnId}
  {n parent : NodeId} {m : MountCtx} {pn : PackNode} {earlier nodes : List PackNode} {cs : ℕ}

/-! ### Nodes that can be restored -/

/-- Integers that SQLite can hold. -/
def Storable (is : List (Option Int)) : Prop := ∀ i ∈ is, ∀ v ∈ i, -2 ^ 63 ≤ v ∧ v < 2 ^ 63

instance (is : List (Option Int)) : Decidable (Storable is) :=
  inferInstanceAs (Decidable (∀ i ∈ is, ∀ v ∈ i, -2 ^ 63 ≤ v ∧ v < 2 ^ 63))

theorem bindInts_eq_ok {is : List (Option Int)} {u : Unit} : bindInts is = .ok u ↔ Storable is := by
  simp only [bindInts, refuse_eq_ok, List.any_eq_false, Storable]
  apply forall₂_congr
  intro i _
  cases i with
  | none => simp
  | some v =>
    simp only [Option.any_some, Option.mem_some_iff, decide_eq_true_eq, forall_eq']
    omega

/-- What the loop and the store ask of a node, after the nodes before it: a known type, a
parent that is a container and comes earlier, metadata that JSON can say, integers of 64
bits and, for a leaf, chunks to put its payload in. -/
structure PackNode.Restorable (cs : ℕ) (earlier : List PackNode) (pn : PackNode) : Prop where
  type : (NodeType.ofValue pn.t).isSome = true
  parent : pn.p = -1 ∨ ∃ i : ℕ, i < earlier.length ∧ pn.p = i ∧ (earlier[i]?).map PackNode.t =
    some "container"
  metadata : (Value.map (pn.x.getD [])).jsonable jsonMaxDepth = true
  times : Storable [pn.c, pn.m]
  owner : Storable [pn.u, pn.g]
  retention : pn.t = "container" ∨ Storable [pn.rk]
  data : pn.t = "container" ∨ pn.d.getD [] = [] ∨ 0 < cs

/-- Every node of a list, after the ones before it. -/
def RestorableAfter (cs : ℕ) : List PackNode → List PackNode → Prop
  | _, [] => True
  | earlier, pn :: rest => pn.Restorable cs earlier ∧ RestorableAfter cs (earlier ++ [pn]) rest

theorem NodeType.ofValue_eq_some {t : String} {type : NodeType} :
    NodeType.ofValue t = some type ↔ type.value = t := by
  constructor
  · intro h
    have hfound := List.find?_some h
    exact of_decide_eq_true hfound
  · rintro rfl
    exact NodeType.ofValue_value type

theorem container_iff {t : String} {type : NodeType} (h : NodeType.ofValue t = some type) :
    type = .container ↔ t = "container" := by
  rw [← NodeType.ofValue_eq_some.mp h]
  cases type <;> decide

/-! ### What is set on a node once it is placed -/

/-- Statements that set owner, attributes or retention. -/
def Stmt.decorates : Stmt → Prop
  | .setOwner .. | .xattrSet .. | .setRetentionKeep .. => True
  | _ => False

/-- They leave nodes, names and placements as they are. -/
structure Decorated (tx tx' : Tx) : Prop where
  edges : tx'.db.edges = tx.db.edges
  volumes : tx'.db.volumes = tx.db.volumes
  identities : tx'.db.identities = tx.db.identities
  names : ∀ n, tx'.db.nodeName? n = tx.db.nodeName? n
  idCount : tx'.idCount = tx.idCount
  filed : tx.db.Filed → tx'.db.Filed

theorem Decorated.refl (tx : Tx) : Decorated tx tx := ⟨rfl, rfl, rfl, fun _ => rfl, rfl, id⟩

theorem Decorated.trans (h : Decorated tx tx₁) (h' : Decorated tx₁ tx') : Decorated tx tx' :=
  ⟨h'.edges.trans h.edges, h'.volumes.trans h.volumes, h'.identities.trans h.identities,
    fun n => (h'.names n).trans (h.names n), h'.idCount.trans h.idCount,
    fun hf => h'.filed (h.filed hf)⟩

theorem run_decorated {st : Stmt} (h : tx.run E st = .ok tx') (hst : st.decorates) :
    Decorated tx tx' := by
  obtain ⟨db₁, hexec, rfl⟩ := Tx.run_ok.mp h
  have hframe := Stmt.exec_agreeOff hexec
  have hids : db₁.identities = tx.db.identities := by
    cases st <;> first | exact hst.elim | exact hframe.identities (by simp [Stmt.touches])
  have hnames : ∀ n, db₁.nodeName? n = tx.db.nodeName? n := by
    have hquiet : st.quiet := by cases st <;> first | exact hst.elim | trivial
    exact (Stmt.settled hquiet hexec).names
  refine ⟨?_, ?_, hids, hnames, rfl, Stmt.filed hexec ⟨[], by rw [hids, List.append_nil]⟩⟩
  · cases st <;> first | exact hst.elim | exact hframe.edges (by simp [Stmt.touches])
  · cases st <;> first | exact hst.elim | exact hframe.volumes (by simp [Stmt.touches])

theorem restoreOwner_decorated (h : restoreOwner E tx pn n = .ok tx') : Decorated tx tx' := by
  rw [restoreOwner] at h
  split at h
  · obtain ⟨-, -, h⟩ := bind_eq_ok.mp h
    exact run_decorated h trivial
  · obtain rfl := Except.ok.inj h
    exact Decorated.refl _

theorem restoreXattrs_decorated (h : restoreXattrs E tx pn n = .ok tx') : Decorated tx tx' := by
  refine foldlM_invariant (P := fun t : Tx => Decorated tx t) ?_ h (Decorated.refl tx)
  intro t kv t' _ ht hrun
  exact ht.trans (run_decorated hrun trivial)

theorem restoreRetention_decorated {type : NodeType}
    (h : restoreRetention E tx pn type n = .ok tx') :
    Decorated tx tx' := by
  rw [restoreRetention] at h
  split at h
  · obtain ⟨-, -, h⟩ := bind_eq_ok.mp h
    exact run_decorated h trivial
  · obtain rfl := Except.ok.inj h
    exact Decorated.refl _

theorem restoreOwner_iff : (∃ tx', restoreOwner E tx pn n = .ok tx') ↔ Storable [pn.u, pn.g] := by
  rw [restoreOwner]
  split
  next =>
    constructor
    · rintro ⟨tx', h⟩
      obtain ⟨u, hbind, -⟩ := bind_eq_ok.mp h
      exact bindInts_eq_ok.mp hbind
    · intro hfits
      refine ⟨_, bind_eq_ok.mpr ⟨(), bindInts_eq_ok.mpr hfits, Tx.run_ok.mpr ⟨_, rfl, rfl⟩⟩⟩
  next hnone =>
    -- neither id is set
    rw [not_or, not_or] at hnone
    refine ⟨fun _ => ?_, fun _ => ⟨tx, rfl⟩⟩
    intro i hi v hv
    have hset : i.isSome = true := Option.isSome_iff_exists.mpr ⟨v, hv⟩
    rcases List.mem_cons.mp hi with rfl | hi
    · exact absurd hset hnone.1
    · rw [List.mem_singleton.mp hi] at hset
      exact absurd hset hnone.2.1

theorem restoreRetention_iff {type : NodeType} :
    (∃ tx', restoreRetention E tx pn type n = .ok tx') ↔ type = .container ∨ Storable [pn.rk] := by
  rw [restoreRetention]
  split
  next hset =>
    constructor
    · rintro ⟨tx', h⟩
      obtain ⟨u, hbind, -⟩ := bind_eq_ok.mp h
      exact Or.inr (bindInts_eq_ok.mp hbind)
    · intro hfits
      have hbind := bindInts_eq_ok (u := ()).mpr (hfits.resolve_left hset.2)
      exact ⟨_, bind_eq_ok.mpr ⟨(), hbind, Tx.run_ok.mpr ⟨_, rfl, rfl⟩⟩⟩
  next hnone =>
    refine ⟨fun _ => ?_, fun _ => ⟨tx, rfl⟩⟩
    by_cases htype : type = .container
    · exact Or.inl htype
    · right
      intro i hi v hv
      rw [List.mem_singleton.mp hi] at hv
      exact absurd ⟨Option.isSome_iff_exists.mpr ⟨v, hv⟩, htype⟩ hnone

theorem restoreXattrs_total (hn : (tx.db.node? n).isSome) :
    ∃ tx', restoreXattrs E tx pn n = .ok tx' := by
  rw [restoreXattrs]
  generalize pn.xa.getD [] = xs
  induction xs generalizing tx with
  | nil => exact ⟨tx, rfl⟩
  | cons kv xs ih =>
    obtain ⟨tx₁, hrun⟩ : ∃ tx₁, tx.run E (.xattrSet { nodeId := n, name := kv.1, value := kv.2 }) =
      .ok tx₁ := by
      have hset : ∃ db₁, tx.db.xattrSet { nodeId := n, name := kv.1, value := kv.2 } = .ok db₁ := by
        rw [Db.xattrSet, Option.isNone_eq_false_iff.mpr hn]
        by_cases hthere : tx.db.xattrs.any (fun r => r.nodeId = n ∧ r.name = kv.1) = true
        · rw [if_pos hthere]
          exact ⟨_, rfl⟩
        · rw [if_neg hthere]
          exact ⟨_, rfl⟩
      obtain ⟨db₁, hset⟩ := hset
      exact ⟨_, Tx.run_ok.mpr ⟨db₁, hset, rfl⟩⟩
    have hn₁ : (tx₁.db.node? n).isSome := by
      rw [Db.node?_isSome_eq, (run_decorated hrun trivial).identities, ← Db.node?_isSome_eq]
      exact hn
    obtain ⟨tx', hrest⟩ := ih hn₁
    refine ⟨tx', ?_⟩
    rw [List.foldlM_cons, hrun]
    exact hrest

/-! ### The payload of a restored leaf -/

/-- Staging behind the rows that are there goes through. -/
theorem stageFrom_total {v i : ℕ} {chunks : List Bytes} (hn : (tx.db.node? n).isSome)
    (hfree : ∀ r ∈ tx.db.manifest n v, r.chunkIndex < i) :
    ∃ tx', tx.stageFrom C E k n v i chunks = .ok tx' := by
  induction chunks generalizing tx i with
  | nil => exact ⟨tx, rfl⟩
  | cons chunk chunks ih =>
    obtain ⟨tx₁, hstage⟩ : ∃ tx₁, tx.stageChunk C E k n v i chunk = .ok tx₁ :=
      stageChunk_total hn (fun r hr => (hfree r hr).ne)
    have hgrown : Grown C n v tx tx₁ := stageChunk_grown hstage
    have hn₁ : (tx₁.db.node? n).isSome := by
      rw [Db.node?_isSome_eq, hgrown.off.identities (by simp), ← Db.node?_isSome_eq]
      exact hn
    have hfree₁ : ∀ r ∈ tx₁.db.manifest n v, r.chunkIndex < i + 1 := by
      have hrows := (stageChunk_ok hstage).1
      intro r hr
      rw [hgrown.manifest_self, Sys.addedRows, hrows, List.drop_left] at hr
      rcases List.mem_append.mp hr with hr | hr
      · exact (hfree r hr).trans (Nat.lt_succ_self i)
      · rw [List.mem_singleton.mp hr]
        exact Nat.lt_succ_self i
    obtain ⟨tx', hrest⟩ := ih hn₁ hfree₁
    refine ⟨tx', ?_⟩
    rw [Tx.stageFrom, hstage]
    exact hrest

/-- A node that nothing refers to yet takes its payload exactly when there are chunks to
put it in. -/
theorem fillUnpacked_iff {type : NodeType} {d : Option Bytes} (hn : (tx.db.node? n).isSome)
    (hcontent : tx.db.content? n = none) (hrows : ∀ r ∈ tx.db.versions, r.contentId ≠ n) :
    (∃ tx', fillUnpacked C E k tx m type n d = .ok tx') ↔
      type = .container ∨ d.getD [] = [] ∨ 0 < chunkSizeOf tx.db m.volume := by
  rw [fillUnpacked]
  by_cases htype : type = .container
  · rw [if_pos htype]
    exact ⟨fun _ => Or.inl htype, fun _ => ⟨tx, rfl⟩⟩
  rw [if_neg htype]
  generalize d.getD [] = data
  let made (version : ℕ) : Tx := { tx with db :=
    { tx.db with contents := tx.db.contents ++
                 [{ nodeId := n, version := version, size := data.length }] } }
  have hcreate : ∀ version, tx.run E (.createContent n version data.length) =
      .ok (made version) := by
    intro version
    refine Tx.run_ok.mpr ⟨_, ?_, rfl⟩
    show tx.db.createContent n version data.length = _
    rw [Db.createContent, hcontent, Option.isNone_eq_false_iff.mpr hn]
    rfl
  by_cases hdata : data = []
  · refine ⟨fun _ => Or.inr (Or.inl hdata), fun _ => ⟨(made 0).gives n data, ?_⟩⟩
    simp only [putInitialContent, if_pos hdata, hcreate, ok_bind]
    rfl
  · have hput : putInitialContent C E k tx m n data =
        ((made 1).gives n data).stageChunks C E k n 1 m.volume data := by
      simp only [putInitialContent, if_neg hdata, hcreate, ok_bind]
    rw [hput, Tx.stageChunks]
    constructor
    · rintro ⟨tx', h⟩
      obtain ⟨parts, hsplit, -⟩ := bind_eq_ok.mp h
      exact Or.inr (splitChunks_ok hsplit).2.symm
    · intro hroom
      have hpos : 0 < chunkSizeOf tx.db m.volume := (hroom.resolve_left htype).resolve_left hdata
      have hsplit : splitChunks data (chunkSizeOf ((made 1).gives n data).db m.volume) =
          .ok (Pieces.pieces (chunkSizeOf tx.db m.volume) data) := by
        have hfree : decide (data ≠ [] ∧ chunkSizeOf tx.db m.volume = 0) = false :=
          decide_eq_false (fun h => hpos.ne' h.2)
        show (refuse (decide (data ≠ [] ∧ chunkSizeOf tx.db m.volume = 0)) FsError.valueError).bind
            _ = _
        rw [hfree]
        rfl
      have hempty : ∀ r ∈ ((made 1).gives n data).db.manifest n 1, r.chunkIndex < 0 := by
        intro r hr
        obtain ⟨hrow, hid, -⟩ := Db.mem_manifest.mp hr
        exact absurd hid (hrows r hrow)
      obtain ⟨tx', hstage⟩ : ∃ tx', ((made 1).gives n data).stageFrom C E k n 1 0
          (Pieces.pieces (chunkSizeOf tx.db m.volume) data) = .ok tx' := stageFrom_total hn hempty
      exact ⟨tx', bind_eq_ok.mpr ⟨_, hsplit, hstage⟩⟩

theorem stageFrom_idCount {v i : ℕ} {chunks : List Bytes}
    (h : tx.stageFrom C E k n v i chunks = .ok tx') :
    tx'.idCount = tx.idCount := by
  induction chunks generalizing tx i with
  | nil => exact congrArg Tx.idCount (Except.ok.inj h).symm
  | cons chunk chunks ih =>
    rw [Tx.stageFrom] at h
    obtain ⟨tx₁, hstage, hrest⟩ := bind_eq_ok.mp h
    rw [ih hrest]
    simp only [Tx.stageChunk, bind_eq_ok] at hstage
    obtain ⟨tx₂, hpool, hrow⟩ := hstage
    obtain ⟨db₁, -, rfl⟩ := Tx.run_ok.mp hpool
    obtain ⟨db₂, -, rfl⟩ := Tx.run_ok.mp hrow
    rfl

theorem fillUnpacked_idCount {type : NodeType} {d : Option Bytes}
    (h : fillUnpacked C E k tx m type n d = .ok tx') :
    tx'.idCount = tx.idCount := by
  rw [fillUnpacked] at h
  split at h
  · exact congrArg Tx.idCount (Except.ok.inj h).symm
  · simp only [putInitialContent, bind_eq_ok] at h
    obtain ⟨tx₁, hcreate, h⟩ := h
    obtain ⟨db₁, -, rfl⟩ := Tx.run_ok.mp hcreate
    split at h
    · rw [← Except.ok.inj h]
      rfl
    · obtain ⟨parts, -, hstage⟩ := bind_eq_ok.mp h
      have hcount := stageFrom_idCount hstage
      exact hcount

end Aloelite
