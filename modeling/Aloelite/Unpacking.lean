import Aloelite.UnpackRounds

/-! Which blobs `unpack` restores. The codec checks shapes only; the rest is left to the
restore loop, the guards of the store and the width of its columns. -/
namespace Aloelite

open Fallible KeyedRows Relation

variable {C : Crypto} {M : Msgpack} {E : Env} {k : Cipher} {now : Int} {db db' : Db}
  {tx tx' tx₁ : Tx} {s : Sys} {c : ConnId} {n parent : NodeId} {V : VolumeId} {m : MountCtx}
  {ids : List NodeId} {pn : PackNode} {nodes : List PackNode} {mount : MountId} {path : String}

/-! ### How the loop fails -/

/-- The errors of `errors.py`; the others are exceptions of what lies below. -/
def FsError.typed : FsError → Bool
  | .integrity | .operational | .invalidTag | .valueError | .keyError | .indexError | .typeError
  | .overflowError => false
  | _ => true

/-- A computation whose failures are all exceptions from below. -/
abbrev Untyped {α : Type} (x : Except FsError α) : Prop := FailsAs (fun err => err.typed = false) x

theorem insertChunkRef_untyped (row : VersionRow) : Untyped (db.insertChunkRef row) := by
  have hcheck : ∀ b : Bool, Untyped (refuse b FsError.integrity) := fun _ => FailsAs.refuse rfl
  exact (hcheck _).bind fun _ => (hcheck _).bind fun _ => (hcheck _).bind fun _ => FailsAs.ok _

/-- Statements fail as SQLite does. -/
theorem Stmt.exec_untyped (st : Stmt) : Untyped (st.exec now db) := by
  have hcheck : ∀ b : Bool, Untyped (refuse b FsError.integrity) := fun _ => FailsAs.refuse rfl
  have hfind : ∀ x : Option NodeRow, Untyped (orRaise x FsError.integrity) :=
    fun _ => FailsAs.orRaise rfl
  cases st with
  | createNode row modifiedAt =>
    exact (hcheck _).bind fun _ => (hcheck _).bind fun _ => FailsAs.ok _
  | createEdge id fromId toId volume name =>
    refine (hfind _).bind fun src => (hfind _).bind fun dst => (hcheck _).bind fun _ =>
      (hcheck _).bind fun _ => ?_
    exact (hcheck _).bind fun _ => (hcheck _).bind fun _ => (hcheck _).bind fun _ => FailsAs.ok _
  | createContent node version size =>
    exact (hcheck _).bind fun _ => (hcheck _).bind fun _ => FailsAs.ok _
  | insertChunkRef row => exact insertChunkRef_untyped row
  | copyChunkRefs dst v src w => exact FailsAs.foldlM fun db row => insertChunkRef_untyped row
  | copyChunkRefsRange m v w lo hi => exact FailsAs.foldlM fun db row => insertChunkRef_untyped row
  | xattrSet row =>
    refine (hcheck _).bind fun _ => ?_
    split <;> exact FailsAs.ok _
  | createVolume row => exact (hcheck _).bind fun _ => FailsAs.ok _
  | linkRoot volume root => exact (hcheck _).bind fun _ => (hcheck _).bind fun _ => FailsAs.ok _
  | createMount row =>
    exact (hcheck _).bind fun _ => (hcheck _).bind fun _ => (hcheck _).bind fun _ => FailsAs.ok _
  | createLock row =>
    exact (hcheck _).bind fun _ => (hcheck _).bind fun _ => (hcheck _).bind fun _ => FailsAs.ok _
  | pruneNodes volume => exact (hcheck _).bind fun _ => FailsAs.ok _
  | _ => exact FailsAs.ok _

theorem run_untyped (st : Stmt) : Untyped (tx.run E st) :=
  (st.exec_untyped).bind fun _ => FailsAs.ok _

theorem stageChunk_untyped {v i : ℕ} {data : Bytes} : Untyped (tx.stageChunk C E k n v i data) :=
  (run_untyped _).bind fun _ => run_untyped _

theorem stageFrom_untyped {v i : ℕ} {chunks : List Bytes} :
    Untyped (tx.stageFrom C E k n v i chunks) := by
  induction chunks generalizing tx i with
  | nil => exact FailsAs.ok tx
  | cons chunk chunks ih => exact stageChunk_untyped.bind fun _ => ih

theorem putInitialContent_untyped {data : Bytes} :
    Untyped (putInitialContent C E k tx m n data) := by
  refine (run_untyped _).bind fun tx₁ => ?_
  show Untyped (if data = [] then pure _ else Tx.stageChunks C E k _ n _ m.volume data)
  split
  · exact FailsAs.ok _
  · have hcheck : ∀ b : Bool, Untyped (refuse b FsError.valueError) := fun _ => FailsAs.refuse rfl
    exact ((hcheck _).bind fun _ => FailsAs.ok _).bind fun _ => stageFrom_untyped

/-- No round fails with an error of the engine. -/
theorem unpackNode_untyped {s : Tx × List NodeId} : Untyped (unpackNode C E k m parent s pn) := by
  have htarget : Untyped (unpackTarget parent s.2 pn.p) := by
    rw [unpackTarget]
    split
    · exact FailsAs.ok parent
    · exact FailsAs.orRaise rfl
  have hmeta : Untyped (metadataOf pn.x) := by
    have hcheck : ∀ b : Bool, Untyped (refuse b FsError.typeError) := fun _ => FailsAs.refuse rfl
    exact (hcheck _).bind fun _ => FailsAs.ok _
  have hbind : ∀ is, Untyped (bindInts is) := fun _ => FailsAs.refuse rfl
  have hfill : ∀ tx type new, Untyped (fillUnpacked C E k tx m type new pn.d) := by
    intro tx type new
    rw [fillUnpacked]
    split
    · exact FailsAs.ok tx
    · exact putInitialContent_untyped
  have howner : ∀ tx new, Untyped (restoreOwner E tx pn new) := by
    intro tx new
    rw [restoreOwner]
    split
    · exact (hbind _).bind fun _ => run_untyped _
    · exact FailsAs.ok tx
  have hxattrs : ∀ tx new, Untyped (restoreXattrs E tx pn new) :=
    fun tx new => FailsAs.foldlM fun _ _ => run_untyped _
  have hretention : ∀ tx type new, Untyped (restoreRetention E tx pn type new) := by
    intro tx type new
    rw [restoreRetention]
    split
    · exact (hbind _).bind fun _ => run_untyped _
    · exact FailsAs.ok tx
  have htype : ∀ x : Option NodeType, Untyped (orRaise x FsError.valueError) :=
    fun _ => FailsAs.orRaise rfl
  refine (htype _).bind fun type => htarget.bind fun target => hmeta.bind fun metadata => ?_
  refine (hbind _).bind fun _ => ((run_untyped _).bind fun _ => FailsAs.ok _).bind fun new => ?_
  refine (hfill _ _ _).bind fun tx₂ => (run_untyped _).bind fun tx₃ => (howner _ _).bind fun tx₄ =>
    ?_
  exact (hxattrs _ _).bind fun tx₅ => (hretention _ _ _).bind fun tx₆ => FailsAs.ok _

/-- The codec refuses a blob as corrupt or as too new. -/
theorem decodePack_fails (blob : Bytes) :
    FailsAs (fun err => err = .corrupt ∨ err = .unsupported) (decodePack M blob) := by
  let P : FsError → Prop := fun err => err = .corrupt ∨ err = .unsupported
  have hcorrupt : P .corrupt := Or.inl rfl
  have hnewer : P .unsupported := Or.inr rfl
  have hcheck : ∀ b : Bool, FailsAs P (refuse b FsError.corrupt) := fun _ => FailsAs.refuse hcorrupt
  have hversion : ∀ b : Bool, FailsAs P (refuse b FsError.unsupported) :=
    fun _ => FailsAs.refuse hnewer
  have hshape : ∀ {α : Type} (x : Option α), FailsAs P (orRaise x FsError.corrupt) :=
    fun _ => FailsAs.orRaise hcorrupt
  refine (hshape _).bind fun doc => (hshape _).bind fun items => (hcheck _).bind fun _ =>
    (hshape _).bind fun ver => ?_
  exact (hcheck _).bind fun _ => (hversion _).bind fun _ => (hshape _).bind fun nodes => hshape _

/-! ### Unpacking a blob -/

/-- An entry that `unpack` reads: the mount may write, the path leads to a leaf that no
one else has locked, its content opens to `blob`, and `e` is its active placement. -/
structure Packed (C : Crypto) (E : Env) (k : Cipher) (db : Db) (mount : MountId) (path : String)
    (m : MountCtx) (blob : Bytes) (e : EdgeRow) : Prop where
  writable : requireMount E k db mount true = .ok m
  entry : ∃ found, resolve db m.mountPoint path = .ok found ∧ found.type ≠ .container ∧ found.node =
    e.toId
  unlocked : requireUnlocked E db e.toId mount = .ok ()
  blob : readContentBytes C k db e.toId = .ok blob
  placement : db.getActiveParent e.toId = some e

/-- Ids that no node and no placement has. -/
def Env.Unused (E : Env) (db : Db) : Prop :=
  ∀ j, db.node? (E.ids j) = none ∧ db.edge? (E.ids j) = none

theorem Packed.restoring {blob : Bytes} {e : EdgeRow} (h : Packed C E k tx.db mount path m blob e)
    (hs : tx.db.Sound) (hh : tx.db.Homed) (hf : tx.db.Filed) (hunused : E.Unused tx.db)
    (harch : tx.run E (.archiveEdge e.edgeId) = .ok tx') :
    Restoring E m e.fromId (chunkSizeOf tx.db m.volume) [] tx' [] := by
  obtain ⟨row, volume, hrow, hvolume, -, hm⟩ := requireMount_ok h.writable
  obtain ⟨found, hfound, -, hnode⟩ := h.entry
  have hmem : e ∈ tx.db.edges := (Db.mem_activeEdges.mp (List.mem_of_find?_eq_some h.placement)).1
  have hhome : tx.db.home? e.fromId = some m.volume := by
    have hanchor : tx.db.home? m.mountPoint = some m.volume := by
      rw [hm]
      exact hh.anchor row (List.mem_of_find?_eq_some (Option.filter_eq_some_iff.mp hrow).1)
    have hleaf : tx.db.home? e.toId = some m.volume := by
      rw [← hnode]
      exact hh.below (resolve_below hfound) hanchor
    obtain ⟨V, hfrom, hto⟩ := hh.edge e hmem
    rw [hfrom, ← hto, hleaf]
  obtain ⟨db₁, hexec, rfl⟩ := Tx.run_ok.mp harch
  obtain rfl := Except.ok.inj hexec
  refine ⟨⟨rfl, List.nodup_nil, ?_⟩, ?_, hs.linked.parent e hmem,
    ⟨hf.content, hf.version⟩, ?_, ?_, ?_, rfl⟩
  · intro i pn hi
    cases hi
  · intro id hid
    rw [List.mem_singleton.mp hid]
    exact hhome
  · intro e' he'
    obtain ⟨e₀, he₀, -, hto⟩ := (archiveWhere_edges _).1 e' he'
    rw [← hto]
    exact hs.linked.child e₀ he₀
  · intro j _
    obtain ⟨hnone, hedge⟩ := hunused j
    refine ⟨hnone, ?_⟩
    apply lookup_eq_none.mpr
    intro e' he'
    obtain ⟨e₀, he₀, rfl⟩ := List.mem_map.mp he'
    have hne := lookup_eq_none.mp hedge e₀ he₀
    split <;> exact hne
  · rw [hm]
    exact Option.isSome_iff_exists.mpr ⟨volume, hvolume⟩

/-- Where the placement was archived and the loop has added rows under unused ids, exactly
that placement is gone. -/
theorem archived_of_minted {e : EdgeRow} {added : List EdgeRow}
    (hk : KeyedRows.Keyed EdgeRow.edgeId db.edges) (he : e ∈ db.activeEdges)
    (hunused : E.Unused db)
    (hedges : db'.edges = (db.archiveWhere now (fun x => x.edgeId = e.edgeId)).edges ++ added)
    (hminted : ∀ x ∈ added, ∃ j, x.edgeId = E.ids j) :
    ∀ e' ∈ db.activeEdges, e' ∈ db'.activeEdges ↔ e' ≠ e := by
  intro e' he'
  have hmem := (Db.mem_activeEdges.mp he').1
  -- an added row has an id that no placement had
  have hold : e' ∉ added := by
    intro hadd
    obtain ⟨j, hj⟩ := hminted e' hadd
    exact lookup_eq_none.mp (hunused j).2 e' hmem hj
  have hkeep : e' ∈ db'.activeEdges ↔
      e' ∈ (db.archiveWhere now (fun x => x.edgeId = e.edgeId)).activeEdges := by
    rw [Db.mem_activeEdges, Db.mem_activeEdges, hedges, List.mem_append]
    exact and_congr_left fun _ => or_iff_left hold
  rw [hkeep, Db.activeEdges_archiveWhere, List.mem_filter]
  constructor
  · rintro ⟨-, hne⟩ rfl
    simp at hne
  · intro hne
    have hid : e'.edgeId ≠ e.edgeId :=
      fun heq => hne (eq_of_key_eq hk hmem (Db.mem_activeEdges.mp he).1 heq)
    exact ⟨he', by simp [hid]⟩

/-- An entry is unpacked, or refused as corrupt or too new, exactly when every node its
blob lists can be restored after the ones before it; otherwise another exception escapes.
A failure leaves the state as it was. -/
theorem unpack_settles_iff {guard : Sys → Label → Prop} {blob : Bytes} {e : EdgeRow}
    (h : Reaches C M guard s) (hp : Packed C E (s.conns c).cipher s.db mount path m blob e)
    (hunused : E.Unused s.db) :
    (∀ err, (exec C M E s c (.request mount (.unpack path))).2 = .error err →
      (exec C M E s c (.request mount (.unpack path))).1 = s) ∧
    (((∃ nodes ids, decodePack M blob = .ok nodes ∧
        (exec C M E s c (.request mount (.unpack path))).2 = .ok .done ∧
        Unpacked s.db (exec C M E s c (.request mount (.unpack path))).1.db e nodes ids) ∨
      ∃ err, (exec C M E s c (.request mount (.unpack path))).2 = .error err ∧ err.typed = true) ↔
      ∀ nodes, decodePack M blob = .ok nodes →
        RestorableAfter (chunkSizeOf s.db m.volume) [] nodes) := by
  have hexec : exec C M E s c (.request mount (.unpack path)) =
      s.transact (noReply (unpack C M E (s.conns c).cipher s.begin mount path))
        (fun s a => (s, a)) := rfl
  obtain ⟨tx₁, harch⟩ : ∃ tx₁, s.begin.run E (.archiveEdge e.edgeId) = .ok tx₁ :=
    ⟨_, Tx.run_ok.mpr ⟨_, rfl, rfl⟩⟩
  have hbegin : Packed C E (s.conns c).cipher s.begin.db mount path m blob e := hp
  have hstart : Restoring E m e.fromId (chunkSizeOf s.db m.volume) [] tx₁ [] :=
    hbegin.restoring h.sound h.homed h.filed hunused harch
  obtain ⟨found, hfound, hleaf, hnode⟩ := hp.entry
  -- up to the blob everything goes through
  have hunpack : unpack C M E (s.conns c).cipher s.begin mount path =
      (decodePack M blob).bind fun nodes =>
      (nodes.foldlM (unpackNode C E (s.conns c).cipher m e.fromId) (tx₁, [])).map Prod.fst := by
    have hnotContainer : refuse (decide (found.type = .container)) (FsError.notAnEntry e.toId) =
        .ok () := by
      rw [decide_eq_false hleaf]
      rfl
    have hbegin : s.begin.db = s.db := rfl
    have hplacement : orRaise (s.db.getActiveParent e.toId) FsError.notFound = .ok e := by
      rw [hp.placement]
      rfl
    simp only [unpack, hbegin, hp.writable, hfound, hnotContainer, hnode, hp.unlocked, hp.blob,
      hplacement, harch,
      ok_bind]
    rfl
  rw [hexec, hunpack]
  -- the blob decodes or is refused with a typed error; then it is the loop that decides
  cases hdecode : decodePack M blob with
  | error err =>
    have htyped : err.typed = true := by
      rcases decodePack_fails blob err hdecode with rfl | rfl <;> rfl
    refine ⟨fun _ _ => rfl,
      ⟨fun _ nodes hnodes => (by cases hnodes), fun _ => Or.inr ⟨err, rfl, htyped⟩⟩⟩
  | ok nodes =>
    have hiff : (∃ t, nodes.foldlM (unpackNode C E (s.conns c).cipher m e.fromId)
        (tx₁, []) = .ok t) ↔
        RestorableAfter (chunkSizeOf s.db m.volume) [] nodes := unpackNodes_iff hstart
    have hone : (∀ ns, (Except.ok nodes : Except FsError (List PackNode)) = .ok ns →
        RestorableAfter (chunkSizeOf s.db m.volume) [] ns) ↔
        RestorableAfter (chunkSizeOf s.db m.volume) [] nodes :=
      ⟨fun hall => hall nodes rfl, fun hn ns hns => Except.ok.inj hns ▸ hn⟩
    rw [hone, ← hiff]
    cases hloop : nodes.foldlM (unpackNode C E (s.conns c).cipher m e.fromId) (tx₁, []) with
    | error err =>
      refine ⟨fun _ _ => ?_, ⟨?_, by rintro ⟨t, hok⟩; cases hok⟩⟩
      · simp only [Except.bind, hloop, Except.map, noReply, Sys.transact]
        rfl
      · rintro (⟨ns, ids, -, hdone, -⟩ | ⟨err', herr, htyped⟩)
        · simp only [Except.bind, hloop, Except.map, noReply, Sys.transact] at hdone
          cases hdone
        · -- the loop never fails with an error of the engine
          have hfails : Untyped
              (nodes.foldlM (unpackNode C E (s.conns c).cipher m e.fromId) (tx₁, [])) :=
            FailsAs.foldlM fun _ _ => unpackNode_untyped
          simp only [Except.bind, hloop, Except.map, noReply, Sys.transact] at herr
          obtain rfl : err = err' := Except.error.inj herr
          have huntyped : err.typed = false := hfails err hloop
          rw [htyped] at huntyped
          cases huntyped
    | ok t =>
      have hend := hstart.run hloop
      rw [List.nil_append] at hend
      refine ⟨fun err herr => ?_, ⟨fun _ => ⟨t, rfl⟩, fun _ => Or.inl ⟨nodes, t.2, rfl, ?_, ?_⟩⟩⟩
      · simp only [Except.bind, hloop, Except.map, noReply, Sys.transact] at herr
        cases herr
      · simp only [Except.bind, hloop, Except.map, noReply, Sys.transact]
        rfl
      · simp only [Except.bind, hloop, Except.map, noReply, Sys.transact]
        obtain ⟨⟨added, hadded, hminted⟩, hids⟩ := unpackNodes_minted hloop
        obtain ⟨db₁, hraze, rfl⟩ := Tx.run_ok.mp harch
        obtain rfl := Except.ok.inj hraze
        refine ⟨hend.restored, ?_, ?_⟩
        · intro id hid
          rcases hids id hid with hnil | ⟨j, rfl⟩
          · exact absurd hnil List.not_mem_nil
          · exact (hunused j).1
        · exact archived_of_minted h.edges_keyed (List.mem_of_find?_eq_some hp.placement) hunused
            hadded hminted

/-- A plain volume whose entry `x` holds `blob`. -/
def holdingBlob (M : Msgpack) (blob : Bytes) : Sys :=
  [⟨.counting 0, 0, .createVolume none 256 none .none⟩, ⟨.counting 1, 0, .mount { volume := 0 }⟩,
    ⟨.counting 3, 0, .request 1 (.createEntry "x" blob)⟩].foldl (step Crypto.xorStream M) {}

theorem holdingBlob_reaches (M : Msgpack) (blob : Bytes) :
    Reaches Crypto.xorStream M (fun _ _ => True) (holdingBlob M blob) := by
  apply reaches_foldl
  exact ⟨trivial, trivial, trivial, trivial⟩

theorem sampleNodes_restorable : RestorableAfter 256 [] sampleNodes := by
  refine ⟨⟨by decide, Or.inl rfl, by decide, by decide, by decide, Or.inl rfl, Or.inl rfl⟩,
    ⟨by decide, ?_, by decide,
    by decide, by decide, Or.inr (by decide), Or.inr (Or.inr (by decide))⟩, trivial⟩
  exact Or.inr ⟨0, by decide, rfl, rfl⟩

/-- A packed container with one entry comes back. -/
theorem unpack_settles_sample :
    (∃ nodes ids, decodePack Msgpack.sample sampleBlob = .ok nodes ∧
        (exec Crypto.xorStream Msgpack.sample (.counting 5) (holdingBlob Msgpack.sample sampleBlob)
          0
          (.request 1 (.unpack "x"))).2 = .ok .done ∧
        Unpacked (holdingBlob Msgpack.sample sampleBlob).db
          (exec Crypto.xorStream Msgpack.sample (.counting 5)
            (holdingBlob Msgpack.sample sampleBlob) 0
            (.request 1 (.unpack "x"))).1.db
          { edgeId := 4, fromId := 0, toId := 3, volumeId := 0, name := "x" } nodes ids) ∨
      ∃ err, (exec Crypto.xorStream Msgpack.sample (.counting 5)
        (holdingBlob Msgpack.sample sampleBlob) 0
        (.request 1 (.unpack "x"))).2 = .error err ∧ err.typed = true := by
  have hreach := holdingBlob_reaches Msgpack.sample sampleBlob
  obtain ⟨s, hs⟩ : ∃ s, s = holdingBlob Msgpack.sample sampleBlob := ⟨_, rfl⟩
  rw [← hs] at hreach ⊢
  let e : EdgeRow := { edgeId := 4, fromId := 0, toId := 3, volumeId := 0, name := "x" }
  have hpacked : Packed Crypto.xorStream (.counting 5) (s.conns 0).cipher s.db 1 "x"
      ⟨1, 0, 0, .none⟩ sampleBlob e := by
    refine ⟨?_, ⟨⟨3, .entry⟩, ?_, by decide, rfl⟩, ?_, ?_, ?_⟩ <;> rw [hs] <;> decide +kernel
  have hunused : (Env.counting 5).Unused s.db := by
    have hids : (∀ r ∈ s.db.nodes, r.nodeId < 5) ∧ ∀ e ∈ s.db.edges, e.edgeId < 5 := by
      rw [hs]
      decide +kernel
    intro j
    have hj : (Env.counting 5).ids j = 5 + j := rfl
    rw [hj]
    constructor
    · apply lookup_eq_none.mpr
      intro r hr heq
      exact absurd (heq ▸ hids.1 r hr) (Nat.not_lt.mpr (Nat.le_add_right 5 j))
    · apply lookup_eq_none.mpr
      intro e he heq
      exact absurd (heq ▸ hids.2 e he) (Nat.not_lt.mpr (Nat.le_add_right 5 j))
  apply (unpack_settles_iff hreach hpacked hunused).2.mpr
  intro nodes hnodes
  have hsize : chunkSizeOf s.db 0 = 256 := by
    rw [hs]
    decide +kernel
  have hdecoded : decodePack Msgpack.sample sampleBlob = .ok sampleNodes := by rfl
  obtain rfl := Except.ok.inj (hnodes.symm.trans hdecoded)
  exact hsize ▸ sampleNodes_restorable

/-- One entry that names a parent there is none of. -/
def orphanNodes : List PackNode := [{ p := 5, t := "entry", n := "y" }]

def orphanBlob : Bytes :=
  [131, 163, 102, 109, 116, 171, 97, 108, 111, 101, 102, 115, 46, 112, 97, 99, 107, 163, 118, 101,
    114, 2, 165, 110,
    111, 100, 101, 115, 145, 131, 161, 112, 5, 161, 116, 165, 101, 110, 116, 114, 121, 161, 110,
    161, 121]

/-- The codec takes the blob, and a KeyError escapes. -/
theorem unpack_raises_keyError :
    Reaches Crypto.xorStream (.knowing (packDocument orphanNodes) orphanBlob) (fun _ _ => True)
        (holdingBlob (.knowing (packDocument orphanNodes) orphanBlob) orphanBlob) ∧
      (exec Crypto.xorStream (.knowing (packDocument orphanNodes) orphanBlob) (.counting 5)
        (holdingBlob (.knowing (packDocument orphanNodes) orphanBlob) orphanBlob) 0
          (.request 1 (.unpack "x"))).2 =
        .error .keyError ∧ FsError.typed .keyError = false := by
  refine ⟨holdingBlob_reaches _ _, ?_, rfl⟩
  rfl

end Aloelite
