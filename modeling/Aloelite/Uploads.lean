import Aloelite.FuseBirths
import Aloelite.WriterEnds

/-! Uploads that fail: WebDAV `PUT`, the explorer's upload, `put` and a `wb` block all
open the path for a truncating write, stream into it and close it, or abort when the block
unwinds. An entry that was missing is created with the opening. -/
namespace Aloelite

open Fallible KeyedRows

/-! ### Transactions with a fault -/

/-- `BEGIN`, a statement of the body, or `COMMIT`. -/
inductive TxnFault where
  | begin
  | statement
  | commit (ended : Bool)
  deriving DecidableEq, Repr

def faultyOp (body : Except FsError Tx) (fault : Option TxnFault) : TxnOp Db :=
  let steps : List (BodyStep Db) := match body with
    | .ok tx => [.run (fun _ => tx.db)]
    | .error _ => [.raise false]
  match fault with
  | none => { steps := steps }
  | some .begin => { steps := steps, beginFault := true }
  | some .statement => { steps := [.raise false] }
  | some (.commit ended) => { steps := steps, commitFault := some ended }

/-- The transaction is left to the connection. -/
def StaysOpen (body : Except FsError Tx) (fault : Option TxnFault) : Prop :=
  fault = some (.commit false) ∧ ∃ tx, body = .ok tx

variable {C : Crypto} {M : Msgpack} {E : Env} {k : Cipher} {own : VolumeId → Cipher} {db db' : Db}
  {tx tx' : Tx} {d : Descriptor} {call : EndCall} {fault : Option EndFault} {a n : NodeId}
  {s t : OpenWriter} {path : String} {mount : MountId} {m : MountCtx} {lock : Option LockId}
  {body : Except FsError Tx}

/-- A transaction that fails is rolled back or left open. -/
theorem faultyOp_fails {fault : Option TxnFault}
    (h : (Port.python.txn { stored := db } (faultyOp body fault)).2 = false) :
    (¬ StaysOpen body fault ∧
      (Port.python.txn { stored := db } (faultyOp body fault)).1 = { stored := db }) ∨
      ∃ tx, body = .ok tx ∧ StaysOpen body fault ∧
        (Port.python.txn { stored := db } (faultyOp body fault)).1 =
          { stored := db, draft := some tx.db } := by
  have hback : (∀ ended, fault ≠ some (.commit ended)) → ¬ StaysOpen body fault :=
    fun h hstays => h false hstays.1
  cases hbody : body with
  | error e =>
    rw [hbody] at hback h
    refine Or.inl ⟨?_, ?_⟩
    · rintro ⟨-, tx, htx⟩
      cases htx
    · rcases fault with _ | ⟨_ | _ | ended⟩
      · simp only [faultyOp, txn_raise]
      · simp only [faultyOp, txn_begin]
      · simp only [faultyOp, txn_raise]
      · simp only [faultyOp, txn_raise]
  | ok tx =>
    rw [hbody] at hback h
    rcases fault with _ | ⟨_ | _ | ended⟩
    · simp only [faultyOp, txn_run] at h
      cases h
    · exact Or.inl ⟨hback (by simp), by simp only [faultyOp, txn_begin]⟩
    · exact Or.inl ⟨hback (by simp), by simp only [faultyOp, txn_raise]⟩
    · cases ended with
      | false =>
        refine Or.inr ⟨tx, rfl, ⟨rfl, tx, rfl⟩, ?_⟩
        simp only [faultyOp, txn_commit, and_self, if_true]
      | true =>
        refine Or.inl ⟨fun hstays => ?_, ?_⟩
        · simpa using hstays.1
        · simp only [faultyOp, txn_commit, Bool.true_eq_false, and_false, if_false]

/-! ### A path as it was -/

/-- The path leads where it led, and what was there reads as it read. -/
structure PathKept (C : Crypto) (k : Cipher) (a : NodeId) (path : String) (before after : Db) :
    Prop where
  leads : ∀ found, resolve after a path = .ok found ↔ resolve before a path = .ok found
  reads : ∀ found, resolve before a path = .ok found →
    readContentBytes C k after found.node = readContentBytes C k before found.node

/-- For the other connections, and for the one of the upload. -/
def KeptBy (C : Crypto) (k : Cipher) (a : NodeId) (path : String) (before : Db) (c : TxnConn Db) :
    Prop :=
  PathKept C k a path before c.stored ∧ PathKept C k a path before (c.draft.getD c.stored)

/-- Something was at the path. -/
def Existed (db : Db) (a : NodeId) (path : String) : Prop := ∃ found, resolve db a path = .ok found

/-- Tree and contents as they were. -/
structure SameTree (db db' : Db) : Prop where
  nodes : db'.nodes = db.nodes
  edges : db'.edges = db.edges
  untouched : ∀ n, (db.node? n).isSome → Untouched db db' n

theorem SameTree.refl (db : Db) : SameTree db db := ⟨rfl, rfl, fun n _ => Untouched.refl db n⟩

theorem SameTree.trans {db'' : Db} (h : SameTree db db') (h' : SameTree db' db'') :
    SameTree db db'' :=
  ⟨h'.nodes.trans h.nodes, h'.edges.trans h.edges, fun n hn =>
    (h.untouched n hn).trans (h'.untouched n ((h.untouched n hn).exists hn))⟩

theorem SameTree.resolve (h : SameTree db db') : resolve db' a path = resolve db a path :=
  resolve_congr h.nodes h.edges a path

theorem PathKept.refl : PathKept C k a path db db := ⟨fun _ => Iff.rfl, fun _ _ => rfl⟩

theorem SameTree.kept (h : SameTree db db') : PathKept C k a path db db' := by
  refine ⟨fun found => by rw [h.resolve], ?_⟩
  intro found hfound
  exact (h.untouched _ (Db.node?_isSome_of_type (resolve_nodeType hfound))).readContentBytes

/-- A path that leads somewhere where it led nowhere is not kept. -/
theorem not_kept_of_appears {found : Resolved} (hbefore : ¬ Existed db a path)
    (hafter : resolve db' a path = .ok found) :
    ¬ PathKept C k a path db db' :=
  fun h => hbefore ⟨found, (h.leads found).mp hafter⟩

/-! ### The opening -/

/-- The lock of a writer changes nothing but the lock table. -/
theorem writerLock_sameTree {i : LockId} (h : writerLock E tx mount n lock = .ok (tx', i)) :
    SameTree tx.db tx'.db := by
  rcases writerLock_ok h with ⟨-, rfl, -⟩ | ⟨-, -, -, -, -, -, rfl⟩
  · exact SameTree.refl _
  · exact ⟨rfl, rfl, fun x _ => ⟨rfl, fun _ _ => rfl, fun _ _ _ _ => rfl, rfl, rfl⟩⟩

/-- Where something is, it is what is opened, and nothing but a lock is added. -/
theorem openWrite_existed {found : Resolved} (hm : requireMount E k tx.db mount true = .ok m)
    (h : openWrite C E k tx mount path .truncate lock = .ok (tx', d))
    (hfound : resolve tx.db m.mountPoint path = .ok found) :
    d.node = found.node ∧ SameTree tx.db tx'.db := by
  obtain ⟨ctx, tx₁, i, hctx, htarget, hlock, -⟩ := openWrite_ok h
  obtain rfl := Except.ok.inj (hm.symm.trans hctx)
  simp only [openTarget, hfound, bind_eq_ok, pure_eq_ok, Prod.mk.injEq] at htarget
  obtain ⟨u, -, rfl, hnode⟩ := htarget
  exact ⟨hnode.symm, writerLock_sameTree hlock⟩

/-- Where nothing is, the opening makes an entry. -/
theorem openWrite_created (hlegible : Legible path) (hs : tx.db.Sound)
    (hplaced : tx.db.LocksPlaced) (hm : requireMount E k tx.db mount true = .ok m)
    (h : openWrite C E k tx mount path .truncate lock = .ok (tx', d))
    (hmissing : ¬ Existed tx.db m.mountPoint path) :
    resolve tx'.db m.mountPoint path = .ok ⟨d.node, .entry⟩ := by
  obtain ⟨ctx, tx₁, i, hctx, htarget, hlock, -⟩ := openWrite_ok h
  obtain rfl := Except.ok.inj (hm.symm.trans hctx)
  simp only [openTarget] at htarget
  split at htarget
  next found hfound => exact absurd ⟨found, hfound⟩ hmissing
  next hnone =>
    have hcreate : createLeaf C E k tx mount path .entry [] = .ok (tx₁, d.node) := htarget
    obtain ⟨m', p, hm', hp, hborn⟩ := createLeaf_names hcreate
    obtain rfl := Except.ok.inj (hm.symm.trans hm')
    obtain ⟨_, -, hstrides⟩ := createLeaf_strides hs.linked hcreate
    have hs₁ : tx₁.db.Sound := Strides.sound hstrides hs
    have hfree : tx.db.binding p.container p.name = none := by
      cases hsegment : tx.db.resolveSegment p.container p.name with
      | none => rw [Db.binding, hsegment, Option.map_none]
      | some hit =>
        refine absurd ⟨⟨hit.nodeId, hit.type⟩, (resolve_of_parent hlegible hp).mpr ?_⟩ hmissing
        simp only [descend, hsegment, if_true]
    have hmade := Made.of_birth (E := fun _ => E) hlegible hs.linked hs₁.linked hplaced
        (fun _ => hm)
      hp hfree hborn (createLeaf_brought hcreate)
    obtain ⟨m₁, hm₁, hleads⟩ := hmade.opens
    have hsame : m₁ = m := by
      have hbrought := createLeaf_brought hcreate
      have hm₁' := hm₁ 0
      rw [requireMount_congr hbrought.mounts hbrought.volumes] at hm₁'
      exact Except.ok.inj (hm₁'.symm.trans hm)
    rw [(writerLock_sameTree hlock).resolve, ← hsame]
    exact hleads
  next => cases htarget

/-! ### The transfer -/

/-- Others may take the lock from the upload, or end its mount; they leave the rest. -/
def WriterEvent.Quiet (tx : Tx) : WriterEvent → Prop
  | .elsewhere tx' => AgreeOff [.locks, .mounts] tx.db tx'.db
  | _ => True

/-- An event of an upload: chunks read from the source and written, flushes that go through
or are refused, a lock that is lost. -/
def Transfers (C : Crypto) (k : Cipher) (s : OpenWriter) (e : WriterEvent) : Prop :=
  Offered C k s e ∧ e.Quiet s.tx

/-- What an upload has done to the file so far. -/
structure Transferring (C : Crypto) (own : VolumeId → Cipher) (start t : OpenWriter) : Prop where
  holding : Holding C own t
  whole : t.tx.db.Pooled
  node : t.d.node = start.d.node
  volume : t.d.volume = start.d.volume
  bare : t.d.carryFull = 0
  tree : SameTree start.tx.db t.tx.db

theorem sameTree_of_agreeOff (h : AgreeOff [.locks, .mounts] db db') : SameTree db db' :=
  ⟨h.nodes (by decide), h.edges (by decide), fun n _ =>
    Untouched.of_agreeOff h (fun hin => absurd hin (by decide))
    (fun hin => absurd hin (by decide)) (fun hin => absurd hin (by decide))
      (fun hin => absurd hin (by decide))
    (fun hin => absurd hin (by decide))⟩

/-- A flush stays above the committed version. -/
theorem flush_sameTree (hd : t.tx.db.committedVersion t.d.node ≠ some (t.d.claims t.tx.db))
    (hp : t.tx.db.Pooled) (h : (t.d.flushOneChunk C E k t.tx).2 = .ok tx') :
    SameTree t.tx.db tx'.db ∧ tx'.db.Pooled := by
  have hgrown : Grown C t.d.node (t.d.claims t.tx.db) t.tx tx' := flushOneChunk_grown h
  refine ⟨⟨hgrown.off.nodes (by decide), hgrown.off.edges (by decide), fun n hn => ?_⟩, ?_⟩
  · exact Steps.untouched (flushOneChunk_spares (fun heq => heq ▸ hd) h) hn hp
  · exact (flushOneChunk_spares (fun heq => heq ▸ hd) h : Steps
      (Spares t.d.node) E.now t.tx.db tx'.db).pooled hp

theorem failFlush_carryFull {port : Port} {point : FailPoint} :
    (d.failFlush port point db).carryFull = d.carryFull := by
  cases point <;> rfl

theorem OpenWriter.next_carryFull (C : Crypto) (k : Cipher) (port : Port) (s : OpenWriter)
    (e : WriterEvent) :
    (s.next C k port e).d.carryFull = s.d.carryFull := by
  cases e with
  | write data =>
    simp only [OpenWriter.next]
    split
    next habsorb => obtain ⟨-, -, ⟨-, rfl⟩ | ⟨-, -, rfl⟩⟩ := absorb_ok habsorb <;> rfl
    next => rfl
  | seek offset whence =>
    simp only [OpenWriter.next]
    split
    next hseek =>
      obtain ⟨pos, rfl⟩ := seek_ok hseek
      rfl
    next => rfl
  | flush E =>
    simp only [OpenWriter.next]
    split
    next d tx hflush =>
      have hsame : SameFd ⟨0, s.d, []⟩ ⟨0, (s.d.flushOneChunk C E k s.tx).1, []⟩ :=
        flushOneChunk_same s.d [] []
      rw [hflush] at hsame
      exact hsame.carryFull
    next => exact failFlush_carryFull
  | fail point => exact failFlush_carryFull
  | elsewhere tx => rfl

/-- Only a flush and a step of others change the file. -/
theorem Transferring.next {e : WriterEvent} {start : OpenWriter} (h : Transferring C own start t)
    (hk : k = own t.d.volume) (he : Transfers C k t e) :
    Transferring C own start (t.next C k .python e) := by
  have hspared : LosesNothing .python t e := by
    cases e with
    | fail point => exact ⟨rfl, fun _ => Or.inr h.bare⟩
    | write data | seek offset whence | flush E | elsewhere tx => trivial
  obtain ⟨hnode, hvolume⟩ := t.next_target C k .python e
  have hstep : SameTree t.tx.db (t.next C k .python e).tx.db ∧
      (t.next C k .python e).tx.db.Pooled := by
    cases e with
    | write data =>
      simp only [OpenWriter.next]
      split <;> exact ⟨SameTree.refl _, h.whole⟩
    | seek offset whence =>
      simp only [OpenWriter.next]
      split <;> exact ⟨SameTree.refl _, h.whole⟩
    | flush E =>
      simp only [OpenWriter.next]
      split
      next d tx hflush => exact flush_sameTree h.holding.uncommitted h.whole (by rw [hflush])
      next => exact ⟨SameTree.refl _, h.whole⟩
    | fail point => exact ⟨SameTree.refl _, h.whole⟩
    | elsewhere tx =>
      have hquiet : AgreeOff [.locks, .mounts] t.tx.db tx.db := he.2
      refine ⟨sameTree_of_agreeOff hquiet, ?_⟩
      intro r hr
      have hrow : r ∈ t.tx.db.versions := by
        rw [← hquiet.versions (by decide)]
        exact hr
      have hchunk := h.whole r hrow
      have hsame : tx.db.chunk? r.chunkHash = t.tx.db.chunk? r.chunkHash := by
        rw [Db.chunk?, Db.chunk?, hquiet.chunks (by decide)]
      rw [← hsame] at hchunk
      exact hchunk
  exact ⟨h.holding.next hk he.1 hspared, hstep.2, hnode.trans h.node, hvolume.trans h.volume,
    (OpenWriter.next_carryFull C k .python t e).trans h.bare, h.tree.trans hstep.1⟩

/-! ### The end -/

theorem abort_sameTree (h : t.d.abort E t.tx = .ok tx') (hp : t.tx.db.Pooled) :
    SameTree t.tx.db tx'.db := by
  refine ⟨?_, ?_, fun n hn => Steps.untouched (abort_spares h) hn hp⟩
  all_goals
    rw [Descriptor.abort] at h
    split at h
    · rw [← Except.ok.inj h]
    · rcases releaseOwnLock_ok h with rfl | ⟨i, -, rfl⟩ <;> rfl

/-- A commit moves a pointer; paths lead where they led. -/
theorem commit_resolve (h : d.commit C E k tx = .ok tx') :
    resolve tx'.db a path = resolve tx.db a path := by
  obtain ⟨-, tx₁, tx₂, tx₃, hclaim, hstage, hswap, hrelease⟩ := commit_ok h
  have hframe : AgreeOff [.chunks, .versions, .contents] tx.db tx₃.db := by
    obtain ⟨db₃, hexec, rfl⟩ := Tx.run_ok.mp hswap
    have hclaimed := claimVersion_agreeOff hclaim
    have hstaged := Stages.agreeOff (stagePending_steps hstage)
    refine ((hclaimed.trans hstaged).weaken (by simp)).trans ?_
    exact (Stmt.exec_agreeOff hexec).weaken (by simp [Stmt.touches])
  have hlast : tx'.db.nodes = tx₃.db.nodes ∧ tx'.db.edges = tx₃.db.edges := by
    rcases releaseOwnLock_ok hrelease with rfl | ⟨i, -, rfl⟩ <;> exact ⟨rfl, rfl⟩
  exact resolve_congr (hlast.1.trans (hframe.nodes (by decide)))
    (hlast.2.trans (hframe.edges (by decide))) a path

variable {start : OpenWriter} {before : Db} {port : Port}

/-- What a failed end leaves for the others is the tree of the transfer. -/
theorem end_stored (hp : t.tx.db.Pooled)
    (hfails : call = .abort ∨ (t.d.endCall C E k port t.tx call fault).returned = false) :
    SameTree t.tx.db (t.d.endCall C E k port t.tx call fault).conn.stored := by
  have hends : t.d.Ends C E k port t.tx call fault (t.d.endCall C E k port t.tx call fault).conn :=
    endCall_ends
  rcases hends with ⟨hcommits, -, hconn⟩ | ⟨-, -, -, hconn⟩ | ⟨-, -, hconn⟩
  · rcases hfails with rfl | hraised
    · rw [hconn]
      exact abort_sameTree hcommits.2.1 hp
    · rw [endCall_of_commits hcommits] at hraised
      cases hraised
  · rw [hconn]
    exact SameTree.refl _
  · rw [hconn]
    exact SameTree.refl _

/-- The bytes of a transfer whose `COMMIT` is refused are on the connection. -/
def ShowsUpload (C : Crypto) (E : Env) (k : Cipher) (t : OpenWriter) (call : EndCall)
    (fault : Option EndFault) : Prop :=
  call = .close ∧ t.d.LeavesOpen C E k .python t.tx call fault

/-- Where something was at the path, a failed end keeps it unless the connection shows the
new bytes. -/
theorem Transferring.kept_iff (hC : C.KeepsLength) (h : Transferring C own start t)
    (htree : SameTree before start.tx.db)
    {found : Resolved} (hfound : resolve before a path = .ok found)
    (hnode : start.d.node = found.node)
    (hal : ∀ tx', t.d.endBody C E (own t.d.volume) t.tx call = .ok tx' → tx'.aliased = false)
    (hfails : call = .abort ∨
      (t.d.endCall C E (own t.d.volume) .python t.tx call fault).returned = false) :
    KeptBy C (own t.d.volume) a path before
      (t.d.endCall C E (own t.d.volume) .python t.tx call fault).conn ↔
      (ShowsUpload C E (own t.d.volume) t call fault →
        readContentBytes C (own t.d.volume) before found.node = .ok t.bytes) := by
  have hstored := (htree.trans h.tree).trans (end_stored h.whole hfails)
  rw [KeptBy]
  have hends : t.d.Ends C E (own t.d.volume) .python t.tx call fault
      (t.d.endCall C E (own t.d.volume) .python t.tx call fault).conn := endCall_ends
  rcases hends with ⟨hcommits, hkept, hconn⟩ | ⟨-, hleft, hbody, hconn⟩ | ⟨-, hkept, hconn⟩
  · rw [hconn] at hstored ⊢
    exact ⟨fun _ hshows => absurd hshows.2 hkept, fun _ => ⟨hstored.kept, hstored.kept⟩⟩
  · rename_i tx'
    rw [hconn] at hstored ⊢
    cases hcall : call with
    | abort =>
      rw [hcall] at hbody
      have hdraft := (htree.trans h.tree).trans (abort_sameTree hbody h.whole)
      refine ⟨fun _ hshows => absurd hshows.1 (by decide), fun _ => ⟨hstored.kept, hdraft.kept⟩⟩
    | close =>
      rw [hcall] at hbody hleft hal
      obtain ⟨hopen, hwritable⟩ : t.d.closed = false ∧ t.d.writable = true :=
        of_decide_eq_true hleft.2.2.1
      have hcommit : t.d.commit C E (own t.d.volume) t.tx = .ok tx' := by
        rw [Descriptor.endBody, Descriptor.close, if_neg (by simp [hopen, hwritable])] at hbody
        exact hbody
      obtain ⟨hread, -⟩ := h.holding.commit hC hcommit (hal tx' hbody)
      have hat : t.d.node = found.node := h.node.trans hnode
      rw [hat] at hread
      have hresolve : ∀ q, resolve tx'.db a q = resolve before a q := fun q => by
        rw [commit_resolve hcommit, (htree.trans h.tree).resolve]
      constructor
      · rintro ⟨-, hdraft⟩ -
        have hsame : readContentBytes C (own t.d.volume) tx'.db found.node =
            readContentBytes C (own t.d.volume) before found.node :=
          hdraft.reads found hfound
        rw [← hsame]
        exact hread
      · intro hsame
        refine ⟨hstored.kept, ⟨fun other => ?_, fun other hother => ?_⟩⟩
        · rw [Option.getD_some, hresolve]
        · obtain rfl := Except.ok.inj (hfound.symm.trans hother)
          rw [hsame ⟨rfl, hleft⟩]
          exact hread
  · rw [hconn] at hstored ⊢
    exact ⟨fun _ hshows => absurd hshows.2 hkept, fun _ => ⟨hstored.kept, hstored.kept⟩⟩

/-! ### Uploads that fail -/

/-- What the transaction of the opening does. -/
def opening (C : Crypto) (E : Env) (k : Cipher) (tx : Tx) (mount : MountId) (path : String)
    (lock : Option LockId) : Except FsError Tx :=
  (openWrite C E k tx mount path .truncate lock).map Prod.fst

theorem opening_ok (h : opening C E k tx mount path lock = .ok tx') :
    ∃ d, openWrite C E k tx mount path .truncate lock = .ok (tx', d) := by
  rw [opening] at h
  cases hopen : openWrite C E k tx mount path .truncate lock with
  | error e =>
    rw [hopen] at h
    cases h
  | ok r =>
    rw [hopen] at h
    obtain rfl := Except.ok.inj h
    exact ⟨r.2, rfl⟩

/-- An opening that fails keeps the path, unless it stays open with an entry it has made. -/
theorem failed_opening_iff {fault : Option TxnFault} {k' : Cipher} (hlegible : Legible path)
    (hs : tx.db.Sound) (hplaced : tx.db.LocksPlaced)
    (hm : requireMount E k tx.db mount true = .ok m)
    (hfails : (Port.python.txn { stored := tx.db }
      (faultyOp (opening C E k tx mount path lock) fault)).2 = false) :
    KeptBy C k' m.mountPoint path tx.db
      (Port.python.txn { stored := tx.db } (faultyOp (opening C E k tx mount path lock) fault)).1 ↔
      (StaysOpen (opening C E k tx mount path lock) fault → Existed tx.db m.mountPoint path) := by
  rcases faultyOp_fails hfails with ⟨hnot, hconn⟩ | ⟨tx', hbody, hstays, hconn⟩
  · rw [hconn]
    exact ⟨fun _ hstays => absurd hstays hnot, fun _ => ⟨PathKept.refl, PathKept.refl⟩⟩
  · rw [hconn]
    obtain ⟨d, hopen⟩ := opening_ok hbody
    constructor
    · rintro ⟨-, hdraft⟩ -
      by_contra hmissing
      exact not_kept_of_appears hmissing (openWrite_created hlegible hs hplaced hm hopen hmissing)
        hdraft
    · intro hexisted
      obtain ⟨found, hfound⟩ := hexisted hstays
      exact ⟨PathKept.refl, (openWrite_existed hm hopen hfound).2.kept⟩

/-- A transaction that stays open refuses the next one. -/
theorem txn_of_draft {c : TxnConn Db} {op : TxnOp Db} (h : c.draft.isSome = true) :
    (port.txn c op).1 = c := by
  cases port <;> simp [Port.txn, pyTxn, rustTxn, TxnConn.Refused, h]

/-- A flush that stays open refuses the abort. -/
theorem stuck_conn {body : Except FsError Tx} {fault : Option TxnFault} (db : Db) (op : TxnOp Db)
    (hstays : StaysOpen body fault) :
    ∃ tx', body = .ok tx' ∧
      (Port.python.txn (Port.python.txn { stored := db } (faultyOp body fault)).1 op).1 =
        { stored := db, draft := some tx'.db } := by
  obtain ⟨rfl, tx', rfl⟩ := hstays
  refine ⟨tx', rfl, ?_⟩
  have hconn : (Port.python.txn { stored := db } (faultyOp (.ok tx') (some (.commit false)))).1 =
      { stored := db, draft := some tx'.db } := by
    simp only [faultyOp, txn_commit, and_self, if_true]
  rw [hconn]
  exact txn_of_draft rfl

variable {sys : Sys} {l : Label} {fd : FdId}

/-- The state an opening leaves. -/
theorem step_openWrite (hop : l.op = .openWrite mount path .truncate lock)
    (hok : (exec C M l.env sys l.conn l.op).2 = .ok (.fd fd)) : ∃ tx d,
    openWrite C l.env (sys.conns l.conn).cipher sys.begin mount path .truncate lock = .ok (tx, d) ∧
      (step C M sys l).begin.db = tx.db ∧ (step C M sys l).fds[fd]? =
        some { conn := l.conn, d := d } := by
  rw [hop] at hok
  simp only [exec] at hok
  cases hopen : openWrite C l.env (sys.conns l.conn).cipher sys.begin mount path .truncate lock with
  | error e =>
    rw [hopen] at hok
    cases hok
  | ok r =>
    obtain ⟨tx, d⟩ := r
    rw [hopen] at hok
    obtain rfl : sys.fds.length = fd := Reply.fd.inj (Except.ok.inj hok)
    refine ⟨tx, d, rfl, ?_, ?_⟩
    · simp only [step, hop, exec, hopen, Sys.transact]
      rfl
    · simp only [step, hop, exec, hopen, Sys.transact]
      exact List.getElem?_concat_length

/-- An upload that fails leaves its path as it was: at the opening, unless that stays open
with an entry just made; after it, exactly where something was at the path and the
connection does not show the new bytes of a refused `COMMIT`. -/
theorem failed_upload_keeps_path_iff (hC : C.KeepsLength) (hlegible : Legible path)
    (h : Reaches C M (Careful C M own) sys) (hl : Careful C M own sys l)
    (hop : l.op = .openWrite mount path .truncate lock)
    (hm : requireMount l.env (sys.conns l.conn).cipher sys.db mount true = .ok m) :
    (∀ fault, (Port.python.txn { stored := sys.db }
      (faultyOp (opening C l.env (sys.conns l.conn).cipher sys.begin mount path lock) fault)).2 =
        false →
      (KeptBy C (own m.volume) m.mountPoint path sys.db
          (Port.python.txn { stored := sys.db }
            (faultyOp (opening C l.env (sys.conns l.conn).cipher sys.begin mount path lock)
              fault)).1 ↔
        (StaysOpen (opening C l.env (sys.conns l.conn).cipher sys.begin mount path lock) fault →
          Existed sys.db m.mountPoint path))) ∧
    ∀ fd, (exec C M l.env sys l.conn l.op).2 = .ok (.fd fd) →
      ∃ f, (step C M sys l).fds[fd]? = some f ∧
      ∀ t, GuardedRuns.Run (fun s e => s.next C (own m.volume) .python e)
        (Transfers C (own m.volume))
          ⟨(step C M sys l).begin, f.d, []⟩ t →
        (∀ E fault op, StaysOpen (t.d.flushOneChunk C E (own m.volume) t.tx).2 fault →
          (KeptBy C (own m.volume) m.mountPoint path sys.db (Port.python.txn
              (Port.python.txn { stored := t.tx.db }
                (faultyOp (t.d.flushOneChunk C E (own m.volume) t.tx).2 fault)).1 op).1 ↔
            Existed sys.db m.mountPoint path)) ∧
        ∀ E call fault, (∀ tx', t.d.endBody C E (own m.volume) t.tx call = .ok tx' →
          tx'.aliased = false) →
          (call = .abort ∨
            (t.d.endCall C E (own m.volume) .python t.tx call fault).returned = false) →
          (KeptBy C (own m.volume) m.mountPoint path sys.db
            (t.d.endCall C E (own m.volume) .python t.tx call fault).conn ↔
            Existed sys.db m.mountPoint path ∧ (ShowsUpload C E (own m.volume) t call fault →
              ∀ found, resolve sys.db m.mountPoint path = .ok found →
                readContentBytes C (own m.volume) sys.db found.node = .ok t.bytes)) := by
  refine ⟨fun fault hfails => failed_opening_iff hlegible h.sound h.locksPlaced hm hfails, ?_⟩
  intro fd hok
  obtain ⟨tx, d, hopen, hdb, hfile⟩ := step_openWrite hop hok
  refine ⟨_, hfile, ?_⟩
  intro t hrun
  obtain ⟨ctx, -, -, hctx, -, -, -, hvolume, -, -, -, -, -, -, hmode⟩ := openWrite_ok hopen
  obtain rfl := Except.ok.inj (hm.symm.trans hctx)
  have hbare : d.carryFull = 0 ∧ d.stream = [] := by
    rcases hmode with ⟨-, -, hfull, -, -, -, -, hstream⟩ | ⟨happend, -⟩
    · exact ⟨hfull, hstream⟩
    · cases happend
  -- the writer just opened, and what the transfer keeps of it
  have hstart : Transferring C own ⟨(step C M sys l).begin, d, []⟩
      ⟨(step C M sys l).begin, d, []⟩ := by
    obtain ⟨f, c, hf, -, -, hholding⟩ := openWrite_holding h hl hop hok
    obtain rfl := Option.some.inj (hf.symm.trans hfile)
    exact ⟨hholding, Reaches.pooled (h.snoc hl), rfl, rfl, hbare.1, SameTree.refl _⟩
  have htransfer : Transferring C own ⟨(step C M sys l).begin, d, []⟩ t := by
    refine GuardedRuns.Run.invariant (P := Transferring C own ⟨(step C M sys l).begin, d, []⟩) ?_
      hrun hstart
    intro s e he hs
    have hk : own m.volume = own s.d.volume := by rw [hs.volume, ← hvolume]
    exact hs.next hk he
  have hV : own t.d.volume = own m.volume := by rw [htransfer.volume, ← hvolume]
  -- something at the path is kept until a commit; nothing there, and the opening has made it
  by_cases hexisted : Existed sys.db m.mountPoint path
  · obtain ⟨found, hfound⟩ := hexisted
    obtain ⟨hnode, htree⟩ := openWrite_existed hm hopen hfound
    have hbefore : SameTree sys.db (step C M sys l).begin.db := hdb ▸ htree
    have hthrough : SameTree sys.db t.tx.db := hbefore.trans htransfer.tree
    constructor
    · intro E fault op hstays
      obtain ⟨tx', hflush, hconn⟩ := stuck_conn t.tx.db op hstays
      rw [hconn]
      exact ⟨fun _ => ⟨found, hfound⟩, fun _ => ⟨hthrough.kept,
        (hthrough.trans (flush_sameTree htransfer.holding.uncommitted
          htransfer.whole hflush).1).kept⟩⟩
    · intro E call fault hal hfails
      rw [← hV] at hal hfails ⊢
      rw [htransfer.kept_iff hC hbefore hfound hnode hal hfails]
      constructor
      · intro hshows
        refine ⟨⟨found, hfound⟩, fun hshown other hother => ?_⟩
        obtain rfl := Except.ok.inj (hfound.symm.trans hother)
        exact hshows hshown
      · exact fun hboth hshown => hboth.2 hshown found hfound
  · have happears : resolve t.tx.db m.mountPoint path = .ok ⟨d.node, .entry⟩ := by
      rw [htransfer.tree.resolve, hdb]
      exact openWrite_created hlegible h.sound h.locksPlaced hm hopen hexisted
    constructor
    · intro E fault op hstays
      obtain ⟨tx', -, hconn⟩ := stuck_conn t.tx.db op hstays
      rw [hconn]
      exact ⟨fun hkept => absurd hkept.1 (not_kept_of_appears hexisted happears), fun hit =>
        absurd hit hexisted⟩
    · intro E call fault hal hfails
      have hstored : SameTree t.tx.db
          (t.d.endCall C E (own m.volume) .python t.tx call fault).conn.stored :=
        end_stored htransfer.whole hfails
      exact ⟨fun hkept =>
        absurd hkept.1 (not_kept_of_appears hexisted (hstored.resolve.trans happears)),
          fun hit => absurd hit.1 hexisted⟩

/-- An upload to a path of the file above, at its opening. -/
def uploadOpening (path : String) : Label := ⟨.counting 5, 0, .openWrite 1 path .truncate none⟩

def uploadWriter (path : String) (n : NodeId) (i : LockId) : OpenWriter where
  tx := (step Crypto.xorStream Msgpack.refusing twoChunks (uploadOpening path)).begin
  d := { node := n, volume := 0, cs := 1, writable := true, lock := some i, ownsLock := true }
  bytes := []

/-- Over an entry the bytes survive an upload whose source fails. -/
theorem failed_upload_keeps_path_iff_existing :
    KeptBy Crypto.xorStream .identity 0 "x" twoChunks.db
      ((uploadWriter "x" 3 5).d.endCall Crypto.xorStream (.counting 9) .identity
      .python (uploadWriter "x" 3 5).tx .abort none).conn := by
  have hl : Careful Crypto.xorStream Msgpack.refusing (fun _ => .identity) twoChunks
      (uploadOpening "x") := by decide +kernel
  have hm : requireMount (uploadOpening "x").env (twoChunks.conns (uploadOpening "x").conn).cipher
      twoChunks.db 1 true =
      .ok ⟨1, 0, 0, .none⟩ := by decide +kernel
  have hok : (exec Crypto.xorStream Msgpack.refusing (uploadOpening "x").env twoChunks
      (uploadOpening "x").conn (uploadOpening "x").op).2 =
      .ok (.fd 0) := by decide +kernel
  have hfile : (step Crypto.xorStream Msgpack.refusing twoChunks (uploadOpening "x")).fds[0]? =
      some { conn := 0, d := (uploadWriter "x" 3 5).d } := by decide +kernel
  obtain ⟨f, hf, hruns⟩ :=
    (failed_upload_keeps_path_iff xorStream_keepsLength
      (by decide +kernel) twoChunks_reaches hl rfl hm).2 0 hok
  obtain rfl := Option.some.inj (hf.symm.trans hfile)
  obtain ⟨tx', hmem,
    hal⟩ : ∃ tx' ∈ ((uploadWriter "x" 3 5).d.endBody Crypto.xorStream (.counting 9) .identity
      (uploadWriter "x" 3 5).tx .abort).toOption, tx'.aliased = false := by
    decide +kernel
  have hbody := mem_toOption.mp hmem
  refine ((hruns (uploadWriter "x" 3 5) (GuardedRuns.Run.refl _)).2
    (.counting 9) .abort none ?_ (Or.inl rfl)).mpr ⟨?_, ?_⟩
  · intro tx₁ h
    obtain rfl := Except.ok.inj (hbody.symm.trans h)
    exact hal
  · exact ⟨⟨3, .entry⟩, by decide +kernel⟩
  · intro hshows
    cases hshows.1

/-- Where nothing was, an upload whose source fails leaves an empty entry. -/
theorem failed_upload_leaves_empty_entry :
    Reaches Crypto.xorStream Msgpack.refusing
      (Careful Crypto.xorStream Msgpack.refusing fun _ => .identity) twoChunks ∧
      resolve twoChunks.db 0 "y" = .error .notFound ∧
      (step Crypto.xorStream Msgpack.refusing twoChunks (uploadOpening "y")).fds[0]? =
        some { conn := 0, d := (uploadWriter "y" 5 5).d } ∧
      let after := ((uploadWriter "y" 5 5).d.endCall Crypto.xorStream
        (.counting 9) .identity .python
        (uploadWriter "y" 5 5).tx .abort none).conn.stored
      resolve after 0 "y" = .ok ⟨5, .entry⟩ ∧
        readContentBytes Crypto.xorStream .identity after 5 = .ok [] ∧
        ¬ PathKept Crypto.xorStream .identity 0 "y" twoChunks.db after := by
  have hbefore : resolve twoChunks.db 0 "y" = .error .notFound := by decide +kernel
  refine ⟨twoChunks_reaches, hbefore, by decide +kernel, ?_⟩
  intro after
  have hafter : resolve after 0 "y" = .ok ⟨5, .entry⟩ := by decide +kernel
  refine ⟨hafter, by decide +kernel, not_kept_of_appears ?_ hafter⟩
  rintro ⟨found, hfound⟩
  cases hbefore.symm.trans hfound

end Aloelite
