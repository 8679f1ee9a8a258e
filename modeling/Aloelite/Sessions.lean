import Aloelite.Integrity

/-! What a step does to the mounts and the locks of a file. Validity is derived
from both tables and the clock, so each change is listed once with the checks it
has passed. -/
namespace Aloelite

open Fallible KeyedRows ForestOrder Relation

variable {C : Crypto} {M : Msgpack} {E : Env} {k : Cipher} {L : License} {now t t' : Int}
  {db db' : Db} {tx tx' : Tx} {s : Sys} {c : ConnId} {op : Op} {l : LockId} {m : MountId}
  {P : Prop} {A : MountRow → Prop}

/-- The steps that mint a lock id. -/
def Op.mintsLock : Op → Prop
  | .request _ (.lock ..) | .openWrite _ _ _ none => True
  | _ => False

instance (op : Op) : Decidable op.mintsLock := by
  unfold Op.mintsLock
  split <;> infer_instance

/-- The row of a mount that passed the checks of `mount`. -/
structure Admitted (E : Env) (db : Db) (args : MountArgs) (row : MountRow) : Prop where
  anchored : ∃ volume root anchor, db.volume? args.volume = some volume ∧
    volume.rootNodeId = some root ∧ resolve db root args.path = .ok anchor ∧
    requireNoOverlap E db args anchor.node = .ok () ∧ row.mountPoint = anchor.node
  volume : row.volumeId = args.volume
  access : row.access = args.access
  expires : row.expiresAt = expiry E.now args.ttlMs

/-- The mount rows a step may add. -/
def Op.admits (E : Env) (db : Db) : Op → MountRow → Prop
  | .mount args => Admitted E db args
  | _ => fun _ => False

/-- The mounts and locks of a file after one step; `mints` says whether the step may
add a lock, `admits` which mounts it may add. -/
inductive Tenure (E : Env) (mints : Prop) (admits : MountRow → Prop) (db db' : Db) : Prop
  | same (hm : db'.mounts = db.mounts) (hl : db'.locks = db.locks)
  | mounted (row : MountRow) (hallowed : admits row) (hnew : db.mount? row.mountId = none)
      (hm : db'.mounts = db.mounts ++ [row]) (hl : db'.locks = db.locks)
  | unmounted (m : MountId)
      (hm : db'.mounts =
        amend MountRow.mountId db.mounts m (fun r => { r with state := .unmounted }))
      (hl : db'.locks = db.locks)
  | renewedMount (m : MountId) (exp : Option Int) (hvalid : (db.validMount? E.now m).isSome)
      (hm : db'.mounts = amend MountRow.mountId db.mounts m (fun r => { r with expiresAt := exp }))
      (hl : db'.locks = db.locks)
  | locked (row : LockRow) (hmints : mints) (hid : row.lockId = E.uuid)
      (hnew : db.lock? row.lockId = none) (hmount : (db.mount? row.mountId).isSome)
      (hnode : (db'.node? row.nodeId).isSome)
      (hfree : ∀ l ∈ db.locks, db.lockValid E.now l = true → l.nodeId = row.nodeId →
        l.mountId = row.mountId)
      (hm : db'.mounts = db.mounts) (hl : db'.locks = db.locks ++ [row])
  | renewedLock (row : LockRow) (exp : Option Int) (hrow : db.lock? row.lockId = some row)
      (hvalid : db.lockValid E.now row = true) (hm : db'.mounts = db.mounts)
      (hl : db'.locks =
        amend LockRow.lockId db.locks row.lockId (fun r => { r with expiresAt := exp }))
  | dropped (p : LockRow → Bool) (hm : db'.mounts = db.mounts) (hl : db'.locks = db.locks.filter p)

/-! ### Every step is one of these -/

/-- Without a session licence neither mounts nor locks nor volumes change. -/
theorem Stride.sessions (h : Stride L now db db') (hL : ¬ L.session) :
    db'.mounts = db.mounts ∧ db'.locks = db.locks ∧ db'.volumes = db.volumes := by
  cases h with
  | stmt st hst hexec =>
    have hframe := Stmt.exec_agreeOff hexec
    refine ⟨hframe.mounts ?_, hframe.locks ?_, hframe.volumes ?_⟩ <;>
      · cases st <;> first | exact absurd hst hL | exact hst.elim | simp [Stmt.touches]
  | birth row modifiedAt id f hhost hf hrow hfill hedge =>
    obtain ⟨-, -, hmounts, hvolumes, hlocks, -, -, -⟩ := birth_shape hrow hfill hedge
    exact ⟨hmounts, hlocks, hvolumes⟩

theorem Strides.sessions (h : Strides L now db db') (hL : ¬ L.session) :
    db'.mounts = db.mounts ∧ db'.locks = db.locks ∧ db'.volumes = db.volumes := by
  induction h with
  | refl => exact ⟨rfl, rfl, rfl⟩
  | tail _ hstride ih =>
    obtain ⟨hm, hl, hv⟩ := hstride.sessions hL
    exact ⟨hm.trans ih.1, hl.trans ih.2.1, hv.trans ih.2.2⟩

theorem Tenure.of_agreeOff {ts : List Table} (h : AgreeOff ts db db') (hm : .mounts ∉ ts)
    (hl : .locks ∉ ts) : Tenure E P A db db' :=
  Tenure.same (h.mounts hm) (h.locks hl)

/-- `mount`: one new row, active from the start. -/
theorem mount_tenure {args : MountArgs} {mid : MountId} {conn : Conn}
    (h : Aloelite.mount C E tx args = .ok (tx', mid, conn)) :
    Tenure E P (Admitted E tx.db args) tx.db tx'.db := by
  simp only [Aloelite.mount, bind_eq_ok, pure_eq_ok, orRaise_eq_ok, Prod.mk.injEq] at h
  obtain ⟨row, hrow, root, hroot, anchor, hanchor, u, hfree, tx₁, hcreate, conn', -, tx₂, hstate,
    rfl,
    -, -⟩ := h
  obtain ⟨db₁, hcreate', rfl⟩ := Tx.run_ok.mp hcreate
  obtain ⟨hnew, -, rfl⟩ := Db.createMount_ok hcreate'
  obtain ⟨db₂, hstate', rfl⟩ := Tx.run_ok.mp hstate
  obtain rfl := Except.ok.inj hstate'
  refine Tenure.mounted
    { mountId := E.uuid, volumeId := args.volume, mountPoint := anchor.node, state := .active
      expiresAt := expiry E.now args.ttlMs, access := args.access }
    ⟨⟨row, root, anchor, hrow, hroot, hanchor, hfree, rfl⟩, rfl, rfl, rfl⟩ hnew ?_ rfl
  exact KeyedRows.amend_append_fresh _ hnew

theorem unmount_tenure (h : unmount E tx m = .ok tx') : Tenure E P A tx.db tx'.db := by
  obtain ⟨db₁, hexec, rfl⟩ := Tx.run_ok.mp h
  obtain rfl := Except.ok.inj hexec
  exact Tenure.unmounted m rfl rfl

theorem renewMount_tenure {ttlMs : Option Int} (h : renewMount E k tx m ttlMs = .ok tx') :
    Tenure E P A tx.db tx'.db := by
  simp only [renewMount, bind_eq_ok] at h
  obtain ⟨ctx, hctx, hrun⟩ := h
  obtain ⟨row, volume, hrow, -, -, -⟩ := requireMount_ok hctx
  obtain ⟨db₁, hexec, rfl⟩ := Tx.run_ok.mp hrun
  obtain rfl := Except.ok.inj hexec
  exact Tenure.renewedMount m _ (Option.isSome_iff_exists.mpr ⟨row, hrow⟩) rfl rfl

theorem mount?_of_requireMount {write : Bool} {ctx : MountCtx}
    (h : requireMount E k db m write = .ok ctx) : (db.mount? m).isSome := by
  obtain ⟨row, -, hrow, -⟩ := requireMount_ok h
  exact Option.isSome_iff_exists.mpr ⟨row, (Option.filter_eq_some_iff.mp hrow).1⟩

theorem checkAnyLock_eq_false {n : NodeId} (h : db.checkAnyLock now n = false) :
    ∀ l ∈ db.locks, db.lockValid now l = true → l.nodeId ≠ n := by
  intro l hl hv hn
  rw [Db.checkAnyLock, List.any_eq_false] at h
  exact h l (List.mem_filter.mpr ⟨hl, hv⟩) (by simpa using hn)

theorem checkLockHeld_eq_false {n : NodeId} (h : db.checkLockHeld now n m = false) :
    ∀ l ∈ db.locks, db.lockValid now l = true → l.nodeId = n → l.mountId = m := by
  intro l hl hv hn
  rw [Db.checkLockHeld, List.any_eq_false] at h
  have hno := h l (List.mem_filter.mpr ⟨hl, hv⟩)
  simpa [hn] using hno

/-- `lock`: granted on a node that carries no valid lock. -/
theorem lock_ok {path : String} {ttlMs : Option Int} (h : lock E k tx m path ttlMs = .ok (tx', l)) :
    ∃ ctx found, requireMount E k tx.db m false = .ok ctx ∧
      resolve tx.db ctx.mountPoint path = .ok found ∧
      tx.db.checkAnyLock E.now found.node = false ∧ l = E.uuid ∧ tx.db.lock? l = none ∧
      (tx.db.node? found.node).isSome ∧ tx'.db = { tx.db with locks := tx.db.locks ++
        [{ lockId := l, mountId := m, nodeId := found.node, expiresAt := expiry E.now ttlMs }]
          } := by
  simp only [lock, bind_eq_ok, pure_eq_ok, refuse_eq_ok, Prod.mk.injEq] at h
  obtain ⟨ctx, hctx, found, hfound, u, hany, tx₁, hrun, rfl, rfl⟩ := h
  obtain ⟨db₁, hexec, rfl⟩ := Tx.run_ok.mp hrun
  obtain ⟨hnew, hnode, rfl⟩ := Db.createLock_ok hexec
  exact ⟨ctx, found, hctx, hfound, hany, rfl, hnew, hnode, rfl⟩

theorem lock_tenure {path : String} {ttlMs : Option Int}
    (h : lock E k tx m path ttlMs = .ok (tx', l)) (hP : P) : Tenure E P A tx.db tx'.db := by
  obtain ⟨ctx, found, hctx, -, hany, hid, hnew, hnode, hdb⟩ := lock_ok h
  refine Tenure.locked ⟨l, m, found.node, expiry E.now ttlMs⟩ hP hid hnew
    (mount?_of_requireMount hctx)
    ?_ ?_ (by rw [hdb]) (by rw [hdb])
  · rw [hdb]
    exact hnode
  · intro lk hlk hv hn
    exact absurd hn (checkAnyLock_eq_false hany lk hlk hv)

theorem unlock_tenure (h : unlock E k tx m l = .ok tx') : Tenure E P A tx.db tx'.db := by
  simp only [unlock, bind_eq_ok] at h
  obtain ⟨ctx, -, row, -, hrun⟩ := h
  obtain ⟨db₁, hexec, rfl⟩ := Tx.run_ok.mp hrun
  obtain rfl := Except.ok.inj hexec
  exact Tenure.dropped _ rfl rfl

theorem requireOwnLock_ok {row : LockRow} (h : requireOwnLock E db m l = .ok row) :
    db.lock? l = some row ∧ db.lockValid E.now row = true ∧ row.mountId = m := by
  simp only [requireOwnLock, bind_eq_ok, orRaise_eq_ok, refuse_eq_ok, pure_eq_ok] at h
  obtain ⟨row', hrow, u, hvalid, u', hown, rfl⟩ := h
  exact ⟨hrow, by simpa using hvalid, by simpa using hown⟩

theorem renewLock_tenure {ttlMs : Option Int} (h : renewLock E k tx m l ttlMs = .ok tx') :
    Tenure E P A tx.db tx'.db := by
  simp only [renewLock, bind_eq_ok] at h
  obtain ⟨ctx, -, row, hown, hrun⟩ := h
  obtain ⟨hrow, hvalid, -⟩ := requireOwnLock_ok hown
  obtain ⟨db₁, hexec, rfl⟩ := Tx.run_ok.mp hrun
  obtain rfl := Except.ok.inj hexec
  have hid : row.lockId = l := key_of_lookup hrow
  refine Tenure.renewedLock row (expiry E.now ttlMs) (by rw [hid]; exact hrow) hvalid rfl ?_
  rw [hid]
  rfl

/-- What `open_write` does to locks once its target stands: it uses the supplied
lock or adds one that no other mount's valid lock opposes. -/
theorem writerLock_ok {n : NodeId} {supplied : Option LockId}
    (h : writerLock E tx m n supplied = .ok (tx', l)) :
    (supplied = some l ∧ tx' = tx ∧ ∃ row, tx.db.lock? l = some row ∧
        tx.db.lockValid E.now row = true ∧ row.mountId = m ∧ row.nodeId = n) ∨
      (supplied = none ∧ l = E.uuid ∧ tx.db.checkLockHeld E.now n m = false ∧
        tx.db.lock? l = none ∧ (tx.db.mount? m).isSome ∧ (tx.db.node? n).isSome ∧
        tx' = { tx with db := { tx.db with locks := tx.db.locks ++
          [{ lockId := l, mountId := m, nodeId := n, expiresAt := none }] } }) := by
  simp only [writerLock] at h
  split at h
  · simp only [bind_eq_ok, pure_eq_ok, refuse_eq_ok, Prod.mk.injEq] at h
    obtain ⟨row, hown, u, hnode, rfl, rfl⟩ := h
    obtain ⟨hrow, hvalid, hmount⟩ := requireOwnLock_ok hown
    exact Or.inl ⟨rfl, rfl, row, hrow, hvalid, hmount, by simpa using hnode⟩
  · simp only [requireUnlocked, bind_eq_ok, pure_eq_ok, refuse_eq_ok, Prod.mk.injEq] at h
    obtain ⟨u, hheld, tx₁, hrun, rfl, rfl⟩ := h
    obtain ⟨db₁, hexec, rfl⟩ := Tx.run_ok.mp hrun
    have hmount : (tx.db.mount? m).isSome := by
      simp only [Stmt.exec, Db.createLock, bind_eq_ok, refuse_eq_ok] at hexec
      obtain ⟨-, -, -, hm, -⟩ := hexec
      simpa [Option.isSome_iff_ne_none] using hm
    obtain ⟨hnew, hnode, rfl⟩ := Db.createLock_ok hexec
    exact Or.inr ⟨rfl, rfl, hheld, hnew, hmount, hnode, rfl⟩

/-- `open_write`, split at the lock: the target, then the lock; the descriptor
names both. -/
theorem openWrite_ok {path : String} {mode : WriteMode} {supplied : Option LockId} {d : Descriptor}
    (h : openWrite C E k tx m path mode supplied = .ok (tx', d)) :
    ∃ ctx tx₁ l, requireMount E k tx.db m true = .ok ctx ∧
      openTarget C E k tx m ctx path mode = .ok (tx₁, d.node) ∧
      writerLock E tx₁ m d.node supplied = .ok (tx', l) ∧ d.lock = some l ∧
      d.volume = ctx.volume ∧ d.cs = chunkSizeOf tx'.db ctx.volume ∧ d.writable = true ∧
      d.closed = false ∧ d.writing = false ∧ d.version = none ∧ d.carryDone = false ∧
      (mode = .truncate ∧ d.carrySrc = 0 ∧ d.carryFull = 0 ∧ d.chunkIndex = 0 ∧ d.flushed = 0 ∧
          d.pending = [] ∧ d.pos = 0 ∧ d.stream = [] ∨
        mode = .append ∧ d.cs ≠ 0 ∧ ∃ srcVersion size,
          (readContentMeta tx'.db d.node).getD (0, 0) = (srcVersion, size) ∧
          readTail C k tx'.db d.node srcVersion size d.cs = .ok d.pending ∧
          d.carrySrc = srcVersion ∧ d.carryFull = size / d.cs ∧ d.chunkIndex = size / d.cs ∧
          d.flushed = size / d.cs * d.cs ∧ d.pos = size ∧ d.stream = tx'.committed d.node) := by
  simp only [openWrite, bind_eq_ok] at h
  obtain ⟨ctx, hctx, ⟨tx₁, node⟩, htarget, ⟨tx₂, l⟩, hlock, h⟩ := h
  cases mode with
  | truncate =>
    simp only [pure_eq_ok, Prod.mk.injEq] at h
    obtain ⟨rfl, rfl⟩ := h
    exact ⟨ctx, tx₁, l, hctx, htarget, hlock, rfl, rfl, rfl, rfl, rfl, rfl, rfl, rfl,
      Or.inl ⟨rfl, rfl, rfl, rfl, rfl, rfl, rfl, rfl⟩⟩
  | append =>
    simp only [bind_eq_ok, refuse_eq_ok, pure_eq_ok, Prod.mk.injEq] at h
    obtain ⟨u, hcs, pending, htail, rfl, rfl⟩ := h
    refine ⟨ctx, tx₁, l, hctx, htarget, hlock, rfl, rfl, rfl, rfl, rfl, rfl, rfl, rfl,
      Or.inr ⟨rfl, by simpa using hcs, _, _, rfl, htail, rfl, rfl, rfl, rfl, rfl, rfl⟩⟩

/-- Creating the target of a stream leaves mounts and locks as they are. -/
theorem openTarget_sessions {path : String} {mode : WriteMode} {ctx : MountCtx} {n : NodeId}
    (hl : tx.db.Linked) (hm : requireMount E k tx.db m true = .ok ctx)
    (h : openTarget C E k tx m ctx path mode = .ok (tx', n)) :
    tx'.db.mounts = tx.db.mounts ∧ tx'.db.locks = tx.db.locks ∧ tx'.db.volumes = tx.db.volumes :=
  (openTarget_strides hl hm h).sessions (fun hs => hs)

theorem Db.lockValid_congr {row : LockRow} (hm : db'.mounts = db.mounts) :
    db'.lockValid now row = db.lockValid now row := by
  rw [Db.lockValid, Db.lockValid, Db.validMount?, Db.validMount?, Db.mount?, Db.mount?, hm]

theorem openWrite_tenure {path : String} {mode : WriteMode} {supplied : Option LockId}
    {d : Descriptor} (hl : tx.db.Linked) (hP : supplied = none → P)
    (h : openWrite C E k tx m path mode supplied = .ok (tx', d)) : Tenure E P A tx.db tx'.db := by
  obtain ⟨ctx, tx₁, l, hctx, htarget, hlock, -⟩ := openWrite_ok h
  obtain ⟨hmounts, hlocks, -⟩ := openTarget_sessions hl hctx htarget
  rcases writerLock_ok hlock with ⟨-, rfl, -⟩ | ⟨hnone, hid, hheld, hnew, hmount, hnode, rfl⟩
  · exact Tenure.same hmounts hlocks
  · have hnew' : tx.db.lock? l = none := by
      rw [Db.lock?, ← hlocks]
      exact hnew
    refine Tenure.locked { lockId := l, mountId := m, nodeId := d.node, expiresAt := none }
      (hP hnone)
      hid hnew' (mount?_of_requireMount hctx) hnode ?_ hmounts (congrArg (· ++ _) hlocks)
    intro lk hlk hv hn
    rw [← hlocks] at hlk
    rw [← Db.lockValid_congr hmounts] at hv
    exact checkLockHeld_eq_false hheld lk hlk hv hn

theorem releaseOwnLock_ok {d : Descriptor} (h : d.releaseOwnLock E tx = .ok tx') :
    tx' = tx ∨ ∃ l, d.lock = some l ∧ tx' = { tx with db := tx.db.releaseLock l } := by
  rw [Descriptor.releaseOwnLock.eq_def] at h
  split at h
  next l _ hlock =>
    obtain ⟨db₁, hexec, rfl⟩ := Tx.run_ok.mp h
    obtain rfl := Except.ok.inj hexec
    exact Or.inr ⟨l, hlock, rfl⟩
  next =>
    obtain rfl := Except.ok.inj h
    exact Or.inl rfl

theorem abort_tenure {d : Descriptor} (h : d.abort E tx = .ok tx') : Tenure E P A tx.db tx'.db := by
  rw [Descriptor.abort] at h
  split at h
  · obtain rfl := Except.ok.inj h
    exact Tenure.same rfl rfl
  · rcases releaseOwnLock_ok h with rfl | ⟨l, -, rfl⟩
    · exact Tenure.same rfl rfl
    · exact Tenure.dropped _ rfl rfl

theorem close_tenure {d : Descriptor} (h : d.close C E k tx = .ok tx') :
    Tenure E P A tx.db tx'.db := by
  rw [Descriptor.close] at h
  split at h
  · obtain rfl := Except.ok.inj h
    exact Tenure.same rfl rfl
  obtain ⟨-, tx₁, tx₂, tx₃, hclaim, hstage, hswap, hrelease⟩ := commit_ok h
  have hframe : AgreeOff [.chunks, .versions, .contents] tx.db tx₃.db := by
    obtain ⟨db₃, hexec, rfl⟩ := Tx.run_ok.mp hswap
    have hclaimed := claimVersion_agreeOff hclaim
    have hstaged := Stages.agreeOff (stagePending_steps hstage)
    refine ((hclaimed.trans hstaged).weaken (by simp)).trans ?_
    exact (Stmt.exec_agreeOff hexec).weaken (by simp [Stmt.touches])
  rcases releaseOwnLock_ok hrelease with rfl | ⟨l, -, rfl⟩
  · exact Tenure.of_agreeOff hframe (by simp) (by simp)
  · exact Tenure.dropped (fun r => r.lockId ≠ l) (hframe.mounts (by simp))
      (congrArg (List.filter _) (hframe.locks (by simp)))

theorem pruneLocks_tenure : Tenure E P A db (db.pruneLocks now) := Tenure.dropped _ rfl rfl

/-- A request that is none of the four session calls. -/
def Request.keepsSessions : Request → Prop
  | .lock .. | .unlock .. | .renewLock .. | .renewMount .. => False
  | _ => True

theorem Request.license_session {r : Request} {a : NodeId} (h : r.keepsSessions) :
    ¬ (r.license db a).session := by
  cases r <;> first | exact h.elim | exact fun hs => hs

/-- A transaction that fails leaves the tables, one that succeeds has the tenure
of its body. -/
theorem transact_tenure {α : Type} {body : Except FsError (Tx × α)} {done : Sys → α → Sys × Reply}
    (hdone : ∀ s a, (done s a).1.db = s.db)
    (hbody : ∀ tx a, body = .ok (tx, a) → Tenure E P A s.db tx.db) :
    Tenure E P A s.db (s.transact body done).1.db :=
  transact_db (P := fun db => Tenure E P A s.db db) hdone (Tenure.same rfl rfl) hbody

theorem noReply_ok {x : Except FsError Tx} {reply : Reply} (h : noReply x = .ok (tx', reply)) :
    x = .ok tx' := by
  simp only [noReply, map_eq_ok, Prod.mk.injEq] at h
  obtain ⟨t, hx, rfl, -⟩ := h
  exact hx

theorem asReply_ok {α : Type} {f : α → Reply} {x : Except FsError (Tx × α)} {reply : Reply}
    (h : asReply f x = .ok (tx', reply)) : ∃ a, x = .ok (tx', a) ∧ reply = f a := by
  simp only [asReply, map_eq_ok, Prod.mk.injEq] at h
  obtain ⟨⟨t, a⟩, hx, rfl, rfl⟩ := h
  exact ⟨a, hx, rfl⟩

theorem request_tenure {r : Request} {reply : Reply} (hl : tx.db.Linked)
    (hP : (Op.request m r).mintsLock → P) (h : r.run C M E k tx m = .ok (tx', reply)) :
    Tenure E P A tx.db tx'.db := by
  by_cases hr : r.keepsSessions
  · obtain ⟨ctx, w, -, hs⟩ := request_strides hl h
    obtain ⟨hm, hlocks, -⟩ := hs.sessions (Request.license_session hr)
    exact Tenure.same hm hlocks
  cases r with
  | lock path ttlMs =>
    obtain ⟨l, h, -⟩ := asReply_ok h
    exact lock_tenure h (hP trivial)
  | unlock l => exact unlock_tenure (noReply_ok h)
  | renewLock l ttlMs => exact renewLock_tenure (noReply_ok h)
  | renewMount ttlMs => exact renewMount_tenure (noReply_ok h)
  | _ => exact absurd trivial hr

theorem fdStep_tenure {fd : FdId} {f : OpenFile} :
    Tenure E P A s.db (fdStep C E s fd f op).1.db := by
  have hsame : Tenure E P A s.db s.db := Tenure.same rfl rfl
  cases op with
  | fdFlush fd' =>
    simp only [fdStep]
    split
    · refine fdTransact_db (P := fun db => Tenure E P A s.db db) hsame ?_
      intro tx h
      exact Tenure.of_agreeOff (flushOneChunk_agreeOff h) (by simp) (by simp)
    · exact hsame
  | fdClose fd' =>
    simp only [fdStep]
    split
    · exact hsame
    · exact fdTransact_db (P := fun db => Tenure E P A s.db db) hsame (fun tx h => close_tenure h)
  | fdAbort fd' =>
    simp only [fdStep]
    split
    · exact hsame
    · exact fdTransact_db (P := fun db => Tenure E P A s.db db) hsame (fun tx h => abort_tenure h)
  | _ =>
    simp only [fdStep]
    split
    · exact hsame
    · first
      | exact hsame
      | (split <;> exact hsame)

/-- Every step changes mounts and locks in one of the ways listed. -/
theorem exec_tenure (hs : s.db.Sound) :
    Tenure E op.mintsLock (op.admits E s.db) s.db (exec C M E s c op).1.db := by
  have hsame : Tenure E op.mintsLock (op.admits E s.db) s.db s.db := Tenure.same rfl rfl
  have hfd : ∀ fd, Tenure E op.mintsLock (op.admits E s.db) s.db (onFd C E s fd op).1.db := by
    intro fd
    rw [onFd]
    split
    · exact hsame
    · exact fdStep_tenure
  cases op with
  | request mount r =>
    exact transact_tenure (fun _ _ => rfl) (fun tx a h => request_tenure hs.linked id h)
  | createVolume name chunkSize pin mode =>
    refine transact_tenure (fun _ _ => rfl) ?_
    intro tx v h
    obtain ⟨-, -, -, -, -, hframe, -, -⟩ := createVolume_shape h
    exact Tenure.of_agreeOff hframe (by simp) (by simp)
  | changePin volume oldPin newPin =>
    refine transact_tenure (fun _ _ => rfl) ?_
    intro tx a h
    simp only [asReply, map_eq_ok, Prod.mk.injEq] at h
    obtain ⟨⟨t, u⟩, ⟨t', h, ht⟩, rfl, -⟩ := h
    obtain ⟨rfl, -⟩ := Prod.mk.inj ht
    simp only [changePin, bind_eq_ok] at h
    obtain ⟨row, -, root, -, u, -, key, -, hrun⟩ := h
    obtain ⟨db₁, hexec, rfl⟩ := Tx.run_ok.mp hrun
    exact Tenure.of_agreeOff (Stmt.exec_agreeOff hexec) (by simp [Stmt.touches])
      (by simp [Stmt.touches])
  | mount args => exact transact_tenure (fun _ _ => rfl) (fun tx a h => mount_tenure h)
  | unmount mount =>
    exact transact_tenure (fun _ _ => rfl) (fun tx a h => unmount_tenure (noReply_ok h))
  | openRead mount path =>
    simp only [exec]
    split <;> exact hsame
  | openWrite mount path mode lock =>
    refine transact_tenure (fun _ _ => rfl) ?_
    intro tx d h
    refine openWrite_tenure hs.linked ?_ h
    rintro rfl
    exact trivial
  | fdRead fd n => exact hfd fd
  | fdWrite fd data => exact hfd fd
  | fdFlush fd => exact hfd fd
  | fdSeek fd offset whence => exact hfd fd
  | fdClose fd => exact hfd fd
  | fdAbort fd => exact hfd fd
  | prune volume =>
    refine transact_tenure (fun _ _ => rfl) ?_
    intro tx r h
    rw [prune_shape h hs]
    exact pruneLocks_tenure
  | pruneContent volume =>
    refine transact_tenure (fun _ _ => rfl) ?_
    intro tx r h
    rw [pruneContent_shape h]
    exact Tenure.same rfl rfl

end Aloelite
