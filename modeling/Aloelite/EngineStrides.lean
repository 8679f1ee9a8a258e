import Aloelite.OperationStrides
import Aloelite.Engine

/-! The effect of every engine step on the file: nothing, a chain of strides
under the step's license, the founding of a volume, or one of the two prunes. -/
namespace Aloelite

open Fallible KeyedRows ForestOrder Relation

variable {C : Crypto} {M : Msgpack} {E : Env} {k : Cipher} {L : License} {db : Db} {tx tx' : Tx}
  {mount : MountId} {path : String} {n a : NodeId}

/-! ### Sessions and locks -/

theorem renewMount_strides {ttlMs : Option Int} (h : renewMount E k tx mount ttlMs = .ok tx') :
    ∃ m, requireMount E k tx.db mount false = .ok m ∧
      ∀ L : License, L.session → Strides L E.now tx.db tx'.db := by
  simp only [renewMount, bind_eq_ok] at h
  obtain ⟨m, hm, hrun⟩ := h
  exact ⟨m, hm, fun _ hs => Tx.run_strides hrun hs⟩

theorem lock_strides {ttlMs : Option Int} {l : LockId}
    (h : lock E k tx mount path ttlMs = .ok (tx', l)) :
    ∃ m, requireMount E k tx.db mount false = .ok m ∧
      ∀ L : License, L.session → Strides L E.now tx.db tx'.db := by
  simp only [lock, bind_eq_ok, pure_eq_ok, Prod.mk.injEq] at h
  obtain ⟨m, hm, found, -, u, -, tx₁, hrun, rfl, -⟩ := h
  exact ⟨m, hm, fun _ hs => Tx.run_strides hrun hs⟩

theorem unlock_strides {l : LockId} (h : unlock E k tx mount l = .ok tx') :
    ∃ m, requireMount E k tx.db mount false = .ok m ∧
      ∀ L : License, L.session → Strides L E.now tx.db tx'.db := by
  simp only [unlock, bind_eq_ok] at h
  obtain ⟨m, hm, row, -, hrun⟩ := h
  exact ⟨m, hm, fun _ hs => Tx.run_strides hrun hs⟩

theorem renewLock_strides {l : LockId} {ttlMs : Option Int}
    (h : renewLock E k tx mount l ttlMs = .ok tx') :
    ∃ m, requireMount E k tx.db mount false = .ok m ∧
      ∀ L : License, L.session → Strides L E.now tx.db tx'.db := by
  simp only [renewLock, bind_eq_ok] at h
  obtain ⟨m, hm, row, -, hrun⟩ := h
  exact ⟨m, hm, fun _ hs => Tx.run_strides hrun hs⟩

theorem changePin_strides {volume : VolumeId} {oldPin newPin : Bytes}
    (hl : L.session) (h : changePin C E tx volume oldPin newPin = .ok tx') :
    Strides L E.now tx.db tx'.db := by
  simp only [changePin, bind_eq_ok] at h
  obtain ⟨row, -, root, -, u, -, key, -, hrun⟩ := h
  have hs : Strides L E.now { tx with randomCount := tx.randomCount + 1 }.db tx'.db :=
    Tx.run_strides hrun hl
  exact hs

theorem mount_strides {args : MountArgs} {mid : MountId} {conn : Conn} (hl : L.session)
    (h : Aloelite.mount C E tx args = .ok (tx', mid, conn)) : Strides L E.now tx.db tx'.db := by
  simp only [Aloelite.mount, bind_eq_ok, pure_eq_ok, Prod.mk.injEq] at h
  obtain ⟨row, -, root, -, anchor, -, u, -, tx₁, hcreate, conn', -, tx₂, hstate, rfl, -, -⟩ := h
  exact (Tx.run_strides hcreate hl).trans (Tx.run_strides hstate hl)

theorem unmount_strides (hl : L.session) (h : unmount E tx mount = .ok tx') :
    Strides L E.now tx.db tx'.db :=
  Tx.run_strides h hl

/-! ### Streaming -/

theorem openTarget_strides {m : MountCtx} {mode : WriteMode} (hl : tx.db.Linked)
    (hm : requireMount E k tx.db mount true = .ok m)
    (h : openTarget C E k tx mount m path mode = .ok (tx', n)) :
    Strides (.standard tx.db m.mountPoint) E.now tx.db tx'.db := by
  simp only [openTarget] at h
  split at h
  · simp only [bind_eq_ok, pure_eq_ok, Prod.mk.injEq] at h
    obtain ⟨u, -, rfl, -⟩ := h
    exact ReflTransGen.refl
  · split at h
    · cases h
    · obtain ⟨m', hm', hs⟩ := createLeaf_strides hl h
      obtain rfl := Except.ok.inj (hm.symm.trans hm')
      exact hs
  · cases h

theorem writerLock_strides {l : LockId} {supplied : Option LockId} (hl : L.session)
    (h : writerLock E tx mount n supplied = .ok (tx', l)) : Strides L E.now tx.db tx'.db := by
  simp only [writerLock] at h
  split at h
  · simp only [bind_eq_ok, pure_eq_ok, Prod.mk.injEq] at h
    obtain ⟨row, -, u, -, rfl, -⟩ := h
    exact ReflTransGen.refl
  · simp only [bind_eq_ok, pure_eq_ok, Prod.mk.injEq] at h
    obtain ⟨u, -, tx₁, hrun, rfl, -⟩ := h
    exact Tx.run_strides hrun hl

theorem openWrite_strides {mode : WriteMode} {supplied : Option LockId} {d : Descriptor}
    (hl : tx.db.Linked) (h : openWrite C E k tx mount path mode supplied = .ok (tx', d)) :
    ∃ m, requireMount E k tx.db mount true = .ok m ∧
      Strides (License.standard tx.db m.mountPoint).inSession E.now tx.db tx'.db := by
  simp only [openWrite, bind_eq_ok] at h
  obtain ⟨m, hm, ⟨tx₁, node⟩, htarget, ⟨tx₂, l⟩, hlock, h⟩ := h
  refine ⟨m, hm, ?_⟩
  have heq : tx' = tx₂ := by
    split at h
    · exact (congrArg Prod.fst (Except.ok.inj h)).symm
    · simp only [bind_eq_ok, pure_eq_ok, Prod.mk.injEq] at h
      obtain ⟨u, -, pending, -, heq, -⟩ := h
      exact heq.symm
  rw [heq]
  exact (openTarget_strides hl hm htarget).inSession.trans (writerLock_strides trivial hlock)

/-- What a descriptor may do: write one version of its entry. -/
def License.streaming (n : NodeId) (version : ℕ) : License where
  host _ := False
  adopt := none
  detach _ := False
  write n' v := n' = n ∧ v = version
  session := True

/-- The version a descriptor claims in a state. -/
def Descriptor.claims (d : Descriptor) (db : Db) : ℕ := d.version.getD (db.nextVersion d.node)

/-- What a successful claim leaves on the descriptor, and the chunks it carries
on first use. -/
theorem claimVersion_ok {d : Descriptor} (h : (d.claimVersion E tx).2 = .ok tx') :
    (d.claimVersion E tx).1 = { d with version := some (d.claims tx.db), carryDone := true } ∧
      ((d.carryDone = true ∧ tx' = tx) ∨ (d.carryDone = false ∧
        carryLeading E tx d.node (d.claims tx.db) d.carrySrc d.carryFull = .ok tx')) := by
  simp only [Descriptor.claimVersion] at h ⊢
  by_cases hdone : d.carryDone = true
  · simp only [hdone, if_true] at h ⊢
    exact ⟨rfl, Or.inl ⟨trivial, (Except.ok.inj h).symm⟩⟩
  · simp only [hdone] at h ⊢
    cases hcarry : carryLeading E tx d.node (d.version.getD (tx.db.nextVersion d.node)) d.carrySrc
        d.carryFull with
    | error e => simp [hcarry] at h
    | ok tx₁ =>
      simp only [hcarry] at h ⊢
      obtain rfl := Except.ok.inj h
      exact ⟨rfl, Or.inr ⟨by simp, hcarry⟩⟩

theorem claimVersion_strides {d : Descriptor} (hw : L.write d.node (d.claims tx.db))
    (h : (d.claimVersion E tx).2 = .ok tx') : Strides L E.now tx.db tx'.db := by
  rcases (claimVersion_ok h).2 with ⟨-, rfl⟩ | ⟨-, hcarry⟩
  · exact ReflTransGen.refl
  · exact carryLeading_strides hw hcarry

theorem carryLeading_agreeOff {dst src count : ℕ}
    (h : carryLeading E tx n dst src count = .ok tx') : AgreeOff [.versions] tx.db tx'.db := by
  rw [carryLeading] at h
  split at h
  · obtain ⟨db', hexec, rfl⟩ := Tx.run_ok.mp h
    exact Stmt.exec_agreeOff hexec
  · obtain rfl := Except.ok.inj h
    exact AgreeOff.refl _ _

theorem claimVersion_agreeOff {d : Descriptor} (h : (d.claimVersion E tx).2 = .ok tx') :
    AgreeOff [.chunks, .versions] tx.db tx'.db := by
  rcases (claimVersion_ok h).2 with ⟨-, rfl⟩ | ⟨-, hcarry⟩
  · exact AgreeOff.refl _ _
  · exact (carryLeading_agreeOff hcarry).weaken (by simp)

/-- A flush that goes through: the claim, one staged chunk, and the descriptor
one chunk further. -/
theorem flushOneChunk_ok {d : Descriptor} (h : (d.flushOneChunk C E k tx).2 = .ok tx') :
    ∃ tx₁, (d.claimVersion E tx).2 = .ok tx₁ ∧
      tx₁.stageChunk C E k d.node (d.claims tx.db) d.chunkIndex (d.pending.take d.cs) = .ok tx' ∧
      (d.flushOneChunk C E k tx).1 = { d with
        version := some (d.claims tx.db)
        carryDone := true
        chunkIndex := d.chunkIndex + 1
        flushed := d.flushed + d.cs
        pending := d.pending.drop d.cs
        writing := d.cs ≤ (d.pending.drop d.cs).length } := by
  simp only [Descriptor.flushOneChunk] at h ⊢
  cases hbind : ((d.claimVersion E tx).2.bind fun tx₁ =>
      tx₁.stageChunk C E k (d.claimVersion E tx).1.node ((d.claimVersion E tx).1.version.getD 0)
        (d.claimVersion E tx).1.chunkIndex
        ((d.claimVersion E tx).1.pending.take (d.claimVersion E tx).1.cs)) with
  | error e => simp [hbind] at h
  | ok tx₂ =>
    simp only [hbind] at h ⊢
    obtain rfl := Except.ok.inj h
    obtain ⟨tx₁, hclaim, hstage⟩ := bind_eq_ok.mp hbind
    have hd := (claimVersion_ok hclaim).1
    rw [hd] at hstage
    refine ⟨tx₁, hclaim, hstage, ?_⟩
    rw [hd]

/-- A flush stages chunks and nothing else. -/
theorem flushOneChunk_agreeOff {d : Descriptor}
    (h : (d.flushOneChunk C E k tx).2 = .ok tx') : AgreeOff [.chunks, .versions] tx.db tx'.db := by
  obtain ⟨tx₁, hclaim, hstage, -⟩ := flushOneChunk_ok h
  exact (claimVersion_agreeOff hclaim).trans (Stages.agreeOff (Tx.stageChunk_steps hstage))

theorem flushOneChunk_strides {d : Descriptor} (h : (d.flushOneChunk C E k tx).2 = .ok tx') :
    Strides (.streaming d.node (d.claims tx.db)) E.now tx.db tx'.db := by
  obtain ⟨tx₁, hclaim, hstage, -⟩ := flushOneChunk_ok h
  have hclaimed := claimVersion_strides (L := .streaming d.node (d.claims tx.db)) ⟨rfl, rfl⟩ hclaim
  exact hclaimed.trans ((Tx.stageChunk_steps hstage).strides (Stages.granted ⟨rfl, rfl⟩))

/-- A commit that goes through, statement by statement. -/
theorem commit_ok {d : Descriptor} (h : d.commit C E k tx = .ok tx') :
    d.requireLock E tx.db = .ok () ∧ ∃ tx₁ tx₂ tx₃, (d.claimVersion E tx).2 = .ok tx₁ ∧
      d.stagePending C E k tx₁ (d.claims tx.db) = .ok tx₂ ∧
      tx₂.run E (.updateContent d.node (d.claims tx.db) (d.flushed + d.pending.length)) = .ok tx₃ ∧
      d.releaseOwnLock E (tx₃.gives d.node d.stream) = .ok tx' := by
  simp only [Descriptor.commit, bind_eq_ok] at h
  obtain ⟨u, hlock, tx₁, hclaim, tx₂, hstage, tx₃, hswap, hrelease⟩ := h
  rw [(claimVersion_ok hclaim).1] at hstage hswap
  exact ⟨hlock, tx₁, tx₂, tx₃, hclaim, hstage, hswap, hrelease⟩

theorem stagePending_steps {d : Descriptor} {version : ℕ}
    (h : d.stagePending C E k tx version = .ok tx') :
    Steps (Stages d.node version) E.now tx.db tx'.db := by
  rw [Descriptor.stagePending] at h
  split at h
  · obtain rfl := Except.ok.inj h
    exact ReflTransGen.refl
  · exact Tx.stageChunk_steps h

theorem releaseOwnLock_strides {d : Descriptor} (hl : L.session)
    (h : d.releaseOwnLock E tx = .ok tx') :
    Strides L E.now tx.db tx'.db := by
  rw [Descriptor.releaseOwnLock.eq_def] at h
  split at h
  · exact Tx.run_strides h hl
  · obtain rfl := Except.ok.inj h
    exact ReflTransGen.refl

theorem close_strides {d : Descriptor} (h : d.close C E k tx = .ok tx') :
    Strides (.streaming d.node (d.claims tx.db)) E.now tx.db tx'.db := by
  rw [Descriptor.close] at h
  split at h
  · obtain rfl := Except.ok.inj h
    exact ReflTransGen.refl
  obtain ⟨-, tx₁, tx₂, tx₃, hclaim, hstage, hswap, hrelease⟩ := commit_ok h
  have hclaimed := claimVersion_strides (L := .streaming d.node (d.claims tx.db)) ⟨rfl, rfl⟩ hclaim
  have hstaged := (stagePending_steps hstage).strides
    (Stages.granted (L := .streaming d.node (d.claims tx.db)) ⟨rfl, rfl⟩)
  have hswapped := swap_strides (L := .streaming d.node (d.claims tx.db)) ⟨rfl, rfl⟩ hswap
  have hreleased : Strides (.streaming d.node (d.claims tx.db)) E.now
      (tx₃.gives d.node d.stream).db tx'.db := releaseOwnLock_strides trivial hrelease
  exact ((hclaimed.trans hstaged).trans hswapped).trans hreleased

theorem abort_strides {d : Descriptor} (hl : L.session) (h : d.abort E tx = .ok tx') :
    Strides L E.now tx.db tx'.db := by
  rw [Descriptor.abort] at h
  split at h
  · obtain rfl := Except.ok.inj h
    exact ReflTransGen.refl
  · exact releaseOwnLock_strides hl h

/-! ### Requests and steps -/

/-- The license of a request through a mount anchored at `a`. -/
def Request.license (db : Db) (a : NodeId) : Request → License
  | .link src dst | .move src dst => (License.standard db a).adopting (adoption db a src dst)
  | .removeRecursive path => (License.standard db a).detaching (razed db a path)
  | .pack path => licensePack db a path
  | .unpack path => licenseUnpack db a path
  | .lock .. | .unlock .. | .renewLock .. | .renewMount .. => (License.standard db a).inSession
  | _ => .standard db a

theorem request_strides {r : Request} {reply : Reply} (hl : tx.db.Linked)
    (h : r.run C M E k tx mount = .ok (tx', reply)) :
    ∃ m write, requireMount E k tx.db mount write = .ok m ∧
      Strides (r.license tx.db m.mountPoint) E.now tx.db tx'.db := by
  have hreply : ∀ {α : Type} {f : α → Reply} {x : Except FsError (Tx × α)},
      asReply f x = .ok (tx', reply) → ∃ a, x = .ok (tx', a) := by
    intro α f x hx
    simp only [asReply, map_eq_ok, Prod.mk.injEq] at hx
    obtain ⟨⟨t, a⟩, hx, rfl, -⟩ := hx
    exact ⟨a, hx⟩
  have hdone : ∀ {x : Except FsError Tx}, noReply x = .ok (tx', reply) → x = .ok tx' := by
    intro x hx
    simp only [noReply, map_eq_ok, Prod.mk.injEq] at hx
    obtain ⟨t, hx, rfl, -⟩ := hx
    exact hx
  -- every mutation asks for a writable mount; the locks and the renewals do not
  cases r with
  | createContainer path =>
    obtain ⟨a, h⟩ := hreply h
    obtain ⟨m, hm, hs⟩ := createContainer_strides hl h
    exact ⟨m, true, hm, hs⟩
  | createEntry path data =>
    obtain ⟨a, h⟩ := hreply h
    obtain ⟨m, hm, hs⟩ := createLeaf_strides hl h
    exact ⟨m, true, hm, hs⟩
  | createSpecial path type data =>
    obtain ⟨a, h⟩ := hreply h
    obtain ⟨m, hm, hs⟩ := createSpecial_strides hl h
    exact ⟨m, true, hm, hs⟩
  | writeAll path data =>
    obtain ⟨m, hm, hs⟩ := writeAll_strides (hdone h)
    exact ⟨m, true, hm, hs⟩
  | append path data =>
    obtain ⟨a, h⟩ := hreply h
    obtain ⟨m, hm, hs⟩ := append_strides h
    exact ⟨m, true, hm, hs⟩
  | writeRange path offset data =>
    obtain ⟨a, h⟩ := hreply h
    obtain ⟨m, hm, hs⟩ := writeRange_strides h
    exact ⟨m, true, hm, hs⟩
  | truncate path size =>
    obtain ⟨m, hm, hs⟩ := truncate_strides (hdone h)
    exact ⟨m, true, hm, hs⟩
  | rename path name =>
    obtain ⟨m, hm, hs⟩ := rename_strides (hdone h)
    exact ⟨m, true, hm, hs⟩
  | link src dst =>
    obtain ⟨m, hm, hs⟩ := link_strides (hdone h)
    exact ⟨m, true, hm, hs⟩
  | move src dst =>
    obtain ⟨m, hm, hs⟩ := move_strides (hdone h)
    exact ⟨m, true, hm, hs⟩
  | remove path =>
    obtain ⟨m, hm, hs⟩ := remove_strides (hdone h)
    exact ⟨m, true, hm, hs⟩
  | removeRecursive path =>
    obtain ⟨m, hm, hs⟩ := removeRecursive_strides (hdone h)
    exact ⟨m, true, hm, hs⟩
  | copy src dst =>
    obtain ⟨a, h⟩ := hreply h
    obtain ⟨m, hm, hs⟩ := copy_strides hl h
    exact ⟨m, true, hm, hs⟩
  | pack path =>
    obtain ⟨a, h⟩ := hreply h
    obtain ⟨m, hm, hs⟩ := pack_strides hl h
    exact ⟨m, true, hm, hs⟩
  | unpack path =>
    obtain ⟨m, hm, hs⟩ := unpack_strides hl (hdone h)
    exact ⟨m, true, hm, hs⟩
  | setOwner path uid gid mode =>
    obtain ⟨m, hm, hs⟩ := setOwner_strides (hdone h)
    exact ⟨m, true, hm, hs _⟩
  | setAtime node ts =>
    obtain ⟨m, hm, hs⟩ := setAtime_strides (hdone h)
    exact ⟨m, true, hm, hs _⟩
  | setMtime node ts =>
    obtain ⟨m, hm, hs⟩ := setMtime_strides (hdone h)
    exact ⟨m, true, hm, hs _⟩
  | setXattr path name value =>
    obtain ⟨m, hm, hs⟩ := setXattr_strides (hdone h)
    exact ⟨m, true, hm, hs _⟩
  | removeXattr path name =>
    obtain ⟨a, h⟩ := hreply h
    obtain ⟨m, hm, hs⟩ := removeXattr_strides h
    exact ⟨m, true, hm, hs _⟩
  | setMetadata path metadata =>
    obtain ⟨m, hm, hs⟩ := setMetadata_strides (hdone h)
    exact ⟨m, true, hm, hs _⟩
  | setRetention path keep =>
    obtain ⟨m, hm, hs⟩ := setRetention_strides (hdone h)
    exact ⟨m, true, hm, hs _⟩
  | readAll path =>
    simp only [Request.run, readAll, map_eq_ok, bind_eq_ok, Prod.mk.injEq] at h
    obtain ⟨b, ⟨m, hm, -⟩, rfl, -⟩ := h
    exact ⟨m, false, hm, ReflTransGen.refl⟩
  | lock path ttlMs =>
    obtain ⟨a, h⟩ := hreply h
    obtain ⟨m, hm, hs⟩ := lock_strides h
    exact ⟨m, false, hm, hs _ trivial⟩
  | unlock l =>
    obtain ⟨m, hm, hs⟩ := unlock_strides (hdone h)
    exact ⟨m, false, hm, hs _ trivial⟩
  | renewLock l ttlMs =>
    obtain ⟨m, hm, hs⟩ := renewLock_strides (hdone h)
    exact ⟨m, false, hm, hs _ trivial⟩
  | renewMount ttlMs =>
    obtain ⟨m, hm, hs⟩ := renewMount_strides (hdone h)
    exact ⟨m, false, hm, hs _ trivial⟩

/-- The anchor of a mount as a request sees it. -/
def Db.anchorOf (db : Db) (now : Int) (mount : MountId) : NodeId :=
  ((db.validMount? now mount).map MountRow.mountPoint).getD 0

theorem anchorOf_eq {write : Bool} {m : MountCtx} (h : requireMount E k db mount write = .ok m) :
    db.anchorOf E.now mount = m.mountPoint := by
  obtain ⟨row, volume, hrow, -, -, rfl⟩ := requireMount_ok h
  simp [Db.anchorOf, hrow]

/-- No license at all. -/
def License.idle : License where
  host _ := False
  adopt := none
  detach _ := False
  write _ _ := False
  session := True

/-- The license of a step. -/
def Op.license (E : Env) (s : Sys) : Op → License
  | .request mount r => r.license s.db (s.db.anchorOf E.now mount)
  | .openWrite mount .. => (License.standard s.db (s.db.anchorOf E.now mount)).inSession
  | .fdFlush fd | .fdClose fd =>
    match s.fds[fd]? with
    | some f => .streaming f.d.node (f.d.claims s.db)
    | none => .idle
  | _ => .idle

/-- What a step may make of the file. -/
inductive Effect (C : Crypto) (E : Env) (s : Sys) : Op → Db → Prop
  | strides {op : Op} {db : Db} (h : Strides (op.license E s) E.now s.db db) : Effect C E s op db
  | founding {name : Option String} {chunkSize : ℕ} {pin : Option Bytes} {mode : EncMode} {tx : Tx}
      {v : VolumeId} (h : createVolume C E s.begin name chunkSize pin mode = .ok (tx, v)) :
      Effect C E s (.createVolume name chunkSize pin mode) tx.db
  | prune {volume : Option VolumeId} {tx : Tx} {r : ℕ × ℕ}
      (h : prune E s.begin volume = .ok (tx, r)) : Effect C E s (.prune volume) tx.db
  | pruneContent {volume : Option VolumeId} {tx : Tx} {r : ℕ × ℕ}
      (h : pruneContent E s.begin volume = .ok (tx, r)) : Effect C E s (.pruneContent volume) tx.db

variable {s : Sys} {c : ConnId} {op : Op}

/-- A transaction of a step leaves the file it committed, or the one before. -/
theorem transact_db {α : Type} {body : Except FsError (Tx × α)} {done : Sys → α → Sys × Reply}
    (hdone : ∀ s a, (done s a).1.db = s.db) {P : Db → Prop} (hsame : P s.db)
    (hbody : ∀ tx a, body = .ok (tx, a) → P tx.db) : P (s.transact body done).1.db := by
  cases hb : body with
  | error e => exact hsame
  | ok r =>
    obtain ⟨tx, a⟩ := r
    have hdb : (s.transact (Except.ok (tx, a)) done).1.db = tx.db := hdone (s.commit tx) a
    rw [hdb]
    exact hbody tx a hb

theorem fdTransact_db {fd : FdId} {f : OpenFile} {d : Descriptor} {body : Except FsError Tx}
    {P : Db → Prop} (hsame : P s.db) (hbody : ∀ tx, body = .ok tx → P tx.db) :
    P (s.fdTransact fd f d body).1.db := by
  cases hb : body with
  | error e => exact hsame
  | ok tx => exact hbody tx hb

theorem onFd_effect {fd : FdId} (hfd : ∀ f, s.fds[fd]? = some f →
      Effect C E s op (fdStep C E s fd f op).1.db) :
    Effect C E s op (onFd C E s fd op).1.db := by
  rw [onFd]
  cases hf : s.fds[fd]? with
  | none => exact Effect.strides ReflTransGen.refl
  | some f => exact hfd f hf

/-- Every step is a chain of strides under its license, the founding of a volume
or a prune. -/
theorem exec_effect (hl : s.db.Linked) : Effect C E s op (exec C M E s c op).1.db := by
  have hsame : Effect C E s op s.db := Effect.strides ReflTransGen.refl
  -- a call that fails leaves the file as it was; the reads never touch it
  cases op with
  | request mount r =>
    refine transact_db (fun _ _ => rfl) hsame ?_
    intro tx a h
    obtain ⟨m, w, hm, hs⟩ := request_strides hl h
    have ha : s.db.anchorOf E.now mount = m.mountPoint := anchorOf_eq hm
    refine Effect.strides ?_
    rw [Op.license, ha]
    exact hs
  | createVolume name chunkSize pin mode =>
    refine transact_db (fun _ _ => rfl) hsame ?_
    intro tx v h
    exact Effect.founding h
  | changePin volume oldPin newPin =>
    refine transact_db (fun _ _ => rfl) hsame ?_
    intro tx a h
    simp only [asReply, map_eq_ok, Prod.mk.injEq] at h
    obtain ⟨⟨t, u⟩, ⟨t', h, ht⟩, rfl, -⟩ := h
    obtain ⟨rfl, -⟩ := Prod.mk.inj ht
    exact Effect.strides (changePin_strides trivial h)
  | mount args =>
    refine transact_db (fun _ _ => rfl) hsame ?_
    intro tx a h
    obtain ⟨mid, conn⟩ := a
    exact Effect.strides (mount_strides trivial h)
  | unmount mount =>
    refine transact_db (fun _ _ => rfl) hsame ?_
    intro tx a h
    simp only [noReply, map_eq_ok, Prod.mk.injEq] at h
    obtain ⟨t, h, rfl, -⟩ := h
    exact Effect.strides (unmount_strides trivial h)
  | openRead mount path =>
    simp only [exec]
    split
    · exact hsame
    · exact hsame
  | openWrite mount path mode lock =>
    refine transact_db (fun _ _ => rfl) hsame ?_
    intro tx d h
    obtain ⟨m, hm, hs⟩ := openWrite_strides hl h
    have ha : s.db.anchorOf E.now mount = m.mountPoint := anchorOf_eq hm
    refine Effect.strides ?_
    rw [Op.license, ha]
    exact hs
  | fdRead fd n =>
    refine onFd_effect ?_
    intro f hf
    simp only [fdStep]
    split
    · exact hsame
    · split <;> exact hsame
  | fdWrite fd data =>
    refine onFd_effect ?_
    intro f hf
    simp only [fdStep]
    split
    · exact hsame
    · split <;> exact hsame
  | fdSeek fd offset whence =>
    refine onFd_effect ?_
    intro f hf
    simp only [fdStep]
    split
    · exact hsame
    · split <;> exact hsame
  | fdFlush fd =>
    refine onFd_effect ?_
    intro f hf
    simp only [fdStep]
    split
    · refine fdTransact_db hsame ?_
      intro tx h
      refine Effect.strides ?_
      simp only [Op.license, hf]
      exact flushOneChunk_strides h
    · exact hsame
  | fdClose fd =>
    refine onFd_effect ?_
    intro f hf
    simp only [fdStep]
    split
    · exact hsame
    · refine fdTransact_db hsame ?_
      intro tx h
      refine Effect.strides ?_
      simp only [Op.license, hf]
      exact close_strides h
  | fdAbort fd =>
    refine onFd_effect ?_
    intro f hf
    simp only [fdStep]
    split
    · exact hsame
    · refine fdTransact_db hsame ?_
      intro tx h
      exact Effect.strides (abort_strides trivial h)
  | prune volume =>
    refine transact_db (fun _ _ => rfl) hsame ?_
    intro tx r h
    exact Effect.prune h
  | pruneContent volume =>
    refine transact_db (fun _ _ => rfl) hsame ?_
    intro tx r h
    exact Effect.pruneContent h

end Aloelite
