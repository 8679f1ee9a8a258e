import Aloelite.Sessions

/-! The keys of volumes. The key a volume row seals is drawn when the volume is made; a
change of the pin seals the same key anew, and no other step touches it. -/
namespace Aloelite

open Fallible KeyedRows

variable {C : Crypto} {M : Msgpack} {E : Env} {k : Cipher} {db : Db} {tx tx' : Tx} {s s' : Sys}
  {c : ConnId} {op : Op} {m : MountId} {v : VolumeId} {row : VolumeRow} {root : NodeId}
  {pin : Bytes} {key : Key}

/-- A seal opens to nothing but what was sealed. -/
def Crypto.Authentic (C : Crypto) : Prop :=
  ∀ k k' n p p', C.decrypt k' n (C.encrypt k n p).1 (C.encrypt k n p).2 = some p' → p' = p

/-- The row seals a key under what a pin derives. -/
def VolumeRow.Seals (C : Crypto) (row : VolumeRow) (pin : Bytes) (key : Key) : Prop :=
  ∃ root nonce, row.rootNodeId = some root ∧
    row.wrappedKey = some
      (C.encrypt (C.deriveUnlockKey pin (C.volumeHash row.volumeId root)) nonce key) ∧
      row.wrapNonce = some nonce

/-- Each encrypted volume seals its key under its pin. -/
def Sys.Keyed (C : Crypto) (s : Sys) : Prop :=
  ∀ v row, s.db.volume? v = some row → row.encMode ≠ .none → row.Seals C (s.pins v) (s.keys v)

theorem VolumeRow.Seals.unlock (hauth : C.Authentic) (h : row.Seals C pin key) {pin' : Bytes}
    {key' : Key} (hunlock : unlockVolume C row root pin' = some key') : key' = key := by
  obtain ⟨root', nonce, -, hwrapped, hnonce⟩ := h
  rw [unlockVolume, hwrapped, hnonce, Option.bind_some, Option.bind_some] at hunlock
  exact hauth _ _ _ _ _ hunlock

/-- With the right pin the key is there. -/
theorem VolumeRow.Seals.unlock_own (h : row.Seals C pin key) (hroot : row.rootNodeId = some root) :
    unlockVolume C row root pin = some key := by
  obtain ⟨root', nonce, hroot', hwrapped, hnonce⟩ := h
  obtain rfl := Option.some.inj (hroot.symm.trans hroot')
  rw [unlockVolume, hwrapped, hnonce, Option.bind_some, Option.bind_some]
  exact C.decrypt_encrypt _ _ _

/-! ### Steps -/

/-- The volumes and their keys stay. -/
structure KeepsKeys (s s' : Sys) : Prop where
  volumes : s'.db.volumes = s.db.volumes
  keys : s'.keys = s.keys
  pins : s'.pins = s.pins

theorem KeepsKeys.refl (s : Sys) : KeepsKeys s s := ⟨rfl, rfl, rfl⟩

theorem KeepsKeys.keyed (h : KeepsKeys s s') (hs : s.Keyed C) : s'.Keyed C := by
  intro v row hrow hmode
  rw [h.keys, h.pins]
  apply hs v row _ hmode
  rw [Db.volume?, ← h.volumes]
  exact hrow

/-- Nobody comes or goes: the mounts and the connections stay as well. -/
structure KeepsClients (s s' : Sys) : Prop extends KeepsKeys s s' where
  mounts : s'.db.mounts = s.db.mounts
  conns : s'.conns = s.conns

theorem KeepsClients.refl (s : Sys) : KeepsClients s s := ⟨KeepsKeys.refl s, rfl, rfl⟩

/-- The tables of a change that keeps clients. -/
def Db.SameHolders (db db' : Db) : Prop := db'.mounts = db.mounts ∧ db'.volumes = db.volumes

theorem Db.SameHolders.of_agreeOff {ts : List Table} (h : AgreeOff ts db db') (hm : .mounts ∉ ts)
    (hv : .volumes ∉ ts) :
    db.SameHolders db' := ⟨h.mounts hm, h.volumes hv⟩

theorem transact_keepsClients {α : Type} {body : Except FsError (Tx × α)}
    {done : Sys → α → Sys × Reply} (hdone : ∀ s a, KeepsClients s (done s a).1)
    (hbody : ∀ tx a, body = .ok (tx, a) → s.db.SameHolders tx.db) :
    KeepsClients s (s.transact body done).1 := by
  cases hb : body with
  | error e => exact KeepsClients.refl s
  | ok r =>
    obtain ⟨tx, a⟩ := r
    have hd := hdone (s.commit tx) a
    obtain ⟨hmounts, hvolumes⟩ := hbody tx a hb
    exact ⟨⟨hd.volumes.trans hvolumes, hd.keys, hd.pins⟩, hd.mounts.trans hmounts, hd.conns⟩

theorem fdTransact_keepsClients {fd : FdId} {f : OpenFile} {d : Descriptor}
    {body : Except FsError Tx} (hbody : ∀ tx, body = .ok tx → s.db.SameHolders tx.db) :
    KeepsClients s (s.fdTransact fd f d body).1 := by
  cases hb : body with
  | error e => exact ⟨⟨rfl, rfl, rfl⟩, rfl, rfl⟩
  | ok tx =>
    obtain ⟨hmounts, hvolumes⟩ := hbody tx hb
    exact ⟨⟨hvolumes, rfl, rfl⟩, hmounts, rfl⟩

theorem unmount_volumes (h : unmount E tx m = .ok tx') : tx'.db.volumes = tx.db.volumes := by
  obtain ⟨db₁, hexec, rfl⟩ := Tx.run_ok.mp h
  obtain rfl := Except.ok.inj hexec
  rfl

theorem mount_volumes {args : MountArgs} {r : MountId × Conn}
    (h : Aloelite.mount C E tx args = .ok (tx', r)) :
    tx'.db.volumes = tx.db.volumes := by
  simp only [Aloelite.mount, bind_eq_ok, pure_eq_ok, Prod.mk.injEq] at h
  obtain ⟨row, -, root, -, anchor, -, u, -, tx₁, hcreate, conn', -, tx₂, hstate, rfl, -⟩ := h
  obtain ⟨db₁, hcreate', rfl⟩ := Tx.run_ok.mp hcreate
  obtain ⟨-, -, rfl⟩ := Db.createMount_ok hcreate'
  obtain ⟨db₂, hstate', rfl⟩ := Tx.run_ok.mp hstate
  obtain rfl := Except.ok.inj hstate'
  rfl

theorem renewMount_volumes {ttlMs : Option Int} (h : renewMount E k tx m ttlMs = .ok tx') :
    tx'.db.volumes = tx.db.volumes := by
  simp only [renewMount, bind_eq_ok] at h
  obtain ⟨ctx, -, hrun⟩ := h
  obtain ⟨db₁, hexec, rfl⟩ := Tx.run_ok.mp hrun
  exact (Stmt.exec_agreeOff hexec).volumes (by simp [Stmt.touches])

/-- The requests that write no mount row. -/
def Request.leavesMounts : Request → Prop
  | .renewMount _ => False
  | _ => True

instance (r : Request) : Decidable r.leavesMounts := by
  unfold Request.leavesMounts
  split <;> infer_instance

theorem request_holders {r : Request} {reply : Reply} (hl : tx.db.Linked) (hleaves : r.leavesMounts)
    (h : r.run C M E k tx m = .ok (tx', reply)) : tx.db.SameHolders tx'.db := by
  by_cases hr : r.keepsSessions
  · obtain ⟨ctx, w, -, hs⟩ := request_strides hl h
    obtain ⟨hmounts, -, hvolumes⟩ := hs.sessions (Request.license_session hr)
    exact ⟨hmounts, hvolumes⟩
  have hrun : ∀ {st : Stmt} {tx' : Tx}, tx.run E st = .ok tx' → .mounts ∉ st.touches →
      .volumes ∉ st.touches →
      tx.db.SameHolders tx'.db := by
    intro st tx' hrun hmounts hvolumes
    obtain ⟨db₁, hexec, rfl⟩ := Tx.run_ok.mp hrun
    exact Db.SameHolders.of_agreeOff (Stmt.exec_agreeOff hexec) hmounts hvolumes
  cases r with
  | lock path ttlMs =>
    obtain ⟨l, h, -⟩ := asReply_ok h
    obtain ⟨ctx, found, -, -, -, -, -, -, hdb⟩ := lock_ok h
    rw [hdb]
    exact ⟨rfl, rfl⟩
  | unlock l =>
    have h := noReply_ok h
    simp only [unlock, bind_eq_ok] at h
    obtain ⟨ctx, -, row, -, h⟩ := h
    exact hrun h (by simp [Stmt.touches]) (by simp [Stmt.touches])
  | renewLock l ttlMs =>
    have h := noReply_ok h
    simp only [renewLock, bind_eq_ok] at h
    obtain ⟨ctx, -, row, -, h⟩ := h
    exact hrun h (by simp [Stmt.touches]) (by simp [Stmt.touches])
  | renewMount ttlMs => exact hleaves.elim
  | _ => exact absurd trivial hr

theorem openWrite_holders {path : String} {mode : WriteMode} {supplied : Option LockId}
    {d : Descriptor} (hl : tx.db.Linked)
    (h : openWrite C E k tx m path mode supplied = .ok (tx', d)) :
    tx.db.SameHolders tx'.db := by
  obtain ⟨ctx, tx₁, l, hctx, htarget, hlock, -⟩ := openWrite_ok h
  obtain ⟨hmounts, -, hvolumes⟩ := openTarget_sessions hl hctx htarget
  rcases writerLock_ok hlock with ⟨-, rfl, -⟩ | ⟨-, -, -, -, -, -, rfl⟩
  · exact ⟨hmounts, hvolumes⟩
  · exact ⟨hmounts, hvolumes⟩

theorem close_holders {d : Descriptor} (h : d.close C E k tx = .ok tx') :
    tx.db.SameHolders tx'.db := by
  rw [Descriptor.close] at h
  split at h
  · obtain rfl := Except.ok.inj h
    exact ⟨rfl, rfl⟩
  obtain ⟨-, tx₁, tx₂, tx₃, hclaim, hstage, hswap, hrelease⟩ := commit_ok h
  have hframe : AgreeOff [.chunks, .versions, .contents] tx.db tx₃.db := by
    obtain ⟨db₃, hexec, rfl⟩ := Tx.run_ok.mp hswap
    have hclaimed := claimVersion_agreeOff hclaim
    have hstaged := Stages.agreeOff (stagePending_steps hstage)
    refine ((hclaimed.trans hstaged).weaken (by simp)).trans ?_
    exact (Stmt.exec_agreeOff hexec).weaken (by simp [Stmt.touches])
  have hsame : tx.db.SameHolders tx₃.db := Db.SameHolders.of_agreeOff hframe (by simp) (by simp)
  rcases releaseOwnLock_ok hrelease with rfl | ⟨l, -, rfl⟩
  · exact hsame
  · exact hsame

theorem abort_holders {d : Descriptor} (h : d.abort E tx = .ok tx') : tx.db.SameHolders tx'.db := by
  rw [Descriptor.abort] at h
  split at h
  · obtain rfl := Except.ok.inj h
    exact ⟨rfl, rfl⟩
  · rcases releaseOwnLock_ok h with rfl | ⟨l, -, rfl⟩
    · exact ⟨rfl, rfl⟩
    · exact ⟨rfl, rfl⟩

theorem onFd_keepsClients {fd : FdId} : KeepsClients s (onFd C E s fd op).1 := by
  rw [onFd]
  split
  · exact KeepsClients.refl s
  next f _ =>
    cases op with
    | fdFlush fd' =>
      simp only [fdStep]
      split
      · apply fdTransact_keepsClients
        intro tx h
        exact Db.SameHolders.of_agreeOff (flushOneChunk_agreeOff h) (by simp) (by simp)
      · exact KeepsClients.refl s
    | fdClose fd' =>
      simp only [fdStep]
      split
      · exact KeepsClients.refl s
      · exact fdTransact_keepsClients (fun tx h => close_holders h)
    | fdAbort fd' =>
      simp only [fdStep]
      split
      · exact KeepsClients.refl s
      · exact fdTransact_keepsClients (fun tx h => abort_holders h)
    | _ =>
      simp only [fdStep]
      split
      · exact KeepsClients.refl s
      · first
        | exact KeepsClients.refl s
        | (split <;> exact ⟨⟨rfl, rfl, rfl⟩, rfl, rfl⟩)

/-- The steps that neither begin nor end nor renew a mount, nor write a volume row. -/
def Op.leavesMounts : Op → Prop
  | .request _ r => r.leavesMounts
  | .createVolume .. | .changePin .. | .mount _ | .unmount _ => False
  | _ => True

instance (op : Op) : Decidable op.leavesMounts := by
  unfold Op.leavesMounts
  split <;> infer_instance

theorem exec_keepsClients (hs : s.db.Sound) (hop : op.leavesMounts) :
    KeepsClients s (exec C M E s c op).1 := by
  have hplain : ∀ (s : Sys) (r : Reply), KeepsClients s (s, r).1 := fun s _ => KeepsClients.refl s
  cases op with
  | request mount r =>
    exact transact_keepsClients hplain (fun tx a h => request_holders hs.linked hop h)
  | openRead mount path =>
    simp only [exec]
    split
    · exact KeepsClients.refl s
    · exact ⟨⟨rfl, rfl, rfl⟩, rfl, rfl⟩
  | openWrite mount path mode lock =>
    apply transact_keepsClients
    · intro s a
      exact ⟨⟨rfl, rfl, rfl⟩, rfl, rfl⟩
    · intro tx d h
      exact openWrite_holders hs.linked h
  | fdRead fd n => exact onFd_keepsClients
  | fdWrite fd data => exact onFd_keepsClients
  | fdFlush fd => exact onFd_keepsClients
  | fdSeek fd offset whence => exact onFd_keepsClients
  | fdClose fd => exact onFd_keepsClients
  | fdAbort fd => exact onFd_keepsClients
  | prune volume =>
    apply transact_keepsClients
    · intro s a
      exact ⟨⟨rfl, rfl, rfl⟩, rfl, rfl⟩
    · intro tx r h
      rw [prune_shape h hs]
      exact ⟨rfl, rfl⟩
  | pruneContent volume =>
    apply transact_keepsClients
    · intro s a
      exact ⟨⟨rfl, rfl, rfl⟩, rfl, rfl⟩
    · intro tx r h
      rw [pruneContent_shape h]
      exact ⟨rfl, rfl⟩
  | _ => exact hop.elim

/-- The steps that write volume rows. -/
def Op.keysVolumes : Op → Prop
  | .createVolume .. | .changePin .. => True
  | _ => False

theorem transact_keepsKeys {α : Type} {body : Except FsError (Tx × α)}
    {done : Sys → α → Sys × Reply} (hdone : ∀ s a, KeepsKeys s (done s a).1)
    (hbody : ∀ tx a, body = .ok (tx, a) → tx.db.volumes = s.db.volumes) :
    KeepsKeys s (s.transact body done).1 := by
  cases hb : body with
  | error e => exact KeepsKeys.refl s
  | ok r =>
    obtain ⟨tx, a⟩ := r
    obtain ⟨hvolumes, hkeys, hpins⟩ := hdone (s.commit tx) a
    exact ⟨hvolumes.trans (hbody tx a hb), hkeys, hpins⟩

theorem exec_keepsKeys (hs : s.db.Sound) (hop : ¬ op.keysVolumes) :
    KeepsKeys s (exec C M E s c op).1 := by
  by_cases hleaves : op.leavesMounts
  · exact (exec_keepsClients hs hleaves).toKeepsKeys
  cases op with
  | createVolume name chunkSize pin mode => exact absurd trivial hop
  | changePin volume oldPin newPin => exact absurd trivial hop
  | mount args =>
    apply transact_keepsKeys
    · intro s a
      exact ⟨rfl, rfl, rfl⟩
    · intro tx a h
      exact mount_volumes h
  | unmount mount =>
    apply transact_keepsKeys
    · intro s a
      exact ⟨rfl, rfl, rfl⟩
    · intro tx a h
      exact unmount_volumes (noReply_ok h)
  | request mount r =>
    cases r with
    | renewMount ttlMs =>
      apply transact_keepsKeys
      · intro s a
        exact ⟨rfl, rfl, rfl⟩
      · intro tx a h
        exact renewMount_volumes (noReply_ok h)
    | _ => exact absurd trivial hleaves
  | _ => exact absurd trivial hleaves

/-- `create_volume`: the new row seals the key that was drawn. -/
theorem createVolume_keyed {name : Option String} {chunkSize : ℕ} {given : Option Bytes}
    {mode : EncMode} (hs : s.Keyed C)
    (h : createVolume C E s.begin name chunkSize given mode = .ok (tx', v)) {s' : Sys}
    (hdb : s'.db = tx'.db)
    (hkeys : s'.keys = if given.isSome then Function.update s.keys v (E.random 0) else s.keys)
    (hpins : s'.pins = Function.update s.pins v (given.getD [])) : s'.Keyed C := by
  obtain ⟨rfl, -, hfresh, -, hvolumes, -, -, -⟩ := createVolume_shape h
  intro w row hrow hmode
  rw [hdb, Db.volume?, hvolumes] at hrow
  by_cases hw : w = E.uuid
  · subst hw
    have hlast : lookup VolumeRow.volumeId
        (s.db.volumes ++ [foundedVolume C E s.begin name chunkSize given mode]) E.uuid =
        some (foundedVolume C E s.begin name chunkSize given mode) := lookup_append_self hfresh
    obtain rfl := Option.some.inj (hlast.symm.trans hrow)
    cases given with
    | none => exact absurd rfl hmode
    | some p =>
      rw [hkeys, hpins]
      refine ⟨_, _, rfl, ?_, rfl⟩
      simp [foundedVolume, Sys.begin]
  · have hold : lookup VolumeRow.volumeId
        (s.db.volumes ++ [foundedVolume C E s.begin name chunkSize given mode]) w =
        s.db.volume? w := lookup_append_of_ne (Ne.symm hw)
    have hseals := hs w row (hold.symm.trans hrow) hmode
    rw [hkeys, hpins, Function.update_of_ne hw]
    split
    · rw [Function.update_of_ne hw]
      exact hseals
    · exact hseals

/-- `change_pin`: the key that came out goes in again. -/
theorem changePin_keyed (hauth : C.Authentic) {oldPin newPin : Bytes} (hs : s.Keyed C)
    (h : changePin C E s.begin v oldPin newPin = .ok tx') {s' : Sys} (hdb : s'.db = tx'.db)
    (hkeys : s'.keys = s.keys) (hpins : s'.pins = Function.update s.pins v newPin) :
    s'.Keyed C := by
  simp only [changePin, bind_eq_ok, orRaise_eq_ok, refuse_eq_ok] at h
  obtain ⟨old, hold, root, hroot, u, hmode, key, hkey, hrun⟩ := h
  obtain ⟨db₁, hexec, rfl⟩ := Tx.run_ok.mp hrun
  obtain rfl := Except.ok.inj hexec
  have hid : old.volumeId = v := key_of_lookup hold
  have hmode : old.encMode ≠ .none := by simpa using hmode
  have hown : key = s.keys v := (hs v old hold hmode).unlock hauth hkey
  intro w row hrow hw
  let f : VolumeRow → VolumeRow := fun r => { r with
    encMode := old.encMode
    wrappedKey := some (C.encrypt (C.deriveUnlockKey newPin (C.volumeHash v root)) (E.random 0) key)
    wrapNonce := some (E.random 0) }
  have hamend : lookup VolumeRow.volumeId (amend VolumeRow.volumeId s.db.volumes v f) w =
      if w = v then (s.db.volume? w).map f else s.db.volume? w := lookup_amend (fun _ => rfl)
  rw [hdb] at hrow
  rw [hkeys, hpins]
  by_cases hwv : w = v
  · subst hwv
    rw [if_pos rfl] at hamend
    rw [show s.db.volume? w = some old from hold, Option.map_some] at hamend
    obtain rfl := Option.some.inj (hamend.symm.trans hrow)
    refine ⟨root, E.random 0, hroot, ?_, rfl⟩
    rw [Function.update_self, hid, ← hown]
  · rw [if_neg hwv] at hamend
    rw [Function.update_of_ne hwv]
    exact hs w row (hamend.symm.trans hrow) hw

theorem exec_keyed (hauth : C.Authentic) (hs : s.db.Sound) (hk : s.Keyed C) :
    (exec C M E s c op).1.Keyed C := by
  by_cases hop : op.keysVolumes
  swap
  · exact (exec_keepsKeys hs hop).keyed hk
  cases op with
  | createVolume name chunkSize pin mode =>
    simp only [exec]
    cases hb : createVolume C E s.begin name chunkSize pin mode with
    | error e => exact hk
    | ok r =>
      obtain ⟨tx, v⟩ := r
      exact createVolume_keyed hk hb rfl rfl rfl
  | changePin volume oldPin newPin =>
    simp only [exec]
    cases hb : changePin C E s.begin volume oldPin newPin with
    | error e => exact hk
    | ok tx => exact changePin_keyed hauth hk hb rfl rfl rfl
  | _ => exact hop.elim

theorem Reaches.keyed {guard : Sys → Label → Prop} (hauth : C.Authentic) (h : Reaches C M guard s) :
    s.Keyed C := by
  have hall : s.db.Sound ∧ s.Keyed C := by
    refine GuardedRuns.Run.invariant (P := fun s : Sys => s.db.Sound ∧ s.Keyed C) ?_ h ?_
    · intro s l _ hs
      exact ⟨step_sound hs.1, exec_keyed hauth hs.1 hs.2⟩
    · refine ⟨empty_sound, ?_⟩
      intro v row hrow
      cases hrow
  exact hall.2

/-- The one-byte stream cipher binds key and nonce. -/
theorem xorStream_authentic : Crypto.xorStream.Authentic := by
  intro k k' n p p' h
  change (if k ++ n = k' ++ n then some _ else none) = some p' at h
  split at h
  next heq =>
    obtain rfl := List.append_cancel_right heq
    have hsame : (p.map (· ^^^ Crypto.padByte k n)).map (· ^^^ Crypto.padByte k n) = p' :=
      Option.some.inj h
    rw [Crypto.map_xor_xor] at hsame
    exact hsame.symm
  next => cases h

end Aloelite
