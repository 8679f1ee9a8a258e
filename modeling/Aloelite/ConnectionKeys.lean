import Aloelite.ChunkKeys
import Aloelite.MountAttempts

/-! The cipher of a connection and the volume a call acts on. A connection has one cipher,
which every mount replaces and some unmounts take down; mounts and descriptors outlive it.
The guard of a call compares only whether the cipher encrypts, and a step of a descriptor
consults no guard. -/
namespace Aloelite

open Fallible KeyedRows

variable {C : Crypto} {M : Msgpack} {E : Env} {s s' : Sys} {c : ConnId} {op : Op} {l : Label}
  {m : MountId} {V : VolumeId} {row : VolumeRow} {f : OpenFile}

/-- The mode of a volume. -/
def Sys.modeOf (s : Sys) (V : VolumeId) : EncMode :=
  ((s.db.volume? V).map VolumeRow.encMode).getD .none

/-- The cipher under which the chunks of a volume are to be. -/
def Sys.ownCipher (C : Crypto) (s : Sys) (V : VolumeId) : Cipher :=
  Cipher.ofVolume C (s.keys V) V (s.modeOf V)

/-! ### Which steps seal or open chunks -/

/-- The requests that may. -/
def Request.crypts : Request → Bool
  | readAll _ => true
  | r => r.seals

/-- The descriptor a step seals or opens a chunk of. -/
def Op.cryptingFd (s : Sys) : Op → Option OpenFile
  | .fdRead fd _ => (s.fds[fd]?).filter (fun f => f.d.writable = false ∧ f.d.closed = false)
  | .fdFlush fd => (s.fds[fd]?).filter (fun f => f.d.writing = true ∧ f.d.closed = false)
  | .fdClose fd =>
    (s.fds[fd]?).filter (fun f => f.d.writable = true ∧ f.d.closed = false ∧ f.d.pending ≠ [])
  | _ => none

/-- The mount of a call that seals or opens chunks. The call asks the guard first. -/
def Op.cryptingMount : Op → Option MountId
  | .request m r => if r.crypts then some m else none
  | .openWrite m _ .append _ => some m
  | _ => none

/-- The session of the connection, that is what the last mount on it installed and no unmount
has taken down since, is one of the volume; there is none for a plain volume. -/
def Sys.Attached (s : Sys) (c : ConnId) (V : VolumeId) : Prop :=
  (s.conns c).session.map Session.volume = if s.modeOf V = .none then none else some V

instance (s : Sys) (c : ConnId) (V : VolumeId) : Decidable (s.Attached c V) :=
  inferInstanceAs (Decidable ((s.conns c).session.map Session.volume = if s.modeOf V = .none
    then none else some V))

/-- The guard of a call has nothing against the session: there is one if and only if the
volume is encrypted. -/
def Sys.Admissible (s : Sys) (c : ConnId) (V : VolumeId) : Prop :=
  (s.modeOf V ≠ .none) ↔ (s.conns c).session.isSome

instance (s : Sys) (c : ConnId) (V : VolumeId) : Decidable (s.Admissible c V) :=
  inferInstanceAs (Decidable ((s.modeOf V ≠ .none) ↔ (s.conns c).session.isSome))

/-- No call is let through under the session of another volume, and no descriptor step is
made but under a session of its volume. -/
def InSession (s : Sys) (l : Label) : Prop :=
  (∀ m ∈ l.op.cryptingMount, ∀ r ∈ s.db.mount? m, s.Admissible l.conn r.volumeId →
    s.Attached l.conn r.volumeId) ∧
    ∀ f ∈ l.op.cryptingFd s, s.Attached f.conn f.d.volume

instance (s : Sys) (l : Label) : Decidable (InSession s l) :=
  inferInstanceAs (Decidable (_ ∧ _))

/-- Such steps in which no sealed chunk meets a foreign row at its address. -/
def Attends (C : Crypto) (M : Msgpack) (s : Sys) (l : Label) : Prop :=
  InSession s l ∧ (step C M s l).aliased = false

instance (C : Crypto) (M : Msgpack) (s : Sys) (l : Label) : Decidable (Attends C M s l) :=
  inferInstanceAs (Decidable (_ ∧ _))

/-! ### The cipher is the one of the session -/

/-- What a connection holds is the cipher of its session's volume. -/
def Conn.Serves (C : Crypto) (s : Sys) (conn : Conn) : Prop :=
  (conn.session = none → conn.cipher = .identity) ∧
    ∀ sess ∈ conn.session, s.modeOf sess.volume ≠ .none ∧ conn.cipher = s.ownCipher C sess.volume

theorem ofVolume_encrypts {key : Key} {mode : EncMode} (h : mode ≠ .none) :
    (Cipher.ofVolume C key V mode).encrypts = true := by
  cases mode with
  | none => exact absurd rfl h
  | convergent => rfl
  | random => rfl

theorem Conn.Serves.encrypts {conn : Conn} (h : conn.Serves C s) :
    conn.cipher.encrypts = conn.session.isSome := by
  cases hsess : conn.session with
  | none =>
    rw [h.1 hsess]
    rfl
  | some sess =>
    obtain ⟨hmode, hcipher⟩ := h.2 sess hsess
    rw [hcipher, Sys.ownCipher, ofVolume_encrypts hmode]
    rfl

theorem Sys.Attached.cipher (h : s.Attached c V) (hs : (s.conns c).Serves C s) :
    (s.conns c).cipher = s.ownCipher C V := by
  rw [Sys.Attached] at h
  split at h
  next hmode =>
    rw [Option.map_eq_none_iff] at h
    rw [hs.1 h, Sys.ownCipher, hmode]
    rfl
  next hmode =>
    obtain ⟨sess, hsess, hvol⟩ := Option.map_eq_some_iff.mp h
    rw [(hs.2 sess hsess).2, hvol]

/-- A call the guard lets through finds the cipher of its volume. -/
theorem InSession.ownKey (h : InSession s l) (hop : l.op.cryptingMount = some m)
    (hs : (s.conns l.conn).Serves C s) :
    OwnKey (s.ownCipher C) l.env (s.conns l.conn).cipher s.db m := by
  intro write ctx hm
  have hguard := hm
  simp only [requireMount, bind_eq_ok, orRaise_eq_ok, refuse_eq_ok, pure_eq_ok] at hguard
  obtain ⟨r, hr, volume, hvolume, u, hmatch, u', -, rfl⟩ := hguard
  have hmount : s.db.mount? m = some r := (Option.filter_eq_some_iff.mp hr).1
  have hmode : s.modeOf r.volumeId = volume.encMode := by
    rw [Sys.modeOf, hvolume]
    rfl
  have hadmissible : s.Admissible l.conn r.volumeId := by
    rw [hs.encrypts, decide_eq_false_iff_not, not_not] at hmatch
    rw [Sys.Admissible, hmode, ← hmatch, decide_eq_true_eq]
  exact (h.1 m hop r hmount hadmissible).cipher hs

/-! ### Steps keep the file sealed -/

variable {own : VolumeId → Cipher}

theorem transact_seals {α : Type} {body : Except FsError (Tx × α)} {done : Sys → α → Sys × Reply}
    (hdone : ∀ s a, (done s a).1.begin = s.begin)
    (hbody : ∀ tx a, body = .ok (tx, a) → Seals C own s.begin tx) :
    Seals C own s.begin (s.transact body done).1.begin := by
  cases hb : body with
  | error e => exact Seals.refl _
  | ok r =>
    obtain ⟨tx, a⟩ := r
    have hcommit : Seals C own tx (s.commit tx).begin :=
      Seals.of_tables rfl rfl (fun _ _ h => h) rfl
    have hall := (hbody tx a hb).trans hcommit
    show Seals C own s.begin (done (s.commit tx) a).1.begin
    rw [hdone]
    exact hall

theorem fdTransact_seals {fd : FdId} {d : Descriptor} {body : Except FsError Tx}
    (hbody : ∀ tx, body = .ok tx → Seals C own s.begin tx) :
    Seals C own s.begin (s.fdTransact fd f d body).1.begin := by
  cases hb : body with
  | error e => exact Seals.refl _
  | ok tx => exact (hbody tx hb).trans (Seals.of_tables rfl rfl (fun _ _ h => h) rfl)

theorem onFd_seals {fd : FdId} (hfd : op.fd? = some fd)
    (hhome : ∀ f ∈ s.fds, s.db.home? f.d.node = some f.d.volume)
    (hk : ∀ f ∈ op.cryptingFd s, (s.conns f.conn).cipher = own f.d.volume) :
    Seals C own s.begin (onFd C E s fd op).1.begin := by
  rw [onFd]
  split
  · exact Seals.refl _
  next f hf =>
    have hV : s.begin.db.home? f.d.node = some f.d.volume := hhome f (List.mem_of_getElem? hf)
    cases op with
    | fdFlush fd' =>
      obtain rfl : fd' = fd := Option.some.inj hfd
      simp only [fdStep]
      split
      next hrun =>
        apply fdTransact_seals
        intro tx h
        refine flushOneChunk_seals (hk f ?_) hV h
        rw [Op.cryptingFd, hf]
        exact Option.mem_filter_iff.mpr ⟨rfl, by simpa using hrun⟩
      · exact Seals.refl _
    | fdClose fd' =>
      obtain rfl : fd' = fd := Option.some.inj hfd
      simp only [fdStep]
      split
      · exact Seals.refl _
      · apply fdTransact_seals
        intro tx h
        refine close_seals ?_ hV h
        intro hw hopen hpending
        apply hk f
        rw [Op.cryptingFd, hf]
        exact Option.mem_filter_iff.mpr ⟨rfl, by simp [hw, hopen, hpending]⟩
    | fdAbort fd' =>
      simp only [fdStep]
      split
      · exact Seals.refl _
      · exact fdTransact_seals (fun tx h => abort_seals h)
    | _ =>
      simp only [fdStep]
      split
      · exact Seals.refl _
      · first
        | exact Seals.refl _
        | (split <;> exact Seals.refl _)

/-- Pruned content goes with its rows; what a row that stays refers to stays. -/
theorem pruneContent_seals {tx tx' : Tx} {volume : Option VolumeId} {r : ℕ × ℕ}
    (h : pruneContent E tx volume = .ok (tx', r)) : Seals C own tx tx' := by
  rw [pruneContent_shape h]
  refine ⟨id, fun _ _ hV => hV, ?_⟩
  intro hs
  constructor
  · intro ch hch
    exact hs.addressed ch (List.mem_of_mem_filter hch)
  · intro hal r hr
    have hkept : r ∈ (tx.db.pruneContentVersions E.now volume).versions := hr
    obtain ⟨V, hV, p, ch, hch, hshow⟩ := hs.opens hal r (List.mem_of_mem_filter hr)
    refine ⟨V, hV, p, ch, ?_, hshow⟩
    show (tx.db.pruneContentVersions E.now volume).pruneContentChunks.chunk? r.chunkHash = some ch
    rw [chunk?_pruneContentChunks hkept]
    exact hch

theorem exec_seals (hs : s.db.Sound) (hh : s.db.Homed)
    (hhome : ∀ f ∈ s.fds, s.db.home? f.d.node = some f.d.volume)
    (hmount : ∀ m ∈ op.cryptingMount, OwnKey own E (s.conns c).cipher s.db m)
    (hfd : ∀ f ∈ op.cryptingFd s, (s.conns f.conn).cipher = own f.d.volume) :
    Seals C own s.begin (exec C M E s c op).1.begin := by
  have hframe : ∀ {tx : Tx}, AgreeOff [.volumes, .mounts] s.db tx.db → tx.aliased = s.aliased →
      Seals C own s.begin tx := by
    intro tx hoff hal
    refine Seals.of_tables (hoff.versions (by simp)) (hoff.chunks (by simp)) ?_ hal
    intro n V hV
    rw [home?_congr (hoff.identities (by simp))]
    exact hV
  cases op with
  | request m q =>
    apply transact_seals (fun _ _ => rfl)
    intro tx a h
    refine request_seals ?_ hh h
    intro hseals
    apply hmount m
    -- a request that seals chunks is one of those that work with the cipher
    have hcrypts : q.crypts = true := by
      cases q with
      | readAll path => rfl
      | _ => exact hseals
    rw [Op.cryptingMount, hcrypts, if_pos rfl]
    exact rfl
  | createVolume name chunkSize pin mode =>
    refine transact_seals (fun _ _ => rfl) ?_
    intro tx V h
    obtain ⟨-, -, -, hnodes, -, hoff, -, hal⟩ := createVolume_shape h
    refine Seals.of_tables (hoff.versions (by simp)) (hoff.chunks (by simp)) ?_ hal
    intro n V hV
    exact home?_persists ⟨[(foundedRoot E s.begin).identity],
      by rw [Db.identities, hnodes, List.map_append]; rfl⟩ hV
  | changePin volume oldPin newPin =>
    refine transact_seals (fun _ _ => rfl) ?_
    intro tx a h
    simp only [asReply, map_eq_ok, Prod.mk.injEq] at h
    obtain ⟨⟨t, u⟩, ⟨t', h, ht⟩, rfl, -⟩ := h
    obtain ⟨rfl, -⟩ := Prod.mk.inj ht
    simp only [Aloelite.changePin, bind_eq_ok] at h
    obtain ⟨row, -, root, -, u, -, key, -, hrun⟩ := h
    obtain ⟨db₁, hexec, rfl⟩ := Tx.run_ok.mp hrun
    exact hframe ((Stmt.exec_agreeOff hexec).weaken (by simp [Stmt.touches])) rfl
  | mount args =>
    refine transact_seals (fun _ _ => rfl) ?_
    intro tx a h
    simp only [Aloelite.mount, bind_eq_ok, pure_eq_ok, Prod.mk.injEq] at h
    obtain ⟨row, -, root, -, anchor, -, u, -, tx₁, hcreate, conn, -, tx₂, hstate, rfl, -⟩ := h
    exact (run_calm hcreate trivial).seals.trans (run_calm hstate trivial).seals
  | unmount m =>
    refine transact_seals (fun _ _ => rfl) ?_
    intro tx a h
    exact (run_calm (noReply_ok h) trivial).seals
  | openRead m path =>
    simp only [exec]
    split
    · exact Seals.refl _
    · exact Seals.refl _
  | openWrite m path mode lock =>
    refine transact_seals (fun _ _ => rfl) ?_
    intro tx d h
    exact (openWrite_seals hh h).1
  | fdRead fd n => exact onFd_seals rfl hhome hfd
  | fdWrite fd data => exact onFd_seals rfl hhome hfd
  | fdFlush fd => exact onFd_seals rfl hhome hfd
  | fdSeek fd offset whence => exact onFd_seals rfl hhome hfd
  | fdClose fd => exact onFd_seals rfl hhome hfd
  | fdAbort fd => exact onFd_seals rfl hhome hfd
  | prune volume =>
    refine transact_seals (fun _ _ => rfl) ?_
    intro tx r h
    rw [prune_shape h hs]
    exact Seals.of_tables rfl rfl (fun _ _ hV => hV) rfl
  | pruneContent volume =>
    refine transact_seals (fun _ _ => rfl) ?_
    intro tx r h
    exact pruneContent_seals h

/-! ### Steps keep the ciphers -/

/-- A volume that is there keeps its mode and its cipher. -/
theorem exec_ownCipher (hs : s.db.Sound) (hV : (s.db.volume? V).isSome) :
    (exec C M E s c op).1.modeOf V = s.modeOf V ∧ (exec C M E s c op).1.ownCipher C V =
      s.ownCipher C V := by
  obtain ⟨row, hrow⟩ := Option.isSome_iff_exists.mp hV
  obtain ⟨row', hrow', hmode, hkeys⟩ : ∃ row', (exec C M E s c op).1.db.volume? V = some row' ∧ _ :=
    exec_volume hs hrow
  have hsame : (exec C M E s c op).1.modeOf V = s.modeOf V := by
    rw [Sys.modeOf, Sys.modeOf, hrow', hrow, Option.map_some, Option.map_some, hmode]
  refine ⟨hsame, ?_⟩
  rw [Sys.ownCipher, Sys.ownCipher, hsame, hkeys]

theorem volume?_isSome_of_mode (h : s.modeOf V ≠ .none) : (s.db.volume? V).isSome := by
  rw [Sys.modeOf] at h
  cases hv : s.db.volume? V with
  | none =>
    rw [hv] at h
    exact absurd rfl h
  | some row => rfl

theorem Conn.Serves.persists {conn : Conn} (h : conn.Serves C s) (hs : s.db.Sound) :
    conn.Serves C (exec C M E s c op).1 := by
  refine ⟨h.1, ?_⟩
  intro sess hsess
  obtain ⟨hmode, hcipher⟩ := h.2 sess hsess
  obtain ⟨hmode', hown⟩ : (exec C M E s c op).1.modeOf sess.volume = _ ∧ _ :=
    exec_ownCipher (C := C) hs (volume?_isSome_of_mode hmode)
  rw [hmode', hown]
  exact ⟨hmode, hcipher⟩

theorem unlockMount_serves (hauth : C.Authentic) (hk : s.Keyed C) (hv : s.db.volume? V = some row)
    {root : NodeId} {pin : Option Bytes} {conn : Conn}
    (h : unlockMount C row root m pin = .ok conn) :
    conn.Serves C s := by
  have hid : row.volumeId = V := key_of_lookup hv
  have hmode : s.modeOf V = row.encMode := by
    rw [Sys.modeOf, hv]
    rfl
  have hcipher := unlockMount_cipher hauth hk hv h
  have hopened : ∀ sess, row.encMode ≠ .none → conn.session = some sess → sess.volume = V →
      conn.Serves C s := by
    intro sess hne hsess hvol
    refine ⟨?_, ?_⟩
    · intro hnone
      rw [hsess] at hnone
      cases hnone
    · intro sess' hsess'
      obtain rfl : sess = sess' := Option.some.inj (hsess.symm.trans hsess')
      rw [hvol, hmode]
      refine ⟨hne, ?_⟩
      rw [Sys.ownCipher, hmode]
      exact hcipher
  rw [unlockMount.eq_def] at h
  cases hm : row.encMode with
  | none =>
    rw [hm] at h
    cases pin with
    | some p => cases h
    | none =>
      obtain rfl := Except.ok.inj h
      refine ⟨fun _ => rfl, ?_⟩
      intro sess hsess
      cases hsess
  | convergent =>
    rw [hm] at h
    cases pin with
    | none => cases h
    | some p =>
      simp only [bind_eq_ok, orRaise_eq_ok, pure_eq_ok] at h
      obtain ⟨key, -, rfl⟩ := h
      exact hopened _ (by rw [hm]; decide) rfl hid
  | random =>
    rw [hm] at h
    cases pin with
    | none => cases h
    | some p =>
      simp only [bind_eq_ok, orRaise_eq_ok, pure_eq_ok] at h
      obtain ⟨key, -, rfl⟩ := h
      exact hopened _ (by rw [hm]; decide) rfl hid

theorem transact_conns {α : Type} {body : Except FsError (Tx × α)} {done : Sys → α → Sys × Reply}
    (hdone : ∀ s a, (done s a).1.conns = s.conns) : (s.transact body done).1.conns = s.conns := by
  cases body with
  | error e => rfl
  | ok r => exact hdone (s.commit r.1) r.2

theorem exec_serves (hauth : C.Authentic) (hs : s.db.Sound) (hk : s.Keyed C)
    (h : ∀ c, (s.conns c).Serves C s) (c' : ConnId) :
    ((exec C M E s c op).1.conns c').Serves C (exec C M E s c op).1 := by
  have hsame : (exec C M E s c op).1.conns = s.conns →
      ((exec C M E s c op).1.conns c').Serves C (exec C M E s c op).1 := by
    intro heq
    rw [heq]
    exact (h c').persists hs
  -- a step that assigns the connection's slot assigns a cipher that fits the session
  have hset : ∀ conn : Conn, conn.Serves C s →
      (exec C M E s c op).1.conns = Function.update s.conns c conn →
      ((exec C M E s c op).1.conns c').Serves C (exec C M E s c op).1 := by
    intro conn hconn heq
    rw [heq]
    by_cases hc : c' = c
    · rw [hc, Function.update_self]
      exact hconn.persists hs
    · rw [Function.update_of_ne hc]
      exact (h c').persists hs
  by_cases hleaves : op.leavesMounts
  · exact hsame (exec_keepsClients hs hleaves).conns
  cases op with
  | mount args =>
    cases hb : Aloelite.mount C E s.begin args with
    | error e =>
      apply hsame
      simp only [exec, hb]
      rfl
    | ok r =>
      obtain ⟨tx, m, conn⟩ := r
      obtain ⟨row, root, hrow, -, hunlock⟩ := mount_unlocks hb
      refine hset conn (unlockMount_serves hauth hk hrow hunlock) ?_
      simp only [exec, hb]
      rfl
  | unmount m =>
    cases hb : unmount E s.begin m with
    | error e =>
      apply hsame
      simp only [exec, hb]
      rfl
    | ok tx =>
      have hbare : Conn.Serves C s {} := by
        refine ⟨fun _ => rfl, ?_⟩
        intro sess hsess
        cases hsess
      have hconn : ((s.conns c).afterUnmount m).Serves C s := by
        rw [Conn.afterUnmount]
        split
        · split
          · exact hbare
          · exact h c
        · exact h c
      refine hset _ hconn ?_
      simp only [exec, hb]
      rfl
  | createVolume name chunkSize pin mode => exact hsame (transact_conns (fun _ _ => rfl))
  | changePin volume oldPin newPin => exact hsame (transact_conns (fun _ _ => rfl))
  | request m q => exact hsame (transact_conns (fun _ _ => rfl))
  | _ => exact absurd trivial hleaves

/-! ### Runs -/

/-- What holds of the connections and the chunks as long as every step attends to its session. -/
structure Secured (C : Crypto) (s : Sys) : Prop where
  sound : s.db.Sound
  homed : s.db.Homed
  keyed : s.Keyed C
  housed : ∀ f ∈ s.fds, s.db.home? f.d.node = some f.d.volume
  serves : ∀ c, (s.conns c).Serves C s
  sealed : s.begin.SealedOwn C (s.ownCipher C)

theorem exec_housed (hs : s.db.Sound) (hh : s.db.Homed)
    (h : ∀ f ∈ s.fds, s.db.home? f.d.node = some f.d.volume) :
    ∀ f ∈ (exec C M E s c op).1.fds, (exec C M E s c op).1.db.home? f.d.node = some f.d.volume := by
  intro f' hf'
  obtain ⟨fd, hfd⟩ := List.mem_iff_getElem?.mp hf'
  rcases exec_fds hfd with ⟨f, hf, hsame⟩ | ⟨-, hopen⟩
  · have heffect : Effect C E s op (exec C M E s c op).1.db := exec_effect hs.linked
    rw [hsame.node, hsame.volume]
    exact home?_persists (heffect.identities hs) (h f (List.mem_of_getElem? hf))
  · cases hopen with
    | @read mount path d h =>
      have hdb : (exec C M E s c (.openRead mount path)).1.db = s.db := by
        simp only [exec, h]
      rw [hdb]
      simp only [openRead, bind_eq_ok, pure_eq_ok] at h
      obtain ⟨m, hm, found, hfound, u, -, rfl⟩ := h
      exact hh.resolve hm hfound
    | @write mount path mode lock tx d h =>
      have hdb : (exec C M E s c (.openWrite mount path mode lock)).1.db = tx.db := by
        simp only [exec, h]
        rfl
      rw [hdb]
      have hopened : Seals C (s.ownCipher C) s.begin tx ∧ _ := openWrite_seals hh h
      exact hopened.2

theorem Tx.SealedOwn.congr {tx : Tx} {own' : VolumeId → Cipher} (h : tx.SealedOwn C own)
    (hown : ∀ n V, tx.db.home? n = some V → own' V = own V) : tx.SealedOwn C own' := by
  refine ⟨h.addressed, ?_⟩
  intro hal r hr
  obtain ⟨V, hV, p, ch, hch, hshow⟩ := h.opens hal r hr
  refine ⟨V, hV, p, ch, hch, ?_⟩
  show (own' V).decryptChunk C ch.data ch.nonce ch.encTag = some p
  rw [hown _ V hV]
  exact hshow

theorem Secured.step (hauth : C.Authentic) (h : Secured C s) (hl : Attends C M s l) :
    Secured C (step C M s l) := by
  obtain ⟨E, c, op⟩ := l
  have hown : ∀ V, (s.db.volume? V).isSome → (exec C M E s c op).1.ownCipher C V =
      s.ownCipher C V :=
    fun V hV => (exec_ownCipher h.sound hV).2
  have hmount : ∀ m ∈ op.cryptingMount,
      OwnKey ((exec C M E s c op).1.ownCipher C) E (s.conns c).cipher s.db m := by
    intro m hm write ctx hctx
    have hkey := hl.1.ownKey hm (h.serves c) write ctx hctx
    obtain ⟨row, volume, -, hvolume, -, rfl⟩ := requireMount_ok hctx
    rw [hkey, hown]
    exact Option.isSome_iff_exists.mpr ⟨volume, hvolume⟩
  have hfd : ∀ f ∈ op.cryptingFd s, (s.conns f.conn).cipher =
      (exec C M E s c op).1.ownCipher C f.d.volume := by
    intro f hf
    have hmem : f ∈ s.fds := by
      cases op with
      | fdRead fd n => exact List.mem_of_getElem? (Option.mem_filter_iff.mp hf).1
      | fdFlush fd => exact List.mem_of_getElem? (Option.mem_filter_iff.mp hf).1
      | fdClose fd => exact List.mem_of_getElem? (Option.mem_filter_iff.mp hf).1
      | _ => cases hf
    rw [(hl.1.2 f hf).cipher (h.serves f.conn), hown]
    exact h.homed.volume _ _ (h.housed f hmem)
  have hseals : Seals C ((exec C M E s c op).1.ownCipher C) s.begin (exec C M E s c op).1.begin :=
    exec_seals h.sound h.homed h.housed hmount hfd
  refine ⟨step_sound h.sound, exec_homed h.sound h.homed, exec_keyed hauth h.sound h.keyed,
    exec_housed h.sound h.homed h.housed, exec_serves hauth h.sound h.keyed h.serves, ?_⟩
  exact hseals.sealed (h.sealed.congr (fun n V hV => hown V (h.homed.volume n V hV)))

theorem Reaches.secured (hauth : C.Authentic) (h : Reaches C M (Attends C M) s) : Secured C s := by
  refine GuardedRuns.Run.invariant (P := Secured C) (fun s l hl hs => hs.step hauth hl) h ?_
  refine ⟨empty_sound, empty_homed, ?_, ?_, ?_, ?_, ?_⟩
  · intro v row hrow
    cases hrow
  · intro f hf
    cases hf
  · intro c
    refine ⟨fun _ => rfl, ?_⟩
    intro sess hsess
    cases hsess
  · intro ch hch
    cases hch
  · intro _ r hr
    cases hr

/-- A call that is not refused has passed the guard. -/
theorem crypting_requires {a : Reply} (hl : s.db.Linked) (hop : op.cryptingMount = some m)
    (hok : (exec C M E s c op).2 = .ok a) :
    ∃ w ctx, requireMount E (s.conns c).cipher s.db m w = .ok ctx := by
  cases op with
  | request m' q =>
    have hmount : m' = m := by
      rw [Op.cryptingMount] at hop
      split at hop
      · exact Option.some.inj hop
      · cases hop
    subst hmount
    cases hb : q.run C M E (s.conns c).cipher s.begin m' with
    | error e =>
      simp only [exec, hb] at hok
      cases hok
    | ok r =>
      obtain ⟨tx, a'⟩ := r
      have hlinked : s.begin.db.Linked := hl
      obtain ⟨ctx, w, hctx, -⟩ := request_strides hlinked hb
      exact ⟨w, ctx, hctx⟩
  | openWrite m' path mode lock =>
    cases mode with
    | truncate => cases hop
    | append =>
      obtain rfl := Option.some.inj hop
      cases hb : openWrite C E (s.conns c).cipher s.begin m' path .append lock with
      | error e =>
        simp only [exec, hb] at hok
        cases hok
      | ok r =>
        obtain ⟨tx, d⟩ := r
        obtain ⟨ctx, -, -, hctx, -⟩ := openWrite_ok hb
        exact ⟨true, ctx, hctx⟩
  | _ => cases hop

/-- What a mount that goes through installs. -/
theorem exec_mount_cipher (hauth : C.Authentic) (hk : s.Keyed C) {args : MountArgs}
    (h : (exec C M E s c (.mount args)).2 = .ok (.mount m)) :
    ((exec C M E s c (.mount args)).1.conns c).cipher = s.ownCipher C args.volume := by
  cases hb : Aloelite.mount C E s.begin args with
  | error e =>
    simp only [exec, hb] at h
    cases h
  | ok r =>
    obtain ⟨tx, m', conn⟩ := r
    obtain ⟨row, root, hrow, -, hunlock⟩ := mount_unlocks hb
    have hmode : s.modeOf args.volume = row.encMode := by
      rw [Sys.modeOf, show s.db.volume? args.volume = some row from hrow]
      rfl
    simp only [exec, hb]
    change (Function.update s.conns c conn c).cipher = _
    rw [Function.update_self, Sys.ownCipher, hmode]
    exact unlockMount_cipher hauth hk hrow hunlock

/-- In a run whose steps attend to their sessions, every content call and descriptor step that
is not refused works with the cipher of its own volume, and every manifest row opens in a
fresh session on the volume of its entry. -/
theorem chunks_under_own_keys (hauth : C.Authentic) (h : Reaches C M (Attends C M) s) :
    (∀ l a, InSession s l → (exec C M l.env s l.conn l.op).2 = .ok a →
      (∀ m ∈ l.op.cryptingMount, ∀ r ∈ s.db.mount? m, (s.conns l.conn).cipher =
        s.ownCipher C r.volumeId) ∧
        ∀ f ∈ l.op.cryptingFd s, (s.conns f.conn).cipher = s.ownCipher C f.d.volume) ∧
      ∀ E c args m, (exec C M E s c (.mount args)).2 = .ok (.mount m) → ∀ r ∈ s.db.versions,
        s.db.home? r.contentId = some args.volume → ∃ ch p, s.db.chunk? r.chunkHash = some ch ∧
          ((exec C M E s c (.mount args)).1.conns c).cipher.decryptChunk C ch.data ch.nonce
            ch.encTag = some p := by
  have hs := h.secured hauth
  have hclear : s.aliased = false :=
    GuardedRuns.Run.invariant (P := fun s : Sys => s.aliased = false) (fun _ _ hl _ => hl.2) h rfl
  constructor
  · intro l a hl hok
    refine ⟨?_, fun f hf => (hl.2 f hf).cipher (hs.serves f.conn)⟩
    intro m hm r hr
    obtain ⟨w, ctx, hctx⟩ := crypting_requires hs.sound.linked hm hok
    have hkey := hl.ownKey hm (hs.serves l.conn) w ctx hctx
    obtain ⟨row, volume, hrow, -, -, rfl⟩ := requireMount_ok hctx
    obtain rfl : row = r := Option.some.inj ((Option.filter_eq_some_iff.mp hrow).1.symm.trans hr)
    exact hkey
  · intro E c args m hok r hr hhome
    obtain ⟨V, hV, p, ch, hch, hshow⟩ := hs.sealed.opens hclear r hr
    obtain rfl : V = args.volume := Option.some.inj (hV.symm.trans hhome)
    refine ⟨ch, p, hch, ?_⟩
    rw [exec_mount_cipher hauth hs.keyed hok]
    exact hshow

theorem sealedRun_attends : GuardedRuns.Guards (step Crypto.xorStream Msgpack.refusing)
    (Attends Crypto.xorStream Msgpack.refusing) {} sealedRun := by
  decide +kernel

/-- A read finds the key of volume 1, and a session opened beside it opens a chunk that is
there. -/
theorem chunks_under_own_keys_sealed :
    let s := sealedRun.foldl (step Crypto.xorStream Msgpack.refusing) {}
    (s.conns 0).cipher = s.ownCipher Crypto.xorStream 1 ∧ ∃ r ∈ s.db.versions, ∃ ch p,
      s.db.chunk? r.chunkHash = some ch ∧
      ((exec Crypto.xorStream Msgpack.refusing (.counting 20) s 1
        (.mount { volume := 1, pin := some [4], allowOverlap := true })).1.conns
          1).cipher.decryptChunk
          Crypto.xorStream ch.data ch.nonce ch.encTag = some p := by
  intro s
  obtain ⟨hown, hfresh⟩ :=
    chunks_under_own_keys xorStream_authentic (reaches_foldl sealedRun_attends)
  constructor
  · have hl : InSession s ⟨.counting 10, 0, .request 2 (.readAll "x")⟩ := by decide +kernel
    have hok : (exec Crypto.xorStream Msgpack.refusing (.counting 10) s 0
        (.request 2 (.readAll "x"))).2 =
        .ok (.bytes [7, 8, 9]) := by rfl
    obtain ⟨r, hr, hvolume⟩ : ∃ r ∈ s.db.mount? 2, r.volumeId = 1 := by decide +kernel
    have hkey := (hown _ _ hl hok).1 2 rfl r hr
    rw [hvolume] at hkey
    exact hkey
  · obtain ⟨r, hr, hhome⟩ : ∃ r ∈ s.db.versions, s.db.home? r.contentId = some 1 := by
      decide +kernel
    exact ⟨r, hr, hfresh (.counting 20) 1 { volume := 1, pin := some [4], allowOverlap := true } 20
      (by rfl) r hr hhome⟩

/-- A stream on an encrypted volume that outlives the unmount: its next chunk goes into the
file in the clear, and a session with the right pin does not open it. -/
theorem unmounted_stream_stores_clear :
    ∃ s r ch, Reaches Crypto.xorStream Msgpack.refusing
      (fun s l => (step Crypto.xorStream Msgpack.refusing s l).aliased = false) s ∧
      r ∈ s.db.versions ∧ s.db.home? r.contentId = some 1 ∧ s.db.chunk? r.chunkHash = some ch ∧
        ch.data = [7, 8] ∧
      (exec Crypto.xorStream Msgpack.refusing (.counting 20) s 0
        (.mount { volume := 1, pin := some [4] })).2 = .ok (.mount 20) ∧
      ((exec Crypto.xorStream Msgpack.refusing (.counting 20) s 0
        (.mount { volume := 1, pin := some [4] })).1.conns 0).cipher.decryptChunk
          Crypto.xorStream ch.data ch.nonce ch.encTag = none := by
  let ls : List Label :=
    [⟨.counting 1, 0, .createVolume none 2 (some [4]) .convergent⟩,
      ⟨.counting 2, 0, .mount { volume := 1, pin := some [4] }⟩,
      ⟨.counting 4, 0, .openWrite 2 "x" .truncate none⟩,
      ⟨.counting 6, 0, .unmount 2⟩,
      ⟨.counting 7, 0, .fdWrite 0 [7, 8]⟩,
      ⟨.counting 8, 0, .fdFlush 0⟩]
  have hguards : GuardedRuns.Guards (step Crypto.xorStream Msgpack.refusing)
      (fun s l => (step Crypto.xorStream Msgpack.refusing s l).aliased = false) {} ls := by
    decide +kernel
  let s := ls.foldl (step Crypto.xorStream Msgpack.refusing) {}
  obtain ⟨r, hr, hhome, ch, hch, hdata, hnonce, htag⟩ : ∃ r ∈ s.db.versions,
    s.db.home? r.contentId = some 1 ∧
      ∃ ch ∈ s.db.chunk? r.chunkHash, ch.data = [7, 8] ∧ ch.nonce = [] ∧ ch.encTag = [] := by
        decide +kernel
  have hmount : (exec Crypto.xorStream Msgpack.refusing (.counting 20) s 0
      (.mount { volume := 1, pin := some [4] })).2 =
      .ok (.mount 20) := by decide +kernel
  refine ⟨s, r, ch, reaches_foldl hguards, hr, hhome, hch, hdata, hmount, ?_⟩
  rw [hdata, hnonce, htag]
  decide +kernel

end Aloelite
