import Aloelite.DirectSessions
import Aloelite.Readback
import Aloelite.TxnBoundary
import Aloelite.FlushFailures

/-! Which PIN opens a volume, and what a failed attempt leaves: `create_volume`,
`change_pin` and `mount` with a fault at any statement of their transactions, among the
other calls of the engine. The cipher and the session of the connection are assigned inside
the transaction and not taken back. -/
namespace Aloelite

open Fallible KeyedRows

/-- A key opens nothing that another one sealed. -/
def Crypto.KeyBound (C : Crypto) : Prop :=
  ∀ k k' n p p', C.decrypt k' n (C.encrypt k n p).1 (C.encrypt k n p).2 = some p' → k' = k

/-- Two pins never derive one key. -/
def Crypto.PinBound (C : Crypto) : Prop :=
  ∀ salt, Function.Injective (fun pin => C.deriveUnlockKey pin salt)

/-! ### Attempts -/

inductive Attempt where
  | createVolume (name : Option String) (chunkSize : ℕ) (pin : Option Bytes) (encMode : EncMode)
  | changePin (volume : VolumeId) (oldPin newPin : Bytes)
  | mount (args : MountArgs)

/-- What the transaction of an attempt makes of the file, and what it assigns to the
connection on the way. -/
def Attempt.body (C : Crypto) (E : Env) (s : Sys) : Attempt → Except FsError (Tx × Option Conn)
  | .createVolume name chunkSize pin mode =>
    (fun r => (r.1, none)) <$> Aloelite.createVolume C E s.begin name chunkSize pin mode
  | .changePin volume oldPin newPin =>
    (fun tx => (tx, none)) <$> Aloelite.changePin C E s.begin volume oldPin newPin
  | .mount args => (fun r => (r.1, some r.2.2)) <$> Aloelite.mount C E s.begin args

/-- Where the database fails: at a statement before the connection is assigned anything,
`BEGIN` included, at one after it, or at `COMMIT`, which SQLite may answer by ending the
transaction. -/
inductive Strike where
  | early
  | late
  | commit (ended : Bool)
  deriving DecidableEq

/-- A call that the database carries out, or an attempt that it does not. -/
inductive PinLabel where
  | call (l : Label)
  | struck (E : Env) (c : ConnId) (a : Attempt) (f : Strike)

/-- The engine, the transactions that a failed `COMMIT` left open, and the volumes that
were created with a PIN. -/
structure PinWorld where
  sys : Sys := {}
  drafts : ConnId → Option Db := fun _ => none
  made : List VolumeId := []

/-- The volume that a call has just created with a PIN. -/
def madeBy (op : Op) (r : Except FsError Reply) : List VolumeId :=
  match op, r with
  | .createVolume _ _ (some _) _, .ok (.volume v) => [v]
  | _, _ => []

def PinWorld.assign (t : PinWorld) (c : ConnId) : Option Conn → PinWorld
  | none => t
  | some conn => { t with sys := t.sys.setConn c conn }

/-- An attempt with a fault. `Db.txn` of `db.py` has its `COMMIT` outside the handler that
rolls back. -/
def PinWorld.fault (C : Crypto) (port : Port) (t : PinWorld) (E : Env) (c : ConnId) (a : Attempt)
    (f : Strike) :
    PinWorld × Option (Except FsError Reply) :=
  match a.body C E t.sys with
  | .error e => (t, if f = .early then none else some (.error e))
  | .ok (tx, conn) =>
    match f with
    | .early => (t, none)
    | .late => (t.assign c conn, none)
    | .commit ended =>
      if port = .python ∧ ended = false then
        ({ t.assign c conn with drafts := Function.update t.drafts c (some tx.db) }, none)
      else (t.assign c conn, none)

/-- A step and what the caller gets, which is nothing where the database fails. On a
connection with a transaction left open `BEGIN` does. -/
def PinWorld.run (C : Crypto) (M : Msgpack) (port : Port) (t : PinWorld) :
    PinLabel → PinWorld × Option (Except FsError Reply)
  | .call l =>
    if (t.drafts l.conn).isSome then (t, none)
    else
      let r := exec C M l.env t.sys l.conn l.op
      ({ t with sys := step C M t.sys l, made := madeBy l.op r.2 ++ t.made }, some r.2)
  | .struck E c a f => if (t.drafts c).isSome then (t, none) else t.fault C port E c a f

def PinWorld.step (C : Crypto) (M : Msgpack) (port : Port) (t : PinWorld) (l : PinLabel) :
    PinWorld := (t.run C M port l).1

/-! ### What is claimed of a step -/

/-- The connection and the volume of a step that puts a chunk into the pool. A stream does
when it flushes, and when it closes with bytes pending. -/
def Label.storing (s : Sys) (l : Label) : Option (ConnId × VolumeId) :=
  match l.op with
  | .fdFlush fd =>
    ((s.fds[fd]?).filter (fun f => f.d.writing && !f.d.closed)).map (fun f => (f.conn, f.d.volume))
  | .fdClose fd =>
    ((s.fds[fd]?).filter (fun f => !f.d.writing && !f.d.closed && f.d.writable &&
      !f.d.pending.isEmpty)).map
      (fun f => (f.conn, f.d.volume))
  | _ => l.sealing s

/-- Whether a call came back with what was asked for. -/
def answered : Option (Except FsError Reply) → Bool
  | some (.ok _) => true
  | _ => false

def Op.attempts : Op → Bool
  | .createVolume .. => true
  | .changePin .. => true
  | .mount _ => true
  | _ => false

def PinLabel.attempts : PinLabel → Bool
  | .call l => l.op.attempts
  | .struck .. => true

/-- The PIN of a volume after a step that went through. -/
def PinLabel.pinAfter (v : VolumeId) (pin : Bytes) : PinLabel → Bytes
  | .call l =>
    match l.op with
    | .changePin volume _ newPin => if v = volume then newPin else pin
    | _ => pin
  | .struck .. => pin

/-- A mount of a volume made with a PIN takes the current PIN and installs the key made with
the volume; keys stay, and PINs change with `change_pin` only; an attempt that fails leaves
the rows, the ciphers and the sessions; no attempt changes what content reads as; and what
is stored for such a volume is stored under a key. -/
structure PinWorld.Upholds (C : Crypto) (M : Msgpack) (port : Port) (t : PinWorld) (l : PinLabel) :
    Prop where
  opens : ∀ l' args m, l = .call l' → l'.op = .mount args →
    (t.run C M port l).2 = some (.ok (.mount m)) → args.volume ∈ t.made →
    args.pin = some (t.sys.pins args.volume) ∧ ∃ mode ≠ EncMode.none,
      ((t.run C M port l).1.sys.conns l'.conn).cipher =
      Cipher.ofVolume C (t.sys.keys args.volume) args.volume mode
  keys : ∀ v, (t.sys.db.volume? v).isSome = true → (t.run C M port l).1.sys.keys v = t.sys.keys v
  pins : ∀ v, (t.sys.db.volume? v).isSome = true → (t.run C M port l).1.sys.pins v =
    if answered (t.run C M port l).2 then l.pinAfter v (t.sys.pins v) else t.sys.pins v
  fails : l.attempts = true → answered (t.run C M port l).2 = false →
    (t.run C M port l).1.sys.db = t.sys.db ∧ (t.run C M port l).1.sys.conns = t.sys.conns
  reads : l.attempts = true → ∀ k n,
    readContentBytes C k (t.run C M port l).1.sys.db n = readContentBytes C k t.sys.db n
  sealed : ∀ l' p, l = .call l' → l'.storing t.sys = some p → p.2 ∈ t.made →
    answered (t.run C M port l).2 = true →
    (t.sys.conns p.1).cipher.encrypts = true

/-- A volume created with a PIN is created encrypted; a stream of such a volume stores
while the connection has a key; and a mount that is struck once its cipher is assigned is
of a plain volume, on a connection that has neither a cipher nor a session. -/
def PinWorld.Sane (t : PinWorld) : PinLabel → Prop
  | .call l =>
    match l.op with
    | .createVolume _ _ pin mode => pin.isSome = true → mode ≠ .none
    | .fdFlush _ | .fdClose _ =>
      ∀ p, l.storing t.sys = some p → p.2 ∈ t.made → (t.sys.conns p.1).cipher.encrypts = true
    | _ => True
  | .struck _ c (.mount args) f => f ≠ .early → t.sys.conns c = {} ∧
      ∀ row, t.sys.db.volume? args.volume = some row → row.encMode = .none
  | .struck _ _ _ _ => True

variable {C : Crypto} {M : Msgpack} {E : Env} {k : Cipher} {port : Port} {s : Sys} {tx tx' : Tx}
  {c : ConnId} {op : Op} {v : VolumeId} {row : VolumeRow} {root : NodeId} {pin pin' : Bytes}
  {key key' : Key} {t u : PinWorld} {l : PinLabel} {a : Attempt} {f : Strike}

/-! ### PINs and keys -/

theorem Crypto.KeyBound.authentic (hkey : C.KeyBound) : C.Authentic := by
  intro k k' n p p' h
  obtain rfl := hkey k k' n p p' h
  rw [C.decrypt_encrypt] at h
  exact (Option.some.inj h).symm

/-- Only the pin of a seal opens it. -/
theorem VolumeRow.Seals.pin_eq (hkey : C.KeyBound) (hpin : C.PinBound) (h : row.Seals C pin key)
    (hroot : row.rootNodeId = some root) (hunlock : unlockVolume C row root pin' = some key') :
    pin' = pin := by
  obtain ⟨root', nonce, hroot', hwrapped, hnonce⟩ := h
  obtain rfl := Option.some.inj (hroot.symm.trans hroot')
  rw [unlockVolume, hwrapped, hnonce, Option.bind_some, Option.bind_some] at hunlock
  exact hpin _ (hkey _ _ _ _ _ hunlock)

/-- An encrypted volume is unlocked with a pin. -/
theorem unlockMount_pin {m : MountId} {given : Option Bytes} {conn : Conn}
    (hmode : row.encMode ≠ .none) (h : unlockMount C row root m given = .ok conn) :
    ∃ p key, given = some p ∧ unlockVolume C row root p = some key := by
  rw [unlockMount.eq_def] at h
  cases given with
  | none =>
    cases hm : row.encMode with
    | none => exact absurd hm hmode
    | convergent => rw [hm] at h; cases h
    | random => rw [hm] at h; cases h
  | some p =>
    cases hm : row.encMode with
    | none => exact absurd hm hmode
    | convergent =>
      simp only [hm, bind_eq_ok, orRaise_eq_ok] at h
      obtain ⟨key, hkey, -⟩ := h
      exact ⟨p, key, rfl, hkey⟩
    | random =>
      simp only [hm, bind_eq_ok, orRaise_eq_ok] at h
      obtain ⟨key, hkey, -⟩ := h
      exact ⟨p, key, rfl, hkey⟩

theorem mount_unlocks {args : MountArgs} {m : MountId} {conn : Conn}
    (h : Aloelite.mount C E tx args = .ok (tx', m, conn)) :
    ∃ row root, tx.db.volume? args.volume = some row ∧ row.rootNodeId = some root ∧
      unlockMount C row root m args.pin = .ok conn := by
  simp only [Aloelite.mount, bind_eq_ok, orRaise_eq_ok, pure_eq_ok, Prod.mk.injEq] at h
  obtain ⟨row, hrow, root, hroot, anchor, -, u, -, tx₁, -, conn', hconn, tx₂, -, -, rfl, rfl⟩ := h
  exact ⟨row, root, hrow, hroot, hconn⟩

/-! ### What stays -/

theorem changePin_volume {oldPin newPin : Bytes} {w : VolumeId}
    (h : Aloelite.changePin C E tx w oldPin newPin = .ok tx') (hv : tx.db.volume? v = some row) :
    ∃ row', tx'.db.volume? v = some row' ∧ row'.encMode = row.encMode := by
  simp only [Aloelite.changePin, bind_eq_ok, orRaise_eq_ok, refuse_eq_ok] at h
  obtain ⟨old, hold, root, hroot, u, hmode, key, hkey, hrun⟩ := h
  obtain ⟨db₁, hexec, rfl⟩ := Tx.run_ok.mp hrun
  obtain rfl := Except.ok.inj hexec
  let g : VolumeRow → VolumeRow := fun r => { r with
    encMode := old.encMode
    wrappedKey := some
      (C.encrypt (C.deriveUnlockKey newPin (C.volumeHash w root)) (E.random tx.randomCount) key)
    wrapNonce := some (E.random tx.randomCount) }
  have hamend : lookup VolumeRow.volumeId (amend VolumeRow.volumeId tx.db.volumes w g) v =
      if v = w then (tx.db.volume? v).map g else tx.db.volume? v := lookup_amend (fun _ => rfl)
  by_cases hvw : v = w
  · subst hvw
    rw [if_pos rfl, hv] at hamend
    obtain rfl := Option.some.inj (hold.symm.trans hv)
    exact ⟨g old, hamend, rfl⟩
  · rw [if_neg hvw, hv] at hamend
    exact ⟨row, hamend, rfl⟩

/-- A volume stays with its mode and its key. -/
theorem exec_volume (hs : s.db.Sound) (hv : s.db.volume? v = some row) :
    ∃ row', (exec C M E s c op).1.db.volume? v = some row' ∧ row'.encMode = row.encMode ∧
      (exec C M E s c op).1.keys v = s.keys v := by
  by_cases hop : op.keysVolumes
  swap
  · obtain ⟨hvolumes, hkeys, -⟩ := exec_keepsKeys (C := C) (M := M) (E := E) (c := c) hs hop
    refine ⟨row, ?_, rfl, by rw [hkeys]⟩
    rw [Db.volume?, hvolumes]
    exact hv
  cases op with
  | createVolume name chunkSize given mode =>
    cases hb : Aloelite.createVolume C E s.begin name chunkSize given mode with
    | error e =>
      simp only [exec, hb]
      exact ⟨row, hv, rfl, rfl⟩
    | ok r =>
      obtain ⟨tx, w⟩ := r
      obtain ⟨rfl, -, hfresh, -, hvolumes, -⟩ := createVolume_shape hb
      have hne : v ≠ E.uuid := by
        rintro rfl
        rw [show s.begin.db = s.db from rfl, hv] at hfresh
        cases hfresh
      simp only [exec, hb]
      refine ⟨row, ?_, rfl, ?_⟩
      · change lookup VolumeRow.volumeId tx.db.volumes v = some row
        rw [hvolumes]
        exact lookup_append_of_some hv _
      · change (if given.isSome then Function.update s.keys E.uuid (E.random 0) else s.keys) v =
            s.keys v
        split
        · exact Function.update_of_ne hne _ _
        · rfl
  | changePin w oldPin newPin =>
    cases hb : Aloelite.changePin C E s.begin w oldPin newPin with
    | error e =>
      simp only [exec, hb]
      exact ⟨row, hv, rfl, rfl⟩
    | ok tx =>
      obtain ⟨row', hrow', hmode⟩ := changePin_volume hb hv
      simp only [exec, hb]
      exact ⟨row', hrow', hmode, rfl⟩
  | _ => exact hop.elim

/-- The tables of the content. -/
def Db.SameContent (db db' : Db) : Prop :=
  db'.contents = db.contents ∧ db'.chunks = db.chunks ∧ db'.versions = db.versions

theorem Db.SameContent.reads {db db' : Db} (h : db.SameContent db') (n : NodeId) :
    readContentBytes C k db' n = readContentBytes C k db n := by
  obtain ⟨hcontents, hchunks, hversions⟩ := h
  simp only [readContentBytes, Db.content?, Db.readChunks, Db.manifest, Db.chunk?, hcontents,
    hchunks, hversions]

/-- No attempt writes content. -/
theorem exec_sameContent (hop : op.attempts = true) :
    s.db.SameContent (exec C M E s c op).1.db := by
  cases op with
  | createVolume name chunkSize given mode =>
    cases hb : Aloelite.createVolume C E s.begin name chunkSize given mode with
    | error e =>
      simp only [exec, hb]
      exact ⟨rfl, rfl, rfl⟩
    | ok r =>
      obtain ⟨tx, w⟩ := r
      obtain ⟨-, -, -, -, -, hframe, -⟩ := createVolume_shape hb
      simp only [exec, hb]
      exact ⟨hframe.contents (by decide), hframe.chunks (by decide), hframe.versions (by decide)⟩
  | changePin w oldPin newPin =>
    cases hb : Aloelite.changePin C E s.begin w oldPin newPin with
    | error e =>
      simp only [exec, hb]
      exact ⟨rfl, rfl, rfl⟩
    | ok tx =>
      simp only [exec, hb]
      simp only [Aloelite.changePin, bind_eq_ok] at hb
      obtain ⟨old, -, root, -, u, -, key, -, hrun⟩ := hb
      obtain ⟨db₁, hexec, rfl⟩ := Tx.run_ok.mp hrun
      obtain rfl := Except.ok.inj hexec
      exact ⟨rfl, rfl, rfl⟩
  | mount args =>
    cases hb : Aloelite.mount C E s.begin args with
    | error e =>
      simp only [exec, hb]
      exact ⟨rfl, rfl, rfl⟩
    | ok r =>
      obtain ⟨tx, m, conn⟩ := r
      simp only [exec, hb]
      simp only [Aloelite.mount, bind_eq_ok, pure_eq_ok, Prod.mk.injEq] at hb
      obtain ⟨row, -, root, -, anchor, -, u, -, tx₁, hcreate, conn', -, tx₂, hstate, rfl, -⟩ := hb
      obtain ⟨db₁, hcreate', rfl⟩ := Tx.run_ok.mp hcreate
      obtain ⟨-, -, rfl⟩ := Db.createMount_ok hcreate'
      obtain ⟨db₂, hstate', rfl⟩ := Tx.run_ok.mp hstate
      obtain rfl := Except.ok.inj hstate'
      exact ⟨rfl, rfl, rfl⟩
  | _ => cases hop

/-- An attempt that is refused leaves everything. -/
theorem exec_refused (hop : op.attempts = true) {e : FsError}
    (h : (exec C M E s c op).2 = .error e) : (exec C M E s c op).1 = s := by
  cases op with
  | createVolume name chunkSize given mode =>
    cases hb : Aloelite.createVolume C E s.begin name chunkSize given mode with
    | error e' =>
      simp only [exec, hb]
      rfl
    | ok r =>
      simp only [exec, hb] at h
      cases h
  | changePin w oldPin newPin =>
    cases hb : Aloelite.changePin C E s.begin w oldPin newPin with
    | error e' =>
      simp only [exec, hb]
      rfl
    | ok tx =>
      simp only [exec, hb] at h
      cases h
  | mount args =>
    cases hb : Aloelite.mount C E s.begin args with
    | error e' =>
      simp only [exec, hb]
      rfl
    | ok r =>
      simp only [exec, hb] at h
      cases h
  | _ => cases hop

theorem exec_pins (hs : s.db.Sound) (hv : s.db.volume? v = some row) {r : Reply}
    (h : (exec C M E s c op).2 = .ok r) :
    (exec C M E s c op).1.pins v = PinLabel.pinAfter v (s.pins v) (.call ⟨E, c, op⟩) := by
  by_cases hop : op.keysVolumes
  swap
  · obtain ⟨-, -, hpins⟩ := exec_keepsKeys (C := C) (M := M) (E := E) (c := c) hs hop
    rw [hpins, PinLabel.pinAfter.eq_def]
    cases op with
    | changePin w oldPin newPin => exact absurd trivial hop
    | _ => rfl
  cases op with
  | createVolume name chunkSize given mode =>
    cases hb : Aloelite.createVolume C E s.begin name chunkSize given mode with
    | error e =>
      simp only [exec, hb] at h
      cases h
    | ok r =>
      obtain ⟨tx, w⟩ := r
      obtain ⟨rfl, -, hfresh, -⟩ := createVolume_shape hb
      have hne : v ≠ E.uuid := by
        rintro rfl
        rw [show s.begin.db = s.db from rfl, hv] at hfresh
        cases hfresh
      simp only [exec, hb]
      exact Function.update_of_ne hne _ _
  | changePin w oldPin newPin =>
    cases hb : Aloelite.changePin C E s.begin w oldPin newPin with
    | error e =>
      simp only [exec, hb] at h
      cases h
    | ok tx =>
      simp only [exec, hb]
      change Function.update s.pins w newPin v = if v = w then newPin else s.pins v
      rw [Function.update_apply]
  | _ => exact hop.elim

/-! ### What one step keeps -/

/-- The rows are in order, each encrypted volume seals its key under its PIN, and what was
created with a PIN is there and encrypted. -/
structure PinWorld.Sound (C : Crypto) (t : PinWorld) : Prop where
  db : t.sys.db.Sound
  keyed : t.sys.Keyed C
  made : ∀ v ∈ t.made, ∃ row, t.sys.db.volume? v = some row ∧ row.encMode ≠ .none

theorem PinWorld.run_call {l : Label} (hd : (t.drafts l.conn).isSome = false) :
    t.run C M port (.call l) =
      ({ t with
          sys := Aloelite.step C M t.sys l,
          made := madeBy l.op (exec C M l.env t.sys l.conn l.op).2 ++ t.made },
        some (exec C M l.env t.sys l.conn l.op).2) := by
  rw [PinWorld.run, hd]
  rfl

theorem PinWorld.run_call_draft {l : Label} (hd : (t.drafts l.conn).isSome = true) :
    t.run C M port (.call l) = (t, none) := by
  rw [PinWorld.run, if_pos hd]

/-- What a struck attempt leaves as it was. -/
structure PinWorld.Spared (t u : PinWorld) : Prop where
  db : u.sys.db = t.sys.db
  keys : u.sys.keys = t.sys.keys
  pins : u.sys.pins = t.sys.pins
  made : u.made = t.made

theorem PinWorld.assign_spared (c : ConnId) (conn : Option Conn) : t.Spared (t.assign c conn) := by
  cases conn with
  | none => exact ⟨rfl, rfl, rfl, rfl⟩
  | some conn => exact ⟨rfl, rfl, rfl, rfl⟩

theorem PinWorld.fault_spared : t.Spared (t.fault C port E c a f).1 := by
  rw [PinWorld.fault]
  cases a.body C E t.sys with
  | error e => exact ⟨rfl, rfl, rfl, rfl⟩
  | ok r =>
    obtain ⟨tx, conn⟩ := r
    have hassign := assign_spared (t := t) c conn
    cases f with
    | early => exact ⟨rfl, rfl, rfl, rfl⟩
    | late => exact hassign
    | commit ended =>
      dsimp only
      split
      · exact ⟨hassign.db, hassign.keys, hassign.pins, hassign.made⟩
      · exact hassign

theorem PinWorld.fault_answered : answered (t.fault C port E c a f).2 = false := by
  rw [PinWorld.fault]
  cases a.body C E t.sys with
  | error e =>
    dsimp only
    split <;> rfl
  | ok r =>
    cases f with
    | early => rfl
    | late => rfl
    | commit ended =>
      dsimp only
      split <;> rfl

theorem PinWorld.assign_conns {conn : Option Conn}
    (h : ∀ conn', conn = some conn' → conn' = t.sys.conns c) :
    (t.assign c conn).sys.conns = t.sys.conns := by
  cases conn with
  | none => rfl
  | some conn =>
    rw [h conn rfl]
    exact Function.update_eq_self c t.sys.conns

/-- A plain volume is mounted without a key. -/
theorem unlockMount_plain {m : MountId} {given : Option Bytes} {conn : Conn}
    (hmode : row.encMode = .none) (h : unlockMount C row root m given = .ok conn) : conn = {} := by
  rw [unlockMount.eq_def, hmode] at h
  cases given with
  | none => exact (Except.ok.inj h).symm
  | some p => cases h

/-- What an attempt assigns when it may be struck afterwards. -/
theorem PinWorld.Sane.assigned {conn : Conn} (hsane : t.Sane (.struck E c a f)) (hf : f ≠ .early)
    (h : a.body C E t.sys = .ok (tx, some conn)) : conn = t.sys.conns c := by
  cases a with
  | createVolume name chunkSize given mode =>
    simp only [Attempt.body, map_eq_ok, Prod.mk.injEq] at h
    obtain ⟨_, -, -, hnone⟩ := h
    cases hnone
  | changePin volume oldPin newPin =>
    simp only [Attempt.body, map_eq_ok, Prod.mk.injEq] at h
    obtain ⟨_, -, -, hnone⟩ := h
    cases hnone
  | mount args =>
    simp only [Attempt.body, map_eq_ok, Prod.mk.injEq, Option.some.injEq] at h
    obtain ⟨⟨tx', m, conn'⟩, hmount, -, rfl⟩ := h
    obtain ⟨row, root, hrow, -, hunlock⟩ := mount_unlocks hmount
    obtain ⟨hbare, hplain⟩ := hsane hf
    rw [hbare]
    exact unlockMount_plain (hplain row hrow) hunlock

theorem PinWorld.fault_conns (hsane : t.Sane (.struck E c a f)) :
    (t.fault C port E c a f).1.sys.conns = t.sys.conns := by
  rw [PinWorld.fault]
  cases hb : a.body C E t.sys with
  | error e => rfl
  | ok r =>
    obtain ⟨tx, conn⟩ := r
    have hassign : f ≠ .early → (t.assign c conn).sys.conns = t.sys.conns := by
      intro hf
      apply assign_conns
      rintro conn' rfl
      exact hsane.assigned hf hb
    cases f with
    | early => rfl
    | late => exact hassign (by decide)
    | commit ended =>
      dsimp only
      split <;> exact hassign nofun

theorem PinWorld.Sound.spared (h : t.Sound C) (hu : t.Spared u) : u.Sound C := by
  obtain ⟨hdb, hkeys, hpins, hmade⟩ := hu
  refine ⟨?_, ?_, ?_⟩
  · rw [hdb]
    exact h.db
  · intro v row hv hmode
    rw [hdb] at hv
    rw [hkeys, hpins]
    exact h.keyed v row hv hmode
  · rw [hdb, hmade]
    exact h.made

/-- A volume just created with a PIN is there, in the mode asked for. -/
theorem exec_made (hv : v ∈ madeBy op (exec C M E s c op).2) :
    ∃ name chunkSize given mode row, op = .createVolume name chunkSize (some given) mode ∧
      (exec C M E s c op).1.db.volume? v = some row ∧ row.encMode = mode := by
  cases op with
  | createVolume name chunkSize given mode =>
    cases given with
    | none => cases hv
    | some given =>
      cases hb : Aloelite.createVolume C E s.begin name chunkSize (some given) mode with
      | error e =>
        simp only [exec, hb] at hv
        cases hv
      | ok r =>
        obtain ⟨tx, w⟩ := r
        simp only [exec, hb] at hv ⊢
        obtain rfl := List.mem_singleton.mp hv
        obtain ⟨rfl, -, hfresh, -, hvolumes, -⟩ := createVolume_shape hb
        refine ⟨name, chunkSize, given, mode,
          foundedVolume C E s.begin name chunkSize (some given) mode, rfl, ?_, rfl⟩
        change lookup VolumeRow.volumeId tx.db.volumes E.uuid = _
        rw [hvolumes]
        exact lookup_append_self hfresh
  | _ => cases hv

theorem PinWorld.Sound.step (hkey : C.KeyBound) (h : t.Sound C) (hsane : t.Sane l) :
    (t.step C M port l).Sound C := by
  rw [PinWorld.step]
  cases l with
  | struck E c a f =>
    rw [PinWorld.run]
    split
    · exact h
    · exact h.spared fault_spared
  | call l =>
    cases hd : (t.drafts l.conn).isSome with
    | true =>
      rw [run_call_draft hd]
      exact h
    | false =>
      rw [run_call hd]
      refine ⟨step_sound h.db, exec_keyed hkey.authentic h.db h.keyed, ?_⟩
      intro v hv
      rcases List.mem_append.mp hv with hnew | hold
      · obtain ⟨name, chunkSize, given, mode, row, hop, hrow, hmode⟩ := exec_made hnew
        refine ⟨row, hrow, ?_⟩
        rw [hmode]
        rw [PinWorld.Sane, hop] at hsane
        exact hsane rfl
      · obtain ⟨row, hrow, hmode⟩ := h.made v hold
        obtain ⟨row', hrow', hsame, -⟩ : ∃ row',
          (exec C M l.env t.sys l.conn l.op).1.db.volume? v = some row' ∧ _ :=
          exec_volume h.db hrow
        exact ⟨row', hrow', hsame ▸ hmode⟩

/-! ### What is claimed holds -/

/-- A mount that goes through. -/
theorem exec_mount_grounds (hkey : C.KeyBound) (hpin : C.PinBound) (hk : s.Keyed C)
    {args : MountArgs} {m : MountId} (hv : s.db.volume? args.volume = some row)
    (hmode : row.encMode ≠ .none) (h : (exec C M E s c (.mount args)).2 = .ok (.mount m)) :
    args.pin = some (s.pins args.volume) ∧
      ((exec C M E s c (.mount args)).1.conns c).cipher =
        Cipher.ofVolume C (s.keys args.volume) args.volume row.encMode := by
  cases hb : Aloelite.mount C E s.begin args with
  | error e =>
    simp only [exec, hb] at h
    cases h
  | ok r =>
    obtain ⟨tx, m', conn⟩ := r
    obtain ⟨row', root, hrow', hroot, hunlock⟩ := mount_unlocks hb
    obtain rfl : row = row' := Option.some.inj (hv.symm.trans hrow')
    obtain ⟨p, key, hgiven, hopen⟩ := unlockMount_pin hmode hunlock
    have hseals := hk args.volume row hv hmode
    refine ⟨?_, ?_⟩
    · rw [hgiven, hseals.pin_eq hkey hpin hroot hopen]
    · simp only [exec, hb]
      change (Function.update s.conns c conn c).cipher = _
      rw [Function.update_self]
      exact unlockMount_cipher hkey.authentic hk hv hunlock

/-- What a request or the opening of a stream stores for an encrypted volume is stored
under a key. -/
theorem exec_sealed (hs : s.db.Sound) {r : Reply} {m : MountId} {mrow : MountRow}
    (hm : s.db.mount? m = some mrow) (hv : s.db.volume? mrow.volumeId = some row)
    (hmode : row.encMode ≠ .none)
    (hop : (∃ q, op = .request m q) ∨ ∃ path mode lock, op = .openWrite m path mode lock)
    (h : (exec C M E s c op).2 = .ok r) : (s.conns c).cipher.encrypts = true := by
  have hrequired : ∀ {w : Bool} {ctx : MountCtx},
      requireMount E (s.conns c).cipher s.db m w = .ok ctx →
      (s.conns c).cipher.encrypts = true := by
    intro w ctx hctx
    obtain ⟨mrow', row', hmrow', hrow', hkeyed, -⟩ := requireMount_ok hctx
    obtain rfl : mrow = mrow' :=
      Option.some.inj (hm.symm.trans (Option.filter_eq_some_iff.mp hmrow').1)
    obtain rfl : row = row' := Option.some.inj (hv.symm.trans hrow')
    exact hkeyed.mp hmode
  rcases hop with ⟨q, rfl⟩ | ⟨path, mode, lock, rfl⟩
  · cases hb : q.run C M E (s.conns c).cipher s.begin m with
    | error e =>
      simp only [exec, hb] at h
      cases h
    | ok a =>
      have hlinked : s.begin.db.Linked := hs.linked
      obtain ⟨ctx, w, hctx, -⟩ := request_strides hlinked hb
      exact hrequired hctx
  · cases hb : openWrite C E (s.conns c).cipher s.begin m path mode lock with
    | error e =>
      simp only [exec, hb] at h
      cases h
    | ok a =>
      obtain ⟨ctx, tx₁, l, hctx, -⟩ := openWrite_ok hb
      exact hrequired hctx

theorem answered_error {r : Except FsError Reply} (h : answered (some r) = false) :
    ∃ e, r = .error e := by
  cases r with
  | error e => exact ⟨e, rfl⟩
  | ok a => cases h

theorem answered_ok {r : Except FsError Reply} (h : answered (some r) = true) : ∃ a, r = .ok a := by
  cases r with
  | error e => cases h
  | ok a => exact ⟨a, rfl⟩

/-- A step that comes to nothing. -/
theorem PinWorld.upholds_of_spared (hfails : answered (t.run C M port l).2 = false)
    (hspared : t.Spared (t.run C M port l).1)
    (hconns : (t.run C M port l).1.sys.conns = t.sys.conns) : t.Upholds C M port l where
  opens := by
    intro l' args m hl hop hreply
    rw [hreply] at hfails
    cases hfails
  keys := fun v _ => by rw [hspared.keys]
  pins := fun v _ => by rw [hspared.pins, hfails, if_neg Bool.false_ne_true]
  fails := fun _ _ => ⟨hspared.db, hconns⟩
  reads := fun _ k n => by rw [hspared.db]
  sealed := by
    intro l' p hl hstores hmade hanswered
    rw [hfails] at hanswered
    cases hanswered

/-- What a request or the opening of a stream on such a volume stores. -/
theorem PinWorld.Sound.sealed (h : t.Sound C) {l : Label} {p : ConnId × VolumeId}
    (hsane : t.Sane (.call l)) (hstores : l.storing t.sys = some p) (hmade : p.2 ∈ t.made)
    {r : Reply} (hok : (exec C M l.env t.sys l.conn l.op).2 = .ok r) :
    (t.sys.conns p.1).cipher.encrypts = true := by
  obtain ⟨row, hrow, hmode⟩ := h.made p.2 hmade
  obtain ⟨E, c, op⟩ := l
  have hmount : ∀ m,
      ((∃ q, op = .request m q) ∨ ∃ path mode lock, op = .openWrite m path mode lock) →
      (t.sys.db.mount? m).map (fun mrow => (c, mrow.volumeId)) = some p →
      (t.sys.conns p.1).cipher.encrypts = true := by
    intro m hop hm
    obtain ⟨mrow, hmrow, rfl⟩ := Option.map_eq_some_iff.mp hm
    exact exec_sealed h.db hmrow hrow hmode hop hok
  cases op with
  | request m q =>
    change (if q.seals then _ else none : Option (ConnId × VolumeId)) = some p at hstores
    split at hstores
    · exact hmount m (Or.inl ⟨q, rfl⟩) hstores
    · cases hstores
  | openWrite m path mode lock => exact hmount m (Or.inr ⟨path, mode, lock, rfl⟩) hstores
  | fdFlush fd => exact hsane p hstores hmade
  | fdClose fd => exact hsane p hstores hmade
  | _ => cases hstores

theorem PinWorld.Sound.upholds_call (hkey : C.KeyBound) (hpin : C.PinBound) (h : t.Sound C)
    {l : Label} (hsane : t.Sane (.call l)) (hd : (t.drafts l.conn).isSome = false) :
    t.Upholds C M port (.call l) := by
  have hrun : t.run C M port (.call l) = _ := run_call hd
  -- a mount's grounds; the keys; the PINs; what a refusal leaves; the reads; the sealed chunks
  refine ⟨?_, ?_, ?_, ?_, ?_, ?_⟩
  · rintro l' args m hl hop hreply hmade
    obtain rfl : l = l' := by injection hl
    obtain ⟨row, hrow, hmode⟩ := h.made args.volume hmade
    rw [hrun] at hreply ⊢
    have hok : (exec C M l.env t.sys l.conn (.mount args)).2 = .ok (.mount m) :=
      hop ▸ Option.some.inj hreply
    obtain ⟨hgiven, hcipher⟩ := exec_mount_grounds hkey hpin h.keyed hrow hmode hok
    refine ⟨hgiven, row.encMode, hmode, ?_⟩
    change ((exec C M l.env t.sys l.conn l.op).1.conns l.conn).cipher = _
    rw [hop]
    exact hcipher
  · intro v hv
    obtain ⟨row, hrow⟩ := Option.isSome_iff_exists.mp hv
    obtain ⟨-, -, -, hkeys⟩ : ∃ row',
      (exec C M l.env t.sys l.conn l.op).1.db.volume? v = some row' ∧ _ := exec_volume h.db hrow
    rw [hrun]
    exact hkeys
  · intro v hv
    obtain ⟨row, hrow⟩ := Option.isSome_iff_exists.mp hv
    rw [hrun]
    cases hreply : (exec C M l.env t.sys l.conn l.op).2 with
    | ok r => exact exec_pins h.db hrow hreply
    | error e =>
      change (exec C M l.env t.sys l.conn l.op).1.pins v = t.sys.pins v
      by_cases hop : l.op.keysVolumes
      · have hattempts : l.op.attempts = true := by
          cases hl : l.op with
          | createVolume => rfl
          | changePin => rfl
          | _ =>
            rw [hl] at hop
            exact hop.elim
        rw [exec_refused hattempts hreply]
      · rw [(exec_keepsKeys h.db hop).pins]
  · intro hattempts hfails
    rw [hrun] at hfails ⊢
    obtain ⟨e, he⟩ := answered_error hfails
    have hsame := exec_refused hattempts he
    change (exec C M l.env t.sys l.conn l.op).1.db = t.sys.db ∧
        (exec C M l.env t.sys l.conn l.op).1.conns = t.sys.conns
    rw [hsame]
    exact ⟨rfl, rfl⟩
  · intro hattempts k n
    rw [hrun]
    exact (exec_sameContent hattempts).reads n
  · intro l' p hl hstores hmade hanswered
    obtain rfl : l = l' := by injection hl
    rw [hrun] at hanswered
    obtain ⟨r, hr⟩ := answered_ok hanswered
    exact h.sealed hsane hstores hmade hr

theorem PinWorld.Sound.upholds (hkey : C.KeyBound) (hpin : C.PinBound) (h : t.Sound C)
    (hsane : t.Sane l) :
    t.Upholds C M port l := by
  cases l with
  | call l =>
    cases hd : (t.drafts l.conn).isSome with
    | false => exact h.upholds_call hkey hpin hsane hd
    | true =>
      have hrun : t.run C M port (.call l) = _ := run_call_draft hd
      apply upholds_of_spared
      · rw [hrun]
        rfl
      · rw [hrun]
        exact ⟨rfl, rfl, rfl, rfl⟩
      · rw [hrun]
  | struck E c a f =>
    cases hd : (t.drafts c).isSome with
    | false =>
      have hrun : t.run C M port (.struck E c a f) = t.fault C port E c a f := by
        rw [PinWorld.run, hd]
        rfl
      apply upholds_of_spared
      · rw [hrun]
        exact fault_answered
      · rw [hrun]
        exact fault_spared
      · rw [hrun]
        exact fault_conns hsane
    | true =>
      have hrun : t.run C M port (.struck E c a f) = (t, none) := by
        rw [PinWorld.run, if_pos hd]
      apply upholds_of_spared
      · rw [hrun]
        rfl
      · rw [hrun]
        exact ⟨rfl, rfl, rfl, rfl⟩
      · rw [hrun]

/-- In a run of sane steps every step keeps what is claimed. -/
theorem pins_upheld (hkey : C.KeyBound) (hpin : C.PinBound)
    (h : GuardedRuns.Run (PinWorld.step C M port) (fun t l => t.Sane l) {} t) (hsane : t.Sane l) :
    t.Upholds C M port l := by
  have hsound : t.Sound C := by
    apply h.invariant (P := fun u => u.Sound C)
    · exact fun u l hl hu => hu.step hkey hl
    · refine ⟨empty_sound, ?_, ?_⟩
      · intro v row hrow
        cases hrow
      · intro v hv
        cases hv
  exact hsound.upholds hkey hpin hsane

/-! ### Runs -/

theorem xorStream_keyBound : Crypto.xorStream.KeyBound := by
  intro k k' n p p' h
  change (if k ++ n = k' ++ n then some _ else none) = some p' at h
  split at h
  next heq => exact (List.append_cancel_right heq).symm
  next => cases h

theorem xorStream_pinBound : Crypto.xorStream.PinBound := fun _ _ _ h => h

/-- A volume with a PIN, three bytes in it, and a change of the PIN at the second attempt. -/
def changedPin : List PinLabel :=
  [.call ⟨.counting 1, 0, .createVolume none 2 (some [4]) .convergent⟩,
    .call ⟨.counting 2, 0, .mount { volume := 1, pin := some [4] }⟩,
    .call ⟨.counting 4, 0, .request 2 (.createEntry "x" [7, 8, 9])⟩,
    .struck (.counting 6) 1 (.changePin 1 [4] [5]) (.commit true),
    .call ⟨.counting 6, 1, .changePin 1 [4] [5]⟩]

def afterChange : PinWorld :=
  changedPin.foldl (PinWorld.step Crypto.xorStream Msgpack.refusing .python) {}

/-- A mount with the new PIN. -/
def mountAgain : PinLabel :=
  .call ⟨.counting 7, 1, .mount { volume := 1, pin := some [5], access := .ro }⟩

theorem pins_upheld_changed :
    afterChange.Upholds Crypto.xorStream Msgpack.refusing .python mountAgain ∧
    (afterChange.run Crypto.xorStream Msgpack.refusing .python mountAgain).2 = some
      (.ok (.mount 7)) ∧
      1 ∈ afterChange.made := by
  have hguards : GuardedRuns.Guards (PinWorld.step Crypto.xorStream Msgpack.refusing .python)
      (fun t l => t.Sane l) {} changedPin := by
    exact ⟨fun _ => by decide, trivial, trivial, trivial, trivial, trivial⟩
  refine ⟨?_, by decide +kernel, by decide +kernel⟩
  exact pins_upheld xorStream_keyBound xorStream_pinBound (GuardedRuns.Run.foldl hguards) trivial

/-- Created with a PIN and `enc_mode` none, a volume is mounted without one. -/
def plainMade : PinWorld := PinWorld.step Crypto.xorStream Msgpack.refusing .rust {}
  (.call ⟨.counting 1, 0, .createVolume none 2 (some [4]) .none⟩)

def sealedMade : PinWorld := PinWorld.step Crypto.xorStream Msgpack.refusing .rust {}
  (.call ⟨.counting 1, 0, .createVolume none 2 (some [4]) .convergent⟩)

/-- The other way: a mount whose `COMMIT` fails has put its key on the connection. -/
theorem pins_not_upheld :
    (GuardedRuns.Run (PinWorld.step Crypto.xorStream Msgpack.refusing .rust)
      (fun _ _ => True) {} plainMade ∧
      ¬ plainMade.Upholds Crypto.xorStream Msgpack.refusing .rust
        (.call ⟨.counting 2, 0, .mount { volume := 1 }⟩)) ∧
    GuardedRuns.Run (PinWorld.step Crypto.xorStream Msgpack.refusing .rust)
      (fun _ _ => True) {} sealedMade ∧
      ¬ sealedMade.Upholds Crypto.xorStream Msgpack.refusing .rust
        (.struck (.counting 2) 0 (.mount { volume := 1, pin := some [4] }) (.commit true)) := by
  refine ⟨⟨(GuardedRuns.Run.refl _).snoc trivial, ?_⟩, (GuardedRuns.Run.refl _).snoc trivial, ?_⟩
  · intro h
    obtain ⟨hpin, -⟩ :=
      h.opens ⟨.counting 2, 0, .mount { volume := 1 }⟩ { volume := 1 } 2 rfl rfl (by decide +kernel)
        (by decide +kernel)
    cases hpin
  · intro h
    obtain ⟨-, hconns⟩ := h.fails rfl (by decide +kernel)
    exact absurd (congrFun hconns 0) (by decide +kernel)

end Aloelite
