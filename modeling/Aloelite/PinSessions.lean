import Aloelite.Dav
import Aloelite.DirectSessions

/-! Which PINs WebDAV lets in. The cache keeps a token for a digest whatever becomes of the
session it was handed out in, and asks only whether the volume is unlocked by now. -/
namespace Aloelite

open Fallible KeyedRows

variable {C : Crypto} {M : Msgpack} {E : Env} {spelt : String → Option VolumeId}
  {hash : Bytes → Bytes} {d : Draws} {s s' : Sys} {c : ConnId} {name : String} {v : VolumeId}
  {m : MountId} {pin : Bytes} {row : VolumeRow}

/-! ### What a PIN opens -/

/-- The volume of a name is encrypted. -/
def Sys.Encrypted (spelt : String → Option VolumeId) (s : Sys) (name : String) : Prop :=
  ∃ v row, resolveVolume spelt s.db name = some v ∧ s.db.volume? v = some row ∧ row.encMode ≠ .none

/-- The pin gives the key of the encrypted volume of a name. -/
def Sys.Opens (C : Crypto) (spelt : String → Option VolumeId) (s : Sys) (name : String)
    (pin : Bytes) : Prop :=
  ∃ v row root, resolveVolume spelt s.db name = some v ∧ s.db.volume? v = some row ∧
    row.encMode ≠ .none ∧
    row.rootNodeId = some root ∧ (unlockVolume C row root pin).isSome

/-- The pin a volume was given opens it. -/
theorem Sys.Encrypted.opens_own (hk : s.Keyed C) (hname : resolveVolume spelt s.db name = some v)
    (hv : s.db.volume? v = some row) (hmode : row.encMode ≠ .none) :
    s.Opens C spelt name (s.pins v) := by
  have hseals := hk v row hv hmode
  obtain ⟨root, -, hroot, -⟩ := id hseals
  refine ⟨v, row, root, hname, hv, hmode, hroot, ?_⟩
  rw [hseals.unlock_own hroot, Option.isSome_some]

/-- A mount of the root with a pin that opens. -/
theorem mount_of_key {root : NodeId} (hs : s.db.Sound) (hv : s.db.volume? v = some row)
    (hmode : row.encMode ≠ .none) (hroot : row.rootNodeId = some root)
    (hkey : (unlockVolume C row root pin).isSome) (hnew : s.db.mount? E.uuid = none) :
    ∃ tx conn, Aloelite.mount C E s.begin { volume := v, pin := some pin, allowOverlap := true } =
      .ok (tx, E.uuid, conn) := by
  obtain ⟨key, hkey⟩ := Option.isSome_iff_exists.mp hkey
  have hcontainer := hs.linked.root row (mem_of_lookup hv) root hroot
  have hnode : (s.db.node? root).isSome := Db.node?_isSome_of_type hcontainer
  have hanchor : resolve s.db root "/" = .ok ⟨root, .container⟩ := by
    apply (resolve_eq_ok (by decide)).mpr
    exact Or.inl ⟨by decide, rfl, hcontainer⟩
  have hcreate : s.db.createMount { mountId := E.uuid, volumeId := v, mountPoint := root,
                                    expiresAt := none, access := .rw } =
      .ok { s.db with
        mounts := s.db.mounts ++
        [{ mountId := E.uuid, volumeId := v, mountPoint := root, expiresAt := none, access := .rw }]
          } := by
    have hnode' := Option.isSome_iff_ne_none.mp hnode
    simp [Db.createMount, hnew, hv, hnode', refuse]
  have hunlock : ∃ conn, unlockMount C row root E.uuid (some pin) = .ok conn := by
    rw [unlockMount.eq_def]
    cases hm : row.encMode with
    | none => exact absurd hm hmode
    | convergent =>
      simp only [hkey, orRaise, ok_bind]
      exact ⟨_, rfl⟩
    | random =>
      simp only [hkey, orRaise, ok_bind]
      exact ⟨_, rfl⟩
  obtain ⟨conn, hconn⟩ := hunlock
  simp only [Aloelite.mount, Sys.begin, hv, hroot, orRaise, ok_bind, hanchor, requireNoOverlap,
    Tx.run, Stmt.exec,
    expiry, Option.map_none, Bool.true_eq_false, and_false, if_false, hcreate, hconn]
  exact ⟨_, conn, rfl⟩

theorem fsMount_of_opens (hs : s.db.Sound) (hopens : s.Opens C spelt name pin)
    (hnew : s.db.mount? d.mount.uuid = none) (create : Bool) :
    ∃ s', fsMount C M spelt d s c name (some pin) create = (s', .ok d.mount.uuid) := by
  obtain ⟨v, row, root, hname, hv, hmode, hroot, hkey⟩ := hopens
  obtain ⟨tx, conn, hmount⟩ := mount_of_key hs hv hmode hroot hkey hnew
  have hexec : exec C M d.mount s c
      (.mount { volume := v, pin := some pin, allowOverlap := true }) =
      ((s.commit tx).setConn c conn, .ok (.mount d.mount.uuid)) := by
    simp only [exec, hmount]
    rfl
  rw [fsMount, hname]
  simp only [mountVolume, hexec]
  exact ⟨_, rfl⟩

/-- Nothing but a pin that opens mounts an encrypted volume. -/
theorem opens_of_fsMount (henc : s.Encrypted spelt name) {create : Bool}
    (h : fsMount C M spelt d s c name (some pin) create = (s', .ok m)) :
    s.Opens C spelt name pin := by
  obtain ⟨v, row, hname, hv, hmode⟩ := henc
  rw [fsMount, hname] at h
  simp only [mountVolume] at h
  cases hb : Aloelite.mount C d.mount s.begin
      { volume := v, pin := some pin, allowOverlap := true } with
  | error e =>
    have hexec : exec C M d.mount s c
        (.mount { volume := v, pin := some pin, allowOverlap := true }) = (s, .error e) := by
      simp only [exec, hb]
      rfl
    rw [hexec] at h
    cases (Prod.mk.inj h).2
  | ok r =>
    obtain ⟨tx, mid, conn⟩ := r
    simp only [Aloelite.mount, bind_eq_ok, orRaise_eq_ok] at hb
    obtain ⟨row', hrow, root, hroot, anchor, -, u, -, tx₁, -, conn', hconn, -⟩ := hb
    obtain rfl : row = row' := Option.some.inj (hv.symm.trans hrow)
    refine ⟨v, row, root, hname, hv, hmode, hroot, ?_⟩
    rw [unlockMount.eq_def] at hconn
    cases hm : row.encMode with
    | none => exact absurd hm hmode
    | convergent =>
      simp only [hm, bind_eq_ok, orRaise_eq_ok] at hconn
      obtain ⟨key, hkey, -⟩ := hconn
      rw [hkey, Option.isSome_some]
    | random =>
      simp only [hm, bind_eq_ok, orRaise_eq_ok] at hconn
      obtain ⟨key, hkey, -⟩ := hconn
      rw [hkey, Option.isSome_some]

/-! ### One more client -/

open DirectSessionRegistry

variable {rec : VolumeRecord} {g g' : DirectSessionRegistry} {entry : DirectSession} {token : Token}

variable (C M spelt d rec) in
/-- The first client unlocks the volume, a later one attaches. -/
def DirectSessionRegistry.enter (g : DirectSessionRegistry) (pin : Bytes) :
    DirectSessionRegistry × Except ManagerError Token :=
  if (g.sessions rec.id).isSome then g.attach C M spelt d rec (some pin)
    else g.unlock C M spelt d rec (some pin)

namespace DirectSessionRegistry

theorem enter_open (hs : g.sessions rec.id = some entry) :
    g.enter C M spelt d rec pin = g.attach C M spelt d rec (some pin) := by
  rw [enter, hs, Option.isSome_some, if_pos rfl]

theorem enter_closed (hs : g.sessions rec.id = none) :
    g.enter C M spelt d rec pin = g.unlock C M spelt d rec (some pin) := by
  rw [enter, hs]
  rfl

variable (C M spelt d rec g pin) in
theorem enter_ne_alreadyMounted : (g.enter C M spelt d rec pin).2 ≠ .error .alreadyMounted := by
  have hmount : ∀ e, ManagerError.ofMount e ≠ .alreadyMounted := by
    intro e
    cases e <;> simp [ManagerError.ofMount]
  cases hs : g.sessions rec.id with
  | some entry =>
    rw [enter_open hs, attach, hs]
    dsimp only
    split
    · simpa using hmount _
    · simp
  | none =>
    rw [enter_closed hs, unlock, hs]
    dsimp only
    split
    · simpa using hmount _
    · simp

/-- With a pin that opens, the new client is in. -/
theorem enter_of_opens (hsound : (g.files rec.sqlitePath).db.Sound)
    (hpath : ∀ entry, g.sessions rec.id = some entry → entry.path = rec.sqlitePath)
    (htoken : d.token ≠ []) (hopens : (g.files rec.sqlitePath).Opens C spelt rec.name pin)
    (hnew : (g.files rec.sqlitePath).db.mount? d.mount.uuid = none) :
    ∃ g' entry, g.enter C M spelt d rec pin = (g', .ok d.token) ∧ g'.sessions rec.id = some entry ∧
      clientMount entry d.token = some d.mount.uuid := by
  cases hs : g.sessions rec.id with
  | some entry =>
    obtain ⟨s', hmount⟩ := fsMount_of_opens (M := M) (c := entry.conn) hsound hopens hnew false
    rw [enter_open hs, attach, hs]
    simp only [hpath entry hs, hmount]
    refine ⟨_, _, rfl, Function.update_self _ _ _, ?_⟩
    have hgone : (entry.clients.filter (fun p => p.1 ≠ d.token)).find? (fun p => p.1 = d.token) =
        none := by
      apply List.find?_eq_none.mpr
      intro p hp
      simpa using (List.mem_filter.mp hp).2
    rw [clientMount, if_neg htoken, List.find?_append, hgone]
    simp
  | none =>
    obtain ⟨s', hmount⟩ :=
      fsMount_of_opens (M := M) (c := g.opened) (s := (g.files rec.sqlitePath).setConn g.opened {})
        hsound
      hopens hnew true
    rw [enter_closed hs, unlock, hs]
    simp only [hmount]
    refine ⟨_, _, rfl, Function.update_self _ _ _, ?_⟩
    rw [clientMount, if_neg htoken]
    simp

theorem opens_of_enter
    (hpath : ∀ entry, g.sessions rec.id = some entry → entry.path = rec.sqlitePath)
    (henc : (g.files rec.sqlitePath).Encrypted spelt rec.name)
    (h : g.enter C M spelt d rec pin = (g', .ok token)) :
    (g.files rec.sqlitePath).Opens C spelt rec.name pin := by
  cases hs : g.sessions rec.id with
  | some entry =>
    rw [enter_open hs, attach, hs] at h
    simp only [hpath entry hs] at h
    cases hmount : fsMount C M spelt d (g.files rec.sqlitePath) entry.conn rec.name
      (some pin) false with
    | mk s' r =>
    rw [hmount] at h
    cases r with
    | error e => cases (Prod.mk.inj h).2
    | ok m => exact opens_of_fsMount henc hmount
  | none =>
    rw [enter_closed hs, unlock, hs] at h
    simp only at h
    cases hmount : fsMount C M spelt d ((g.files rec.sqlitePath).setConn g.opened {}) g.opened
      rec.name (some pin) true with
    | mk s' r =>
    rw [hmount] at h
    cases r with
    | error e => cases (Prod.mk.inj h).2
    | ok m => exact opens_of_fsMount (s := (g.files rec.sqlitePath).setConn g.opened {}) henc hmount

end DirectSessionRegistry

/-! ### The token of a request -/

variable {f f₀ : DavFront} {store : String → VolumeRecord} {id : String}

namespace DavFront

theorem provePin_eq :
    provePin C M spelt hash d rec f pin =
      match f.reg.enter C M spelt d rec pin with
      | (reg, .ok token) =>
        ({ reg := reg, pins := f.pins.put hash rec.id pin token }, .ok (some token))
      | (reg, .error e) => ({ f with reg := reg }, .error (refusePin e)) := by
  have hne := enter_ne_alreadyMounted C M spelt d pin rec f.reg
  rw [provePin]
  cases henter : f.reg.enter C M spelt d rec pin with
  | mk reg r =>
  have htried : (if (f.reg.sessions rec.id).isSome then f.reg.attach C M spelt d rec (some pin)
      else f.reg.unlock C M spelt d rec (some pin)) = (reg, r) := henter
  rw [henter] at hne
  simp only [htried]
  cases r with
  | ok token => rfl
  | error e =>
    cases e with
    | alreadyMounted => exact absurd rfl hne
    | _ => rfl

/-- What a request with a PIN on an encrypted volume does before its session. -/
theorem sessionToken_encrypted :
    sessionToken C M spelt hash d rec f true (some pin) =
      match f.pins.get hash rec.id pin, f.reg.sessions rec.id with
      | some token, some _ => (f, .ok (some token))
      | some _, none => provePin C M spelt hash d rec { f with pins := f.pins.forget rec.id } pin
      | none, _ => provePin C M spelt hash d rec f pin := by
  rw [sessionToken, if_pos rfl]
  cases hcached : f.pins.get hash rec.id pin with
  | none => rfl
  | some token =>
    cases hs : f.reg.sessions rec.id with
    | none => rfl
    | some entry => rfl

end DavFront

/-! ### Runs -/

/-- What comes to the manager: a call of the registry, a WebDAV request. -/
inductive DavAction where
  | api (l : RegistryLabel)
  | dav (id : String) (d : Draws) (pin : Option Bytes) (calls : List (Env × Op))

variable (C M spelt hash) in
def davStep (store : String → VolumeRecord) (encrypted : String → Bool) (f : DavFront) :
    DavAction → DavFront
  | .api l => { f with reg := (l.call.run C M spelt l.draws (store l.id) f.reg).1 }
  | .dav id d pin calls => (f.dispatch C M spelt hash d (store id) (encrypted id) pin calls).1

/-- The token drawn is not one that is out; the handler of a request begins and ends no
mount and makes no volume. -/
def DavAction.Fresh (f : DavFront) : DavAction → Prop
  | .api l => l.Fresh { reg := f.reg }
  | .dav id d pin calls =>
    RegistryLabel.Fresh { reg := f.reg } ⟨id, d, .unlock pin⟩ ∧ ∀ call ∈ calls, call.2.leavesMounts

instance (f : DavFront) : ∀ a : DavAction, Decidable (a.Fresh f)
  | .api l => inferInstanceAs (Decidable (l.Fresh { reg := f.reg }))
  | .dav id d pin calls =>
    inferInstanceAs (Decidable (RegistryLabel.Fresh { reg := f.reg } ⟨id, d, .unlock pin⟩ ∧
      ∀ call ∈ calls, call.2.leavesMounts))

/-- Files the engine has written, nothing unlocked and nothing remembered. -/
def DavFront.Fresh (C : Crypto) (M : Msgpack) (f : DavFront) : Prop :=
  Attended.Fresh C M { reg := f.reg } ∧ ∀ id, f.pins id = []

/-- What holds of the registry, whatever its callers know. -/
def Held (C : Crypto) (spelt : String → Option VolumeId) (store : String → VolumeRecord)
    (g : DirectSessionRegistry) : Prop :=
  ∃ w : Attended, w.reg = g ∧ Upheld C spelt store w

variable {encrypted : String → Bool}

theorem Held.run (hauth : C.Authentic) (hstore : ∀ id, (store id).id = id)
    (h : Held C spelt store g) (l : RegistryLabel) (hfresh : l.Fresh { reg := g }) :
    Held C spelt store (l.call.run C M spelt l.draws (store l.id) g).1 := by
  obtain ⟨w, rfl, hw⟩ := h
  exact ⟨attend C M spelt store w l, attend_reg C M l, hw.attend hauth hstore l hfresh⟩

theorem Held.enter (hauth : C.Authentic) (hstore : ∀ id, (store id).id = id)
    (h : Held C spelt store g)
    (hfresh : RegistryLabel.Fresh { reg := g } ⟨id, d, .unlock (some pin)⟩) :
    Held C spelt store (g.enter C M spelt d (store id) pin).1 := by
  rw [DirectSessionRegistry.enter]
  split
  · exact h.run hauth hstore ⟨id, d, .attach (some pin)⟩ hfresh
  · exact h.run hauth hstore ⟨id, d, .unlock (some pin)⟩ hfresh

theorem KeepsClients.extends (hs : s'.db.Sound) (hk : s'.Keyed C) (h : KeepsClients s s') :
    Extends C spelt c [] s s' := by
  refine extends_of_mounts hs hk ?_ ?_ ?_ (fun c' _ => by rw [h.conns])
  · intro m r hm
    rw [Db.mount?, h.mounts]
    exact hm
  · intro v r hv
    rw [Db.volume?, h.volumes, h.keys]
    exact ⟨hv, rfl⟩
  · intro name v hname
    rw [resolveVolume_congr h.volumes]
    exact hname

variable (spelt) in
/-- The calls of a handler. -/
theorem calls_keepsClients (hauth : C.Authentic) (hs : s.db.Sound) (hk : s.Keyed C)
    {calls : List (Env × Op)} (hcalls : ∀ call ∈ calls, call.2.leavesMounts) :
    Extends C spelt c [] s (calls.foldl (fun s call => (exec C M call.1 s c call.2).1) s) ∧
      (calls.foldl (fun s call => (exec C M call.1 s c call.2).1) s).conns = s.conns := by
  induction calls generalizing s with
  | nil => exact ⟨Extends.refl hs hk, rfl⟩
  | cons call calls ih =>
    have hsound : (exec C M call.1 s c call.2).1.db.Sound :=
      step_sound (l := ⟨call.1, c, call.2⟩) hs
    have hkeyed : (exec C M call.1 s c call.2).1.Keyed C := exec_keyed hauth hs hk
    have hfirst : KeepsClients s (exec C M call.1 s c call.2).1 :=
      exec_keepsClients hs (hcalls call List.mem_cons_self)
    obtain ⟨hrest, hconns⟩ :=
      ih hsound hkeyed (fun call' h => hcalls call' (List.mem_cons_of_mem _ h))
    exact ⟨(hfirst.extends hsound hkeyed).trans hrest, hconns.trans hfirst.conns⟩

theorem Held.calls (hauth : C.Authentic) (h : Held C spelt store g)
    (hs : g.sessions id = some entry) {calls : List (Env × Op)}
    (hcalls : ∀ call ∈ calls, call.2.leavesMounts) :
    Held C spelt store
      (g.setFile entry.path
        (calls.foldl (fun s call => (exec C M call.1 s entry.conn call.2).1)
          (g.files entry.path))) := by
  obtain ⟨w, rfl, hw⟩ := h
  have ho := hw.unlocked id entry hs
  have hpath := ho.path
  obtain ⟨hext, hconns⟩ :=
    calls_keepsClients spelt (M := M) (c := entry.conn) hauth (hw.sound entry.path)
    (hw.keyed entry.path) hcalls
  generalize calls.foldl (fun s call => (exec C M call.1 s entry.conn call.2).1)
    (w.reg.files entry.path) = s₁ at hext hconns ⊢
  let w' : Attended := { w with reg := w.reg.setFile entry.path s₁ }
  have hsame : w.reg.sessions = Function.update w.reg.sessions id (some entry) := by
    rw [← hs, Function.update_eq_self]
  suffices hkept : Upheld C spelt store w' from ⟨w', rfl, hkept⟩
  rw [hpath] at hext hconns
  have hnothing : ∀ m ∈ ([] : List MountId), m ∈ entry.clients.map Prod.snd :=
    fun m hm => absurd hm List.not_mem_nil
  refine hw.change hext (hw.others hs hnothing) le_rfl ?_ hsame (fun _ _ => rfl)
    (fun _ _ => rfl) ?_ ?_ ?_ (hw.gone_after hext)
  · change Function.update w.reg.files entry.path s₁ = _
    rw [hpath]
  · intro he
    cases he
  · intro entry' he
    obtain rfl := Option.some.inj he
    obtain ⟨v, row, hserving⟩ := ho.serving
    refine ⟨hpath, ho.conn, ho.clients, ho.tokens, ho.nonempty, ho.mounts, v, row, ?_⟩
    change Serving C spelt (Function.update w.reg.files entry.path s₁ entry.path) entry.conn _
        entry.clients v row
    rw [Function.update_self]
    rw [hpath] at hserving
    apply hserving.extends hext _ (fun _ hp => hp) (fun _ _ => List.not_mem_nil)
    rw [hconns]
  · intro entry' he id' e' hid he'
    obtain rfl := Option.some.inj he
    exact hw.apart id id' entry e' hs he' (Ne.symm hid)

theorem DavFront.provePin_reg :
    (provePin C M spelt hash d rec f pin).1.reg = (f.reg.enter C M spelt d rec pin).1 := by
  rw [provePin_eq]
  cases f.reg.enter C M spelt d rec pin with
  | mk reg r =>
  cases r with
  | ok token => rfl
  | error e => rfl

variable (hash) in
theorem Held.sessionToken (hauth : C.Authentic) (hstore : ∀ id, (store id).id = id)
    (h : Held C spelt store f.reg) {given : Option Bytes}
    (hfresh : RegistryLabel.Fresh { reg := f.reg } ⟨id, d, .unlock given⟩) (encrypted : Bool) :
    Held C spelt store (f.sessionToken C M spelt hash d (store id) encrypted given).1.reg := by
  cases encrypted with
  | true =>
    cases given with
    | none => exact h
    | some pin =>
      rw [DavFront.sessionToken_encrypted]
      split
      · exact h
      · rw [DavFront.provePin_reg]
        exact h.enter hauth hstore hfresh
      · rw [DavFront.provePin_reg]
        exact h.enter hauth hstore hfresh
  | false =>
    rw [DavFront.sessionToken.eq_def, if_neg (by decide)]
    split
    · exact h
    · have hrun := h.run (M := M) hauth hstore ⟨id, d, .unlock none⟩ hfresh
      simp only [RegistryCall.run, Prod.map_fst, id_eq] at hrun
      split
      next heq =>
        rw [heq] at hrun
        exact hrun
      next heq =>
        rw [heq] at hrun
        exact hrun
      next heq =>
        rw [heq] at hrun
        exact hrun

theorem Held.dispatch (hauth : C.Authentic) (hstore : ∀ id, (store id).id = id)
    (h : Held C spelt store f.reg) {given : Option Bytes} {calls : List (Env × Op)}
    (hfresh : (DavAction.dav id d given calls).Fresh f) (encrypted : Bool) :
    Held C spelt store (f.dispatch C M spelt hash d (store id) encrypted given calls).1.reg := by
  have htoken := h.sessionToken hash (M := M) hauth hstore hfresh.1 encrypted
  rw [DavFront.dispatch, DavFront.sessionCtx]
  cases ht : f.sessionToken C M spelt hash d (store id) encrypted given with
  | mk f' r =>
  rw [ht] at htoken
  cases r with
  | error e => exact htoken
  | ok token =>
    dsimp only
    split
    next heq =>
      obtain ⟨rfl, -⟩ := Prod.mk.inj heq
      exact htoken
    next heq =>
      obtain ⟨rfl, -⟩ := Prod.mk.inj heq
      rw [DavFront.handle]
      split
      · exact htoken
      next entry hs =>
        rw [hstore] at hs
        exact htoken.calls hauth hs hfresh.2

/-- The registry is in order in every run. -/
theorem Held.reached (hauth : C.Authentic) (hstore : ∀ id, (store id).id = id)
    (hf₀ : f₀.Fresh C M)
    (hrun : GuardedRuns.Run (davStep C M spelt hash store encrypted) (fun f a => a.Fresh f) f₀ f) :
    Held C spelt store f.reg := by
  refine GuardedRuns.Run.invariant (P := fun f : DavFront => Held C spelt store f.reg) ?_ hrun ?_
  · intro f a hfresh h
    cases a with
    | api l => exact h.run hauth hstore l hfresh
    | dav id d given calls => exact h.dispatch hauth hstore hfresh (encrypted id)
  · exact ⟨{ reg := f₀.reg }, rfl, hf₀.1.kept hauth⟩

/-! ### The answer to a PIN -/

/-- A client has its mount: it is good in the engine, and its connection has the cipher of
the volume. -/
def DirectSessionRegistry.Serves (C : Crypto) (spelt : String → Option VolumeId)
    (store : String → VolumeRecord) (g : DirectSessionRegistry) (id : String) (m : MountId) :
    Prop :=
  (g.files (store id).sqlitePath).Valid m ∧ ∃ entry v row, g.sessions id = some entry ∧
    resolveVolume spelt (g.files (store id).sqlitePath).db (store id).name = some v ∧
      (g.files (store id).sqlitePath).db.volume? v = some row ∧
        ((g.files (store id).sqlitePath).conns entry.conn).cipher =
          Cipher.ofVolume C ((g.files (store id).sqlitePath).keys v) v row.encMode

theorem Held.serves (h : Held C spelt store g) (hs : g.sessions id = some entry)
    (hm : clientMount entry token = some m) :
    g.Serves C spelt store id m := by
  obtain ⟨w, rfl, hw⟩ := h
  have ho := hw.unlocked id entry hs
  obtain ⟨v, row, hserving⟩ := ho.serving
  rw [ho.path] at hserving
  refine ⟨fun t => (hserving.live _ (clientMount_mem hm)).valid t, entry, v, row, hs,
    hserving.named, hserving.volume, ?_⟩
  exact hserving.cipher

theorem session_of_client (hs : g.sessions id = some entry) :
    g.session id (some (some token)) =
      match clientMount entry token with | some m => .ok m | none => .error .notAuthorized := by
  rw [session, hs]
  simp only [Option.bind_some]
  cases clientMount entry token with
  | none => rfl
  | some m => rfl

namespace DavFront

variable {calls : List (Env × Op)}

theorem handle_sessions : (f.handle C M rec calls).reg.sessions = f.reg.sessions := by
  rw [handle]
  split
  · rfl
  · rfl

/-- Where the cache has a token for the PIN and the volume is unlocked, nothing else is
asked. -/
theorem dispatch_cached (hid : rec.id = id) (hs : f.reg.sessions id = some entry)
    (hcached : f.pins.get hash id pin = some token) :
    f.dispatch C M spelt hash d rec true (some pin) calls =
      match clientMount entry token with
      | some m => (f.handle C M rec calls, .ok m)
      | none => (f, .error (.fault 401)) := by
  subst hid
  rw [dispatch, sessionCtx, sessionToken_encrypted, hcached, hs]
  simp only [Option.map_some, session_of_client hs]
  cases clientMount entry token with
  | none => rfl
  | some m => rfl

variable (spelt) in
/-- Elsewhere the PIN is tried. -/
theorem sessionToken_tried (hid : rec.id = id)
    (htried : f.reg.sessions id = none ∨ f.pins.get hash id pin = none) :
    ∃ f' : DavFront, f'.reg = f.reg ∧ f.sessionToken C M spelt hash d rec true (some pin) =
      f'.provePin C M spelt hash d rec pin := by
  subst hid
  rw [sessionToken_encrypted]
  split
  next hcached hs =>
    rw [hcached, hs] at htried
    simp at htried
  next => exact ⟨{ f with pins := f.pins.forget rec.id }, rfl, rfl⟩
  next => exact ⟨f, rfl, rfl⟩

variable (calls) in
theorem dispatch_of_enter (hid : rec.id = id)
    (htried : f.reg.sessions id = none ∨ f.pins.get hash id pin = none)
    (henter : f.reg.enter C M spelt d rec pin = (g', .ok token))
    (hs : g'.sessions id = some entry) (hm : clientMount entry token = some m) :
    (f.dispatch C M spelt hash d rec true (some pin) calls).2 = .ok m ∧
      (f.dispatch C M spelt hash d rec true (some pin) calls).1.reg.sessions id = some entry := by
  obtain ⟨f', hreg, htoken⟩ := sessionToken_tried spelt (C := C) (M := M) (d := d) hid htried
  subst hid
  rw [dispatch, sessionCtx, htoken, provePin_eq, hreg, henter]
  simp only [Option.map_some, session_of_client hs, hm]
  refine ⟨rfl, ?_⟩
  change (DavFront.handle C M rec _ calls).reg.sessions rec.id = some entry
  rw [handle_sessions]
  exact hs

variable (calls) in
theorem dispatch_of_enter_error (hid : rec.id = id)
    (htried : f.reg.sessions id = none ∨ f.pins.get hash id pin = none) {e : ManagerError}
    (henter : f.reg.enter C M spelt d rec pin = (g', .error e)) :
    (f.dispatch C M spelt hash d rec true (some pin) calls).2 = .error (refusePin e) := by
  obtain ⟨f', hreg, htoken⟩ := sessionToken_tried spelt (C := C) (M := M) (d := d) hid htried
  rw [dispatch, sessionCtx, htoken, provePin_eq, hreg, henter]

end DavFront

/-- A request with the pin of the volume is served, and one with another pin is not, unless
the cache has a token under its digest that is not the right pin's own client. -/
theorem dav_answers_pin_iff (hauth : C.Authentic) (hstore : ∀ id, (store id).id = id)
    (hf₀ : f₀.Fresh C M)
    (hrun : GuardedRuns.Run (davStep C M spelt hash store encrypted) (fun f a => a.Fresh f) f₀ f)
    {calls : List (Env × Op)} (hmarked : encrypted id = true)
    (henc : (f.reg.files (store id).sqlitePath).Encrypted spelt (store id).name)
    (hfresh : (DavAction.dav id d (some pin) calls).Fresh f)
    (hnew : (f.reg.files (store id).sqlitePath).db.mount? d.mount.uuid = none) :
    let answered := f.dispatch C M spelt hash d (store id) (encrypted id) (some pin) calls
    let opens := (f.reg.files (store id).sqlitePath).Opens C spelt (store id).name pin
    ((opens → ∃ m, answered.2 = .ok m ∧ answered.1.reg.Serves C spelt store id m) ∧
      (¬ opens → ∀ m, answered.2 ≠ .ok m)) ↔
      ∀ entry token, f.reg.sessions id = some entry → f.pins.get hash id pin = some token →
        (opens ↔ (clientMount entry token).isSome) := by
  intro answered opens
  have hheld : Held C spelt store f.reg := Held.reached hauth hstore hf₀ hrun
  have hafter : Held C spelt store answered.1.reg :=
    hheld.dispatch hauth hstore hfresh (encrypted id)
  have hpath : ∀ entry, f.reg.sessions (store id).id = some entry →
      entry.path = (store id).sqlitePath := by
    intro entry hs
    obtain ⟨w, hreg, hw⟩ := hheld
    rw [hstore, ← hreg] at hs
    exact (hw.unlocked id entry hs).path
  have hsound : (f.reg.files (store id).sqlitePath).db.Sound := by
    obtain ⟨w, hreg, hw⟩ := hheld
    rw [← hreg]
    exact hw.sound _
  by_cases htried : f.reg.sessions id = none ∨ f.pins.get hash id pin = none
  · -- the PIN is tried, and the condition asks for nothing
    have hcondition : ∀ entry token, f.reg.sessions id = some entry →
        f.pins.get hash id pin = some token →
        (opens ↔ (clientMount entry token).isSome) := by
      intro entry token hs hcached
      rw [hs, hcached] at htried
      simp at htried
    refine iff_of_true ⟨?_, ?_⟩ hcondition
    · intro hopens
      obtain ⟨g', entry, henter, hs, hm⟩ :=
        enter_of_opens (M := M) hsound hpath hfresh.1.1 hopens hnew
      rw [hstore] at hs
      obtain ⟨hanswer, hsessions⟩ :=
        DavFront.dispatch_of_enter calls (hstore id) htried henter hs hm
      rw [← hmarked] at hanswer hsessions
      exact ⟨_, hanswer, hafter.serves hsessions hm⟩
    · intro hshut m hanswer
      cases henter : f.reg.enter C M spelt d (store id) pin with
      | mk g' r =>
      cases r with
      | ok token => exact hshut (opens_of_enter hpath henc henter)
      | error e =>
        have herror := DavFront.dispatch_of_enter_error calls (hstore id) htried henter
        rw [← hmarked] at herror
        cases hanswer.symm.trans herror
  -- a token is cached for the PIN of a session: it is used, and the PIN itself is not looked at
  · rw [not_or] at htried
    obtain ⟨entry, hs⟩ := Option.ne_none_iff_exists'.mp htried.1
    obtain ⟨token, hcached⟩ := Option.ne_none_iff_exists'.mp htried.2
    have hcondition : (∀ entry token, f.reg.sessions id = some entry →
        f.pins.get hash id pin = some token →
        (opens ↔ (clientMount entry token).isSome)) ↔
        (opens ↔ (clientMount entry token).isSome) := by
      constructor
      · intro h
        exact h entry token hs hcached
      · intro h entry' token' hs' hcached'
        obtain rfl := Option.some.inj (hs.symm.trans hs')
        obtain rfl := Option.some.inj (hcached.symm.trans hcached')
        exact h
    rw [hcondition]
    have hanswer : answered = _ :=
      (congrArg (fun b => f.dispatch C M spelt hash d (store id) b (some pin) calls) hmarked).trans
        (DavFront.dispatch_cached (hstore id) hs hcached)
    cases hm : clientMount entry token with
    -- the cached token is nobody's: 401, whatever the PIN opens
    | none =>
      rw [hm] at hanswer
      have herror : answered.2 = .error (.fault 401) := by rw [hanswer]
      simp only [herror, reduceCtorEq, false_and, exists_false, imp_false, ne_eq, not_false_eq_true,
        implies_true, and_true,
        Option.isSome_none, Bool.false_eq_true, iff_false]
    | some m =>
      rw [hm] at hanswer
      have hok : answered.2 = .ok m := by rw [hanswer]
      have hsessions : answered.1.reg.sessions id = some entry := by
        rw [hanswer]
        exact (congrFun DavFront.handle_sessions id).trans hs
      have hserves := hafter.serves hsessions hm
      constructor
      · intro h
        refine iff_of_true ?_ rfl
        by_contra hshut
        exact h.2 hshut m hok
      · intro h
        refine ⟨fun _ => ⟨m, hok, hserves⟩, fun hshut => absurd (h.mpr rfl) hshut⟩

/-! ### A volume locked and unlocked again -/

/-- A request with the PIN 7; the draws are numbered from `n`. -/
def withPin (n : ℕ) (token : UInt8) : DavAction :=
  .dav "v" ⟨.counting n, .counting (n + 4), .counting (n + 8), [token]⟩ (some [7]) []

/-- One request, which unlocks the volume. -/
def unlockedOnce : List DavAction := [withPin 0 1]

/-- The volume unlocked by a request, locked, and unlocked by another client. -/
def relocked : List DavAction :=
  [withPin 0 1, .api (callBy 20 0 .lock), .api (callBy 40 2 (.unlock (some [7])))]

def emptyFront : DavFront := { reg := { files := fun _ => {} } }

theorem emptyFront_fresh : emptyFront.Fresh Crypto.xorStream Msgpack.refusing :=
  ⟨⟨fun _ => GuardedRuns.Run.refl _, fun _ => rfl, fun _ => rfl, fun _ => rfl⟩, fun _ => rfl⟩

/-- The state after actions of one volume on the byte cipher. -/
def frontAfter (actions : List DavAction) : DavFront :=
  actions.foldl (davStep Crypto.xorStream Msgpack.refusing (fun _ => none)
    (fun p => p) oneVolume (fun _ => true)) emptyFront

/-- The volume of these runs, with its key under the PIN 7. -/
theorem frontAfter_encrypted {actions : List DavAction}
    (hname : resolveVolume (fun _ => none) ((frontAfter actions).reg.files "vol.db").db "vol" =
      some 0)
    (hmode : (((frontAfter actions).reg.files "vol.db").db.volume? 0).map VolumeRow.encMode =
      some .convergent) :
    ((frontAfter actions).reg.files "vol.db").Encrypted (fun _ => none) "vol" := by
  obtain ⟨row, hrow, hconvergent⟩ := Option.map_eq_some_iff.mp hmode
  refine ⟨0, row, hname, hrow, ?_⟩
  rw [hconvergent]
  decide

theorem frontAfter_opens {actions : List DavAction}
    (hguards : GuardedRuns.Guards
      (davStep Crypto.xorStream Msgpack.refusing (fun _ => none)
        (fun p => p) oneVolume (fun _ => true))
      (fun f a => a.Fresh f) emptyFront actions)
    (hname : resolveVolume (fun _ => none) ((frontAfter actions).reg.files "vol.db").db "vol" =
      some 0)
    (hmode : (((frontAfter actions).reg.files "vol.db").db.volume? 0).map VolumeRow.encMode =
      some .convergent)
    (hpin : ((frontAfter actions).reg.files "vol.db").pins 0 = [7]) :
    ((frontAfter actions).reg.files "vol.db").Opens Crypto.xorStream (fun _ => none) "vol" [7] := by
  have hheld := Held.reached xorStream_authentic (fun _ => rfl) emptyFront_fresh
      (GuardedRuns.Run.foldl hguards)
  obtain ⟨w, hreg, hw⟩ := hheld
  have hkeyed : ((frontAfter actions).reg.files "vol.db").Keyed Crypto.xorStream := by
    rw [frontAfter, ← hreg]
    exact hw.keyed "vol.db"
  obtain ⟨row, hrow, hconvergent⟩ := Option.map_eq_some_iff.mp hmode
  rw [← hpin]
  apply Sys.Encrypted.opens_own hkeyed hname hrow
  rw [hconvergent]
  decide

/-- Once unlocked by a request, the volume serves the next one with the same PIN. -/
theorem dav_answers_pin_unlockedOnce :
    ∃ m, ((frontAfter unlockedOnce).dispatch Crypto.xorStream Msgpack.refusing (fun _ => none)
      (fun p => p)
        ⟨.counting 60, .counting 64, .counting 68, [3]⟩ (oneVolume "v") true (some [7]) []).2 =
          .ok m := by
  have hguards : GuardedRuns.Guards
      (davStep Crypto.xorStream Msgpack.refusing (fun _ => none)
        (fun p => p) oneVolume (fun _ => true))
      (fun f a => a.Fresh f) emptyFront unlockedOnce := by
    decide +kernel
  have hname : resolveVolume (fun _ => none) ((frontAfter unlockedOnce).reg.files "vol.db").db
      "vol" = some 0 := by decide +kernel
  have hmode : (((frontAfter unlockedOnce).reg.files "vol.db").db.volume? 0).map VolumeRow.encMode =
      some .convergent := by
    decide +kernel
  have hopens := frontAfter_opens hguards hname hmode (by decide +kernel)
  have hmarked : (fun _ : String => true) "v" = true := rfl
  have hfresh : (DavAction.dav "v" ⟨.counting 60, .counting 64,
      .counting 68, [3]⟩ (some [7]) []).Fresh (frontAfter unlockedOnce) := by
    decide +kernel
  have hiff := dav_answers_pin_iff xorStream_authentic (fun _ => rfl) emptyFront_fresh
      (GuardedRuns.Run.foldl hguards) hmarked
    (frontAfter_encrypted hname hmode) hfresh (by decide +kernel)
  have hclient : ∀ entry ∈ (frontAfter unlockedOnce).reg.sessions "v",
      ∀ token ∈ (frontAfter unlockedOnce).pins.get (fun p => p) "v" [7],
      (clientMount entry token).isSome := by
    decide +kernel
  obtain ⟨m, hanswer, -⟩ :=
    (hiff.mpr (fun entry token hs hcached => iff_of_true hopens (hclient entry hs token hcached))).1
      hopens
  exact ⟨m, hanswer⟩

/-- Locked and unlocked again by another client, the volume answers its own PIN with a
401. -/
theorem dav_refuses_right_pin :
    GuardedRuns.Run (davStep Crypto.xorStream Msgpack.refusing (fun _ => none)
      (fun p => p) oneVolume (fun _ => true))
        (fun f a => a.Fresh f) emptyFront (frontAfter relocked) ∧
      ((frontAfter relocked).reg.files "vol.db").Opens Crypto.xorStream (fun _ => none) "vol" [7] ∧
        ((frontAfter relocked).dispatch Crypto.xorStream Msgpack.refusing (fun _ => none)
          (fun p => p)
          ⟨.counting 60, .counting 64, .counting 68, [3]⟩ (oneVolume "v") true (some [7]) []).2 =
            .error (.fault 401) := by
  have hguards : GuardedRuns.Guards
      (davStep Crypto.xorStream Msgpack.refusing (fun _ => none)
        (fun p => p) oneVolume (fun _ => true))
      (fun f a => a.Fresh f) emptyFront relocked := by
    decide +kernel
  refine ⟨GuardedRuns.Run.foldl hguards, ?_, ?_⟩
  · apply frontAfter_opens hguards
    · decide +kernel
    · decide +kernel
    · decide +kernel
  · decide +kernel

end Aloelite
