import Aloelite.SessionCalls

/-! The registry and its callers, and what it upholds: a connection keeps the cipher of its volume
while a client is left on it, and a client's mount is valid until the client leaves. -/
namespace Aloelite

open Fallible KeyedRows

variable {C : Crypto} {M : Msgpack} {spelt : String → Option VolumeId} {s s' : Sys}
  {c c' : ConnId} {name : String} {v : VolumeId} {m : MountId} {row : VolumeRow}

/-! ### A connection and its clients -/

/-- The mount is live in the engine and does not lapse. -/
def Db.Lasting (db : Db) (v : VolumeId) (m : MountId) : Prop :=
  ∃ r, db.mount? m = some r ∧ r.state ≠ .unmounted ∧ r.expiresAt = none ∧ r.volumeId = v

theorem Db.Lasting.valid {db : Db} (h : db.Lasting v m) (t : Int) :
    (db.validMount? t m).isSome := by
  obtain ⟨r, hr, hstate, hexp, -⟩ := h
  apply Option.isSome_iff_exists.mpr
  refine ⟨r, validMount?_eq_some.mpr ⟨hr, ?_, ?_⟩⟩
  · exact hstate
  · rw [hexp]
    rfl

theorem Db.Lasting.not_gone {db : Db} (h : db.Lasting v m) : ¬ db.Gone m := by
  intro hgone
  obtain ⟨r, hr, hstate, -⟩ := h
  obtain ⟨r', hr', hstate'⟩ := hgone
  obtain rfl := Option.some.inj (hr.symm.trans hr')
  exact hstate hstate'

/-- The connection serves the volume of a name to its clients. -/
structure Serving (C : Crypto) (spelt : String → Option VolumeId) (s : Sys) (c : ConnId)
    (name : String) (clients : List (Token × MountId)) (v : VolumeId) (row : VolumeRow) : Prop where
  named : resolveVolume spelt s.db name = some v
  volume : s.db.volume? v = some row
  cipher : (s.conns c).cipher = Cipher.ofVolume C (s.keys v) v row.encMode
  live : ∀ p ∈ clients, s.db.Lasting v p.2

variable {clients : List (Token × MountId)}

theorem Serving.extends {ms : List MountId} (h : Serving C spelt s c name clients v row)
    (hext : Extends C spelt c' ms s s') (hcipher : (s'.conns c).cipher = (s.conns c).cipher)
    {left : List (Token × MountId)} (hleft : ∀ p ∈ left, p ∈ clients) (hms : ∀ p ∈ left, p.2 ∉ ms) :
    Serving C spelt s' c name left v row := by
  obtain ⟨hvolume, hkey⟩ := hext.volumes v row h.volume
  refine ⟨hext.named name v h.named, hvolume, ?_, ?_⟩
  · rw [hcipher, hkey]
    exact h.cipher
  · intro p hp
    obtain ⟨r, hr, hstate, hexp, hvol⟩ := h.live p (hleft p hp)
    exact ⟨r, hext.mounts p.2 r (hms p hp) hr, hstate, hexp, hvol⟩

/-! ### The registry and its callers -/

/-- The registry with what its callers know of each volume: the clients attached with the
mounts made for them, and the mounts of those that left. -/
structure Attended where
  reg : DirectSessionRegistry
  attached : String → List (Token × MountId) := fun _ => []
  left : String → List MountId := fun _ => []

/-- A call on a volume, with what it takes from outside. -/
structure RegistryLabel where
  id : String
  draws : Draws
  call : RegistryCall

/-- The mount made last. -/
def Sys.newestMount (s : Sys) : List MountId := ((s.db.mounts.getLast?).map MountRow.mountId).toList

variable (C M spelt) in
/-- A call, and what its reply tells the callers. The mount of a new client is the one
made last. -/
def attend (store : String → VolumeRecord) (w : Attended) (l : RegistryLabel) : Attended :=
  let r := l.call.run C M spelt l.draws (store l.id) w.reg
  let w : Attended := { w with reg := r.1 }
  match l.call, r.2 with
  | .detach token, .ok _ =>
    { w with
      attached := Function.update w.attached l.id ((w.attached l.id).filter (fun p => p.1 ≠ token))
      left := Function.update w.left l.id
        (w.left l.id ++ ((w.attached l.id).filter (fun p => p.1 = token)).map Prod.snd) }
  | .lock, .ok _ =>
    { w with
      attached := Function.update w.attached l.id []
      left := Function.update w.left l.id (w.left l.id ++ (w.attached l.id).map Prod.snd) }
  | _, .ok (.token t) =>
    { w with
      attached := Function.update w.attached l.id
        (w.attached l.id ++ ((r.1.files (store l.id).sqlitePath).newestMount).map (fun m => (t, m)))
          }
  | _, _ => w

/-- The token drawn is not one that is out. -/
def RegistryLabel.Fresh (w : Attended) (l : RegistryLabel) : Prop :=
  l.draws.token ≠ [] ∧ ∀ entry ∈ w.reg.sessions l.id, l.draws.token ∉ entry.clients.map Prod.fst

instance (w : Attended) (l : RegistryLabel) : Decidable (l.Fresh w) :=
  inferInstanceAs (Decidable (_ ∧ ∀ entry ∈ w.reg.sessions l.id, _))

/-- The first client is not the one that leaves, or leaves as the last. -/
def RegistryLabel.KeepsPrimary (w : Attended) : RegistryLabel → Prop
  | ⟨id, _, .detach token⟩ =>
    ∀ entry ∈ w.reg.sessions id, token = entry.primaryToken → entry.clients.length = 1
  | _ => True

instance (w : Attended) : ∀ l : RegistryLabel, Decidable (l.KeepsPrimary w)
  | ⟨id, _, .detach token⟩ =>
    inferInstanceAs (Decidable (∀ entry ∈ w.reg.sessions id, token = entry.primaryToken →
      entry.clients.length = 1))
  | ⟨_, _, .unlock _⟩ | ⟨_, _, .attach _⟩ | ⟨_, _, .lock⟩ | ⟨_, _, .session _⟩ => isTrue trivial

/-- The mount is good in the engine, at any time. -/
def Sys.Valid (s : Sys) (m : MountId) : Prop := ∀ t, (s.db.validMount? t m).isSome

/-- What the frontends are promised of an unlocked volume. -/
structure Usable (C : Crypto) (spelt : String → Option VolumeId) (store : String → VolumeRecord)
    (w : Attended) (id : String) (entry : DirectSession) : Prop where
  shared : ∃ m, w.reg.session id none = .ok m ∧ (w.reg.files (store id).sqlitePath).Valid m
  own : ∀ t m, (t, m) ∈ w.attached id →
    w.reg.session id (some (some t)) = .ok m ∧ (w.reg.files (store id).sqlitePath).Valid m
  only : ∀ token m, w.reg.session id (some token) = .ok m → ∃ t, token = some t ∧
    (t, m) ∈ w.attached id
  never : ∀ token m, w.reg.session id token = .ok m → m ∉ w.left id
  cipher : ∃ v row, resolveVolume spelt (w.reg.files (store id).sqlitePath).db (store id).name =
    some v ∧
    (w.reg.files (store id).sqlitePath).db.volume? v = some row ∧
      ((w.reg.files (store id).sqlitePath).conns entry.conn).cipher =
        Cipher.ofVolume C ((w.reg.files (store id).sqlitePath).keys v) v row.encMode

/-! ### The invariant -/

/-- An open volume: its clients with their mounts, its connection. -/
structure Upheld.Open (C : Crypto) (spelt : String → Option VolumeId)
    (store : String → VolumeRecord) (w : Attended) (id : String) (entry : DirectSession) :
    Prop where
  path : entry.path = (store id).sqlitePath
  conn : entry.conn < w.reg.opened
  clients : entry.clients = w.attached id
  tokens : (entry.clients.map Prod.fst).Nodup
  nonempty : ∀ p ∈ entry.clients, p.1 ≠ []
  mounts : (entry.clients.map Prod.snd).Nodup
  serving : ∃ v row,
    Serving C spelt (w.reg.files entry.path) entry.conn (store id).name entry.clients v row

structure Upheld (C : Crypto) (spelt : String → Option VolumeId) (store : String → VolumeRecord)
    (w : Attended) : Prop where
  sound : ∀ path, (w.reg.files path).db.Sound
  keyed : ∀ path, (w.reg.files path).Keyed C
  unlocked : ∀ id entry, w.reg.sessions id = some entry → Upheld.Open C spelt store w id entry
  locked : ∀ id, w.reg.sessions id = none → w.attached id = []
  apart : ∀ id id' e e', w.reg.sessions id = some e → w.reg.sessions id' = some e' → id ≠ id' →
    e.conn ≠ e'.conn ∧ (e.path = e'.path → ∀ p ∈ e.clients, p.2 ∉ e'.clients.map Prod.snd)
  gone : ∀ id, ∀ m ∈ w.left id, (w.reg.files (store id).sqlitePath).db.Gone m

/-- The primary mount is that of a client. -/
def DirectSessionRegistry.HoldsPrimary (g : DirectSessionRegistry) : Prop :=
  ∀ id entry, g.sessions id = some entry → (entry.primaryToken, entry.mount) ∈ entry.clients

open DirectSessionRegistry

variable {store : String → VolumeRecord} {w : Attended} {id : String} {entry : DirectSession}
  {token : Token}

theorem clientMount_mem (h : clientMount entry token = some m) : (token, m) ∈ entry.clients := by
  rw [clientMount] at h
  split at h
  · cases h
  · obtain ⟨p, hp, rfl⟩ := Option.map_eq_some_iff.mp h
    have hkey : p.1 = token := by simpa using List.find?_some hp
    rw [← hkey]
    exact List.mem_of_find?_eq_some hp

theorem clientMount_of_mem (htokens : (entry.clients.map Prod.fst).Nodup) (hne : token ≠ [])
    (h : (token, m) ∈ entry.clients) :
    clientMount entry token = some m := by
  have hfound : lookup Prod.fst entry.clients token = some (token, m) :=
    lookup_eq_some_of_mem htokens h
  rw [clientMount, if_neg hne]
  rw [lookup] at hfound
  rw [hfound, Option.map_some]

/-- The invariant is what the frontends are promised, and more. -/
theorem Upheld.usable (h : Upheld C spelt store w) (hprimary : w.reg.HoldsPrimary)
    (hopen : w.reg.sessions id = some entry) :
    Usable C spelt store w id entry := by
  have ho := h.unlocked id entry hopen
  have hp := hprimary id entry hopen
  obtain ⟨v, row, hserving⟩ := ho.serving
  rw [ho.path] at hserving
  have hvalid : ∀ p ∈ entry.clients, (w.reg.files (store id).sqlitePath).Valid p.2 :=
    fun p hp t => (hserving.live p hp).valid t
  have honly : ∀ t m, w.reg.session id (some t) = .ok m → ∃ t', t = some t' ∧
      (t', m) ∈ entry.clients := by
    intro t m hs
    simp only [session, hopen] at hs
    cases t with
    | none => cases hs
    | some t =>
      rw [Option.bind_some] at hs
      cases hm : clientMount entry t with
      | none =>
        rw [hm] at hs
        cases hs
      | some m' =>
        rw [hm] at hs
        obtain rfl := Except.ok.inj hs
        exact ⟨t, rfl, clientMount_mem hm⟩
  have hshared : w.reg.session id none = .ok entry.mount := by
    simp only [session, hopen]
  refine ⟨⟨entry.mount, hshared, hvalid _ hp⟩, ?_, ?_, ?_,
    ⟨v, row, hserving.named, hserving.volume, hserving.cipher⟩⟩
  · intro t m hm
    rw [← ho.clients] at hm
    refine ⟨?_, hvalid _ hm⟩
    simp only [session, hopen, Option.bind_some]
    rw [clientMount_of_mem ho.tokens (ho.nonempty _ hm) hm]
  · intro t m hs
    rw [← ho.clients]
    exact honly t m hs
  · intro t m hs hleft
    have hgone := h.gone id m hleft
    cases t with
    | none =>
      obtain rfl := Except.ok.inj (hshared.symm.trans hs)
      exact (hserving.live _ hp).not_gone hgone
    | some t =>
      obtain ⟨t', -, hmem⟩ := honly t m hs
      exact (hserving.live _ hmem).not_gone hgone

end Aloelite
