import Aloelite.Direct
import Aloelite.VolumeKeys
import Aloelite.Locks

/-! The engine calls of the registry: which mounts they add and end, and which cipher they leave a
connection with. -/
namespace Aloelite

open Fallible KeyedRows

variable {C : Crypto} {M : Msgpack} {spelt : String → Option VolumeId} {d : Draws} {s s' : Sys}
  {c c' : ConnId} {name name' : String} {v : VolumeId} {m : MountId} {pin : Option Bytes}
  {row : VolumeRow}

/-- The mount's row says so. -/
def Db.Gone (db : Db) (m : MountId) : Prop := ∃ r, db.mount? m = some r ∧ r.state = .unmounted

/-- What the calls on connection `c` leave of a file when the mounts `ms` go: the other
mounts, the volumes that were there with their keys, the other connections. -/
structure Extends (C : Crypto) (spelt : String → Option VolumeId) (c : ConnId) (ms : List MountId)
    (s s' : Sys) : Prop where
  sound : s'.db.Sound
  keyed : s'.Keyed C
  mounts : ∀ m r, m ∉ ms → s.db.mount? m = some r → s'.db.mount? m = some r
  gone : ∀ m ∈ ms, (s.db.mount? m).isSome → s'.db.Gone m
  stay : ∀ m, s.db.Gone m → s'.db.Gone m
  volumes : ∀ v r, s.db.volume? v = some r → s'.db.volume? v = some r ∧ s'.keys v = s.keys v
  named : ∀ name v, resolveVolume spelt s.db name = some v → resolveVolume spelt s'.db name = some v
  conns : ∀ c', c' ≠ c → s'.conns c' = s.conns c'

/-- A new client's mount. -/
structure MountedAnew (C : Crypto) (spelt : String → Option VolumeId) (s s' : Sys) (c : ConnId)
    (name : String) (m : MountId) (v : VolumeId) (row : VolumeRow) : Prop where
  fresh : s.db.mount? m = none
  named : resolveVolume spelt s'.db name = some v
  volume : s'.db.volume? v = some row
  mounted : ∃ r, s'.db.mount? m = some r ∧ r.state ≠ .unmounted ∧ r.expiresAt = none ∧ r.volumeId =
    v
  newest : (s'.db.mounts.getLast?).map MountRow.mountId = some m
  cipher : (s'.conns c).cipher = Cipher.ofVolume C (s'.keys v) v row.encMode

theorem Extends.refl (hs : s.db.Sound) (hk : s.Keyed C) : Extends C spelt c [] s s := by
  refine ⟨hs, hk, fun _ _ _ h => h, ?_, fun _ h => h, fun _ _ h => ⟨h, rfl⟩, fun _ _ h =>
    h, fun _ _ => rfl⟩
  intro m hm
  cases hm

theorem Extends.trans {s'' : Sys} {ms ms' : List MountId} (h : Extends C spelt c ms s s')
    (h' : Extends C spelt c ms' s' s'') :
    Extends C spelt c (ms ++ ms') s s'' := by
  refine ⟨h'.sound, h'.keyed, ?_, ?_, fun m hm => h'.stay m (h.stay m hm), ?_, fun n v hn =>
    h'.named n v (h.named n v hn), ?_⟩
  · intro m r hm hr
    rw [List.mem_append, not_or] at hm
    exact h'.mounts m r hm.2 (h.mounts m r hm.1 hr)
  · intro m hm hsome
    by_cases hfirst : m ∈ ms
    · exact h'.stay m (h.gone m hfirst hsome)
    · obtain ⟨r, hr⟩ := Option.isSome_iff_exists.mp hsome
      apply h'.gone m ((List.mem_append.mp hm).resolve_left hfirst)
      rw [h.mounts m r hfirst hr, Option.isSome_some]
  · intro v r hv
    obtain ⟨hv', hk⟩ := h.volumes v r hv
    obtain ⟨hv'', hk'⟩ := h'.volumes v r hv'
    exact ⟨hv'', hk'.trans hk⟩
  · intro c' hc
    exact (h'.conns c' hc).trans (h.conns c' hc)

/-- Nothing is unmounted. -/
theorem extends_of_mounts (hs : s'.db.Sound) (hk : s'.Keyed C)
    (hmounts : ∀ m r, s.db.mount? m = some r → s'.db.mount? m = some r)
    (hvolumes : ∀ v r, s.db.volume? v = some r → s'.db.volume? v = some r ∧ s'.keys v = s.keys v)
    (hnamed : ∀ name v, resolveVolume spelt s.db name = some v →
      resolveVolume spelt s'.db name = some v)
    (hconns : ∀ c', c' ≠ c → s'.conns c' = s.conns c') : Extends C spelt c [] s s' := by
  refine ⟨hs, hk, fun m r _ hr => hmounts m r hr, ?_, ?_, hvolumes, hnamed, hconns⟩
  · intro m hm
    cases hm
  · intro m hgone
    obtain ⟨r, hr, hstate⟩ := hgone
    exact ⟨r, hmounts m r hr, hstate⟩

theorem resolveVolume_congr {db db' : Db} (h : db'.volumes = db.volumes) (name : String) :
    resolveVolume spelt db' name = resolveVolume spelt db name := by
  rw [resolveVolume, resolveVolume, resolveVolumeName, resolveVolumeName, h]
  simp only [Db.volume?, h]

/-- The cipher a mount installs is the volume's own. -/
theorem unlockMount_cipher (hauth : C.Authentic) (hk : s.Keyed C) (hv : s.db.volume? v = some row)
    {root : NodeId} {conn : Conn} (h : unlockMount C row root m pin = .ok conn) :
    conn.cipher = Cipher.ofVolume C (s.keys v) v row.encMode := by
  have hid : row.volumeId = v := key_of_lookup hv
  have hsealed : ∀ mode, row.encMode = mode → mode ≠ .none → ∀ given key,
      unlockVolume C row root given = some key → Cipher.ofVolume C key row.volumeId mode =
      Cipher.ofVolume C (s.keys v) v mode := by
    intro mode hmode hne given key hkey
    rw [(hk v row hv (hmode ▸ hne)).unlock hauth hkey, hid]
  rw [unlockMount.eq_def] at h
  cases hmode : row.encMode with
  | none =>
    rw [hmode] at h
    cases pin with
    | none =>
      obtain rfl := Except.ok.inj h
      rfl
    | some p => cases h
  | convergent =>
    rw [hmode] at h
    cases pin with
    | none => cases h
    | some p =>
      simp only [bind_eq_ok, orRaise_eq_ok, pure_eq_ok] at h
      obtain ⟨key, hkey, rfl⟩ := h
      exact hsealed _ hmode (by decide) p key hkey
  | random =>
    rw [hmode] at h
    cases pin with
    | none => cases h
    | some p =>
      simp only [bind_eq_ok, orRaise_eq_ok, pure_eq_ok] at h
      obtain ⟨key, hkey, rfl⟩ := h
      exact hsealed _ hmode (by decide) p key hkey

/-- `mount` of the engine: the row it adds, and what it installs. -/
theorem mount_opens {E : Env} {tx : Tx} {args : MountArgs} {conn : Conn}
    (h : Aloelite.mount C E s.begin args = .ok (tx, m, conn)) :
    ∃ row, s.db.volume? args.volume = some row ∧ ∃ root r,
      unlockMount C row root m args.pin = .ok conn ∧
      s.db.mount? m = none ∧ r.mountId = m ∧ r.volumeId = args.volume ∧ r.state ≠ .unmounted ∧
        r.expiresAt = expiry E.now args.ttlMs ∧ tx.db.mounts = s.db.mounts ++ [r] := by
  simp only [Aloelite.mount, bind_eq_ok, pure_eq_ok, orRaise_eq_ok, Prod.mk.injEq] at h
  obtain ⟨row, hrow, root, -, anchor, -, u, -, tx₁, hcreate, conn', hconn, tx₂,
    hstate, rfl, rfl, rfl⟩ := h
  obtain ⟨db₁, hcreate', rfl⟩ := Tx.run_ok.mp hcreate
  obtain ⟨hnew, -, rfl⟩ := Db.createMount_ok hcreate'
  obtain ⟨db₂, hstate', rfl⟩ := Tx.run_ok.mp hstate
  obtain rfl := Except.ok.inj hstate'
  refine ⟨row, hrow, root,
    { mountId := E.uuid, volumeId := args.volume, mountPoint := anchor.node, state := .active
      expiresAt := expiry E.now args.ttlMs, access := args.access }, hconn, hnew, rfl, rfl,
      by simp, rfl, ?_⟩
  exact amend_append_fresh _ hnew

theorem mountVolume_cases (hauth : C.Authentic) (hs : s.db.Sound) (hk : s.Keyed C)
    (hname : resolveVolume spelt s.db name = some v) {r : Except FsError MountId}
    (h : mountVolume C M d s c v pin = (s', r)) :
    (∃ e, r = .error e ∧ s' = s) ∨
      ∃ m row, r = .ok m ∧ Extends C spelt c [] s s' ∧ MountedAnew C spelt s s' c name m v row := by
  have hsound : (exec C M d.mount s c
      (.mount { volume := v, pin := pin, allowOverlap := true })).1.db.Sound :=
    step_sound (l := ⟨d.mount, c, .mount { volume := v, pin := pin, allowOverlap := true }⟩) hs
  have hkeyed : (exec C M d.mount s c
      (.mount { volume := v, pin := pin, allowOverlap := true })).1.Keyed C :=
    exec_keyed hauth hs hk
  rw [mountVolume] at h
  cases hb : Aloelite.mount C d.mount s.begin { volume := v, pin := pin, allowOverlap := true } with
  | error e =>
    have hexec : exec C M d.mount s c (.mount { volume := v, pin := pin, allowOverlap := true }) =
        (s, .error e) := by
      simp only [exec, hb]
      rfl
    rw [hexec] at h
    obtain ⟨rfl, rfl⟩ := Prod.mk.inj h
    exact Or.inl ⟨e, rfl, rfl⟩
  | ok q =>
    obtain ⟨tx, mid, conn⟩ := q
    have hexec : exec C M d.mount s c (.mount { volume := v, pin := pin, allowOverlap := true }) =
        ((s.commit tx).setConn c conn, .ok (.mount mid)) := by
      simp only [exec, hb]
      rfl
    rw [hexec] at h hsound hkeyed
    obtain ⟨rfl, rfl⟩ := Prod.mk.inj h
    have hvolumes : tx.db.volumes = s.db.volumes := mount_volumes hb
    obtain ⟨row, hrow, root, mrow, hconn, hnew, hid, hvol, hstate, hexp, hmounts⟩ := mount_opens hb
    have hmid : tx.db.mount? mid = some mrow := by
      rw [Db.mount?, hmounts, ← hid]
      exact lookup_append_self (hid ▸ hnew)
    have hnamed : ∀ name v, resolveVolume spelt s.db name = some v →
        resolveVolume spelt tx.db name = some v := by
      intro name v hn
      rw [resolveVolume_congr hvolumes]
      exact hn
    have hvolume : ∀ v r, s.db.volume? v = some r → tx.db.volume? v = some r := by
      intro v r hr
      rw [Db.volume?, hvolumes]
      exact hr
    have hold : ∀ m r, s.db.mount? m = some r → tx.db.mount? m = some r := by
      intro m r hm
      rw [Db.mount?, hmounts]
      exact lookup_append_of_some hm _
    refine Or.inr ⟨mid, row, rfl,
      extends_of_mounts hsound hkeyed hold (fun v r hr => ⟨hvolume v r hr, rfl⟩) hnamed ?_,
      ⟨hnew, hnamed name v hname, hvolume v row hrow, ⟨mrow, hmid, hstate, hexp, hvol⟩, ?_, ?_⟩⟩
    · intro c' hc
      exact Function.update_of_ne hc _ _
    · change (tx.db.mounts.getLast?).map MountRow.mountId = some mid
      rw [hmounts, List.getLast?_append_cons, List.getLast?_singleton, Option.map_some, hid]
    · change (Function.update s.conns c conn c).cipher = _
      rw [Function.update_self]
      exact unlockMount_cipher hauth hk hrow hconn

theorem resolveVolumeName_eq_none {db : Db} : resolveVolumeName db name' = none ↔
    db.volumes.filter (fun v => v.name = some name') = [] := by
  rw [resolveVolumeName, Option.map_eq_none_iff]
  cases db.volumes.filter (fun v => v.name = some name') with
  | nil => simp [latestVolume]
  | cons v vs => simp [latestVolume]

/-- A volume of a new name is the one its name resolves to. -/
theorem resolveVolumeName_append {db db' : Db} {new : VolumeRow}
    (hvolumes : db'.volumes = db.volumes ++ [new])
    (hnew : new.name = some name' → resolveVolumeName db name' = none) :
    resolveVolumeName db' name' =
      if new.name = some name' then some new.volumeId else resolveVolumeName db name' := by
  rw [resolveVolumeName, hvolumes, List.filter_append]
  split
  next h =>
    rw [resolveVolumeName_eq_none.mp (hnew h), List.nil_append,
      List.filter_cons_of_pos (by simpa using h), List.filter_nil]
    rfl
  next h =>
    rw [List.filter_cons_of_neg (by simpa using h), List.filter_nil, List.append_nil]
    rfl

/-- A volume made under a name that is not there. -/
theorem createVolume_extends {E : Env} (hauth : C.Authentic) (hs : s.db.Sound) (hk : s.Keyed C)
    (hnone : resolveVolume spelt s.db name = none) {chunkSize : ℕ} {mode : EncMode}
    {r : Except FsError Reply}
    (h : exec C M E s c (.createVolume (some name) chunkSize pin mode) = (s', r)) :
    (∃ e, r = .error e ∧ s' = s) ∨
      ∃ v, r = .ok (.volume v) ∧ Extends C spelt c [] s s' ∧ s'.conns = s.conns ∧
        s'.db.mounts = s.db.mounts ∧
        resolveVolume spelt s'.db name = some v := by
  have hsound : (exec C M E s c (.createVolume (some name) chunkSize pin mode)).1.db.Sound :=
    step_sound (l := ⟨E, c, .createVolume (some name) chunkSize pin mode⟩) hs
  have hkeyed : (exec C M E s c (.createVolume (some name) chunkSize pin mode)).1.Keyed C :=
    exec_keyed hauth hs hk
  rw [h] at hsound hkeyed
  simp only [exec] at h
  cases hb : createVolume C E s.begin (some name) chunkSize pin mode with
  | error e =>
    rw [hb] at h
    obtain ⟨rfl, rfl⟩ := Prod.mk.inj h
    exact Or.inl ⟨e, rfl, rfl⟩
  | ok q =>
    obtain ⟨tx, v⟩ := q
    rw [hb] at h
    obtain ⟨rfl, rfl⟩ := Prod.mk.inj h
    obtain ⟨rfl, -, hfresh, -, hvolumes, hframe, -, -⟩ := createVolume_shape hb
    have hunnamed : resolveVolumeName s.db name = none := by
      rw [resolveVolume] at hnone
      cases hn : resolveVolumeName s.db name with
      | none => rfl
      | some w =>
        rw [hn] at hnone
        cases hnone
    have hvolume : ∀ w r, s.db.volume? w = some r → tx.db.volume? w = some r := by
      intro w r hr
      rw [Db.volume?, hvolumes]
      exact lookup_append_of_some hr _
    -- the name was free, so it leads to the new volume and every other name where it led
    have happend : ∀ other, resolveVolumeName tx.db other =
        if some name = some other then some E.uuid else resolveVolumeName s.db other := by
      intro other
      apply resolveVolumeName_append hvolumes
      intro heq
      obtain rfl : name = other := Option.some.inj heq
      exact hunnamed
    refine Or.inr ⟨_, rfl, extends_of_mounts hsound hkeyed ?_ ?_ ?_ (fun _ _ => rfl), rfl,
      hframe.mounts (by simp), ?_⟩
    · intro m r hm
      change tx.db.mount? m = some r
      rw [Db.mount?, hframe.mounts (by simp)]
      exact hm
    · intro w r hr
      refine ⟨hvolume w r hr, ?_⟩
      have hne : w ≠ E.uuid := by
        rintro rfl
        rw [show s.begin.db.volume? E.uuid = s.db.volume? E.uuid from rfl, hr] at hfresh
        cases hfresh
      change (if pin.isSome then Function.update s.keys E.uuid (E.random 0) else s.keys) w =
          s.keys w
      split
      · exact Function.update_of_ne hne _ _
      · rfl
    · intro name' w hw
      change resolveVolume spelt tx.db name' = some w
      rw [resolveVolume] at hw ⊢
      rw [happend]
      by_cases hsame : some name = some name'
      · obtain rfl : name = name' := Option.some.inj hsame
        rw [resolveVolume, hunnamed] at hnone
        rw [hunnamed] at hw
        rw [hw] at hnone
        cases hnone
      · rw [if_neg hsame]
        cases hn : resolveVolumeName s.db name' with
        | some w' =>
          rw [hn] at hw
          exact hw
        | none =>
          rw [hn] at hw
          obtain ⟨hspelt, hthere⟩ := Option.filter_eq_some_iff.mp hw
          obtain ⟨r, hr⟩ := Option.isSome_iff_exists.mp hthere
          apply Option.filter_eq_some_iff.mpr
          exact ⟨hspelt, by rw [hvolume w r hr, Option.isSome_some]⟩
    · change resolveVolume spelt tx.db name = some E.uuid
      rw [resolveVolume, happend, if_pos rfl]

/-- `Aloelite.mount`: a client's mount, or nothing on the connection. -/
theorem fsMount_cases (hauth : C.Authentic) (hs : s.db.Sound) (hk : s.Keyed C) {create : Bool}
    {r : Except FsError MountId} (h : fsMount C M spelt d s c name pin create = (s', r)) :
    (∃ e, r = .error e ∧ Extends C spelt c [] s s' ∧ (create = false → s' = s)) ∨
      ∃ m v row, r = .ok m ∧ Extends C spelt c [] s s' ∧
        MountedAnew C spelt s s' c name m v row := by
  rw [fsMount] at h
  cases hname : resolveVolume spelt s.db name with
  | some v =>
    rw [hname] at h
    rcases mountVolume_cases hauth hs hk hname h with ⟨e, rfl, rfl⟩ | ⟨m, row, rfl, hext, hopen⟩
    · exact Or.inl ⟨e, rfl, Extends.refl hs hk, fun _ => rfl⟩
    · exact Or.inr ⟨m, v, row, rfl, hext, hopen⟩
  | none =>
    rw [hname] at h
    cases create with
    | false =>
      obtain ⟨rfl, rfl⟩ := Prod.mk.inj h
      exact Or.inl ⟨_, rfl, Extends.refl hs hk, fun _ => rfl⟩
    | true =>
      simp only [if_true] at h
      cases hcreate : exec C M d.create s c (.createVolume (some name) 1048576 pin .convergent) with
      | mk s₁ r₁ =>
      rw [hcreate] at h
      rcases createVolume_extends hauth hs hk hname hcreate with ⟨e, rfl, rfl⟩ | ⟨v, rfl, hext,
        -, hmounts, hnamed⟩
      · obtain ⟨rfl, rfl⟩ := Prod.mk.inj h
        exact Or.inl ⟨e, rfl, Extends.refl hs hk, fun h => by cases h⟩
      · rcases mountVolume_cases hauth hext.sound hext.keyed hnamed h with ⟨e, rfl, rfl⟩ | ⟨m, row,
          rfl, hext', hopen⟩
        · exact Or.inl ⟨e, rfl, hext, fun h => by cases h⟩
        · refine Or.inr ⟨m, v, row, rfl, hext.trans hext', ?_, hopen.named, hopen.volume,
            hopen.mounted, hopen.newest, hopen.cipher⟩
          have hfresh := hopen.fresh
          rw [Db.mount?, hmounts] at hfresh
          exact hfresh

/-- An unmount takes its mount away. -/
theorem unmount_extends {E : Env} (hauth : C.Authentic) (hs : s.db.Sound) (hk : s.Keyed C) :
    Extends C spelt c [m] s (exec C M E s c (.unmount m)).1 := by
  have hsound : (exec C M E s c (.unmount m)).1.db.Sound :=
    step_sound (C := C) (M := M) (l := ⟨E, c, .unmount m⟩) hs
  have hkeyed : (exec C M E s c (.unmount m)).1.Keyed C := exec_keyed hauth hs hk
  have hmount : ∀ n, (exec C M E s c (.unmount m)).1.db.mount? n =
      if n = m then (s.db.mount? n).map (fun r => { r with state := .unmounted })
        else s.db.mount? n :=
    fun n => lookup_amend (fun _ => rfl)
  refine ⟨hsound, hkeyed, ?_, ?_, ?_, fun v r hr => ⟨hr, rfl⟩, fun name v hn => hn, ?_⟩
  · intro n r hn hr
    rw [hmount, if_neg (by simpa using hn)]
    exact hr
  · intro n hn hsome
    obtain ⟨r, hr⟩ := Option.isSome_iff_exists.mp hsome
    refine ⟨{ r with state := .unmounted }, ?_, rfl⟩
    rw [hmount, if_pos (by simpa using hn), hr, Option.map_some]
  · intro n hgone
    obtain ⟨r, hr, hstate⟩ := hgone
    rw [Db.Gone, hmount]
    split
    · exact ⟨_, by rw [hr, Option.map_some], rfl⟩
    · exact ⟨r, hr, hstate⟩
  · intro c' hc
    exact Function.update_of_ne hc _ _

theorem unmounts_extends {E : Env} (hauth : C.Authentic) (hs : s.db.Sound) (hk : s.Keyed C)
    (clients : List (Token × MountId)) :
    Extends C spelt c (clients.map Prod.snd) s
      (clients.foldl (fun s p => (exec C M E s c (.unmount p.2)).1) s) := by
  induction clients generalizing s with
  | nil => exact Extends.refl hs hk
  | cons p clients ih =>
    have hfirst : Extends C spelt c [p.2] s (exec C M E s c (.unmount p.2)).1 :=
      unmount_extends hauth hs hk
    exact hfirst.trans (ih hfirst.sound hfirst.keyed)

/-- What a call does to its own connection alone. -/
theorem Extends.setConn {ms : List MountId} (h : Extends C spelt c ms s s') (conn : Conn) :
    Extends C spelt c ms s (s'.setConn c conn) := by
  refine ⟨h.sound, h.keyed, h.mounts, h.gone, h.stay, h.volumes, h.named, ?_⟩
  intro c' hc
  rw [← h.conns c' hc]
  exact Function.update_of_ne hc _ _

end Aloelite
