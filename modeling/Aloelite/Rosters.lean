import Aloelite.ManagerSessions

/-! Which volume of its file a name opens. A record of the manager has the volume's name and not
its id; names are looked up again at each unlock and each FUSE mount, and no engine call but the
making of a volume changes what they lead to. -/
namespace Aloelite

open KeyedRows Dicts Fallible

variable {C : Crypto} {M : Msgpack} {ids : IdSpelling} {d : Draws} {E : Env} {s s' s'' : Sys}
  {c : ConnId} {op : Op} {name : String} {v : VolumeId} {pin : Option Bytes} {db : Db}

/-! ### Names in a file -/

/-- The volumes of a file, with their names. -/
def Db.roster (db : Db) : List (VolumeId × Option String) :=
  db.volumes.map (fun v => (v.volumeId, v.name))

/-- Every volume has a name of its own, which is not how some volume's id is written. -/
structure WellNamed (ids : IdSpelling) (roster : List (VolumeId × Option String)) : Prop where
  named : ∀ p ∈ roster, ∃ name, name ≠ "" ∧ p.2 = some name
  distinct : (roster.map Prod.snd).Nodup
  unspelt : ∀ p ∈ roster, ∀ q ∈ roster, p.2 ≠ some (ids.text q.1)

theorem WellNamed.nil : WellNamed ids [] := by
  refine ⟨?_, List.nodup_nil, ?_⟩
  · intro p hp
    cases hp
  · intro p hp
    cases hp

theorem mem_roster : (v, some name) ∈ db.roster ↔ ∃ row ∈ db.volumes, row.volumeId = v ∧ row.name =
    some name := by
  simp [Db.roster]

/-- The volumes of a name, in a file where no two have the same. -/
theorem WellNamed.filter_name (h : WellNamed ids db.roster) (hmem : (v, some name) ∈ db.roster) :
    ∃ row, db.volumes.filter (fun r => r.name = some name) = [row] ∧ row.volumeId = v := by
  obtain ⟨row, hrow, hid, hname⟩ := mem_roster.mp hmem
  have hdistinct : (db.volumes.map VolumeRow.name).Nodup := by
    have hnames := h.distinct
    rw [Db.roster, List.map_map] at hnames
    exact hnames
  refine ⟨row, ?_, hid⟩
  have hsame : db.volumes.filter (fun r => r.name = some name) =
      db.volumes.filter (fun r => r = row) := by
    apply List.filter_congr
    intro r hr
    rw [decide_eq_decide]
    constructor
    · intro heq
      exact List.inj_on_of_nodup_map hdistinct hr hrow (heq.trans hname.symm)
    · intro heq
      rw [heq]
      exact hname
  have hnodup : db.volumes.Nodup := hdistinct.of_map
  rw [hsame, List.filter_eq, List.count_eq_one_of_mem hnodup hrow]
  rfl

theorem WellNamed.resolveVolume (h : WellNamed ids db.roster) (hmem : (v, some name) ∈ db.roster) :
    resolveVolume ids.read db name = some v := by
  obtain ⟨row, hrow, hid⟩ := h.filter_name hmem
  rw [Aloelite.resolveVolume, resolveVolumeName, hrow]
  exact congrArg some hid

theorem WellNamed.find (h : WellNamed ids db.roster) (hmem : (v, some name) ∈ db.roster) :
    ∃ row, db.volumes.find? (fun r => r.name = some name) = some row ∧ row.volumeId = v := by
  obtain ⟨row, hrow, hid⟩ := h.filter_name hmem
  refine ⟨row, ?_, hid⟩
  rw [← List.head?_filter, hrow]
  rfl

/-- What an id is written as leads to its volume. -/
theorem WellNamed.resolveText (h : WellNamed ids db.roster) (hmem : (v, some name) ∈ db.roster) :
    Aloelite.resolveVolume ids.read db (ids.text v) = some v := by
  have hunnamed : resolveVolumeName db (ids.text v) = none := by
    rw [resolveVolumeName]
    have hnone : db.volumes.filter (fun r => r.name = some (ids.text v)) = [] := by
      apply List.filter_eq_nil_iff.mpr
      intro row hrow hname
      have hin : (row.volumeId, row.name) ∈ db.roster := List.mem_map_of_mem hrow
      exact h.unspelt _ hin _ hmem (of_decide_eq_true hname)
    rw [hnone]
    rfl
  obtain ⟨row, hrow, hid, -⟩ := mem_roster.mp hmem
  have hthere : (db.volume? v).isSome := by
    obtain ⟨r, hr⟩ : ∃ r, lookup VolumeRow.volumeId db.volumes row.volumeId = some r :=
      lookup_isSome_of_mem hrow
    rw [Db.volume?, ← hid, hr]
    rfl
  rw [Aloelite.resolveVolume, hunnamed, (ids.read_eq_some (ids.text v) v).mpr rfl]
  simp [hthere]

/-! ### Engine calls that make no volume -/

/-- A file that was sound stays so, with the volumes it had. -/
def KeepsRoster (s s' : Sys) : Prop := s.db.Sound → s'.db.Sound ∧ s'.db.roster = s.db.roster

theorem KeepsRoster.refl (s : Sys) : KeepsRoster s s := fun hs => ⟨hs, rfl⟩

theorem KeepsRoster.trans (h : KeepsRoster s s') (h' : KeepsRoster s' s'') : KeepsRoster s s'' := by
  intro hs
  obtain ⟨hsound, hroster⟩ := h hs
  obtain ⟨hsound', hroster'⟩ := h' hsound
  exact ⟨hsound', hroster'.trans hroster⟩

/-- The call makes a volume. -/
def Op.founds : Op → Bool
  | .createVolume .. => true
  | _ => false

theorem changePin_roster {oldPin newPin : Bytes} {tx' : Tx}
    (h : changePin C E s.begin v oldPin newPin = .ok tx') :
    tx'.db.roster = s.db.roster := by
  simp only [changePin, bind_eq_ok, orRaise_eq_ok, refuse_eq_ok] at h
  obtain ⟨old, hold, root, hroot, u, hmode, key, hkey, hrun⟩ := h
  obtain ⟨db₁, hexec, rfl⟩ := Tx.run_ok.mp hrun
  obtain rfl := Except.ok.inj hexec
  change (amend VolumeRow.volumeId s.db.volumes v _).map _ = s.db.volumes.map _
  rw [amend, List.map_map]
  apply List.map_congr_left
  intro row _
  by_cases hid : row.volumeId = v
  · simp [hid]
  · simp [hid]

theorem exec_keepsRoster (hop : op.founds = false) : KeepsRoster s (exec C M E s c op).1 := by
  intro hs
  refine ⟨step_sound (C := C) (M := M) (l := ⟨E, c, op⟩) hs, ?_⟩
  by_cases hkeys : op.keysVolumes
  · cases op with
    | createVolume name chunkSize pin mode => cases hop
    | changePin volume oldPin newPin =>
      cases hb : changePin C E s.begin volume oldPin newPin with
      | error e =>
        simp only [exec, hb]
        rfl
      | ok tx =>
        simp only [exec, hb]
        exact changePin_roster hb
    | _ => exact absurd hkeys id
  · rw [Db.roster, (exec_keepsKeys (M := M) (E := E) (c := c) hs hkeys).volumes]
    rfl

theorem steps_keepRoster {ls : List Label} (h : ∀ l ∈ ls, l.op.founds = false) :
    KeepsRoster s (ls.foldl (step C M) s) := by
  induction ls generalizing s with
  | nil => exact KeepsRoster.refl s
  | cons l ls ih =>
    have hstep : KeepsRoster s (step C M s l) :=
      exec_keepsRoster (C := C) (M := M) (E := l.env) (h l List.mem_cons_self)
    exact hstep.trans (ih (fun l' hl' => h l' (List.mem_cons_of_mem _ hl')))

theorem mountVolume_keepsRoster : KeepsRoster s (mountVolume C M d s c v pin).1 := by
  have hexec : KeepsRoster s
      (exec C M d.mount s c (.mount { volume := v, pin := pin, allowOverlap := true })).1 :=
    exec_keepsRoster rfl
  rw [mountVolume]
  split
  next heq =>
    rw [heq] at hexec
    exact hexec
  next heq =>
    rw [heq] at hexec
    exact hexec
  next heq =>
    rw [heq] at hexec
    exact hexec

/-! ### What a record's name opens -/

/-- A mount that comes of a call is one of the volume `v`, and no volume is made. -/
structure Opens (s s' : Sys) (v : VolumeId) (r : Except FsError MountId) : Prop where
  keeps : KeepsRoster s s'
  own : ∀ m, r = .ok m → ∃ row, s'.db.mount? m = some row ∧ row.volumeId = v

/-- The same of a file that is sound. -/
structure OpensOnly (s : Sys) (r : Sys × Except FsError MountId) (v : VolumeId) : Prop where
  roster : r.1.db.roster = s.db.roster
  own : ∀ m, r.2 = .ok m → ∃ row, r.1.db.mount? m = some row ∧ row.volumeId = v

theorem Opens.only {r : Sys × Except FsError MountId} (h : Opens s r.1 v r.2) (hs : s.db.Sound) :
    OpensOnly s r v :=
  ⟨(h.keeps hs).2, h.own⟩

theorem exec_mount_opens {ttlMs : Option Int} {overlap : Bool} {m : MountId}
    (h : exec C M E s c
      (.mount { volume := v, ttlMs := ttlMs, pin := pin, allowOverlap := overlap }) =
        (s', .ok (.mount m))) :
    ∃ row, s'.db.mount? m = some row ∧ row.volumeId = v := by
  simp only [exec] at h
  cases hb : Aloelite.mount C E s.begin
      { volume := v, ttlMs := ttlMs, pin := pin, allowOverlap := overlap } with
  | error e =>
    rw [hb] at h
    cases (Prod.mk.inj h).2
  | ok q =>
    obtain ⟨tx, mid, conn⟩ := q
    rw [hb] at h
    obtain ⟨rfl, hm⟩ := Prod.mk.inj h
    obtain rfl : mid = m := by injection Except.ok.inj hm
    obtain ⟨row, -, root, mrow, -, hnew, hid, hvol, -, -, hmounts⟩ := mount_opens hb
    refine ⟨mrow, ?_, hvol⟩
    change tx.db.mount? mid = some mrow
    rw [Db.mount?, hmounts, ← hid]
    exact lookup_append_self (hid ▸ hnew)

theorem mountVolume_opens :
    Opens s (mountVolume C M d s c v pin).1 v (mountVolume C M d s c v pin).2 := by
  refine ⟨mountVolume_keepsRoster, ?_⟩
  intro m hm
  rw [mountVolume] at hm ⊢
  split at hm
  next heq =>
    obtain rfl := Except.ok.inj hm
    exact exec_mount_opens heq
  · cases hm
  · cases hm

variable (pin) in
/-- `Aloelite.mount` under the name of a volume. -/
theorem fsMount_opens (h : WellNamed ids s.db.roster) (hmem : (v, some name) ∈ s.db.roster)
    (create : Bool) :
    Opens s (fsMount C M ids.read d s c name pin create).1 v
      (fsMount C M ids.read d s c name pin create).2 := by
  have hopen : fsMount C M ids.read d s c name pin create = mountVolume C M d s c v pin := by
    rw [fsMount, h.resolveVolume hmem]
  rw [hopen]
  exact mountVolume_opens

variable (pin) in
/-- `fuse_main` under the name of a volume. -/
theorem fuseMount_opens (h : WellNamed ids s.db.roster) (hmem : (v, some name) ∈ s.db.roster) :
    Opens s (fuseMount C M ids d s c name pin).1 v (fuseMount C M ids d s c name pin).2 := by
  obtain ⟨row, hfind, hid⟩ := h.find hmem
  have hfound : findOrCreateVolume C M d s c name pin = (s, .ok v) := by
    rw [findOrCreateVolume, hfind, ← hid]
  have hexec : KeepsRoster s
      (exec C M d.mount s c (.mount { volume := v, ttlMs := some 300000, pin := pin })).1 :=
    exec_keepsRoster rfl
  rw [fuseMount, hfound]
  simp only [h.resolveText hmem]
  split
  next heq =>
    rw [heq] at hexec
    refine ⟨hexec, ?_⟩
    intro m hm
    obtain rfl := Except.ok.inj hm
    exact exec_mount_opens heq
  next heq =>
    rw [heq] at hexec
    refine ⟨hexec, ?_⟩
    intro m hm
    cases hm
  next heq =>
    rw [heq] at hexec
    refine ⟨hexec, ?_⟩
    intro m hm
    cases hm

end Aloelite
