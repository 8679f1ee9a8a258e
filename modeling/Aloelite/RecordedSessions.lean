import Aloelite.Manager
import Aloelite.PinSessions
import Aloelite.VolumeRecords

/-! What the manager's records say of its sessions, and what the registry of direct sessions holds
after each of its calls. -/
namespace Aloelite

open KeyedRows Dicts

variable {C : Crypto} {M : Msgpack} {ids : IdSpelling} {hash : Bytes → Bytes}
  {cfg : ManagerConfig} {d : Draws} {vid : String}

/-! ### What a record says -/

namespace VolumeStore.VolumeRecord

variable (rec : VolumeStore.VolumeRecord)

/-- Mounted, and through the direct frontend. -/
def viaDirect : Bool := rec.mounted && rec.frontend = some "direct"

/-- Mounted in another way. -/
def viaFuse : Bool := rec.mounted && rec.frontend ≠ some "direct"

/-- The mountpoint of a FUSE mount. -/
def fuseAt : Option String := if rec.viaFuse then rec.mountpoint else none

end VolumeStore.VolumeRecord

/-- The directory a path leads to. -/
def place (path : String) : List String :=
  (splitPath path).foldl (fun dir seg =>
    if seg = "." then dir else if seg = ".." then dir.dropLast else dir ++ [seg]) []

namespace Manager

variable {m m' : Manager} {rec : VolumeStore.VolumeRecord} {reg : DirectSessionRegistry}
  {t : FuseThread}

/-- The threads that run. -/
def running (m : Manager) : List FuseThread := m.threads ++ m.lingering

/-- The records tell what there is, and no two volumes share a mountpoint. -/
structure Tidy (m : Manager) : Prop where
  fuse : ∀ vid mp, (∃ t ∈ m.running, t.volume = vid ∧ t.mountpoint = mp) ↔
    ∃ rec, m.store.get vid = some rec ∧ rec.viaFuse = true ∧ rec.mountpoint = some mp
  placed : ∀ vid rec, m.store.get vid = some rec → rec.viaFuse = true → rec.mountpoint.isSome
  direct : ∀ vid, m.isUnlocked vid = true ↔ ∃ rec, m.store.get vid = some rec ∧ rec.viaDirect = true
  apart : ∀ t ∈ m.running, ∀ t' ∈ m.running, place t.mountpoint = place t'.mountpoint →
    t.volume = t'.volume

/-- Neither a thread nor a session, whose connection has the key. -/
def Released (m : Manager) (vid : String) : Prop :=
  (∀ t ∈ m.running, t.volume ≠ vid) ∧ m.front.reg.sessions vid = none

end Manager

/-- What a call ends. -/
def ManagerCall.ended : ManagerCall → Option String
  | .delete vid _ => some vid
  | .unmount vid _ _ => some vid
  | _ => none

/-- The record of an access is not that of a FUSE mount. -/
def VolumeStore.VolumeRecord.Unthreaded (rec : VolumeStore.VolumeRecord) : Prop :=
  rec.viaFuse = false

instance (rec : VolumeStore.VolumeRecord) : Decidable rec.Unthreaded :=
  inferInstanceAs (Decidable (rec.viaFuse = false))

/-- The thread at the mountpoint of a record is its own, and ends in time. -/
def Manager.EndsOwn (cfg : ManagerConfig) (m : Manager) (rec : VolumeStore.VolumeRecord)
    (joined : Bool) : Prop :=
  rec.frontend ≠ some "direct" → ∀ t ∈ m.threads, t.mountpoint = Manager.resolveMountpoint cfg rec →
    t.volume = rec.id ∧ joined = true

instance (cfg : ManagerConfig) (m : Manager) (rec : VolumeStore.VolumeRecord) (joined : Bool) :
    Decidable (m.EndsOwn cfg rec joined) := by
  unfold Manager.EndsOwn
  infer_instance

/-- A FUSE mount comes up on a volume that is not mounted and at a place of its own, a direct
access is not of a volume with a FUSE mount, and the thread that is stopped is the volume's and
ends in time. -/
def ManagerCall.Apart (cfg : ManagerConfig) (m : Manager) : ManagerCall → Prop
  | .create _ w => m.store.get (w.volumes 0) = none
  | .upload u w => ∀ i < u.file.db.volumes.length, m.store.get (w.volumes i) = none
  | .delete vid joined => ∀ rec ∈ m.store.get vid, rec.mounted = true → m.EndsOwn cfg rec joined
  | .mount vid body start => ∀ rec ∈ m.store.get vid,
    if body.direct then body.persist = false → rec.Unthreaded
    else
      let mountpoint := Manager.mountpointFor cfg ((Manager.given body.mountName).getD rec.id)
      start ≠ .late false ∧
        (start = .ready → (∀ t ∈ m.threads, t.mountpoint ≠ mountpoint) →
          rec.mounted = false ∧ ∀ t ∈ m.threads, place t.mountpoint ≠ place mountpoint)
  | .unmount vid _ joined => ∀ rec ∈ m.store.get vid, m.EndsOwn cfg rec joined
  | .dav vid _ => ∀ rec ∈ (m.requireVolume vid).toOption, rec.Unthreaded
  | .s3 bucket mayAccess => ∀ rec ∈ m.store.list.find? (fun r => r.name = bucket),
    mayAccess = true → rec.encrypted = false → rec.Unthreaded
  | .work _ _ => True
  | .shutdown late => ∀ t ∈ m.threads, t.mountpoint ∉ late

/-! ### The registry -/

namespace DirectSessionRegistry

variable {g g' : DirectSessionRegistry} {record : VolumeRecord} {pin : Option Bytes} {token : Token}
  {e : ManagerError}

/-- There is a session for the volume. -/
def held (g : DirectSessionRegistry) (vid : String) : Bool := (g.sessions vid).isSome

variable (g) in
theorem held_setSession {path : String} {s : Sys} {entry : Option DirectSession} {id : String} :
    ((g.setFile path s).setSession id entry).held vid = if vid = id then entry.isSome
      else g.held vid := by
  simp only [held, setSession, Function.update_apply]
  by_cases h : vid = id
  · rw [if_pos h, if_pos h]
  · rw [if_neg h, if_neg h]
    rfl

theorem unlock_held_of_ok (h : g.unlock C M ids.read d record pin = (g', .ok token)) :
    g'.held vid = if vid = record.id then true else g.held vid := by
  rw [unlock] at h
  split at h
  · cases h
  · dsimp only at h
    split at h
    · cases h
    · obtain ⟨rfl, -⟩ := Prod.mk.inj h
      rw [held_setSession]
      rfl

theorem unlock_held_of_error (h : g.unlock C M ids.read d record pin = (g', .error e)) :
    g'.held vid = g.held vid := by
  rw [unlock] at h
  split at h
  · obtain ⟨rfl, -⟩ := Prod.mk.inj h
    rfl
  · dsimp only at h
    split at h
    · obtain ⟨rfl, -⟩ := Prod.mk.inj h
      rfl
    · cases h

theorem unlock_ne_alreadyMounted (hs : g.held record.id = false) :
    g.unlock C M ids.read d record pin ≠ (g', .error .alreadyMounted) := by
  intro h
  rw [unlock] at h
  split at h
  next hsome =>
    rw [held, hsome] at hs
    cases hs
  · dsimp only at h
    split at h
    next e _ =>
      have he := Except.error.inj (Prod.mk.inj h).2
      cases e <;> cases he
    · cases (Prod.mk.inj h).2

theorem attach_held_of_ok (h : g.attach C M ids.read d record pin = (g', .ok token)) :
    g'.held vid = if vid = record.id then true else g.held vid := by
  rw [attach] at h
  split at h
  · cases h
  · dsimp only at h
    split at h
    · cases h
    · obtain ⟨rfl, -⟩ := Prod.mk.inj h
      rw [held_setSession]
      rfl

theorem attach_held_of_error (h : g.attach C M ids.read d record pin = (g', .error e)) :
    g'.held vid = g.held vid := by
  rw [attach] at h
  split at h
  · obtain ⟨rfl, -⟩ := Prod.mk.inj h
    rfl
  · dsimp only at h
    split at h
    · obtain ⟨rfl, -⟩ := Prod.mk.inj h
      rfl
    · cases h

theorem enter_held_of_ok {pin : Bytes} (h : g.enter C M ids.read d record pin = (g', .ok token)) :
    g'.held vid = if vid = record.id then true else g.held vid := by
  rw [enter] at h
  split at h
  · exact attach_held_of_ok h
  · exact unlock_held_of_ok h

theorem enter_held_of_error {pin : Bytes} (h : g.enter C M ids.read d record pin = (g', .error e)) :
    g'.held vid = g.held vid := by
  rw [enter] at h
  split at h
  · exact attach_held_of_error h
  · exact unlock_held_of_error h

theorem lock_held (h : g.lock C M d record = (g', .ok ())) :
    g'.held vid = if vid = record.id then false else g.held vid := by
  rw [lock] at h
  split at h
  · cases h
  · obtain ⟨rfl, -⟩ := Prod.mk.inj h
    rw [held_setSession]
    rfl

theorem lock_of_error (h : g.lock C M d record = (g', .error e)) :
    g' = g ∧ g.held record.id = false := by
  rw [lock] at h
  split at h
  next hs =>
    obtain ⟨rfl, -⟩ := Prod.mk.inj h
    exact ⟨rfl, by rw [held, hs]; rfl⟩
  · cases h

theorem detach_held_of_last (h : g.detach C M d record token = (g', .ok true)) :
    g'.held vid = if vid = record.id then false else g.held vid := by
  rw [detach] at h
  split at h
  · cases h
  · dsimp only at h
    split at h
    · cases h
    · split at h
      · obtain ⟨rfl, -⟩ := Prod.mk.inj h
        rw [held_setSession]
        rfl
      · cases (Prod.mk.inj h).2

theorem detach_held_of_others (h : g.detach C M d record token = (g', .ok false)) :
    g'.held vid = g.held vid := by
  rw [detach] at h
  split at h
  · cases h
  next hs =>
    dsimp only at h
    split at h
    · cases h
    · split at h
      · cases (Prod.mk.inj h).2
      · obtain ⟨rfl, -⟩ := Prod.mk.inj h
        rw [held_setSession]
        by_cases hv : vid = record.id
        · rw [if_pos hv, hv, held, hs]
          rfl
        · rw [if_neg hv]

theorem detach_held_of_error (h : g.detach C M d record token = (g', .error e)) : g' = g := by
  rw [detach] at h
  split at h
  · obtain ⟨rfl, -⟩ := Prod.mk.inj h
    rfl
  · dsimp only at h
    split at h
    · obtain ⟨rfl, -⟩ := Prod.mk.inj h
      rfl
    · split at h
      · cases (Prod.mk.inj h).2
      · cases (Prod.mk.inj h).2

end DirectSessionRegistry

namespace DavFront

open DirectSessionRegistry

variable {f f' : DavFront} {record : VolumeRecord} {pin : Option Bytes}

theorem provePin_held {pin : Bytes} {r : Except DavRefusal (Option Token)}
    (h : f.provePin C M ids.read hash d record pin = (f', r)) :
    f'.reg.held vid = if vid = record.id ∧ r.toBool = true then true else f.reg.held vid := by
  rw [provePin_eq] at h
  cases henter : f.reg.enter C M ids.read d record pin with
  | mk reg r' =>
  rw [henter] at h
  cases r' with
  | ok token =>
    obtain ⟨rfl, rfl⟩ := Prod.mk.inj h
    simpa [Except.toBool] using enter_held_of_ok henter
  | error e =>
    obtain ⟨rfl, rfl⟩ := Prod.mk.inj h
    simpa [Except.toBool] using enter_held_of_error henter

/-- A token is handed out in a session. -/
theorem sessionToken_held {encrypted : Bool} {r : Except DavRefusal (Option Token)}
    (h : f.sessionToken C M ids.read hash d record encrypted pin = (f', r)) :
    f'.reg.held vid = if vid = record.id ∧ r.toBool = true then true else f.reg.held vid := by
  have hthere : f.reg.held record.id = true → f.reg.held vid = if vid = record.id then true
      else f.reg.held vid := by
    intro hheld
    by_cases hv : vid = record.id
    · rw [if_pos hv, hv, hheld]
    · rw [if_neg hv]
  cases encrypted with
  | true =>
    cases pin with
    | none =>
      obtain ⟨rfl, rfl⟩ := Prod.mk.inj h
      simp [Except.toBool]
    | some pin =>
      rw [sessionToken_encrypted] at h
      split at h
      next hs =>
        obtain ⟨rfl, rfl⟩ := Prod.mk.inj h
        simpa [Except.toBool] using hthere (by rw [held, hs]; rfl)
      · exact provePin_held (f := { f with pins := f.pins.forget record.id }) h
      · exact provePin_held h
  | false =>
    rw [sessionToken.eq_def, if_neg (by decide)] at h
    split at h
    next hs =>
      obtain ⟨rfl, rfl⟩ := Prod.mk.inj h
      simpa [Except.toBool] using hthere hs
    next hs =>
      split at h
      next heq =>
        obtain ⟨rfl, rfl⟩ := Prod.mk.inj h
        simpa [Except.toBool] using unlock_held_of_ok heq
      next heq =>
        have hclosed : f.reg.held record.id = false := Bool.eq_false_iff.mpr hs
        exact absurd heq (unlock_ne_alreadyMounted hclosed)
      next heq =>
        obtain ⟨rfl, rfl⟩ := Prod.mk.inj h
        simpa [Except.toBool] using unlock_held_of_error heq

end DavFront

end Aloelite
