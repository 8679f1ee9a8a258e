import Aloelite.RecordsBegun

/-! What the manager's records say of its sessions over any run. A record has one place for them,
which the FUSE mounts, the direct sessions and the two protocols write to without looking at
each other. -/
namespace Aloelite

open KeyedRows Dicts

variable {C : Crypto} {M : Msgpack} {ids : IdSpelling} {hash : Bytes → Bytes}
  {cfg : ManagerConfig} {d : Draws} {vid vid' : String}

namespace Manager

open DirectSessionRegistry

variable {m : Manager} {rec : VolumeStore.VolumeRecord} {reg : DirectSessionRegistry}
  {t : FuseThread} {joined : Bool} {mountpoint : String}

/-! ### Runs -/

/-- A manager that has just come up: nothing is mounted. -/
structure Started (m : Manager) : Prop where
  keyed : m.store.mem.Keyed
  referential : m.store.mem.Referential
  unmounted : ∀ rec ∈ m.store.list, rec.mounted = false ∧ rec.mountpoint = none
  threads : m.threads = []
  lingering : m.lingering = []
  sessions : ∀ vid, m.front.reg.sessions vid = none

theorem Honest.serve (h : m.Honest) (l : ManagerLabel) (happart : l.call.Apart cfg m) :
    (m.step C M ids hash cfg l).Honest ∧ ∀ vid, l.call.ended = some vid →
      (m.serve C M ids hash cfg l.draws l.call).2 = 204 →
        (m.step C M ids hash cfg l).Released vid := by
  obtain ⟨call, d⟩ := l
  cases call with
  | create body w => exact ⟨h.create happart, fun vid hend => by cases hend⟩
  | upload u w => exact ⟨h.upload happart, fun vid hend => by cases hend⟩
  | delete vid joined =>
    obtain ⟨hhonest, hreleased⟩ := h.delete (C := C) (M := M) (d := d) happart
    refine ⟨hhonest, ?_⟩
    intro vid' hend hstatus
    obtain rfl := Option.some.inj hend
    exact hreleased hstatus
  | mount vid body start =>
    refine ⟨?_, fun vid hend => by cases hend⟩
    change (m.mount C M ids cfg d vid body start).1.Honest
    rw [Manager.mount]
    split
    · exact h
    next rec hget =>
      obtain rfl := id_of_get hget
      have happart := happart rec hget
      split
      next hdirect =>
        rw [if_pos hdirect] at happart
        exact h.mountDirect hget happart
      next hfuse =>
        rw [if_neg hfuse] at happart
        exact h.mountFuse hget happart.1 happart.2
  | unmount vid client joined =>
    obtain ⟨hhonest, hreleased⟩ := h.unmount (C := C) (M := M) (d := d) happart
    refine ⟨hhonest, ?_⟩
    intro vid' hend hstatus
    obtain rfl := Option.some.inj hend
    exact hreleased hstatus
  | dav vid pin => exact ⟨h.dav happart, fun vid hend => by cases hend⟩
  | s3 bucket mayAccess => exact ⟨h.s3 happart, fun vid hend => by cases hend⟩
  | work path ls => exact ⟨h.congr ⟨rfl, rfl, rfl, fun _ => rfl⟩, fun vid hend => by cases hend⟩
  | shutdown late => exact ⟨h.shutdown happart, fun vid hend => by cases hend⟩

theorem Honest.reached {m₀ : Manager} (hstart : m₀.Started)
    (hrun : GuardedRuns.Run (Manager.step C M ids hash cfg) (fun m l => l.call.Apart cfg m) m₀ m) :
    m.Honest := by
  refine GuardedRuns.Run.invariant (P := Manager.Honest) ?_ hrun ?_
  · intro m l happart h
    exact (h.serve l happart).1
  · exact honest_of_unmounted hstart.keyed hstart.referential hstart.unmounted hstart.threads
      hstart.lingering hstart.sessions

end Manager

instance ManagerCall.decidableApart (cfg : ManagerConfig) (m : Manager) (call : ManagerCall) :
    Decidable (call.Apart cfg m) := by
  unfold ManagerCall.Apart
  split <;> infer_instance

/-- While each FUSE mount has its volume and its place to itself, the records tell what there
is, and what is answered to have ended has. -/
theorem manager_sessions_tidy {m₀ m : Manager} (hstart : m₀.Started)
    (hrun : GuardedRuns.Run (Manager.step C M ids hash cfg) (fun m l => l.call.Apart cfg m) m₀ m) :
    m.Tidy ∧ ∀ l, l.call.Apart cfg m → ∀ vid, l.call.ended = some vid →
      (m.serve C M ids hash cfg l.draws l.call).2 = 204 →
        (m.step C M ids hash cfg l).Released vid := by
  have hhonest := Manager.Honest.reached hstart hrun
  exact ⟨hhonest.tidy, fun l happart => (hhonest.serve l happart).2⟩

/-! ### One volume -/

/-- Ids written so that volumes begin alike. -/
def IdSpelling.tally : IdSpelling where
  text v := String.ofList (List.replicate (v + 32) 'i')
  read name := if String.ofList (List.replicate name.length 'i') = name ∧ 32 ≤ name.length then
    some (name.length - 32) else none
  read_eq_some name v := by
    constructor
    · intro h
      obtain ⟨⟨hname, hlength⟩, hv⟩ := Option.ite_none_right_eq_some.mp h
      have hv : name.length - 32 = v := Option.some.inj hv
      rw [← hv, Nat.sub_add_cancel hlength, hname]
    · intro h
      have hlength : name.length = v + 32 := by
        rw [← h, String.length_ofList, List.length_replicate]
      rw [if_pos ⟨by rw [hlength, h], by omega⟩, hlength, Nat.add_sub_cancel]

def homeManager : ManagerConfig :=
  { aloeliteRoot := "/data", mntDir := "/mnt/", cookieAuth := true }

/-- No records and no files. -/
def emptyManager : Manager := { front := { reg := { files := fun _ => {} } }, store := {} }

theorem emptyManager_started : emptyManager.Started := by
  refine ⟨⟨List.nodup_nil, List.nodup_nil⟩, ?_, ?_, rfl, rfl, fun _ => rfl⟩
  · intro v hv
    cases hv
  · intro rec hrec
    cases hrec

/-- A call with what it draws from `n` on. -/
def drawing (n : ℕ) (call : ManagerCall) : ManagerLabel :=
  ⟨call, ⟨.counting n, .counting (n + 4), .counting (n + 8), [1]⟩⟩

def newVolume (n : ℕ) (vid : String) : ManagerLabel :=
  drawing n (.create { name := "vol" } { volumes := fun _ => vid, fs := "fs", now := 0 })

/-- The volume is mounted by FUSE, then through WebDAV. -/
def fuseThenDav : List ManagerLabel :=
  [newVolume 0 "a", drawing 20 (.mount "a" { mountName := some "team" } .ready),
    drawing 40 (.unmount "a" {} true),
    drawing 60 (.dav "vol" none)]

/-- The same without the unmount. -/
def fuseAndDav : List ManagerLabel :=
  [newVolume 0 "a", drawing 20 (.mount "a" { mountName := some "team" } .ready),
    drawing 60 (.dav "vol" none)]

/-- The state after some calls. -/
def managed (ls : List ManagerLabel) : Manager :=
  ls.foldl (Manager.step Crypto.xorStream Msgpack.refusing IdSpelling.tally
    (fun p => p) homeManager) emptyManager

theorem manager_sessions_tidy_fuseThenDav :
    (managed fuseThenDav).Tidy ∧ (managed fuseThenDav).isUnlocked "a" = true ∧
      ((managed fuseThenDav).step Crypto.xorStream Msgpack.refusing IdSpelling.tally
        (fun p => p) homeManager
        (drawing 80 (.delete "a" true))).Released "a" := by
  have hguards : GuardedRuns.Guards
      (Manager.step Crypto.xorStream Msgpack.refusing IdSpelling.tally (fun p => p) homeManager)
      (fun m l => l.call.Apart homeManager m) emptyManager fuseThenDav := by
    decide +kernel
  obtain ⟨htidy, hended⟩ :=
    manager_sessions_tidy emptyManager_started (GuardedRuns.Run.foldl hguards)
  refine ⟨htidy, by decide +kernel, ?_⟩
  apply hended (drawing 80 (.delete "a" true)) (by decide +kernel) "a" rfl
  decide +kernel

/-- A WebDAV access of a volume with a FUSE mount takes its record over, and the thread outlives
a successful unmount. -/
theorem manager_loses_thread :
    let m := managed fuseAndDav
    let r := m.serve Crypto.xorStream Msgpack.refusing IdSpelling.tally (fun p => p) homeManager
      (drawing 80 (.unmount "a" {} true)).draws
      (.unmount "a" {} true)
    ¬ m.Tidy ∧ m.running.map FuseThread.volume = ["a"] ∧
      (m.store.get "a").map (fun rec => rec.frontend) = some (some "direct") ∧
      r.2 = 204 ∧ r.1.running.map FuseThread.volume = ["a"] ∧ ¬ r.1.Released "a" := by
  intro m r
  have hrunning : m.running.map FuseThread.volume = ["a"] := by decide +kernel
  have hfrontend : (m.store.get "a").map (fun rec => rec.frontend) = some (some "direct") := by
    decide +kernel
  have hafter : r.1.running.map FuseThread.volume = ["a"] := by decide +kernel
  refine ⟨?_, hrunning, hfrontend, by decide +kernel, hafter, ?_⟩
  · intro htidy
    have hmem : "a" ∈ m.running.map FuseThread.volume := by
      rw [hrunning]; exact List.mem_singleton_self _
    obtain ⟨t, ht, hvolume⟩ := List.mem_map.mp hmem
    obtain ⟨rec, hrec, hfuse, -⟩ := (htidy.fuse "a" t.mountpoint).mp ⟨t, ht, hvolume, rfl⟩
    rw [hrec] at hfrontend
    simp [VolumeStore.VolumeRecord.viaFuse, Option.some.inj hfrontend] at hfuse
  · intro hreleased
    have hmem : "a" ∈ r.1.running.map FuseThread.volume := by
      rw [hafter]; exact List.mem_singleton_self _
    obtain ⟨t, ht, hvolume⟩ := List.mem_map.mp hmem
    exact hreleased.1 t ht hvolume

end Aloelite
