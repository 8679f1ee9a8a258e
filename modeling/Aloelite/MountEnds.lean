import Aloelite.HonestRecords

/-! FUSE mounts and the end of a mount: what is answered to have ended is released, and the records
stay honest. -/
namespace Aloelite

open KeyedRows Dicts

variable {C : Crypto} {M : Msgpack} {ids : IdSpelling} {cfg : ManagerConfig} {d : Draws}
  {vid vid' : String}

namespace Manager

open DirectSessionRegistry

variable {m m' : Manager} {rec : VolumeStore.VolumeRecord} {reg : DirectSessionRegistry}
  {t : FuseThread} {joined : Bool} {mountpoint : String}

/-! ### FUSE mounts -/

theorem supervisorMount_error {pin : Option Bytes} {name : String} {start : FuseStart}
    {status : ℕ} (h : m.supervisorMount C M ids cfg d rec pin name start = (m', .error status))
    (hlate : start ≠ .late false) : m.Alike m' := by
  rw [supervisorMount] at h
  split at h
  · obtain ⟨rfl, -⟩ := Prod.mk.inj h
    exact Alike.refl m
  · dsimp only at h
    split at h
    · obtain ⟨rfl, -⟩ := Prod.mk.inj h
      exact Alike.refl m
    · split at h
      · obtain ⟨rfl, -⟩ := Prod.mk.inj h
        exact Alike.refl m
      · split at h
        · split at h
          · obtain ⟨rfl, -⟩ := Prod.mk.inj h
            exact ⟨rfl, rfl, rfl, fun _ => rfl⟩
          · obtain ⟨rfl, -⟩ := Prod.mk.inj h
            exact ⟨rfl, rfl, rfl, fun _ => rfl⟩
        · split at h
          · cases (Prod.mk.inj h).2
          · exact absurd rfl hlate
          · obtain ⟨rfl, -⟩ := Prod.mk.inj h
            exact ⟨rfl, rfl, rfl, fun _ => rfl⟩
          · obtain ⟨rfl, -⟩ := Prod.mk.inj h
            exact ⟨rfl, rfl, rfl, fun _ => rfl⟩

/-- A mount that comes up has a thread of its own at a mountpoint that had none. -/
theorem supervisorMount_ok {pin : Option Bytes} {name : String} {start : FuseStart}
    (h : m.supervisorMount C M ids cfg d rec pin name start = (m', .ok mountpoint)) :
    start = .ready ∧ mountpoint = mountpointFor cfg name ∧
      (∀ t ∈ m.threads, t.mountpoint ≠ mountpoint) ∧
      m'.store = m.store ∧ m'.lingering = m.lingering ∧
        (∀ vid, m'.front.reg.held vid = m.front.reg.held vid) ∧
        ∃ t, m'.threads = m.threads ++ [t] ∧ t.volume = rec.id ∧ t.mountpoint = mountpoint := by
  rw [supervisorMount] at h
  split at h
  · cases (Prod.mk.inj h).2
  · dsimp only at h
    split at h
    · cases (Prod.mk.inj h).2
    next hfree =>
      split at h
      · cases (Prod.mk.inj h).2
      · split at h
        · split at h
          · cases (Prod.mk.inj h).2
          · cases (Prod.mk.inj h).2
        · split at h
          · obtain ⟨rfl, hmp⟩ := Prod.mk.inj h
            obtain rfl := Except.ok.inj hmp
            refine ⟨rfl, rfl, ?_, rfl, rfl, fun _ => rfl, _, rfl, rfl, rfl⟩
            simpa using hfree
          · cases (Prod.mk.inj h).2
          · cases (Prod.mk.inj h).2
          · cases (Prod.mk.inj h).2

theorem mountpointFor_ne_empty (name : String) : mountpointFor cfg name ≠ "" := by
  intro h
  have hlength := congrArg String.length h
  rw [mountpointFor, String.length_append, String.length_append] at hlength
  have hslash : "/".length = 1 := rfl
  have hempty : "".length = 0 := rfl
  omega

theorem Honest.markFuse (h : m.Honest) (hrec : m.store.get rec.id = some rec)
    (hstore : m'.store = m.store)
    (hlingering : m'.lingering = m.lingering)
    (hheld : ∀ vid, m'.front.reg.held vid = m.front.reg.held vid)
    (hthreads : m'.threads = m.threads ++ [t]) (hvolume : t.volume = rec.id)
    (hunmounted : rec.mounted = false)
    (hnamed : t.mountpoint ≠ "")
    (hplace : ∀ t' ∈ m.threads, place t'.mountpoint ≠ place t.mountpoint)
    {after : VolumeStore.VolumeRecord} (hid : after.id = rec.id) (hfs : after.fsId = rec.fsId)
    (hmounted : after.mounted = true)
    (hfrontend : after.frontend = some "fuse")
    (hmountpoint : after.mountpoint = some t.mountpoint) : (m'.put after).Honest := by
  have hfuse : after.viaFuse = true := by
    simp [VolumeStore.VolumeRecord.viaFuse, hmounted, hfrontend]
  have hdirect : after.viaDirect = false := by simp [VolumeStore.VolumeRecord.viaDirect, hfrontend]
  have hwas : rec.viaFuse = false := by simp [VolumeStore.VolumeRecord.viaFuse, hunmounted]
  have hwasnot : rec.viaDirect = false := by simp [VolumeStore.VolumeRecord.viaDirect, hunmounted]
  have hfs' : (m.store.getFs after.fsId).isSome := by
    rw [hfs]
    exact h.getFs hrec
  refine h.put hstore hfs' ?_ ?_ ?_ ?_ ?_ ?_
  · intro vid
    rw [threadsOf, hthreads, List.filter_append, List.map_append, hid,
      VolumeStore.VolumeRecord.fuseAt, hfuse, hmountpoint]
    by_cases hv : vid = rec.id
    · have hnone := h.threadsOf_unthreaded hrec hwas
      rw [threadsOf, ← hv] at hnone
      rw [hnone, if_pos hv, hv, ← hvolume]
      simp
    · have hother : t.volume ≠ vid := fun heq => hv (heq.symm.trans hvolume)
      rw [if_neg hv, threadsOf]
      simp [hother]
  · intro vid
    rw [hheld, hid, hdirect]
    by_cases hv : vid = rec.id
    · rw [if_pos hv, hv, h.held_viaDirect hrec, hwasnot]
    · rw [if_neg hv]
  · rw [hfuse, hmountpoint]
    rfl
  · intro t' ht'
    rw [hthreads] at ht'
    rcases List.mem_append.mp ht' with ht' | ht'
    · exact h.named t' ht'
    · rw [List.mem_singleton.mp ht']
      exact hnamed
  · rw [hthreads, List.pairwise_append]
    refine ⟨h.apart, List.pairwise_singleton _ _, ?_⟩
    intro t' ht' t'' ht''
    rw [List.mem_singleton.mp ht'']
    exact hplace t' ht'
  · rw [hlingering]
    exact h.idle

theorem Honest.mountFuse (h : m.Honest) (hrec : m.store.get rec.id = some rec) {body : MountBody}
    {start : FuseStart}
    (hlate : start ≠ .late false)
    (hready : start = .ready →
      (∀ t ∈ m.threads, t.mountpoint ≠ mountpointFor cfg ((given body.mountName).getD rec.id)) →
      rec.mounted = false ∧ ∀ t ∈ m.threads, place t.mountpoint ≠
        place (mountpointFor cfg ((given body.mountName).getD rec.id))) :
    (m.mountFuse C M ids cfg d rec body start).1.Honest := by
  rw [Manager.mountFuse]
  split
  next heq => exact h.congr (supervisorMount_error heq hlate)
  next m₁ mountpoint heq =>
    obtain ⟨hstart, rfl, hfree, hstore, hlingering, hheld, t, hthreads, hvolume, hmountpoint⟩ :=
      supervisorMount_ok heq
    obtain ⟨hunmounted, hplace⟩ := hready hstart hfree
    have hnamed : t.mountpoint ≠ "" := by
      rw [hmountpoint]
      exact mountpointFor_ne_empty _
    rw [← hmountpoint] at hplace
    split
    · split
      · exact h.markFuse hrec hstore hlingering hheld hthreads hvolume hunmounted hnamed hplace rfl
          rfl rfl rfl
          (congrArg some hmountpoint.symm)
      · exact h.markFuse hrec hstore hlingering hheld hthreads hvolume hunmounted hnamed hplace rfl
          rfl rfl rfl
          (congrArg some hmountpoint.symm)
    · exact h.markFuse hrec hstore hlingering hheld hthreads hvolume hunmounted hnamed hplace rfl
        rfl rfl rfl
        (congrArg some hmountpoint.symm)

/-! ### The end of a mount -/

/-- A volume is left with no thread and no session; the others have theirs. -/
structure Freed (m m' : Manager) (vid : String) : Prop where
  store : m'.store = m.store
  threads : m'.threads.Sublist m.threads
  threadsOf : ∀ vid', m'.threadsOf vid' = if vid' = vid then [] else m.threadsOf vid'
  lingering : m'.lingering = m.lingering
  held : ∀ vid', m'.front.reg.held vid' = if vid' = vid then false else m.front.reg.held vid'

/-- Only a session was there to go. -/
theorem Freed.of_held (hnone : m.threadsOf vid = [])
    (hheld : ∀ vid', reg.held vid' = if vid' = vid then false else m.front.reg.held vid') :
    m.Freed (m.setReg reg) vid := by
  refine ⟨rfl, List.Sublist.refl _, ?_, rfl, hheld⟩
  intro vid'
  by_cases hv : vid' = vid
  · rw [if_pos hv, hv]
    exact hnone
  · rw [if_neg hv]
    rfl

theorem Freed.refl (hnone : m.threadsOf vid = []) (hheld : m.front.reg.held vid = false) :
    m.Freed m vid := by
  apply Freed.of_held hnone
  intro vid'
  by_cases hv : vid' = vid
  · rw [if_pos hv, hv, hheld]
  · rw [if_neg hv]

theorem Honest.mountpoint_of_mem (h : m.Honest) (ht : t ∈ m.threads) :
    ∃ rec, m.store.get t.volume = some rec ∧ rec.viaFuse = true ∧ rec.mountpoint =
      some t.mountpoint := by
  apply saysFuse_eq_some.mp
  have hmem : t.mountpoint ∈ m.threadsOf t.volume := mem_threadsOf.mpr ⟨t, ht, rfl, rfl⟩
  rw [h.threads] at hmem
  exact Option.mem_toList.mp hmem

/-- A thread of the table is the only one of its volume, and the only one at its mountpoint. -/
theorem Honest.filter_threads (h : m.Honest) (ht : t ∈ m.threads) (vid : String) :
    ((m.threads.filter (fun t' => t'.mountpoint ≠ t.mountpoint)).filter
      (fun t' => t'.volume = vid)).map FuseThread.mountpoint =
      if vid = t.volume then [] else m.threadsOf vid := by
  obtain ⟨rec, hrec, -, hmp⟩ := h.mountpoint_of_mem ht
  by_cases hv : vid = t.volume
  · rw [if_pos hv, List.map_eq_nil_iff, List.filter_eq_nil_iff]
    intro t' ht'
    obtain ⟨ht', hne⟩ := List.mem_filter.mp ht'
    obtain ⟨rec', hrec', -, hmp'⟩ := h.mountpoint_of_mem ht'
    intro hvolume
    rw [of_decide_eq_true hvolume, hv, hrec] at hrec'
    obtain rfl := Option.some.inj hrec'
    rw [hmp] at hmp'
    exact of_decide_eq_true hne (Option.some.inj hmp').symm
  · rw [if_neg hv, threadsOf, List.filter_filter]
    congr 1
    apply List.filter_congr
    intro t' ht'
    have hapart := h.tidy.apart t' (List.mem_append_left _ ht') t (List.mem_append_left _ ht)
    by_cases hvolume : t'.volume = vid
    · have hne : t'.mountpoint ≠ t.mountpoint :=
        fun heq => hv (hvolume.symm.trans (hapart (congrArg place heq)))
      simp [hvolume, hne]
    · simp [hvolume]

theorem Honest.stop (h : m.Honest) (ht : t ∈ m.threads) :
    m.Freed (m.stop C M d t true) t.volume := by
  obtain ⟨rec, hrec, hfuse, -⟩ := h.mountpoint_of_mem ht
  have hheld : m.front.reg.held t.volume = false := by
    rw [h.held_viaDirect hrec]
    simp only [VolumeStore.VolumeRecord.viaFuse, Bool.and_eq_true, decide_eq_true_eq] at hfuse
    simp [VolumeStore.VolumeRecord.viaDirect, hfuse.2]
  refine ⟨rfl, List.filter_sublist, h.filter_threads ht, rfl, ?_⟩
  intro vid
  by_cases hv : vid = t.volume
  · rw [if_pos hv, hv]
    exact hheld
  · rw [if_neg hv]
    rfl

/-- `supervisor.unmount` where the thread it finds is the record's and ends in time. -/
theorem Honest.supervisorUnmount (h : m.Honest) (hrec : m.store.get rec.id = some rec)
    (hfrontend : rec.frontend ≠ some "direct")
    (hown : m.EndsOwn cfg rec joined) {r : Except ℕ Unit}
    (hr : m.supervisorUnmount C M cfg d rec joined = some (m', r)) :
    r = .ok () ∧ m.Freed m' rec.id := by
  rw [Manager.supervisorUnmount] at hr
  split at hr
  · cases hr
  next t hfind =>
    have ht : t ∈ m.threads := List.mem_of_find?_eq_some hfind
    obtain ⟨hvolume, rfl⟩ := hown hfrontend t ht (by simpa using List.find?_some hfind)
    have hstop := h.stop (C := C) (M := M) (d := d) ht
    obtain ⟨path, hpath⟩ := h.sqlitePathOf hrec
    have hsame : (m.stop C M d t true).store.sqlitePathOf rec = .ok path := hpath
    simp only [hsame] at hr
    obtain ⟨rfl, rfl⟩ := Prod.mk.inj (Option.some.inj hr)
    rw [hvolume] at hstop
    exact ⟨rfl, hstop⟩

/-- The record is cleared after what it told of. -/
theorem Freed.clear (h : m.Honest) (hrec : m.store.get rec.id = some rec)
    (hfreed : m.Freed m' rec.id) :
    (m'.put (cleared rec)).Honest ∧ (m'.put (cleared rec)).Released rec.id := by
  have hfs : (m.store.getFs rec.fsId).isSome := h.getFs hrec
  have hhonest : (m'.put (cleared rec)).Honest := by
    refine h.put hfreed.store hfs hfreed.threadsOf hfreed.held rfl ?_ ?_ ?_
    · intro t ht
      exact h.named t (hfreed.threads.subset ht)
    · exact h.apart.sublist hfreed.threads
    · rw [hfreed.lingering]
      exact h.idle
  refine ⟨hhonest, hhonest.released_iff.mpr ?_⟩
  have hget : (m'.put (cleared rec)).store.get rec.id = some (cleared rec) := by
    rw [get_put]
    exact if_pos rfl
  rw [saysFuse, saysDirect, hget]
  exact ⟨rfl, rfl⟩

/-- An answer of its own, or a session that is gone. -/
def Answered (m m' : Manager) (vid : String) : Option ℕ → Prop
  | none => m.Freed m' vid
  | some status => m.Alike m' ∧ status ≠ 204

theorem Honest.unmountDirect (h : m.Honest) (hrec : m.store.get rec.id = some rec)
    (hfrontend : rec.frontend = some "direct")
    {client : Detach} {r : Option ℕ} (hr : m.unmountDirect C M cfg d rec client = (m', r)) :
    m.Answered m' rec.id r := by
  have hfuse : rec.viaFuse = false := by simp [VolumeStore.VolumeRecord.viaFuse, hfrontend]
  have hnone := h.threadsOf_unthreaded hrec hfuse
  rw [Manager.unmountDirect] at hr
  split at hr
  · split at hr
    · split at hr
      next heq =>
        obtain ⟨rfl, rfl⟩ := Prod.mk.inj hr
        obtain rfl := detach_held_of_error heq
        exact ⟨⟨rfl, rfl, rfl, fun _ => rfl⟩, by decide⟩
      next heq =>
        obtain ⟨rfl, rfl⟩ := Prod.mk.inj hr
        obtain rfl := detach_held_of_error heq
        exact ⟨⟨rfl, rfl, rfl, fun _ => rfl⟩, by decide⟩
      next heq =>
        obtain ⟨rfl, rfl⟩ := Prod.mk.inj hr
        exact ⟨⟨rfl, rfl, rfl, fun _ => detach_held_of_others heq⟩, by decide⟩
      next heq =>
        obtain ⟨rfl, rfl⟩ := Prod.mk.inj hr
        exact Freed.of_held hnone (fun _ => detach_held_of_last heq)
    · obtain ⟨rfl, rfl⟩ := Prod.mk.inj hr
      exact ⟨Alike.refl _, by decide⟩
  · split at hr
    next heq =>
      obtain ⟨rfl, rfl⟩ := Prod.mk.inj hr
      obtain ⟨rfl, -⟩ := lock_of_error heq
      exact ⟨⟨rfl, rfl, rfl, fun _ => rfl⟩, by decide⟩
    next heq =>
      obtain ⟨rfl, rfl⟩ := Prod.mk.inj hr
      exact Freed.of_held hnone (fun _ => lock_held heq)

/-- `unmount_volume` keeps the records honest, and a 204 means what it says. -/
theorem Honest.unmount (h : m.Honest) {client : Detach}
    (happart : (ManagerCall.unmount vid client joined).Apart cfg m) :
    (m.unmount C M cfg d vid client joined).1.Honest ∧
      ((m.unmount C M cfg d vid client joined).2 = 204 →
        (m.unmount C M cfg d vid client joined).1.Released vid) := by
  rw [Manager.unmount]
  split
  · exact ⟨h, fun hs => absurd (a := 404 = 204) hs (by decide)⟩
  next rec hget =>
    obtain rfl := id_of_get hget
    split
    next hfrontend =>
      split
      next heq =>
        obtain ⟨halike, hstatus⟩ := h.unmountDirect hget hfrontend heq
        exact ⟨h.congr halike, fun hs => absurd hs hstatus⟩
      next heq =>
        have hfreed := h.unmountDirect hget hfrontend heq
        obtain ⟨hhonest, hreleased⟩ := hfreed.clear h hget
        exact ⟨hhonest, fun _ => hreleased⟩
    next hfrontend =>
      have hown := happart rec hget
      split
      · exact ⟨h, fun hs => absurd (a := 404 = 204) hs (by decide)⟩
      next heq => cases (h.supervisorUnmount hget hfrontend hown heq).1
      next heq =>
        obtain ⟨hhonest, hreleased⟩ := (h.supervisorUnmount hget hfrontend hown heq).2.clear h hget
        exact ⟨hhonest, fun _ => hreleased⟩

theorem Honest.release (h : m.Honest) (hrec : m.store.get rec.id = some rec)
    (hmounted : rec.mounted = true) (hown : m.EndsOwn cfg rec joined) :
    m.Freed (m.release C M cfg d rec joined) rec.id := by
  rw [Manager.release]
  split
  next hfrontend =>
    have hfuse : rec.viaFuse = false := by simp [VolumeStore.VolumeRecord.viaFuse, hfrontend]
    have hnone := h.threadsOf_unthreaded hrec hfuse
    cases hlock : m.front.reg.lock C M d (opened rec "") with
    | mk reg r =>
    cases r with
    | ok u => exact Freed.of_held hnone (fun _ => lock_held hlock)
    | error e =>
      obtain ⟨rfl, hheld⟩ := lock_of_error hlock
      exact Freed.refl hnone hheld
  next hfrontend =>
    have hfuse : rec.viaFuse = true := by
      simp [VolumeStore.VolumeRecord.viaFuse, hmounted, hfrontend]
    split
    next hnot =>
      -- the record names a thread of the table
      obtain ⟨mp, hmp⟩ := Option.isSome_iff_exists.mp ((h.placed rec.id rec hrec).trans hfuse)
      obtain ⟨t, ht, -, htmp⟩ : ∃ t ∈ m.threads, t.volume = rec.id ∧ t.mountpoint = mp := by
        rw [← mem_threadsOf, h.threads, saysFuse_eq_some.mpr ⟨rec, hrec, hfuse, hmp⟩]
        exact List.mem_singleton_self mp
      have hnamed : mp ≠ "" := htmp ▸ h.named t ht
      have hresolve : t.mountpoint = resolveMountpoint cfg rec := by
        rw [resolveMountpoint, hmp, htmp]
        exact (if_neg hnamed).symm
      rw [Manager.supervisorUnmount] at hnot
      split at hnot
      next hfind =>
        have hmiss := List.find?_eq_none.mp hfind t ht
        simp [hresolve] at hmiss
      · dsimp only at hnot
        split at hnot
        · cases hnot
        · cases hnot
    next heq => exact (h.supervisorUnmount hrec hfrontend hown heq).2

/-- The record goes with what it told of. -/
theorem Freed.drop {b : Manager} (h : m.Honest) (hfreed : m.Freed m' vid)
    (hthreads : b.threads = m'.threads) (hlingering : b.lingering = m'.lingering)
    (hheld : ∀ vid, b.front.reg.held vid = m'.front.reg.held vid)
    (hget : ∀ vid', b.store.get vid' = if vid' = vid then none else m.store.get vid')
    (hkeyed : b.store.mem.Keyed) (hreferential : b.store.mem.Referential) :
    b.Honest ∧ b.Released vid := by
  have hhonest : b.Honest := by
    refine ⟨hkeyed, hreferential, ?_, ?_, ?_, ?_, ?_, ?_⟩
    · intro vid'
      have hsame : b.threadsOf vid' = m'.threadsOf vid' := by
        rw [Manager.threadsOf, Manager.threadsOf, hthreads]
      rw [hsame, hfreed.threadsOf, saysFuse, hget]
      by_cases hv : vid' = vid
      · rw [if_pos hv, if_pos hv]
        rfl
      · rw [if_neg hv, if_neg hv, h.threads]
        rfl
    · intro vid'
      rw [hheld, hfreed.held, saysDirect, hget]
      by_cases hv : vid' = vid
      · rw [if_pos hv, if_pos hv]
        rfl
      · rw [if_neg hv, if_neg hv, h.sessions]
        rfl
    · intro vid' rec' hrec'
      rw [hget] at hrec'
      exact h.placed vid' rec' (Option.ite_none_left_eq_some.mp hrec').2
    · intro t ht
      rw [hthreads] at ht
      exact h.named t (hfreed.threads.subset ht)
    · rw [hthreads]
      exact h.apart.sublist hfreed.threads
    · rw [hlingering, hfreed.lingering]
      exact h.idle
  refine ⟨hhonest, hhonest.released_iff.mpr ?_⟩
  rw [saysFuse, saysDirect, hget, if_pos rfl]
  exact ⟨rfl, rfl⟩

/-- `delete_volume` keeps the records honest, and leaves nothing of the volume. -/
theorem Honest.delete (h : m.Honest) (happart : (ManagerCall.delete vid joined).Apart cfg m) :
    (m.delete C M cfg d vid joined).1.Honest ∧
      ((m.delete C M cfg d vid joined).2 = 204 →
        (m.delete C M cfg d vid joined).1.Released vid) := by
  rw [Manager.delete]
  split
  · exact ⟨h, fun hs => absurd (a := 404 = 204) hs (by decide)⟩
  next rec hget =>
    obtain rfl := id_of_get hget
    -- first the session or the thread goes, if the record is mounted
    have hfreed : m.Freed (if rec.mounted = true then m.release C M cfg d rec joined else m)
        rec.id := by
      split
      next hmounted => exact h.release hget hmounted (happart rec hget hmounted)
      next hunmounted =>
        have hunmounted : rec.mounted = false := Bool.eq_false_iff.mpr hunmounted
        apply Freed.refl
        · exact h.threadsOf_unthreaded hget (by simp [VolumeStore.VolumeRecord.viaFuse, hunmounted])
        · rw [h.held_viaDirect hget]
          simp [VolumeStore.VolumeRecord.viaDirect, hunmounted]
    dsimp only
    generalize (if rec.mounted = true then m.release C M cfg d rec joined else m) = m₁ at hfreed ⊢
    obtain ⟨path, hpath⟩ := h.sqlitePathOf hget
    rw [← hfreed.store] at hpath
    rw [hpath]
    have hthere : (m₁.store.get rec.id).isSome := by
      rw [hfreed.store, hget]
      rfl
    have hmem := VolumeStore.delete_mem hthere
    rw [hfreed.store] at hmem
    have hfsr : ((m₁.store.delete rec.id false).1.getFs rec.fsId).isSome := by
      rw [VolumeStore.JsonVolumeStore.getFs, hfreed.store, hmem]
      exact h.getFs hget
    have hkeyed : (m₁.store.delete rec.id false).1.mem.Keyed := by
      rw [hfreed.store, hmem]
      exact ⟨keyed_discard h.keyed.volumes, h.keyed.filesystems⟩
    have hreferential : (m₁.store.delete rec.id false).1.mem.Referential := by
      rw [hfreed.store, hmem]
      intro v hv
      exact h.referential v (List.mem_of_mem_filter hv)
    have hdropped : ∀ vid', (m₁.store.delete rec.id false).1.get vid' = if vid' = rec.id then none
        else m.store.get vid' := by
      intro vid'
      rw [VolumeStore.JsonVolumeStore.get, hfreed.store, hmem]
      exact lookup_discard
    dsimp only
    -- the file goes too where no other record is of it
    split
    next hlast =>
      obtain ⟨hvolumes, hkeyed', hreferential'⟩ :=
        VolumeStore.deleteFs_keeps hkeyed hreferential hlast hfsr
      have hfinal := hfreed.drop h
          (b := { m₁.setFiles (Function.update m₁.front.reg.files path {}) with
        store := ((m₁.store.delete rec.id false).1.deleteFs rec.fsId false).1 }) rfl rfl
          (fun _ => rfl) (by
          intro vid'
          rw [VolumeStore.JsonVolumeStore.get, hvolumes]
          exact hdropped vid') hkeyed' hreferential'
      exact ⟨hfinal.1, fun _ => hfinal.2⟩
    next =>
      have hfinal := hfreed.drop h (b := { m₁ with store := (m₁.store.delete rec.id false).1 }) rfl
          rfl (fun _ => rfl)
        hdropped hkeyed hreferential
      exact ⟨hfinal.1, fun _ => hfinal.2⟩

end Manager

end Aloelite
