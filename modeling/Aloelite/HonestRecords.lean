import Aloelite.RecordedSessions

/-! Records that tell the truth: a record says of its volume what the threads and the registry
have. Writing one keeps the others honest, and so does opening a direct session. -/
namespace Aloelite

open KeyedRows Dicts

variable {C : Crypto} {M : Msgpack} {ids : IdSpelling} {hash : Bytes → Bytes}
  {cfg : ManagerConfig} {d : Draws} {vid vid' : String}

/-! ### Records that tell the truth -/

namespace Manager

open DirectSessionRegistry

variable {m m' : Manager} {rec : VolumeStore.VolumeRecord} {reg : DirectSessionRegistry}
  {t : FuseThread} {joined : Bool} {mountpoint : String}

/-- Where the threads of a volume are. -/
def threadsOf (m : Manager) (vid : String) : List String :=
  (m.threads.filter (fun t => t.volume = vid)).map FuseThread.mountpoint

/-- Where the record of a volume says there is one. -/
def saysFuse (m : Manager) (vid : String) : Option String :=
  (m.store.get vid).bind VolumeStore.VolumeRecord.fuseAt

/-- The record of a volume says that it has a direct session. -/
def saysDirect (m : Manager) (vid : String) : Bool :=
  (m.store.get vid).any VolumeStore.VolumeRecord.viaDirect

/-- Each record is right about its volume; the rest says that it stays so. -/
structure Honest (m : Manager) : Prop where
  keyed : m.store.mem.Keyed
  referential : m.store.mem.Referential
  threads : ∀ vid, m.threadsOf vid = (m.saysFuse vid).toList
  sessions : ∀ vid, m.front.reg.held vid = m.saysDirect vid
  placed : ∀ vid rec, m.store.get vid = some rec → rec.mountpoint.isSome = rec.viaFuse
  named : ∀ t ∈ m.threads, t.mountpoint ≠ ""
  apart : m.threads.Pairwise (fun t t' => place t.mountpoint ≠ place t'.mountpoint)
  idle : m.lingering = []

theorem mem_threadsOf : mountpoint ∈ m.threadsOf vid ↔ ∃ t ∈ m.threads, t.volume = vid ∧
    t.mountpoint = mountpoint := by
  simp [threadsOf, and_assoc]

theorem saysFuse_eq_some : m.saysFuse vid = some mountpoint ↔
    ∃ rec, m.store.get vid = some rec ∧ rec.viaFuse = true ∧ rec.mountpoint = some mountpoint := by
  simp [saysFuse, VolumeStore.VolumeRecord.fuseAt, Option.bind_eq_some_iff,
    Option.ite_none_right_eq_some]

theorem saysDirect_eq_true : m.saysDirect vid = true ↔ ∃ rec, m.store.get vid = some rec ∧
    rec.viaDirect = true := by
  cases h : m.store.get vid with
  | none => simp [saysDirect, h]
  | some rec => simp [saysDirect, h]

theorem Honest.tidy (h : m.Honest) : m.Tidy := by
  have hrunning : m.running = m.threads := by rw [running, h.idle, List.append_nil]
  refine ⟨?_, ?_, ?_, ?_⟩
  · intro vid mp
    rw [hrunning, ← mem_threadsOf, h.threads, Option.mem_toList, ← saysFuse_eq_some]
  · intro vid rec hrec hfuse
    rw [h.placed vid rec hrec, hfuse]
  · intro vid
    rw [← saysDirect_eq_true, ← h.sessions]
    rfl
  · intro t ht t' ht' hplace
    rw [hrunning] at ht ht'
    by_cases heq : t = t'
    · rw [heq]
    · have hsymm : Std.Symm (fun t t' : FuseThread => place t.mountpoint ≠ place t'.mountpoint) :=
        ⟨fun _ _ hne => Ne.symm hne⟩
      exact absurd hplace (h.apart.forall ht ht' heq)

theorem Honest.released_iff (h : m.Honest) :
    m.Released vid ↔ m.saysFuse vid = none ∧ m.saysDirect vid = false := by
  have hrunning : m.running = m.threads := by rw [running, h.idle, List.append_nil]
  have hthreads : (∀ t ∈ m.running, t.volume ≠ vid) ↔ m.threadsOf vid = [] := by
    rw [hrunning, threadsOf, List.map_eq_nil_iff, List.filter_eq_nil_iff]
    simp
  have hsessions : m.front.reg.sessions vid = none ↔ m.front.reg.held vid = false := by
    rw [held, Option.isSome_eq_false_iff, Option.isNone_iff_eq_none]
  rw [Released, hthreads, hsessions, h.threads, h.sessions, Option.toList_eq_nil_iff]

/-! ### Writing one record -/

theorem get_put : (m.put rec).store.get vid = if vid = rec.id then some rec else m.store.get vid :=
  lookup_assign

theorem id_of_get (h : m.store.get vid = some rec) : rec.id = vid := key_of_lookup h

theorem Honest.getFs (h : m.Honest) (hrec : m.store.get vid = some rec) :
    (m.store.getFs rec.fsId).isSome :=
  h.referential rec (mem_of_lookup hrec)

theorem Honest.sqlitePathOf (h : m.Honest) (hrec : m.store.get vid = some rec) :
    ∃ path, m.store.sqlitePathOf rec = .ok path := by
  obtain ⟨fsr, hfsr⟩ := Option.isSome_iff_exists.mp (h.getFs hrec)
  refine ⟨fsr.sqlitePath, ?_⟩
  rw [VolumeStore.JsonVolumeStore.sqlitePathOf, hfsr]

/-- A record is written, and what it says is brought about. -/
theorem Honest.put (h : m.Honest) (hstore : m'.store = m.store)
    (hfs : (m.store.getFs rec.fsId).isSome)
    (hthreads : ∀ vid, m'.threadsOf vid = if vid = rec.id then rec.fuseAt.toList
      else m.threadsOf vid)
    (hheld : ∀ vid, m'.front.reg.held vid = if vid = rec.id then rec.viaDirect
      else m.front.reg.held vid)
    (hplaced : rec.mountpoint.isSome = rec.viaFuse) (hnamed : ∀ t ∈ m'.threads, t.mountpoint ≠ "")
    (hapart : m'.threads.Pairwise (fun t t' => place t.mountpoint ≠ place t'.mountpoint))
    (hidle : m'.lingering = []) :
    (m'.put rec).Honest := by
  have hget : ∀ vid, (m'.put rec).store.get vid = if vid = rec.id then some rec
      else m.store.get vid := by
    intro vid
    rw [get_put, hstore]
  have hmem : (m'.put rec).store.mem = { m.store.mem with
      volumes := assign VolumeStore.VolumeRecord.id m.store.mem.volumes rec } := by
    rw [← hstore]
    rfl
  refine ⟨?_, ?_, ?_, ?_, ?_, hnamed, hapart, hidle⟩
  · rw [hmem]
    exact ⟨keyed_assign h.keyed.volumes, h.keyed.filesystems⟩
  · rw [hmem]
    intro v hv
    rcases mem_assign hv with rfl | hv
    · exact hfs
    · exact h.referential v hv
  · intro vid
    have hsame : (m'.put rec).threadsOf vid = m'.threadsOf vid := rfl
    rw [hsame, hthreads, saysFuse, hget]
    by_cases hv : vid = rec.id
    · rw [if_pos hv, if_pos hv]
      rfl
    · rw [if_neg hv, if_neg hv, h.threads]
      rfl
  · intro vid
    have hsame : (m'.put rec).front = m'.front := rfl
    rw [hsame, hheld, saysDirect, hget]
    by_cases hv : vid = rec.id
    · rw [if_pos hv, if_pos hv]
      rfl
    · rw [if_neg hv, if_neg hv, h.sessions]
      rfl
  · intro vid rec' hrec'
    rw [hget] at hrec'
    by_cases hv : vid = rec.id
    · rw [if_pos hv] at hrec'
      obtain rfl := Option.some.inj hrec'
      exact hplaced
    · rw [if_neg hv] at hrec'
      exact h.placed vid rec' hrec'

/-- Alike in all that records tell of. -/
structure Alike (m m' : Manager) : Prop where
  store : m'.store.mem = m.store.mem
  threads : m'.threads = m.threads
  lingering : m'.lingering = m.lingering
  held : ∀ vid, m'.front.reg.held vid = m.front.reg.held vid

theorem Alike.refl (m : Manager) : m.Alike m := ⟨rfl, rfl, rfl, fun _ => rfl⟩

theorem Honest.congr (h : m.Honest) (ha : m.Alike m') : m'.Honest := by
  have hget : ∀ vid, m'.store.get vid = m.store.get vid := by
    intro vid
    rw [VolumeStore.JsonVolumeStore.get, ha.store]
    rfl
  refine ⟨?_, ?_, ?_, ?_, ?_, ?_, ?_, ?_⟩
  · rw [ha.store]
    exact h.keyed
  · rw [ha.store]
    exact h.referential
  · intro vid
    rw [threadsOf, ha.threads, saysFuse, hget]
    exact h.threads vid
  · intro vid
    rw [ha.held, saysDirect, hget]
    exact h.sessions vid
  · intro vid rec hrec
    rw [hget] at hrec
    exact h.placed vid rec hrec
  · rw [ha.threads]
    exact h.named
  · rw [ha.threads]
    exact h.apart
  · rw [ha.lingering]
    exact h.idle

/-! ### Direct sessions -/

/-- A session is there for the volume; nothing else has changed. -/
structure Entered (m m' : Manager) (vid : String) : Prop where
  store : m'.store = m.store
  threads : m'.threads = m.threads
  lingering : m'.lingering = m.lingering
  held : ∀ vid', m'.front.reg.held vid' = if vid' = vid then true else m.front.reg.held vid'

theorem Honest.threadsOf_unthreaded (h : m.Honest) (hrec : m.store.get vid = some rec)
    (hfuse : rec.viaFuse = false) :
    m.threadsOf vid = [] := by
  rw [h.threads, saysFuse, hrec, Option.bind_some, VolumeStore.VolumeRecord.fuseAt, hfuse]
  rfl

theorem Honest.markDirect (h : m.Honest) (hrec : m.store.get rec.id = some rec)
    (hfuse : rec.Unthreaded) (hentered : m.Entered m' rec.id) :
    (m'.put (markDirect rec)).Honest := by
  have hvia : (Manager.markDirect rec).viaFuse = false := rfl
  have hfs : (m.store.getFs rec.fsId).isSome := h.getFs hrec
  refine h.put hentered.store hfs ?_ hentered.held rfl ?_ ?_ ?_
  · intro vid
    have hsame : m'.threadsOf vid = m.threadsOf vid := by
      rw [threadsOf, threadsOf, hentered.threads]
    rw [hsame, VolumeStore.VolumeRecord.fuseAt, hvia]
    by_cases hv : vid = rec.id
    · rw [hv, h.threadsOf_unthreaded hrec hfuse]
      exact (if_pos rfl).symm
    · exact (if_neg hv).symm
  · rw [hentered.threads]
    exact h.named
  · rw [hentered.threads]
    exact h.apart
  · rw [hentered.lingering]
    exact h.idle

theorem Entered.alike (he : m.Entered m' vid) (hheld : m.front.reg.held vid = true) :
    m.Alike m' := by
  refine ⟨by rw [he.store], he.threads, he.lingering, ?_⟩
  intro vid'
  rw [he.held]
  by_cases hv : vid' = vid
  · rw [if_pos hv, hv, hheld]
  · rw [if_neg hv]

theorem Honest.held_viaDirect (h : m.Honest) (hrec : m.store.get vid = some rec) :
    m.front.reg.held vid = rec.viaDirect := by
  rw [h.sessions, saysDirect, hrec]
  rfl

theorem Honest.markMounted (h : m.Honest) (hrec : m.store.get rec.id = some rec)
    (hfuse : rec.Unthreaded) (hentered : m.Entered m' rec.id) : (m'.markMounted rec).Honest := by
  rw [Manager.markMounted]
  split
  next hdirect =>
    apply h.congr
    apply hentered.alike
    rw [h.held_viaDirect hrec]
    exact hdirect
  · exact h.markDirect hrec hfuse hentered

theorem Entered.unlock {path : String} {pin : Option Bytes} {token : Token}
    (h : m.front.reg.unlock C M ids.read d (opened rec path) pin = (reg, .ok token)) :
    m.Entered (m.setReg reg) rec.id :=
  ⟨rfl, rfl, rfl, fun _ => unlock_held_of_ok h⟩

theorem Alike.unlock {path : String} {pin : Option Bytes} {e : ManagerError}
    (h : m.front.reg.unlock C M ids.read d (opened rec path) pin = (reg, .error e)) :
    m.Alike (m.setReg reg) :=
  ⟨rfl, rfl, rfl, fun _ => unlock_held_of_error h⟩

theorem Honest.mountDirect (h : m.Honest) (hrec : m.store.get rec.id = some rec)
    {body : MountBody} (hfuse : body.persist = false → rec.Unthreaded) :
    (m.mountDirect C M ids cfg d rec body).1.Honest := by
  rw [Manager.mountDirect]
  split
  · exact h
  next hpersist =>
    have hfuse := hfuse (Bool.eq_false_iff.mpr hpersist)
    split
    · split
      next heq => exact h.congr ⟨rfl, rfl, rfl, fun _ => attach_held_of_error heq⟩
      next heq => exact h.markDirect hrec hfuse ⟨rfl, rfl, rfl, fun _ => attach_held_of_ok heq⟩
    · split
      · exact h
      · split
        next heq => exact h.congr (Alike.unlock heq)
        next heq => exact h.markDirect hrec hfuse (Entered.unlock heq)

theorem Honest.s3 (h : m.Honest) {bucket : String} {mayAccess : Bool}
    (happart : (ManagerCall.s3 bucket mayAccess).Apart cfg m) :
    (m.s3 C M ids d bucket mayAccess).1.Honest := by
  rw [Manager.s3]
  split
  · exact h
  · split
    · exact h
    next rec hfind =>
      have hrec : m.store.get rec.id = some rec :=
        lookup_eq_some_of_mem h.keyed.volumes (List.mem_of_find?_eq_some hfind)
      have hfuse := happart rec hfind
      split
      · exact h
      next hmay =>
        have hmay : mayAccess = true := by simpa using hmay
        split
        next hunlocked =>
          have hheld : m.front.reg.held rec.id = true := hunlocked
          have hdirect := hheld
          rw [h.held_viaDirect hrec] at hdirect
          have hentered : m.Entered m rec.id := by
            refine ⟨rfl, rfl, rfl, ?_⟩
            intro vid
            by_cases hv : vid = rec.id
            · rw [if_pos hv, hv, hheld]
            · rw [if_neg hv]
          have hunthreaded : rec.Unthreaded := by
            rw [VolumeStore.VolumeRecord.viaDirect] at hdirect
            simp only [Bool.and_eq_true, decide_eq_true_eq] at hdirect
            simp [VolumeStore.VolumeRecord.Unthreaded, VolumeStore.VolumeRecord.viaFuse, hdirect.2]
          exact h.markMounted hrec hunthreaded hentered
        next hlocked =>
          split
          · exact h
          next hplain =>
            have hfuse := hfuse hmay (Bool.eq_false_iff.mpr hplain)
            split
            · exact h
            · split
              next heq => exact h.markMounted hrec hfuse (Entered.unlock heq)
              next heq =>
                have hclosed : m.front.reg.held rec.id = false := Bool.eq_false_iff.mpr hlocked
                exact absurd heq (unlock_ne_alreadyMounted hclosed)
              next heq => exact h.congr (Alike.unlock heq)

theorem Honest.requireVolume (h : m.Honest) (hrec : m.requireVolume vid = .ok rec) :
    m.store.get rec.id = some rec := by
  rw [Manager.requireVolume] at hrec
  split at hrec
  next hget =>
    obtain rfl := Except.ok.inj hrec
    rw [id_of_get hget]
    exact hget
  · split at hrec
    · cases hrec
    next hfilter =>
      obtain rfl := Except.ok.inj hrec
      apply lookup_eq_some_of_mem h.keyed.volumes
      apply List.mem_of_mem_filter (p := fun r => decide (r.name = vid))
      exact hfilter ▸ List.mem_singleton_self _
    · cases hrec

theorem Honest.dav (h : m.Honest) {pin : Option Bytes}
    (happart : (ManagerCall.dav vid pin).Apart cfg m) :
    (m.dav C M ids hash d vid pin).1.Honest := by
  rw [Manager.dav]
  split
  · exact h
  next rec hfound =>
    have hrec := h.requireVolume hfound
    have hfuse : rec.Unthreaded := happart rec (by rw [hfound]; rfl)
    split
    · exact h
    · split
      next heq =>
        apply h.congr
        refine ⟨rfl, rfl, rfl, ?_⟩
        intro vid
        simpa [Except.toBool] using DavFront.sessionToken_held heq
      next front token heq =>
        have hentered : m.Entered { m with front := front } rec.id := by
          refine ⟨rfl, rfl, rfl, ?_⟩
          intro vid
          simpa [Except.toBool, opened] using DavFront.sessionToken_held heq
        have hmarked : (if m.remembered hash rec pin = true then { m with front := front }
            else ({ m with front := front } : Manager).markMounted rec).Honest := by
          split
          next hremembered =>
            apply h.congr
            apply hentered.alike
            simp only [remembered, Bool.and_eq_true] at hremembered
            exact hremembered.1
          · exact h.markMounted hrec hfuse hentered
        dsimp only
        split
        · exact hmarked
        · exact hmarked

end Manager

end Aloelite
