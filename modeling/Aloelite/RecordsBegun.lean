import Aloelite.MountEnds

/-! New records, made or uploaded, and the shutdown that stops every thread. -/
namespace Aloelite

open KeyedRows Dicts

variable {C : Crypto} {M : Msgpack} {ids : IdSpelling} {cfg : ManagerConfig} {d : Draws}
  {vid : String}

namespace Manager

open DirectSessionRegistry

variable {m m' : Manager} {rec : VolumeStore.VolumeRecord} {reg : DirectSessionRegistry}
  {t : FuseThread} {mountpoint : String}

/-! ### New records -/

/-- A record of a volume that is not mounted. -/
theorem Honest.register (h : m.Honest) (hfuse : m.saysFuse rec.id = none)
    (hdirect : m.saysDirect rec.id = false) (hunmounted : rec.mounted = false)
    (hmountpoint : rec.mountpoint = none) (hfs : (m.store.getFs rec.fsId).isSome) :
    (m.put rec).Honest := by
  have hviaFuse : rec.viaFuse = false := by simp [VolumeStore.VolumeRecord.viaFuse, hunmounted]
  have hviaDirect : rec.viaDirect = false := by
    simp [VolumeStore.VolumeRecord.viaDirect, hunmounted]
  refine h.put rfl hfs ?_ ?_ (by rw [hmountpoint, hviaFuse]; rfl) h.named h.apart h.idle
  · intro vid
    by_cases hv : vid = rec.id
    · rw [if_pos hv, hv, h.threads, hfuse, VolumeStore.VolumeRecord.fuseAt, hviaFuse]
      rfl
    · rw [if_neg hv]
  · intro vid
    by_cases hv : vid = rec.id
    · rw [if_pos hv, hv, h.sessions, hdirect, hviaDirect]
    · rw [if_neg hv]

theorem Honest.putFs (h : m.Honest) (fsr : VolumeStore.FilesystemRecord) :
    ({ m with store := (m.store.putFs fsr false).1 } : Manager).Honest := by
  have hget : ∀ vid, (m.store.putFs fsr false).1.get vid = m.store.get vid := fun _ => rfl
  refine ⟨⟨h.keyed.volumes, keyed_assign h.keyed.filesystems⟩, ?_, h.threads, h.sessions, h.placed,
    h.named, h.apart, h.idle⟩
  intro v hv
  exact VolumeStore.lookup_assign_isSome (h.referential v hv)

theorem getFs_putFs (s : VolumeStore.JsonVolumeStore) (fsr : VolumeStore.FilesystemRecord) :
    ((s.putFs fsr false).1.getFs fsr.id).isSome := by
  have hlookup : (s.putFs fsr false).1.getFs fsr.id = some fsr := lookup_assign.trans (if_pos rfl)
  rw [hlookup, Option.isSome_some]

theorem createInFile_alike {path name : String} {pin : Option Bytes} {r : Except FsError Unit}
    (h : m.createInFile C M d path name pin = (m', r)) : m'.store = m.store ∧ m.Alike m' := by
  rw [createInFile] at h
  split at h
  · obtain ⟨rfl, -⟩ := Prod.mk.inj h
    exact ⟨rfl, rfl, rfl, rfl, fun _ => rfl⟩
  · split at h
    · obtain ⟨rfl, -⟩ := Prod.mk.inj h
      exact ⟨rfl, rfl, rfl, rfl, fun _ => rfl⟩
    · obtain ⟨rfl, -⟩ := Prod.mk.inj h
      exact ⟨rfl, rfl, rfl, rfl, fun _ => rfl⟩

theorem says_nothing (hnew : m.store.get vid = none) :
    m.saysFuse vid = none ∧ m.saysDirect vid = false := by
  rw [saysFuse, saysDirect, hnew]
  exact ⟨rfl, rfl⟩

theorem Honest.create (h : m.Honest) {body : CreateBody} {w : Drawn}
    (hnew : m.store.get (w.volumes 0) = none) :
    (m.create C M cfg d body w).1.Honest := by
  rw [Manager.create]
  split
  · exact h
  · split
    · exact h
    · split
      · dsimp only
        split
        next heq => exact h.congr (createInFile_alike heq).2
        next m₁ heq =>
          obtain ⟨hstore, halike⟩ := createInFile_alike heq
          rw [← hstore] at hnew
          obtain ⟨hfuse, hdirect⟩ := says_nothing hnew
          exact ((h.congr halike).putFs _).register hfuse hdirect rfl rfl (getFs_putFs _ _)
      · split
        · exact h
        next hfs =>
          split
          · exact h
          · split
            next heq => exact h.congr (createInFile_alike heq).2
            next m₁ heq =>
              obtain ⟨hstore, halike⟩ := createInFile_alike heq
              rw [← hstore] at hnew hfs
              obtain ⟨hfuse, hdirect⟩ := says_nothing hnew
              refine (h.congr halike).register hfuse hdirect rfl rfl ?_
              rw [hfs]
              rfl

variable (ids) in
/-- A record written says nothing of a mount, whichever id it got. -/
theorem Honest.registerAll {u : Upload} {w : Drawn} (rows : List (VolumeRow × ℕ)) (h : m.Honest)
    (hfs : (m.store.getFs w.fs).isSome)
    (hfree : ∀ row ∈ rows, m.saysFuse (w.volumes row.2) = none ∧
      m.saysDirect (w.volumes row.2) = false) :
    (rows.foldl (fun m row => m.put (imported ids u w row.1 row.2)) m).Honest := by
  induction rows generalizing m with
  | nil => exact h
  | cons row rows ih =>
    obtain ⟨hfuse, hdirect⟩ := hfree row List.mem_cons_self
    apply ih (m := m.put (imported ids u w row.1 row.2))
    · exact h.register hfuse hdirect rfl rfl hfs
    · exact hfs
    · intro row' hrow'
      have hold := hfree row' (List.mem_cons_of_mem _ hrow')
      rw [saysFuse, saysDirect] at hold
      rw [saysFuse, saysDirect, get_put]
      by_cases hv : w.volumes row'.2 = (imported ids u w row.1 row.2).id
      · rw [if_pos hv]
        exact ⟨rfl, rfl⟩
      · rw [if_neg hv]
        exact hold

theorem Honest.upload (h : m.Honest) {u : Upload} {w : Drawn}
    (happart : (ManagerCall.upload u w).Apart cfg m) :
    (m.upload ids cfg u w).1.Honest := by
  have hfile : (m.setFiles
      (Function.update m.front.reg.files
        (cfg.aloeliteRoot ++ "/" ++ w.fs ++ ".sqlite") u.file)).Honest :=
    h.congr ⟨rfl, rfl, rfl, fun _ => rfl⟩
  rw [Manager.upload]
  apply (hfile.putFs _).registerAll ids
  · exact getFs_putFs _ _
  · intro row hrow
    exact says_nothing (m := m) (happart row.2 (List.snd_lt_of_mem_zipIdx hrow))

/-! ### Shutdown -/

theorem Honest.stopAll {late : List String} (h : m.Honest)
    (hlate : ∀ t ∈ m.threads, t.mountpoint ∉ late) :
    let m' := m.threads.foldl (fun m t => m.stop C M d t (t.mountpoint ∉ late)) m
    m'.store = m.store ∧ m'.threads = [] ∧ m'.lingering = [] ∧ ∀ vid, m'.front.reg.held vid =
      m.front.reg.held vid := by
  have hfold : ∀ (ts : List FuseThread) (m : Manager), (∀ t ∈ ts, t.mountpoint ∉ late) →
      let m' := ts.foldl (fun m t => m.stop C M d t (t.mountpoint ∉ late)) m
      m'.store = m.store ∧
        m'.threads = m.threads.filter (fun t => ∀ t' ∈ ts, t.mountpoint ≠ t'.mountpoint) ∧
        m'.lingering = m.lingering ∧ ∀ vid, m'.front.reg.held vid = m.front.reg.held vid := by
    intro ts
    induction ts with
    | nil => simp
    | cons t ts ih =>
      intro m hjoin
      have ht : t.mountpoint ∉ late := hjoin t List.mem_cons_self
      have hone : m.stop C M d t (t.mountpoint ∉ late) = m.stop C M d t true := by simp [ht]
      rw [List.foldl_cons, hone]
      obtain ⟨hstore, hthreads, hlingering, hheld⟩ :=
        ih (m.stop C M d t true) (fun t' ht' => hjoin t' (List.mem_cons_of_mem _ ht'))
      refine ⟨hstore, ?_, hlingering, hheld⟩
      have hstop : (m.stop C M d t true).threads =
          m.threads.filter (fun t' => t'.mountpoint ≠ t.mountpoint) := rfl
      rw [hthreads, hstop, List.filter_filter]
      apply List.filter_congr
      intro t' _
      rw [← Bool.decide_and, decide_eq_decide, List.forall_mem_cons]
      exact and_comm
  obtain ⟨hstore, hthreads, hlingering, hheld⟩ := hfold m.threads m hlate
  refine ⟨hstore, ?_, hlingering.trans h.idle, hheld⟩
  rw [hthreads, List.filter_eq_nil_iff]
  intro t ht hall
  exact of_decide_eq_true hall t ht rfl

/-- The records marked, one after the other. -/
theorem clearAll (recs : List VolumeStore.VolumeRecord) (hk : m.store.mem.Keyed)
    (hr : m.store.mem.Referential) (hfs : ∀ rec ∈ recs, (m.store.getFs rec.fsId).isSome)
    (hplaced : ∀ rec ∈ m.store.list, rec.mounted = false → rec.mountpoint = none)
    (hcover : ∀ rec ∈ m.store.list, rec ∈ recs ∨ rec.mounted = false) :
    let m' := recs.foldl (fun m rec => if rec.mounted then
      m.put { rec with mounted := false, mountpoint := none } else m) m
    m'.front = m.front ∧ m'.threads = m.threads ∧ m'.lingering = m.lingering ∧ m'.store.mem.Keyed ∧
      m'.store.mem.Referential ∧
      ∀ rec ∈ m'.store.list, rec.mounted = false ∧ rec.mountpoint = none := by
  induction recs generalizing m with
  | nil =>
    refine ⟨rfl, rfl, rfl, hk, hr, ?_⟩
    intro rec hrec
    have hunmounted := (hcover rec hrec).resolve_left List.not_mem_nil
    exact ⟨hunmounted, hplaced rec hrec hunmounted⟩
  | cons rec recs ih =>
    rw [List.foldl_cons]
    cases hmounted : rec.mounted with
    | false =>
      rw [if_neg (by decide)]
      apply ih hk hr (fun rec' hrec' => hfs rec' (List.mem_cons_of_mem _ hrec')) hplaced
      intro rec' hrec'
      rcases hcover rec' hrec' with hin | hin
      · rcases List.mem_cons.mp hin with rfl | hin
        · exact Or.inr hmounted
        · exact Or.inl hin
      · exact Or.inr hin
    | true =>
      rw [if_pos rfl]
      let off : VolumeStore.VolumeRecord := { rec with mounted := false, mountpoint := none }
      have hlist : ∀ rec' ∈ (m.put off).store.list, rec' = off ∨ rec' ∈ m.store.list :=
        fun _ hrec' => mem_assign hrec'
      have hkeyed : (m.put off).store.mem.Keyed := ⟨keyed_assign hk.volumes, hk.filesystems⟩
      apply ih (m := m.put off) hkeyed
      · intro v hv
        rcases mem_assign hv with rfl | hv
        · exact hfs rec List.mem_cons_self
        · exact hr v hv
      · intro rec' hrec'
        exact hfs rec' (List.mem_cons_of_mem _ hrec')
      · intro rec' hrec' hunmounted
        rcases hlist rec' hrec' with rfl | hold
        · rfl
        · exact hplaced rec' hold hunmounted
      · intro rec' hrec'
        rcases hlist rec' hrec' with rfl | hold
        · exact Or.inr rfl
        · rcases hcover rec' hold with hin | hin
          · rcases List.mem_cons.mp hin with heq | hin
            · -- the record itself was written over
              have hself : (m.put off).store.get rec'.id = some rec' :=
                lookup_eq_some_of_mem hkeyed.volumes hrec'
              rw [get_put, heq, if_pos rfl] at hself
              rw [heq, ← Option.some.inj hself]
              exact Or.inr rfl
            · exact Or.inl hin
          · exact Or.inr hin

theorem honest_of_unmounted (hkeyed : m.store.mem.Keyed) (hreferential : m.store.mem.Referential)
    (hoff : ∀ rec ∈ m.store.list, rec.mounted = false ∧ rec.mountpoint = none)
    (hthreads : m.threads = []) (hlingering : m.lingering = [])
    (hsessions : ∀ vid, m.front.reg.sessions vid = none) :
    m.Honest := by
  have hnothing : ∀ vid rec, m.store.get vid = some rec → rec.mounted = false ∧ rec.mountpoint =
      none :=
    fun vid rec hrec => hoff rec (mem_of_lookup hrec)
  refine ⟨hkeyed, hreferential, ?_, ?_, ?_, ?_, ?_, hlingering⟩
  · intro vid
    rw [threadsOf, hthreads]
    cases hrec : m.store.get vid with
    | none =>
      rw [(says_nothing hrec).1]
      rfl
    | some rec =>
      simp [saysFuse, hrec, VolumeStore.VolumeRecord.fuseAt, VolumeStore.VolumeRecord.viaFuse,
        (hnothing vid rec hrec).1]
  · intro vid
    rw [held, hsessions]
    cases hrec : m.store.get vid with
    | none => exact (says_nothing hrec).2.symm
    | some rec => simp [saysDirect, hrec, VolumeStore.VolumeRecord.viaDirect,
      (hnothing vid rec hrec).1]
  · intro vid rec hrec
    obtain ⟨hunmounted, hmountpoint⟩ := hnothing vid rec hrec
    rw [hmountpoint, VolumeStore.VolumeRecord.viaFuse, hunmounted]
    rfl
  · intro t ht
    rw [hthreads] at ht
    cases ht
  · rw [hthreads]
    exact List.Pairwise.nil

theorem Honest.shutdown (h : m.Honest) {late : List String}
    (hlate : ∀ t ∈ m.threads, t.mountpoint ∉ late) :
    (m.shutdown C M d late).Honest := by
  obtain ⟨hstore, hthreads, hlingering, -⟩ := h.stopAll (C := C) (M := M) (d := d) hlate
  rw [Manager.shutdown]
  generalize m.threads.foldl (fun m t => m.stop C M d t (t.mountpoint ∉ late)) m =
    m₁ at hstore hthreads hlingering ⊢
  obtain ⟨-, hthreads', hlingering', hkeyed, hreferential, hoff⟩ : _ :=
    clearAll (m := m₁) m₁.store.list
    (by rw [hstore]; exact h.keyed) (by rw [hstore]; exact h.referential)
    (by
      intro rec hrec
      rw [hstore] at hrec ⊢
      exact h.referential rec hrec)
    (by
      intro rec hrec hunmounted
      rw [hstore] at hrec
      have hself : m.store.get rec.id = some rec := lookup_eq_some_of_mem h.keyed.volumes hrec
      have hplaced := h.placed rec.id rec hself
      rw [VolumeStore.VolumeRecord.viaFuse, hunmounted, Bool.false_and] at hplaced
      exact Option.isNone_iff_eq_none.mp (Option.isSome_eq_false_iff.mp hplaced))
    (fun rec hrec => Or.inl hrec)
  generalize m₁.store.list.foldl (fun m rec => if rec.mounted then
    m.put { rec with mounted := false, mountpoint := none } else m)
    m₁ = m₂ at hthreads' hlingering' hkeyed hreferential hoff ⊢
  exact honest_of_unmounted hkeyed hreferential hoff (hthreads'.trans hthreads)
    (hlingering'.trans hlingering) (fun _ => rfl)

end Manager

end Aloelite
