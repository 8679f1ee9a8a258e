import Aloelite.RegistryRosters

/-! What the calls of the manager that make and forget no volume leave: the records with their
names and files, and, where one opens the volume of a record, the volume that was made for it. -/
namespace Aloelite

open KeyedRows Dicts Fallible

variable {C : Crypto} {M : Msgpack} {ids : IdSpelling} {hash : Bytes → Bytes}
  {cfg : ManagerConfig} {d : Draws} {s s' : Sys} {c : ConnId} {name : String} {v : VolumeId}
  {pin : Option Bytes} {db : Db}

/-! ### Calls that make and forget no volume -/

namespace Manager

variable {m m' m'' : Manager} {rec rec' : VolumeStore.VolumeRecord} {path vid fid : String}
  {t : FuseThread} {joined : Bool}

/-- What of a record says which volume it is for. -/
def tag (rec : VolumeStore.VolumeRecord) : String × String × String := (rec.id, rec.name, rec.fsId)

/-- `_sqlite_path` -/
def fsPath (cfg : ManagerConfig) (fid : String) : String :=
  cfg.aloeliteRoot ++ "/" ++ fid ++ ".sqlite"

/-- The records, their files and the volumes in these stay; a new session is of a record, in
its file. -/
structure Keeps (cfg : ManagerConfig) (m m' : Manager) : Prop where
  tags : m'.store.mem.volumes.map tag = m.store.mem.volumes.map tag
  filesystems : m'.store.mem.filesystems = m.store.mem.filesystems
  files : ∀ p, KeepsRoster (m.front.reg.files p) (m'.front.reg.files p)
  sessions : ∀ i e', m'.front.reg.sessions i = some e' →
    (∃ e, m.front.reg.sessions i = some e ∧ e.path = e'.path) ∨ ∃ rec ∈ m.store.list, rec.id = i ∧
    e'.path = fsPath cfg rec.fsId

theorem Keeps.refl (m : Manager) : m.Keeps cfg m :=
  ⟨rfl, rfl, fun _ => KeepsRoster.refl _, fun _ e he => Or.inl ⟨e, he, rfl⟩⟩

theorem Keeps.exists_tag (h : m.Keeps cfg m') (hrec : rec ∈ m'.store.list) :
    ∃ old ∈ m.store.list, tag old = tag rec := by
  have hmem : tag rec ∈ m'.store.mem.volumes.map tag := List.mem_map_of_mem hrec
  rw [h.tags] at hmem
  exact List.mem_map.mp hmem

theorem Keeps.trans (h : m.Keeps cfg m') (h' : m'.Keeps cfg m'') : m.Keeps cfg m'' := by
  refine ⟨h'.tags.trans h.tags, h'.filesystems.trans h.filesystems, fun p =>
    (h.files p).trans (h'.files p), ?_⟩
  intro i e'' he''
  rcases h'.sessions i e'' he'' with ⟨e', he', hpath'⟩ | ⟨rec, hrec, hid, hown⟩
  · rcases h.sessions i e' he' with ⟨e, he, hpath⟩ | ⟨rec, hrec, hid, hown⟩
    · exact Or.inl ⟨e, he, hpath.trans hpath'⟩
    · exact Or.inr ⟨rec, hrec, hid, hpath'.symm.trans hown⟩
  · obtain ⟨old, hold, htag⟩ := h.exists_tag hrec
    obtain ⟨hid', -, hfs⟩ : old.id = rec.id ∧ old.name = rec.name ∧ old.fsId = rec.fsId := by
      simpa [tag] using htag
    refine Or.inr ⟨old, hold, hid'.trans hid, ?_⟩
    rw [hown, hfs]

/-- A record is written over by one for the same volume. -/
theorem Keeps.put (h : m.Keeps cfg m') (rec : VolumeStore.VolumeRecord)
    (hget : m'.store.get rec.id = some rec') (htag : tag rec = tag rec') :
    m.Keeps cfg (m'.put rec) := by
  apply h.trans
  exact ⟨map_assign hget htag, rfl, fun _ => KeepsRoster.refl _, fun _ e he => Or.inl ⟨e, he, rfl⟩⟩

theorem Keeps.setFiles {files : String → Sys}
    (h : ∀ p, KeepsRoster (m.front.reg.files p) (files p)) :
    m.Keeps cfg (m.setFiles files) :=
  ⟨rfl, rfl, h, fun _ e he => Or.inl ⟨e, he, rfl⟩⟩

/-- What a registry call that keeps the volumes does to the manager. -/
theorem Keeps.of_reg (front : DavFront) (hrec : rec ∈ m.store.list)
    (h : m.front.reg.Keeps front.reg rec.id (fsPath cfg rec.fsId)) :
    m.Keeps cfg { m with front := front } := by
  refine ⟨rfl, rfl, h.files, ?_⟩
  intro i e' he'
  rcases h.sessions i e' he' with hold | ⟨rfl, hpath⟩
  · exact Or.inl hold
  · exact Or.inr ⟨rec, hrec, rfl, hpath⟩

/-- The same where no session comes up. -/
theorem Keeps.of_reg_old {reg : DirectSessionRegistry} (h : m.front.reg.KeepsOld reg) :
    m.Keeps cfg (m.setReg reg) :=
  ⟨rfl, rfl, h.files, fun i e' he' => Or.inl (h.sessions i e' he')⟩

theorem fuseEnd_keepsRoster {files : String → Sys} (t : FuseThread) (p : String) :
    KeepsRoster (files p) (fuseEnd C M d files t p) :=
  DirectSessionRegistry.keepsRoster_update (exec_keepsRoster rfl) p

theorem addPendingUnmount_mem (store : VolumeStore.JsonVolumeStore) (mp : String) :
    (store.addPendingUnmount mp false).1.mem.volumes = store.mem.volumes ∧
      (store.addPendingUnmount mp false).1.mem.filesystems = store.mem.filesystems := by
  rw [VolumeStore.JsonVolumeStore.addPendingUnmount]
  split
  · exact ⟨rfl, rfl⟩
  · exact ⟨rfl, rfl⟩

theorem stop_keeps : m.Keeps cfg (m.stop C M d t joined) := by
  rw [stop]
  split
  · exact ⟨rfl, rfl, fuseEnd_keepsRoster t, fun _ e he => Or.inl ⟨e, he, rfl⟩⟩
  · obtain ⟨hvolumes, hfilesystems⟩ := addPendingUnmount_mem m.store t.mountpoint
    refine ⟨congrArg _ hvolumes, hfilesystems, fun _ => KeepsRoster.refl _, fun _ e he =>
      Or.inl ⟨e, he, rfl⟩⟩

theorem stop_get : (m.stop C M d t joined).store.get vid = m.store.get vid := by
  rw [stop]
  split
  · rfl
  · exact congrArg (fun rows => lookup VolumeStore.VolumeRecord.id rows vid)
      (addPendingUnmount_mem m.store t.mountpoint).1

theorem supervisorUnmount_keeps {r : Except ℕ Unit}
    (h : m.supervisorUnmount C M cfg d rec joined = some (m', r)) :
    m.Keeps cfg m' ∧ ∀ vid, m'.store.get vid = m.store.get vid := by
  rw [supervisorUnmount] at h
  split at h
  · cases h
  · dsimp only at h
    split at h
    · obtain ⟨rfl, -⟩ := Prod.mk.inj (Option.some.inj h)
      exact ⟨stop_keeps, fun _ => stop_get⟩
    · obtain ⟨rfl, -⟩ := Prod.mk.inj (Option.some.inj h)
      exact ⟨stop_keeps, fun _ => stop_get⟩

theorem lock_keeps {record : VolumeRecord} :
    m.Keeps cfg (m.setReg (m.front.reg.lock C M d record).1) :=
  Keeps.of_reg_old DirectSessionRegistry.lock_keeps

theorem detach_keeps {record : VolumeRecord} {token : Token} :
    m.Keeps cfg (m.setReg (m.front.reg.detach C M d record token).1) :=
  Keeps.of_reg_old DirectSessionRegistry.detach_keeps

theorem release_keeps : m.Keeps cfg (m.release C M cfg d rec joined) ∧
    ∀ vid, (m.release C M cfg d rec joined).store.get vid = m.store.get vid := by
  rw [release]
  split
  · exact ⟨lock_keeps, fun _ => rfl⟩
  · split
    · exact ⟨Keeps.refl m, fun _ => rfl⟩
    next heq => exact supervisorUnmount_keeps heq

variable (rec) in
theorem unmountDirect_keeps (client : Detach) :
    m.Keeps cfg (m.unmountDirect C M cfg d rec client).1 ∧
    (m.unmountDirect C M cfg d rec client).1.store = m.store := by
  rw [unmountDirect]
  split
  next token _ =>
    have hdetach : m.Keeps cfg (m.setReg (m.front.reg.detach C M d (opened rec "") token).1) :=
      detach_keeps
    split
    · split
      all_goals
        next heq =>
          rw [heq] at hdetach
          exact ⟨hdetach, rfl⟩
    · exact ⟨Keeps.refl m, rfl⟩
  · have hlock : m.Keeps cfg (m.setReg (m.front.reg.lock C M d (opened rec "")).1) := lock_keeps
    split
    all_goals
      next heq =>
        rw [heq] at hlock
        exact ⟨hlock, rfl⟩

theorem unmount_keeps {client : Detach} :
    m.Keeps cfg (m.unmount C M cfg d vid client joined).1 := by
  rw [unmount]
  split
  · exact Keeps.refl m
  next rec hget =>
    obtain rfl := key_of_lookup hget
    split
    · obtain ⟨hkeeps, hstore⟩ := unmountDirect_keeps (C := C) (M := M) (d := d) (m := m) rec client
      split
      next heq =>
        rw [heq] at hkeeps
        exact hkeeps
      next m₁ heq =>
        rw [heq] at hkeeps hstore
        have hthere : m₁.store.get rec.id = some rec := by
          rw [show m₁.store = m.store from hstore]
          exact hget
        exact hkeeps.put (cleared rec) hthere rfl
    · split
      · exact Keeps.refl m
      next heq => exact (supervisorUnmount_keeps heq).1
      next m₁ heq =>
        obtain ⟨hkeeps, hstore⟩ := supervisorUnmount_keeps heq
        exact hkeeps.put (cleared rec) ((hstore rec.id).trans hget) rfl

/-! ### Calls that open a record's volume -/

/-- The volume of a record is `v`: its file is there, and `v` has the record's name in it. -/
structure Serves (ids : IdSpelling) (cfg : ManagerConfig) (m : Manager)
    (rec : VolumeStore.VolumeRecord) (v : VolumeId) : Prop where
  there : m.store.get rec.id = some rec
  path : m.store.sqlitePathOf rec = .ok (fsPath cfg rec.fsId)
  suits : m.front.reg.Suits ids (opened rec (fsPath cfg rec.fsId)) (fsPath cfg rec.fsId) v

theorem Serves.mem (h : m.Serves ids cfg rec v) : rec ∈ m.store.list := mem_of_lookup h.there

theorem Serves.unlock (h : m.Serves ids cfg rec v) {reg : DirectSessionRegistry}
    {r : Except ManagerError Token}
    (hunlock : m.front.reg.unlock C M ids.read d (opened rec (fsPath cfg rec.fsId)) pin =
      (reg, r)) : m.Keeps cfg (m.setReg reg) := by
  have hkeeps := DirectSessionRegistry.unlock_keeps (C := C) (M := M) (d := d) pin h.suits
  rw [hunlock] at hkeeps
  exact Keeps.of_reg { m.front with reg := reg } h.mem hkeeps

theorem Serves.attach (h : m.Serves ids cfg rec v) {reg : DirectSessionRegistry}
    {r : Except ManagerError Token}
    (hattach : m.front.reg.attach C M ids.read d (opened rec "") pin = (reg, r)) :
    m.Keeps cfg (m.setReg reg) := by
  have hkeeps := DirectSessionRegistry.attach_keeps (C := C) (M := M) (d := d) pin h.suits
  -- a session that is there is not asked for its file again
  have hsame : m.front.reg.attach C M ids.read d (opened rec (fsPath cfg rec.fsId)) pin =
      m.front.reg.attach C M ids.read d (opened rec "") pin := rfl
  rw [hsame, hattach] at hkeeps
  exact Keeps.of_reg { m.front with reg := reg } h.mem hkeeps

theorem Serves.mountDirect (h : m.Serves ids cfg rec v) {body : MountBody} :
    m.Keeps cfg (m.mountDirect C M ids cfg d rec body).1 := by
  rw [Manager.mountDirect]
  split
  · exact Keeps.refl m
  · split
    · split
      next heq => exact h.attach heq
      next heq => exact (h.attach heq).put (markDirect rec) h.there rfl
    · rw [h.path]
      dsimp only
      split
      next heq => exact h.unlock heq
      next heq => exact (h.unlock heq).put (markDirect rec) h.there rfl

theorem Serves.supervisorMount (h : m.Serves ids cfg rec v) {start : FuseStart}
    {r : Except ℕ String} (hmount : m.supervisorMount C M ids cfg d rec pin name start = (m', r)) :
    m.Keeps cfg m' ∧ m'.store = m.store := by
  rw [Manager.supervisorMount, h.path] at hmount
  have hmem : (v, some rec.name) ∈ (m.front.reg.files (fsPath cfg rec.fsId)).db.roster :=
    h.suits.mem
  have hopens := fuseMount_opens (C := C) (M := M) (d := d) (c := m.front.reg.opened)
    (s := (m.front.reg.files (fsPath cfg rec.fsId)).setConn m.front.reg.opened {}) pin h.suits.names
      hmem
  have hkeeps := hopens.keeps
  dsimp only at hmount
  split at hmount
  · obtain ⟨rfl, -⟩ := Prod.mk.inj hmount
    exact ⟨Keeps.refl m, rfl⟩
  · split at hmount
    · obtain ⟨rfl, -⟩ := Prod.mk.inj hmount
      exact ⟨Keeps.refl m, rfl⟩
    · split at hmount
      next s' _ heq =>
        have hfile : KeepsRoster (m.front.reg.files (fsPath cfg rec.fsId)) s' := by
          rw [heq] at hkeeps
          exact hkeeps
        have hfiles := DirectSessionRegistry.keepsRoster_update hfile
        split at hmount
        · obtain ⟨rfl, -⟩ := Prod.mk.inj hmount
          exact ⟨⟨rfl, rfl, hfiles, fun _ e he => Or.inl ⟨e, he, rfl⟩⟩, rfl⟩
        · obtain ⟨rfl, -⟩ := Prod.mk.inj hmount
          exact ⟨⟨rfl, rfl, hfiles, fun _ e he => Or.inl ⟨e, he, rfl⟩⟩, rfl⟩
      next s' mount heq =>
        have hfile : KeepsRoster (m.front.reg.files (fsPath cfg rec.fsId)) s' := by
          rw [heq] at hkeeps
          exact hkeeps
        have hfiles := DirectSessionRegistry.keepsRoster_update hfile
        have hended : ∀ (t : FuseThread) p, KeepsRoster (m.front.reg.files p)
            (fuseEnd C M d (Function.update m.front.reg.files (fsPath cfg rec.fsId) s') t p) :=
          fun t p => (hfiles p).trans (fuseEnd_keepsRoster t p)
        split at hmount
        · obtain ⟨rfl, -⟩ := Prod.mk.inj hmount
          exact ⟨⟨rfl, rfl, hfiles, fun _ e he => Or.inl ⟨e, he, rfl⟩⟩, rfl⟩
        · obtain ⟨rfl, -⟩ := Prod.mk.inj hmount
          exact ⟨⟨rfl, rfl, hfiles, fun _ e he => Or.inl ⟨e, he, rfl⟩⟩, rfl⟩
        · obtain ⟨rfl, -⟩ := Prod.mk.inj hmount
          exact ⟨⟨rfl, rfl, hended _, fun _ e he => Or.inl ⟨e, he, rfl⟩⟩, rfl⟩
        · obtain ⟨rfl, -⟩ := Prod.mk.inj hmount
          exact ⟨⟨rfl, rfl, hended _, fun _ e he => Or.inl ⟨e, he, rfl⟩⟩, rfl⟩

theorem Serves.mountFuse (h : m.Serves ids cfg rec v) {body : MountBody} {start : FuseStart} :
    m.Keeps cfg (m.mountFuse C M ids cfg d rec body start).1 := by
  rw [Manager.mountFuse]
  split
  next heq => exact (h.supervisorMount heq).1
  next m₁ mountpoint heq =>
    obtain ⟨hkeeps, hstore⟩ := h.supervisorMount heq
    have hthere : m₁.store.get rec.id = some rec := by
      rw [hstore]
      exact h.there
    split
    · split
      · exact hkeeps.put (markFuse rec mountpoint) hthere rfl
      · exact hkeeps.put { markFuse rec mountpoint with
          autoMount := true, mountName := body.mountName, pinEnv := body.pinEnv, pinFile :=
            body.pinFile } hthere rfl
    · exact hkeeps.put (markFuse rec mountpoint) hthere rfl

theorem Keeps.markMounted (h : m.Keeps cfg m') (hget : m'.store.get rec.id = some rec) :
    m.Keeps cfg (m'.markMounted rec) := by
  rw [Manager.markMounted]
  split
  · exact h
  · exact h.put (markDirect rec) hget rfl

theorem Serves.dav (h : m.Serves ids cfg rec v) (hfound : m.requireVolume vid = .ok rec) :
    m.Keeps cfg (m.dav C M ids hash d vid pin).1 := by
  have htoken := DavFront.sessionToken_keeps (C := C) (M := M) (d := d)
      (f := m.front) hash pin rec.encrypted h.suits
  rw [Manager.dav, hfound]
  simp only [h.path]
  split
  next heq =>
    rw [heq] at htoken
    exact Keeps.of_reg _ h.mem htoken
  next front token heq =>
    rw [heq] at htoken
    have hkeeps : m.Keeps cfg { m with front := front } := Keeps.of_reg _ h.mem htoken
    have hmarked : m.Keeps cfg (if m.remembered hash rec pin = true then { m with front := front }
        else ({ m with front := front } : Manager).markMounted rec) := by
      split
      · exact hkeeps
      · exact hkeeps.markMounted h.there
    split
    · exact hmarked
    · exact hmarked

theorem Serves.s3 (h : m.Serves ids cfg rec v) {bucket : String} {mayAccess : Bool}
    (hfound : m.store.list.find? (fun r => r.name = bucket) = some rec) :
    m.Keeps cfg (m.s3 C M ids d bucket mayAccess).1 := by
  rw [Manager.s3]
  split
  · exact Keeps.refl m
  · rw [hfound]
    dsimp only
    split
    · exact Keeps.refl m
    · split
      · exact (Keeps.refl m).markMounted h.there
      · split
        · exact Keeps.refl m
        · rw [h.path]
          dsimp only
          split
          next heq => exact (h.unlock heq).markMounted h.there
          next heq => exact (h.unlock heq).markMounted h.there
          next heq => exact h.unlock heq

theorem Keeps.keyed (h : m.Keeps cfg m') (hk : m.store.mem.Keyed) : m'.store.mem.Keyed := by
  refine ⟨?_, ?_⟩
  · have hids : m'.store.mem.volumes.map VolumeStore.VolumeRecord.id =
        m.store.mem.volumes.map VolumeStore.VolumeRecord.id := by
      have hfst := congrArg (List.map Prod.fst) h.tags
      rw [List.map_map, List.map_map] at hfst
      exact hfst
    rw [KeyedRows.Keyed, hids]
    exact hk.volumes
  · rw [h.filesystems]
    exact hk.filesystems

/-- A record is still there, as far as its volume goes. -/
theorem Keeps.get (h : m.Keeps cfg m') (hk : m.store.mem.Keyed) (hrec : rec ∈ m.store.list) :
    ∃ rec', m'.store.get rec.id = some rec' ∧ tag rec = tag rec' := by
  have hmem : tag rec ∈ m.store.mem.volumes.map tag := List.mem_map_of_mem hrec
  rw [← h.tags] at hmem
  obtain ⟨rec', hrec', htag⟩ := List.mem_map.mp hmem
  have hid : rec'.id = rec.id := congrArg Prod.fst htag
  refine ⟨rec', ?_, htag.symm⟩
  rw [← hid]
  exact lookup_eq_some_of_mem (h.keyed hk).volumes hrec'

theorem shutdown_keeps (hk : m.store.mem.Keyed) {late : List String} :
    m.Keeps cfg (m.shutdown C M d late) := by
  have hstop : ∀ (ts : List FuseThread) (m' : Manager), m.Keeps cfg m' →
      m.Keeps cfg (ts.foldl (fun m t => m.stop C M d t (t.mountpoint ∉ late)) m') := by
    intro ts
    induction ts with
    | nil => exact fun m' h => h
    | cons t ts ih => exact fun m' h => ih _ (h.trans stop_keeps)
  have hclear : ∀ (m₁ : Manager), m₁.store.mem.Keyed →
      ∀ (recs : List VolumeStore.VolumeRecord) (m' : Manager),
      (∀ rec ∈ recs, rec ∈ m₁.store.list) → m₁.Keeps cfg m' → m₁.Keeps cfg (recs.foldl (fun m rec =>
        if rec.mounted then m.put { rec with mounted := false, mountpoint := none }
          else m) m') := by
    intro m₁ hk₁ recs
    induction recs with
    | nil => exact fun m' _ h => h
    | cons rec recs ih =>
      intro m' hrecs h
      rw [List.foldl_cons]
      apply ih _ (fun r hr => hrecs r (List.mem_cons_of_mem _ hr))
      split
      · obtain ⟨rec', hget, htag⟩ := h.get hk₁ (hrecs rec List.mem_cons_self)
        exact h.put { rec with mounted := false, mountpoint := none } hget htag
      · exact h
  have hlock : ∀ (recs : List VolumeStore.VolumeRecord) (g g' : DirectSessionRegistry),
      g.KeepsOld g' →
      g.KeepsOld (recs.foldl (fun reg rec => (reg.lock C M d (opened rec "")).1) g') := by
    intro recs
    induction recs with
    | nil => exact fun g g' h => h
    | cons rec recs ih => exact fun g g' h => ih g _ (h.trans DirectSessionRegistry.lock_keeps)
  rw [shutdown]
  have hstopped := hstop m.threads m (Keeps.refl m)
  generalize m.threads.foldl (fun m t => m.stop C M d t (t.mountpoint ∉ late)) m = m₁ at hstopped ⊢
  have hcleared := hclear m₁ (hstopped.keyed hk) m₁.store.list m₁ (fun _ h => h) (Keeps.refl m₁)
  generalize m₁.store.list.foldl (fun m rec => if rec.mounted then
    m.put { rec with mounted := false, mountpoint := none } else m)
    m₁ = m₂ at hcleared ⊢
  have hlocked := hlock m₂.store.list m₂.front.reg m₂.front.reg
      (DirectSessionRegistry.KeepsOld.refl _)
  apply (hstopped.trans hcleared).trans
  apply Keeps.of_reg_old
  refine ⟨hlocked.files, ?_⟩
  intro i e' he'
  cases he'

end Manager

end Aloelite
