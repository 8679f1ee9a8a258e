import Aloelite.RecordBooks

/-! Volumes that are made or come with an upload, with the records entered for them. -/
namespace Aloelite

open KeyedRows Dicts Fallible

variable {C : Crypto} {M : Msgpack} {ids : IdSpelling} {cfg : ManagerConfig} {d : Draws} {E : Env}
  {s s' : Sys} {c : ConnId} {op : Op} {name : String} {v : VolumeId} {pin : Option Bytes}
  {db : Db}

theorem createVolume_roster {chunkSize : ℕ} {mode : EncMode} (hs : s.db.Sound)
    (h : exec C M E s c (.createVolume (some name) chunkSize pin mode) = (s', .ok r)) :
    s'.db.Sound ∧ s'.db.roster = s.db.roster ++ [(E.uuid, some name)] := by
  have hsound : (exec C M E s c (.createVolume (some name) chunkSize pin mode)).1.db.Sound :=
    step_sound (l := ⟨E, c, .createVolume (some name) chunkSize pin mode⟩) hs
  rw [h] at hsound
  refine ⟨hsound, ?_⟩
  simp only [exec] at h
  cases hb : createVolume C E s.begin (some name) chunkSize pin mode with
  | error e =>
    rw [hb] at h
    cases (Prod.mk.inj h).2
  | ok q =>
    obtain ⟨tx, v⟩ := q
    rw [hb] at h
    obtain ⟨rfl, -⟩ := Prod.mk.inj h
    obtain ⟨rfl, -, -, -, hvolumes, -, -, -⟩ := createVolume_shape hb
    change tx.db.volumes.map _ = _
    rw [hvolumes, List.map_append]
    rfl

theorem createVolume_error {chunkSize : ℕ} {mode : EncMode} {e : FsError}
    (h : exec C M E s c (.createVolume (some name) chunkSize pin mode) = (s', .error e)) :
    s' = s := by
  simp only [exec] at h
  cases hb : createVolume C E s.begin (some name) chunkSize pin mode with
  | error e' =>
    rw [hb] at h
    exact (Prod.mk.inj h).1.symm
  | ok q =>
    rw [hb] at h
    cases (Prod.mk.inj h).2

theorem unresolved_name (h : (resolveVolumeName db name).isSome = false) (v : VolumeId) :
    (v, some name) ∉ db.roster := by
  intro hmem
  obtain ⟨row, hrow, -, hname⟩ := mem_roster.mp hmem
  have hin : row ∈ db.volumes.filter (fun r => r.name = some name) :=
    List.mem_filter.mpr ⟨hrow, decide_eq_true hname⟩
  rw [Option.isSome_eq_false_iff, Option.isNone_iff_eq_none, resolveVolumeName_eq_none] at h
  rw [h] at hin
  cases hin

namespace Manager

variable {m m' : Manager} {path : String}

theorem createInFile_error {e : FsError} (h : m.createInFile C M d path name pin = (m', .error e)) :
    m.Keeps cfg m' := by
  rw [createInFile] at h
  split at h
  · obtain ⟨rfl, -⟩ := Prod.mk.inj h
    exact ⟨rfl, rfl, fun _ => KeepsRoster.refl _, fun _ e he => Or.inl ⟨e, he, rfl⟩⟩
  · split at h
    · cases (Prod.mk.inj h).2
    next heq =>
      obtain ⟨rfl, -⟩ := Prod.mk.inj h
      have hsame := createVolume_error heq
      subst hsame
      exact ⟨rfl, rfl, DirectSessionRegistry.keepsRoster_update (fun hs => ⟨hs, rfl⟩), fun _ e he =>
        Or.inl ⟨e, he, rfl⟩⟩

theorem createInFile_ok (hs : (m.front.reg.files path).db.Sound)
    (h : m.createInFile C M d path name pin = (m', .ok ())) :
    m'.store = m.store ∧ m'.front.reg.sessions = m.front.reg.sessions ∧
      (∀ v, (v, some name) ∉ (m.front.reg.files path).db.roster) ∧
        ∃ s', m'.front.reg.files = Function.update m.front.reg.files path s' ∧ s'.db.Sound ∧
          s'.db.roster = (m.front.reg.files path).db.roster ++ [(d.create.uuid, some name)] := by
  rw [createInFile] at h
  split at h
  · cases (Prod.mk.inj h).2
  next hnone =>
    split at h
    next s' _ heq =>
      obtain ⟨rfl, -⟩ := Prod.mk.inj h
      obtain ⟨hsound, hroster⟩ :=
        createVolume_roster (s := (m.front.reg.files path).setConn m.front.reg.opened {}) hs heq
      exact ⟨rfl, rfl, unresolved_name (Bool.eq_false_iff.mpr hnone), s', rfl, hsound, hroster⟩
    · cases (Prod.mk.inj h).2

end Manager

theorem WellNamed.snoc {roster : List (VolumeId × Option String)} (h : WellNamed ids roster)
    (hname : name ≠ "")
    (hnew : ∀ w, (w, some name) ∉ roster) (hown : name ≠ ids.text v)
    (hunspelt : ∀ p ∈ roster, name ≠ ids.text p.1 ∧ p.2 ≠ some (ids.text v)) :
    WellNamed ids (roster ++ [(v, some name)]) := by
  refine ⟨?_, ?_, ?_⟩
  · intro p hp
    rcases List.mem_append.mp hp with hp | hp
    · exact h.named p hp
    · rw [List.mem_singleton.mp hp]
      exact ⟨name, hname, rfl⟩
  · rw [List.map_append, List.nodup_append]
    refine ⟨h.distinct, List.nodup_singleton _, ?_⟩
    intro x hx y hy heq
    obtain ⟨p, hp, rfl⟩ := List.mem_map.mp hx
    have hlast : y = some name := List.mem_singleton.mp hy
    apply hnew p.1
    rw [← hlast, ← heq]
    exact hp
  · intro p hp q hq
    rcases List.mem_append.mp hp with hp | hp
    · rcases List.mem_append.mp hq with hq | hq
      · exact h.unspelt p hp q hq
      · rw [List.mem_singleton.mp hq]
        exact (hunspelt p hp).2
    · rw [List.mem_singleton.mp hp]
      rcases List.mem_append.mp hq with hq | hq
      · exact fun heq => (hunspelt q hq).1 (Option.some.inj heq)
      · rw [List.mem_singleton.mp hq]
        exact fun heq => hown (Option.some.inj heq)

/-- An id no record has and no session is under. -/
def Manager.Unused (m : Manager) (vid : String) : Prop :=
  m.store.get vid = none ∧ m.front.reg.sessions vid = none

/-- Ids drawn are new; a volume is made, and a file comes, with names of its own that are not
how ids are written; handlers make no volumes. -/
def ManagerCall.Named (ids : IdSpelling) (cfg : ManagerConfig) (b : Book) (d : Draws) :
    ManagerCall → Prop
  | .create body w =>
    b.m.Unused (w.volumes 0) ∧ (body.fsId = none → b.m.store.getFs w.fs = none) ∧
      body.name ≠ ids.text d.create.uuid ∧
      ∀ p ∈ (b.fileOf cfg (body.fsId.getD w.fs)).db.roster, body.name ≠ ids.text p.1 ∧
      p.2 ≠ some (ids.text d.create.uuid)
  | .upload u w =>
    b.m.store.getFs w.fs = none ∧ u.file.db.Sound ∧ WellNamed ids u.file.db.roster ∧
      ((List.range u.file.db.volumes.length).map w.volumes).Nodup ∧ ∀ i < u.file.db.volumes.length,
      b.m.Unused (w.volumes i)
  | .work _ ls => ∀ l ∈ ls, l.op.founds = false
  | _ => True

namespace Book

variable {b : Book} {fid : String}

theorem fsPath_inj {fid fid' : String} (h : Manager.fsPath cfg fid = Manager.fsPath cfg fid') :
    fid = fid' := by
  have hlist := congrArg String.toList h
  simp only [Manager.fsPath, String.toList_append, List.append_assoc, List.append_cancel_left_eq,
    List.append_cancel_right_eq] at hlist
  exact String.toList_inj.mp hlist

/-- A volume is made for a new record of a filesystem that is there. -/
theorem Matched.create (h : b.Matched ids cfg) {m₁ : Manager} (rec : VolumeStore.VolumeRecord)
    (hfs : (b.m.store.getFs rec.fsId).isSome) (hunused : b.m.Unused rec.id)
    (hcreated : b.m.createInFile C M d (Manager.fsPath cfg rec.fsId) rec.name pin = (m₁, .ok ()))
    (hname : rec.name ≠ "")
    (hown : rec.name ≠ ids.text d.create.uuid)
    (hunspelt : ∀ p ∈ (b.fileOf cfg rec.fsId).db.roster, rec.name ≠ ids.text p.1 ∧
      p.2 ≠ some (ids.text d.create.uuid)) :
    ({ b with m := m₁.put rec, made := inscribe b.made [(rec.id, d.create.uuid)] } : Book).Matched
      ids cfg := by
  obtain ⟨hstore, hsessions, hnew, s', hfiles, hsound, hroster⟩ :=
    Manager.createInFile_ok (h.sound _) hcreated
  have hfresh : m₁.store.get rec.id = none := by
    rw [hstore]
    exact hunused.1
  refine h.enroll [(rec, d.create.uuid)] hfs ?_ (List.nodup_singleton _) ?_ ?_ ?_ hsessions ?_ ?_ ?_
    ?_
  · intro p hp
    rw [List.mem_singleton.mp hp]
  · intro p hp
    rw [List.mem_singleton.mp hp]
    exact hunused
  · change assign VolumeStore.VolumeRecord.id m₁.store.mem.volumes rec = _
    rw [assign_append hfresh, hstore]
    rfl
  · change m₁.store.mem.filesystems = _
    rw [hstore]
  · intro p
    change (m₁.front.reg.files p).db.Sound
    rw [hfiles, Function.update_apply]
    split
    · exact hsound
    · exact h.sound p
  · change (m₁.front.reg.files _).db.roster = _
    rw [hfiles, Function.update_self, hroster]
    rfl
  · intro fid' hne
    change (m₁.front.reg.files _).db.roster = _
    have hpath : Manager.fsPath cfg fid' ≠ Manager.fsPath cfg rec.fsId :=
      fun heq => hne (fsPath_inj heq)
    rw [hfiles, Function.update_of_ne hpath]
    rfl
  · exact (h.named rec.fsId).snoc hname hnew hown hunspelt

theorem putAll {α : Type} {f : α → VolumeStore.VolumeRecord} (rows : List α) {m : Manager}
    (hnodup : (rows.map (fun row => (f row).id)).Nodup)
    (hfresh : ∀ row ∈ rows, m.store.get (f row).id = none) :
    (rows.foldl (fun m row => m.put (f row)) m).front = m.front ∧
      (rows.foldl (fun m row => m.put (f row)) m).store.mem.volumes = m.store.mem.volumes ++
        rows.map f ∧
        (rows.foldl (fun m row => m.put (f row)) m).store.mem.filesystems =
          m.store.mem.filesystems := by
  induction rows generalizing m with
  | nil => exact ⟨rfl, (List.append_nil _).symm, rfl⟩
  | cons row rows ih =>
    obtain ⟨hnot, hrest⟩ := List.nodup_cons.mp hnodup
    have hput : (m.put (f row)).store.mem.volumes = m.store.mem.volumes ++ [f row] :=
      assign_append (hfresh row List.mem_cons_self)
    have hfresh' : ∀ row' ∈ rows, (m.put (f row)).store.get (f row').id = none := by
      intro row' hrow'
      have hlookup : (m.put (f row)).store.get (f row').id = if (f row').id = (f row).id then
          some (f row) else m.store.get (f row').id :=
        lookup_assign
      have hne : (f row').id ≠ (f row).id := fun heq => hnot (List.mem_map.mpr ⟨row', hrow', heq⟩)
      rw [hlookup, if_neg hne]
      exact hfresh row' (List.mem_cons_of_mem _ hrow')
    obtain ⟨hfront, hvolumes, hfilesystems⟩ := ih hrest hfresh'
    rw [List.foldl_cons]
    refine ⟨hfront, ?_, hfilesystems⟩
    rw [hvolumes, hput, List.append_assoc]
    rfl

/-- A record made for a volume with a name has that name. -/
theorem imported_name {u : Upload} {w : Drawn} {row : VolumeRow} (i : ℕ)
    (hname : row.name = some name) (hne : name ≠ "") :
    (Manager.imported ids u w row i).name = name := by
  simp [Manager.imported, hname, hne]

theorem Matched.upload (h : b.Matched ids cfg) {u : Upload} {w : Drawn}
    (hnamed : (ManagerCall.upload u w).Named ids cfg b d) :
    ({ b with m := (b.m.upload ids cfg u w).1, made := inscribe b.made (u.pairs w) } : Book).Matched
      ids cfg := by
  obtain ⟨hnew, hsound, hwell, hnodup, hunused⟩ := hnamed
  obtain ⟨hempty, -⟩ := h.vacant w.fs hnew
  let rows := u.file.db.volumes.zipIdx
  let f := fun row : VolumeRow × ℕ => Manager.imported ids u w row.1 row.2
  let new := rows.map (fun row => (f row, row.1.volumeId))
  let fsr : VolumeStore.FilesystemRecord :=
    { id := w.fs, displayName := u.filename, sqlitePath := Manager.fsPath cfg w.fs,
      createdAt := w.now }
  have hids : (rows.map (fun row => (f row).id)).Nodup := by
    have hsnd : rows.map (fun row => (f row).id) =
        (List.range u.file.db.volumes.length).map w.volumes := by
      have hindex : rows.map Prod.snd = List.range u.file.db.volumes.length :=
        List.zipIdx_map_snd 0 _ |>.trans (List.range_eq_range'.symm)
      rw [← hindex, List.map_map]
      rfl
    rw [hsnd]
    exact hnodup
  have hrow : ∀ row ∈ rows, b.m.Unused (f row).id :=
    fun row hr => hunused row.2 (List.snd_lt_of_mem_zipIdx hr)
  -- the records are made from the rows of the file, under their names
  have hroster : new.map (fun p => (p.2, some p.1.name)) = u.file.db.roster := by
    have hfst : rows.map Prod.fst = u.file.db.volumes := List.zipIdx_map_fst 0 _
    rw [Db.roster, ← hfst, List.map_map, List.map_map]
    apply List.map_congr_left
    intro row hr
    have hmem : row.1 ∈ u.file.db.volumes := hfst ▸ List.mem_map_of_mem hr
    have hin : (row.1.volumeId, row.1.name) ∈ u.file.db.roster := List.mem_map_of_mem hmem
    obtain ⟨name, hne, hname⟩ := hwell.named _ hin
    have himported : (f row).name = name := imported_name row.2 hname hne
    change (row.1.volumeId, some (f row).name) = (row.1.volumeId, row.1.name)
    rw [himported, ← hname]
  let m₂ : Manager :=
    { b.m.setFiles (Function.update b.m.front.reg.files (Manager.fsPath cfg w.fs) u.file) with
    store := (b.m.store.putFs fsr false).1 }
  obtain ⟨hfront, hvolumes, hfilesystems⟩ :=
    putAll (f := f) rows (m := m₂) hids (fun row hr => (hrow row hr).1)
  have hbase := h.putFs (f := fsr) rfl
  have hthere : ((b.m.store.putFs fsr false).1.getFs w.fs).isSome := by
    have hlookup : (b.m.store.putFs fsr false).1.getFs w.fs = some fsr :=
      lookup_assign.trans (if_pos rfl)
    rw [hlookup]
    rfl
  -- what `enroll` asks of them, in the order it does
  have hfinal := Matched.enroll hbase new hthere
    (by
      intro p hp
      obtain ⟨row, -, rfl⟩ := List.mem_map.mp hp
      rfl)
    (by
      rw [List.map_map]
      exact hids)
    (by
      intro p hp
      obtain ⟨row, hr, rfl⟩ := List.mem_map.mp hp
      exact hrow row hr)
    (by
      rw [hvolumes, List.map_map]
      rfl)
    hfilesystems
    (by rw [hfront]; rfl)
    (by
      intro p
      rw [hfront]
      change (Function.update b.m.front.reg.files (Manager.fsPath cfg w.fs) u.file p).db.Sound
      rw [Function.update_apply]
      split
      · exact hsound
      · exact h.sound p)
    (by
      rw [hfront, hroster]
      change (Function.update b.m.front.reg.files (Manager.fsPath cfg w.fs) u.file
        (Manager.fsPath cfg w.fs)).db.roster =
        (b.fileOf cfg w.fs).db.roster ++ u.file.db.roster
      rw [Function.update_self, hempty, List.nil_append])
    (by
      intro fid' hne
      rw [hfront]
      have hpath : Manager.fsPath cfg fid' ≠ Manager.fsPath cfg w.fs :=
        fun heq => hne (fsPath_inj heq)
      exact congrArg (fun s : Sys => s.db.roster) (Function.update_of_ne hpath _ _))
    (by
      rw [hroster]
      change WellNamed ids ((b.fileOf cfg w.fs).db.roster ++ u.file.db.roster)
      rw [hempty, List.nil_append]
      exact hwell)
  have hpairs : new.map (fun p => (p.1.id, p.2)) = u.pairs w := by
    rw [List.map_map]
    rfl
  rw [hpairs] at hfinal
  exact hfinal

end Book

end Aloelite
