import Aloelite.RecordCalls

/-! The book of the manager's records: which volume each was made for, and which volumes of a file
belong to a record that was deleted. Manager and book match as long as every volume of a file
is claimed once. -/
namespace Aloelite

open KeyedRows Dicts Fallible

variable {C : Crypto} {M : Msgpack} {ids : IdSpelling} {hash : Bytes → Bytes}
  {cfg : ManagerConfig} {name : String} {v : VolumeId} {db : Db}

/-- The manager, the volume each record was made for, and for each filesystem the volumes
whose records are gone. -/
structure Book where
  m : Manager
  made : String → Option VolumeId := fun _ => none
  forgotten : String → List VolumeId := fun _ => []

/-- Records that are made with their volumes. -/
def inscribe (made : String → Option VolumeId) (new : List (String × VolumeId)) (vid : String) :
    Option VolumeId :=
  match lookup Prod.fst new vid with
  | some p => some p.2
  | none => made vid

/-- The records and the volumes an upload makes. -/
def Upload.pairs (u : Upload) (w : Drawn) : List (String × VolumeId) :=
  u.file.db.volumes.zipIdx.map (fun row => (w.volumes row.2, row.1.volumeId))

namespace Book

variable (b : Book)

/-- What a deleted record leaves: its volume, unless the file goes. -/
def forget (after : Manager) (rec : VolumeStore.VolumeRecord) : String → List VolumeId :=
  Function.update b.forgotten rec.fsId
    (if (after.store.getFs rec.fsId).isSome then
      (b.made rec.id).toList ++ b.forgotten rec.fsId else [])

variable (C M ids hash cfg) in
/-- A call; a volume that `create_volume` makes has the id drawn for it. -/
def step (l : ManagerLabel) : Book :=
  let r := b.m.serve C M ids hash cfg l.draws l.call
  match l.call with
  | .create _ w =>
    if r.2 = 201 then { b with
      m := r.1, made := inscribe b.made [(w.volumes 0, l.draws.create.uuid)] }
    else { b with m := r.1 }
  | .upload u w => { b with m := r.1, made := inscribe b.made (u.pairs w) }
  | .delete vid _ =>
    match b.m.store.get vid with
    | some rec => if r.2 = 204 then { b with m := r.1, forgotten := b.forget r.1 rec }
      else { b with m := r.1 }
    | none => { b with m := r.1 }
  | _ => { b with m := r.1 }

/-- The volumes the records of a filesystem were made for. -/
def claimed (fid : String) : List VolumeId :=
  (b.m.store.volumesOf fid).filterMap (fun rec => b.made rec.id)

/-- The file of a filesystem. -/
def fileOf (cfg : ManagerConfig) (fid : String) : Sys :=
  b.m.front.reg.files (Manager.fsPath cfg fid)

/-- The records of each filesystem, and those deleted, are one for one the volumes of its
file. -/
def OneToOne (cfg : ManagerConfig) : Prop :=
  ∀ fid, (b.claimed fid ++ b.forgotten fid).Perm ((b.fileOf cfg fid).db.roster.map Prod.fst)

/-- What the records have to do with the files. -/
structure Matched (ids : IdSpelling) (cfg : ManagerConfig) (b : Book) : Prop where
  keyed : b.m.store.mem.Keyed
  referential : b.m.store.mem.Referential
  placed : ∀ f ∈ b.m.store.mem.filesystems, f.sqlitePath = Manager.fsPath cfg f.id
  sound : ∀ p, (b.m.front.reg.files p).db.Sound
  vacant : ∀ fid, b.m.store.getFs fid = none → (b.fileOf cfg fid).db.roster = [] ∧ b.forgotten fid =
    []
  named : ∀ fid, WellNamed ids (b.fileOf cfg fid).db.roster
  owned : ∀ rec ∈ b.m.store.list, ∃ v, b.made rec.id = some v ∧
    (v, some rec.name) ∈ (b.fileOf cfg rec.fsId).db.roster
  perm : b.OneToOne cfg
  sessions : ∀ rec ∈ b.m.store.list, ∀ e, b.m.front.reg.sessions rec.id = some e →
    e.path = Manager.fsPath cfg rec.fsId

variable {b : Book} {m' : Manager} {rec : VolumeStore.VolumeRecord} {fid : String}

theorem claimed_eq_tags : b.claimed fid =
    ((b.m.store.mem.volumes.map Manager.tag).filter (fun t => t.2.2 = fid)).filterMap
      (fun t => b.made t.1) := by
  rw [claimed, VolumeStore.JsonVolumeStore.volumesOf, List.filter_map, List.filterMap_map]
  rfl

theorem Matched.serves (h : b.Matched ids cfg) (hrec : rec ∈ b.m.store.list) :
    ∃ v, b.made rec.id = some v ∧ b.m.Serves ids cfg rec v := by
  obtain ⟨v, hmade, hmem⟩ := h.owned rec hrec
  refine ⟨v, hmade, lookup_eq_some_of_mem h.keyed.volumes hrec, ?_, h.named rec.fsId, hmem,
    h.sessions rec hrec⟩
  obtain ⟨f, hf⟩ := Option.isSome_iff_exists.mp (h.referential rec hrec)
  have hget : b.m.store.getFs rec.fsId = some f := hf
  rw [VolumeStore.JsonVolumeStore.sqlitePathOf, hget]
  dsimp only
  rw [h.placed f (mem_of_lookup hf), key_of_lookup hf]

/-- A call that keeps records and volumes. -/
theorem Matched.keeps (h : b.Matched ids cfg) (hkeeps : b.m.Keeps cfg m') :
    ({ b with m := m' } : Book).Matched ids cfg := by
  have hroster : ∀ fid, (m'.front.reg.files (Manager.fsPath cfg fid)).db.roster =
      (b.fileOf cfg fid).db.roster :=
    fun fid => (hkeeps.files _ (h.sound _)).2
  have hold : ∀ rec ∈ m'.store.list, ∃ old ∈ b.m.store.list, old.id = rec.id ∧ old.name = rec.name ∧
      old.fsId = rec.fsId := by
    intro rec hrec
    obtain ⟨old, hold, htag⟩ := hkeeps.exists_tag hrec
    exact ⟨old, hold, by simpa [Manager.tag] using htag⟩
  have hfs : ∀ fid, m'.store.getFs fid = b.m.store.getFs fid := by
    intro fid
    rw [VolumeStore.JsonVolumeStore.getFs, hkeeps.filesystems]
    rfl
  refine ⟨hkeeps.keyed h.keyed, ?_, ?_, fun p => (hkeeps.files p (h.sound p)).1, ?_, ?_, ?_, ?_, ?_⟩
  · intro rec hrec
    obtain ⟨old, hmem, -, -, hfsid⟩ := hold rec hrec
    have hthere := h.referential old hmem
    rw [hfsid] at hthere
    change (lookup _ m'.store.mem.filesystems rec.fsId).isSome
    rw [hkeeps.filesystems]
    exact hthere
  · intro f hf
    apply h.placed f
    rw [← hkeeps.filesystems]
    exact hf
  · intro fid hnone
    rw [hfs] at hnone
    obtain ⟨hempty, hforgotten⟩ := h.vacant fid hnone
    exact ⟨(hroster fid).trans hempty, hforgotten⟩
  · intro fid
    rw [fileOf, hroster]
    exact h.named fid
  · intro rec hrec
    obtain ⟨old, hmem, hid, hname, hfsid⟩ := hold rec hrec
    obtain ⟨v, hmade, hin⟩ := h.owned old hmem
    refine ⟨v, hid ▸ hmade, ?_⟩
    rw [fileOf, hroster, ← hname, ← hfsid]
    exact hin
  · intro fid
    have hperm := h.perm fid
    rw [fileOf, hroster, claimed_eq_tags]
    rw [claimed_eq_tags] at hperm
    rw [hkeeps.tags]
    exact hperm
  · intro rec hrec e he
    obtain ⟨old, hmem, hid, -, hfsid⟩ := hold rec hrec
    rcases hkeeps.sessions rec.id e he with ⟨e₀, he₀, hpath⟩ | ⟨own, hown, hownid, hpath⟩
    · rw [← hid] at he₀
      rw [← hpath, h.sessions old hmem e₀ he₀, hfsid]
    · have hsame : own = old := eq_of_key_eq h.keyed.volumes hown hmem (hownid.trans hid.symm)
      rw [hpath, hsame, hfsid]

/-- A filesystem that has no records yet. -/
theorem Matched.putFs (h : b.Matched ids cfg) {f : VolumeStore.FilesystemRecord}
    (hpath : f.sqlitePath = Manager.fsPath cfg f.id) :
    ({ b with m := { b.m with store := (b.m.store.putFs f false).1 } } : Book).Matched ids cfg := by
  refine ⟨⟨h.keyed.volumes, keyed_assign h.keyed.filesystems⟩, ?_, ?_, h.sound, ?_, h.named,
    h.owned, h.perm, h.sessions⟩
  · intro rec hrec
    exact VolumeStore.lookup_assign_isSome (h.referential rec hrec)
  · intro f' hf'
    rcases mem_assign hf' with rfl | hf'
    · exact hpath
    · exact h.placed f' hf'
  · intro fid hnone
    apply h.vacant fid
    have hlookup : (b.m.store.putFs f false).1.getFs fid = if fid = f.id then some f
        else b.m.store.getFs fid := lookup_assign
    have hnone' : (b.m.store.putFs f false).1.getFs fid = none := hnone
    rw [hlookup] at hnone'
    split at hnone'
    · cases hnone'
    · exact hnone'

theorem inscribe_new {made : String → Option VolumeId} {new : List (String × VolumeId)}
    (hk : KeyedRows.Keyed Prod.fst new) {p : String × VolumeId} (hp : p ∈ new) :
    inscribe made new p.1 = some p.2 := by
  rw [inscribe, lookup_eq_some_of_mem hk hp]

theorem inscribe_old {made : String → Option VolumeId} {new : List (String × VolumeId)}
    {vid : String} (hnew : vid ∉ new.map Prod.fst) : inscribe made new vid = made vid := by
  have hnone : lookup Prod.fst new vid = none := by
    apply lookup_eq_none.mpr
    intro p hp heq
    exact hnew (heq ▸ List.mem_map_of_mem hp)
  rw [inscribe, hnone]

/-- Volumes that come with their records, into a filesystem that is there. -/
theorem Matched.enroll (h : b.Matched ids cfg) (new : List (VolumeStore.VolumeRecord × VolumeId))
    (hfs : (b.m.store.getFs fid).isSome) (hfsid : ∀ p ∈ new, p.1.fsId = fid)
    (hids : (new.map (fun p => p.1.id)).Nodup)
    (hfresh : ∀ p ∈ new, b.m.store.get p.1.id = none ∧ b.m.front.reg.sessions p.1.id = none)
    (hvolumes : m'.store.mem.volumes = b.m.store.mem.volumes ++ new.map Prod.fst)
    (hfilesystems : m'.store.mem.filesystems = b.m.store.mem.filesystems)
    (hsessions : m'.front.reg.sessions = b.m.front.reg.sessions)
    (hsound : ∀ p, (m'.front.reg.files p).db.Sound)
    (hroster : (m'.front.reg.files (Manager.fsPath cfg fid)).db.roster =
      (b.fileOf cfg fid).db.roster ++ new.map (fun p => (p.2, some p.1.name)))
    (hothers : ∀ fid', fid' ≠ fid → (m'.front.reg.files (Manager.fsPath cfg fid')).db.roster =
      (b.fileOf cfg fid').db.roster)
    (hnamed : WellNamed ids
      ((b.fileOf cfg fid).db.roster ++ new.map (fun p => (p.2, some p.1.name)))) :
    ({ b with m := m', made := inscribe b.made (new.map (fun p => (p.1.id, p.2))) } : Book).Matched
      ids cfg := by
  have hkeyed : KeyedRows.Keyed Prod.fst
      (new.map (fun p : VolumeStore.VolumeRecord × VolumeId => (p.1.id, p.2))) := by
    rw [KeyedRows.Keyed, List.map_map]
    exact hids
  have holdid : ∀ rec ∈ b.m.store.list,
      rec.id ∉ (new.map (fun p => (p.1.id, p.2))).map Prod.fst := by
    intro rec hrec hmem
    rw [List.map_map] at hmem
    obtain ⟨p, hp, hid⟩ := List.mem_map.mp hmem
    have hnone := lookup_eq_none.mp (hfresh p hp).1 rec hrec
    exact hnone hid.symm
  have hmadeNew : ∀ p ∈ new, inscribe b.made (new.map (fun p => (p.1.id, p.2))) p.1.id =
      some p.2 := by
    intro p hp
    exact inscribe_new hkeyed (p := (p.1.id, p.2)) (List.mem_map_of_mem hp)
  have hmadeOld : ∀ rec ∈ b.m.store.list,
      inscribe b.made (new.map (fun p => (p.1.id, p.2))) rec.id = b.made rec.id :=
    fun rec hrec => inscribe_old (holdid rec hrec)
  have hfs' : ∀ fid, m'.store.getFs fid = b.m.store.getFs fid := by
    intro fid
    rw [VolumeStore.JsonVolumeStore.getFs, hfilesystems]
    rfl
  have hlist : ∀ rec ∈ m'.store.list, rec ∈ b.m.store.list ∨ ∃ p ∈ new, p.1 = rec := by
    intro rec hrec
    change rec ∈ m'.store.mem.volumes at hrec
    rw [hvolumes, List.mem_append] at hrec
    rcases hrec with hrec | hrec
    · exact Or.inl hrec
    · exact Or.inr (List.mem_map.mp hrec)
  -- the clauses of `Matched` in turn: a record of the new store is an old one or one of `new`
  refine ⟨⟨?_, ?_⟩, ?_, ?_, hsound, ?_, ?_, ?_, ?_, ?_⟩
  · rw [hvolumes, KeyedRows.Keyed, List.map_append, List.nodup_append, List.map_map]
    refine ⟨h.keyed.volumes, hids, ?_⟩
    intro i hi j hj heq
    obtain ⟨rec, hrec, rfl⟩ := List.mem_map.mp hi
    apply holdid rec hrec
    rw [List.map_map, heq]
    exact hj
  · rw [hfilesystems]
    exact h.keyed.filesystems
  · intro rec hrec
    change (m'.store.getFs rec.fsId).isSome
    rw [hfs']
    rcases hlist rec hrec with hrec | ⟨p, hp, rfl⟩
    · exact h.referential rec hrec
    · rw [hfsid p hp]
      exact hfs
  · intro f hf
    apply h.placed f
    rw [← hfilesystems]
    exact hf
  -- a filesystem the store does not know is not the one enrolled into
  · intro fid' hnone
    rw [hfs'] at hnone
    have hne : fid' ≠ fid := by
      rintro rfl
      rw [hnone] at hfs
      cases hfs
    obtain ⟨hempty, hforgotten⟩ := h.vacant fid' hnone
    exact ⟨(hothers fid' hne).trans hempty, hforgotten⟩
  · intro fid'
    by_cases hfid : fid' = fid
    · subst hfid
      rw [fileOf, hroster]
      exact hnamed
    · rw [fileOf, hothers fid' hfid]
      exact h.named fid'
  · intro rec hrec
    rcases hlist rec hrec with hrec | ⟨p, hp, rfl⟩
    · obtain ⟨v, hmade, hmem⟩ := h.owned rec hrec
      refine ⟨v, (hmadeOld rec hrec).trans hmade, ?_⟩
      by_cases hfid : rec.fsId = fid
      · rw [fileOf, hfid, hroster, ← hfid]
        exact List.mem_append_left _ hmem
      · rw [fileOf, hothers _ hfid]
        exact hmem
    · refine ⟨p.2, hmadeNew p hp, ?_⟩
      rw [fileOf, hfsid p hp, hroster]
      exact List.mem_append_right _
        (List.mem_map_of_mem (f := fun p : VolumeStore.VolumeRecord × VolumeId =>
          (p.2, some p.1.name)) hp)
  -- the file's volumes are the old ones and the new ones, up to order
  · intro fid'
    have hold : (b.m.store.volumesOf fid').filterMap
        (fun rec => inscribe b.made (new.map (fun p => (p.1.id, p.2))) rec.id) =
        b.claimed fid' := by
      apply List.filterMap_congr
      intro rec hrec
      exact hmadeOld rec (List.mem_of_mem_filter hrec)
    have hsplit : m'.store.volumesOf fid' = b.m.store.volumesOf fid' ++
        (new.map Prod.fst).filter (fun v => v.fsId = fid') := by
      rw [VolumeStore.JsonVolumeStore.volumesOf, hvolumes, List.filter_append]
      rfl
    change ((m'.store.volumesOf fid').filterMap _ ++ b.forgotten fid').Perm _
    rw [hsplit, List.filterMap_append, hold]
    by_cases hfid : fid' = fid
    · subst hfid
      have hall : (new.map Prod.fst).filter (fun v => v.fsId = fid') = new.map Prod.fst := by
        apply List.filter_eq_self.mpr
        intro rec hrec
        obtain ⟨p, hp, rfl⟩ := List.mem_map.mp hrec
        simpa using hfsid p hp
      have hmades : (new.map Prod.fst).filterMap
          (fun rec => inscribe b.made (new.map (fun p => (p.1.id, p.2))) rec.id) =
          new.map Prod.snd := by
        have hsome : new.filterMap (some ∘ Prod.snd) = new.map Prod.snd := by
          rw [List.filterMap_eq_map]
        rw [List.filterMap_map, ← hsome]
        apply List.filterMap_congr
        intro p hp
        exact hmadeNew p hp
      rw [hall, hmades, fileOf, hroster, List.map_append, List.map_map]
      have hperm := (h.perm fid').append_right (new.map Prod.snd)
      refine List.Perm.trans ?_ hperm
      rw [List.append_assoc, List.append_assoc]
      exact List.Perm.append_left _ List.perm_append_comm
    · have hnone : (new.map Prod.fst).filter (fun v => v.fsId = fid') = [] := by
        apply List.filter_eq_nil_iff.mpr
        intro rec hrec
        obtain ⟨p, hp, rfl⟩ := List.mem_map.mp hrec
        rw [hfsid p hp]
        simpa using Ne.symm hfid
      rw [hnone, List.filterMap_nil, List.append_nil, fileOf, hothers fid' hfid]
      exact h.perm fid'
  · intro rec hrec e he
    rw [hsessions] at he
    rcases hlist rec hrec with hrec | ⟨p, hp, rfl⟩
    · exact h.sessions rec hrec e he
    · rw [(hfresh p hp).2] at he
      cases he

end Book

end Aloelite
