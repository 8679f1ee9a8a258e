import Aloelite.NewVolumes

/-! What deleting a record leaves: its volume stays in the file as long as the file has other
records, and goes with the file otherwise. -/
namespace Aloelite

open KeyedRows Dicts Fallible

variable {C : Crypto} {M : Msgpack} {ids : IdSpelling} {cfg : ManagerConfig} {d : Draws}
  {name : String} {v : VolumeId} {pin : Option Bytes} {db : Db}

namespace Book

variable {b : Book} {fid : String}

variable {rec : VolumeStore.VolumeRecord} {store : VolumeStore.JsonVolumeStore}

variable (store) in
/-- What a record claims is claimed no more, in its filesystem. -/
theorem Matched.claimed_discard (h : b.Matched ids cfg) (hget : b.m.store.get rec.id = some rec)
    (hmade : b.made rec.id = some v)
    (hvolumes : store.mem.volumes =
      discard VolumeStore.VolumeRecord.id b.m.store.mem.volumes rec.id) (fid : String) :
    (b.claimed fid).Perm
      ((if fid = rec.fsId then [v] else []) ++
        (store.volumesOf fid).filterMap (fun r => b.made r.id)) := by
  have hsplit : b.m.store.mem.volumes.Perm (rec :: store.mem.volumes) := by
    rw [hvolumes]
    exact perm_cons_discard h.keyed.volumes hget
  have hperm := (hsplit.filter (fun r => r.fsId = fid)).filterMap (fun r => b.made r.id)
  by_cases hfid : fid = rec.fsId
  · subst hfid
    rw [List.filter_cons_of_pos (by simp),
      List.filterMap_cons_some (f := fun r : VolumeStore.VolumeRecord => b.made r.id) hmade]
        at hperm
    rw [if_pos rfl]
    exact hperm
  · rw [List.filter_cons_of_neg (by simpa using Ne.symm hfid)] at hperm
    rw [if_neg hfid]
    exact hperm

/-- A record goes, and the file stays with all its volumes. -/
theorem Matched.drop (h : b.Matched ids cfg) (hget : b.m.store.get rec.id = some rec)
    (hmem : store.mem = { b.m.store.mem with
      volumes := discard VolumeStore.VolumeRecord.id b.m.store.mem.volumes rec.id }) :
    ({ b with m := { b.m with store := store },
              forgotten := b.forget { b.m with store := store } rec } : Book).Matched ids cfg := by
  obtain ⟨v, hmade, -⟩ := h.owned rec (mem_of_lookup hget)
  have hfs : (b.m.store.getFs rec.fsId).isSome := h.referential rec (mem_of_lookup hget)
  have hsub : ∀ r ∈ store.mem.volumes, r ∈ b.m.store.list := by
    intro r hr
    rw [hmem] at hr
    exact List.mem_of_mem_filter hr
  have hgetFs : ∀ fid, store.getFs fid = b.m.store.getFs fid := by
    intro fid
    rw [VolumeStore.JsonVolumeStore.getFs, hmem]
    rfl
  have hforget : b.forget { b.m with store := store } rec rec.fsId = v :: b.forgotten rec.fsId := by
    have hthere : (store.getFs rec.fsId).isSome = true := by
      rw [hgetFs]
      exact hfs
    rw [forget, Function.update_self, if_pos hthere, hmade]
    rfl
  have hsame : ∀ fid, fid ≠ rec.fsId → b.forget { b.m with store := store } rec fid =
      b.forgotten fid :=
    fun fid hne => Function.update_of_ne hne _ _
  refine ⟨?_, ?_, ?_, h.sound, ?_, h.named, ?_, ?_, ?_⟩
  · rw [hmem]
    exact ⟨keyed_discard h.keyed.volumes, h.keyed.filesystems⟩
  · intro r hr
    have hold := h.referential r (hsub r hr)
    rw [hmem]
    exact hold
  · intro f hf
    apply h.placed f
    change f ∈ store.mem.filesystems at hf
    rw [hmem] at hf
    exact hf
  · intro fid hnone
    have hnone' : b.m.store.getFs fid = none := (hgetFs fid).symm.trans hnone
    have hne : fid ≠ rec.fsId := by
      rintro rfl
      rw [hnone'] at hfs
      cases hfs
    obtain ⟨hempty, hforgotten⟩ := h.vacant fid hnone'
    exact ⟨hempty, (hsame fid hne).trans hforgotten⟩
  · intro r hr
    exact h.owned r (hsub r hr)
  · intro fid
    have hclaimed := h.claimed_discard store hget hmade (by rw [hmem]) fid
    have hperm := hclaimed.symm.append_right (b.forgotten fid)
    refine List.Perm.trans ?_ (hperm.trans (h.perm fid))
    change ((store.volumesOf fid).filterMap _ ++ b.forget _ rec fid).Perm _
    by_cases hfid : fid = rec.fsId
    · subst hfid
      rw [hforget, if_pos rfl]
      exact List.perm_middle
    · rw [hsame fid hfid, if_neg hfid]
      exact List.Perm.refl _
  · intro r hr
    exact h.sessions r (hsub r hr)

/-- The file goes with the last record of it. -/
theorem Matched.dropLast (h : b.Matched ids cfg) (hlast : b.m.store.volumesOf fid = [])
    (hthere : (b.m.store.getFs fid).isSome) :
    ({ b with
      m := { b.m.setFiles (Function.update b.m.front.reg.files (Manager.fsPath cfg fid) {}) with
        store := (b.m.store.deleteFs fid false).1 }
      forgotten := Function.update b.forgotten fid [] } : Book).Matched ids cfg := by
  have hmem := VolumeStore.deleteFs_mem hlast hthere
  obtain ⟨hvolumes, hkeyed, hreferential⟩ :=
    VolumeStore.deleteFs_keeps h.keyed h.referential hlast hthere
  have hfile : ∀ fid', Function.update b.m.front.reg.files (Manager.fsPath cfg fid) {}
      (Manager.fsPath cfg fid') =
      if fid' = fid then {} else b.fileOf cfg fid' := by
    intro fid'
    by_cases hfid : fid' = fid
    · subst hfid
      rw [Function.update_self, if_pos rfl]
    · have hpath : Manager.fsPath cfg fid' ≠ Manager.fsPath cfg fid :=
        fun heq => hfid (fsPath_inj heq)
      rw [Function.update_of_ne hpath, if_neg hfid]
      rfl
  -- no record is of this filesystem, so every clause is about the other files or an empty one
  have hother : ∀ r ∈ (b.m.store.deleteFs fid false).1.list, r ∈ b.m.store.list ∧ r.fsId ≠ fid := by
    intro r hr
    change r ∈ (b.m.store.deleteFs fid false).1.mem.volumes at hr
    rw [hvolumes] at hr
    exact ⟨hr, VolumeStore.fsId_ne_of_volumesOf hlast r hr⟩
  refine ⟨hkeyed, hreferential, ?_, ?_, ?_, ?_, ?_, ?_, ?_⟩
  · intro f hf
    apply h.placed f
    change f ∈ (b.m.store.deleteFs fid false).1.mem.filesystems at hf
    rw [hmem] at hf
    exact List.mem_of_mem_filter hf
  · intro p
    change (Function.update b.m.front.reg.files (Manager.fsPath cfg fid) {} p).db.Sound
    rw [Function.update_apply]
    split
    · exact empty_sound
    · exact h.sound p
  · intro fid' hnone
    change (Function.update b.m.front.reg.files (Manager.fsPath cfg fid) {}
        (Manager.fsPath cfg fid')).db.roster = [] ∧
      Function.update b.forgotten fid [] fid' = []
    rw [hfile]
    by_cases hfid : fid' = fid
    · subst hfid
      rw [if_pos rfl, Function.update_self]
      exact ⟨rfl, rfl⟩
    · rw [if_neg hfid, Function.update_of_ne hfid]
      apply h.vacant fid'
      have hlookup : (b.m.store.deleteFs fid false).1.getFs fid' = if fid' = fid then none
          else b.m.store.getFs fid' := by
        rw [VolumeStore.JsonVolumeStore.getFs, hmem]
        exact lookup_discard
      have hnone' : (b.m.store.deleteFs fid false).1.getFs fid' = none := hnone
      rw [hlookup, if_neg hfid] at hnone'
      exact hnone'
  · intro fid'
    change WellNamed ids
        (Function.update b.m.front.reg.files (Manager.fsPath cfg fid) {}
          (Manager.fsPath cfg fid')).db.roster
    rw [hfile]
    split
    · exact WellNamed.nil
    · exact h.named fid'
  · intro r hr
    obtain ⟨hold, hne⟩ := hother r hr
    obtain ⟨v, hmade, hin⟩ := h.owned r hold
    refine ⟨v, hmade, ?_⟩
    change (v, some r.name) ∈ (Function.update b.m.front.reg.files (Manager.fsPath cfg fid) {}
        (Manager.fsPath cfg r.fsId)).db.roster
    rw [hfile, if_neg hne]
    exact hin
  · intro fid'
    have hof : (b.m.store.deleteFs fid false).1.volumesOf fid' = b.m.store.volumesOf fid' := by
      rw [VolumeStore.JsonVolumeStore.volumesOf, hvolumes]
      rfl
    change (((b.m.store.deleteFs fid false).1.volumesOf fid').filterMap _ ++
        Function.update b.forgotten fid [] fid').Perm
      ((Function.update b.m.front.reg.files (Manager.fsPath cfg fid) {}
        (Manager.fsPath cfg fid')).db.roster.map Prod.fst)
    rw [hof, hfile]
    by_cases hfid : fid' = fid
    · subst hfid
      rw [hlast, if_pos rfl, Function.update_self]
      exact List.Perm.refl _
    · rw [if_neg hfid, Function.update_of_ne hfid]
      exact h.perm fid'
  · intro r hr
    exact h.sessions r (hother r hr).1

/-- With its file a volume is gone, and not forgotten. -/
theorem forget_gone {m' : Manager} (hnone : (m'.store.getFs rec.fsId).isSome = false) :
    b.forget m' rec = Function.update b.forgotten rec.fsId [] := by
  rw [forget, hnone]
  rfl

theorem Matched.delete {vid : String} (joined : Bool) (h : b.Matched ids cfg)
    (hget : b.m.store.get vid = some rec) :
    (b.m.delete C M cfg d vid joined).2 = 204 ∧
      ({ b with
        m := (b.m.delete C M cfg d vid joined).1
        forgotten := b.forget (b.m.delete C M cfg d vid joined).1 rec } :
        Book).Matched ids cfg := by
  obtain rfl : rec.id = vid := key_of_lookup hget
  have hreleased : b.m.Keeps cfg (if rec.mounted = true then
      b.m.release C M cfg d rec joined else b.m) ∧
      ∀ vid, (if rec.mounted = true then b.m.release C M cfg d rec joined else b.m).store.get vid =
      b.m.store.get vid := by
    split
    · exact Manager.release_keeps
    · exact ⟨Manager.Keeps.refl _, fun _ => rfl⟩
  rw [Manager.delete, hget]
  dsimp only
  generalize (if rec.mounted = true then b.m.release C M cfg d rec joined else b.m) =
    m₁ at hreleased ⊢
  obtain ⟨hkeeps, hsame⟩ := hreleased
  have h₁ : ({ b with m := m₁ } : Book).Matched ids cfg := h.keeps hkeeps
  have hget₁ : m₁.store.get rec.id = some rec := (hsame rec.id).trans hget
  obtain ⟨v, -, hserves⟩ := h₁.serves (mem_of_lookup hget₁)
  have hpath : m₁.store.sqlitePathOf rec = .ok (Manager.fsPath cfg rec.fsId) := hserves.path
  have hthere : (m₁.store.get rec.id).isSome := by
    rw [hget₁]
    rfl
  have hmem := VolumeStore.delete_mem hthere
  have hdrop := h₁.drop hget₁ hmem
  rw [hpath]
  dsimp only
  split
  next hlast =>
    have hfs : ((m₁.store.delete rec.id false).1.getFs rec.fsId).isSome := by
      rw [VolumeStore.JsonVolumeStore.getFs, hmem]
      exact h₁.referential rec (mem_of_lookup hget₁)
    have hgone := hdrop.dropLast hlast hfs
    have hnone : (((m₁.store.delete rec.id false).1.deleteFs rec.fsId false).1.getFs
        rec.fsId).isSome = false := by
      rw [VolumeStore.JsonVolumeStore.getFs, VolumeStore.deleteFs_mem hlast hfs]
      change (lookup _ (discard VolumeStore.FilesystemRecord.id _ rec.fsId) rec.fsId).isSome = false
      rw [lookup_discard, if_pos rfl]
      rfl
    refine ⟨rfl, ?_⟩
    have hidem : Function.update
          (forget { b with m := m₁ } { m₁ with store := (m₁.store.delete rec.id false).1 } rec)
          rec.fsId [] = Function.update b.forgotten rec.fsId [] :=
      Function.update_idem _ _ _
    rw [hidem] at hgone
    rw [forget_gone]
    · exact hgone
    · exact hnone
  · exact ⟨rfl, hdrop⟩

theorem createInFile_withStore {m m₁ : Manager} {path : String} {r : Except FsError Unit}
    (store : VolumeStore.JsonVolumeStore) (h : m.createInFile C M d path name pin = (m₁, r)) :
    ({ m with store := store } : Manager).createInFile C M d path name pin =
      ({ m₁ with store := store }, r) := by
  rw [Manager.createInFile] at h ⊢
  dsimp only at h ⊢
  split at h
  next hnamed =>
    obtain ⟨rfl, rfl⟩ := Prod.mk.inj h
    rw [if_pos hnamed]
    rfl
  next hunnamed =>
    rw [if_neg hunnamed]
    split at h
    next =>
      obtain ⟨rfl, rfl⟩ := Prod.mk.inj h
      rfl
    next =>
      obtain ⟨rfl, rfl⟩ := Prod.mk.inj h
      rfl

/-- `create_volume` makes a volume with its record, or neither. -/
theorem Matched.createCall {body : CreateBody} {w : Drawn} (h : b.Matched ids cfg)
    (hnamed : (ManagerCall.create body w).Named ids cfg b d) :
    ((b.m.create C M cfg d body w).2 = 201 ∧ ({ b with
        m := (b.m.create C M cfg d body w).1
        made := inscribe b.made [(w.volumes 0, d.create.uuid)] } : Book).Matched ids cfg) ∨
      ((b.m.create C M cfg d body w).2 ≠ 201 ∧ b.m.Keeps cfg (b.m.create C M cfg d body w).1) := by
  obtain ⟨hunused, hnewfs, hown, hunspelt⟩ := hnamed
  rw [Manager.create]
  split
  · exact Or.inr ⟨by simp, Manager.Keeps.refl _⟩
  next hname =>
    split
    · exact Or.inr ⟨by simp, Manager.Keeps.refl _⟩
    · split
      next hfsid =>
        rw [hfsid, Option.getD_none] at hunspelt
        dsimp only
        split
        next heq => exact Or.inr ⟨by simp, Manager.createInFile_error heq⟩
        next m₁ heq =>
          refine Or.inl ⟨rfl, ?_⟩
          let fsr : VolumeStore.FilesystemRecord :=
            { id := w.fs, displayName := body.name, sqlitePath := Manager.fsPath cfg w.fs,
              createdAt := w.now }
          have hbase := h.putFs (f := fsr) rfl
          have hthere : ((b.m.store.putFs fsr false).1.getFs w.fs).isSome := by
            have hlookup : (b.m.store.putFs fsr false).1.getFs w.fs = some fsr :=
              lookup_assign.trans (if_pos rfl)
            rw [hlookup]
            rfl
          have hmade := createInFile_withStore (b.m.store.putFs fsr false).1 heq
          have hstore := (Manager.createInFile_ok (h.sound _) heq).1
          rw [hstore]
          let own : VolumeStore.VolumeRecord :=
            { id := w.volumes 0, name := body.name, fsId := w.fs, encrypted := body.encrypted,
              createdAt := w.now
              mounted := false, mountpoint := none }
          exact hbase.create own hthere hunused hmade hname hown hunspelt
      next fid hfsid =>
        rw [hfsid, Option.getD_some] at hunspelt
        dsimp only
        split
        · exact Or.inr ⟨by simp, Manager.Keeps.refl _⟩
        next fsr hfsr =>
          have hpath : fsr.sqlitePath = Manager.fsPath cfg fid := by
            rw [h.placed fsr (mem_of_lookup hfsr)]
            exact congrArg _ (key_of_lookup hfsr)
          split
          · exact Or.inr ⟨by simp, Manager.Keeps.refl _⟩
          · split
            next heq => exact Or.inr ⟨by simp, Manager.createInFile_error heq⟩
            next m₁ heq =>
              refine Or.inl ⟨rfl, ?_⟩
              rw [hpath] at heq
              have hthere : (b.m.store.getFs fid).isSome := by
                rw [hfsr]
                rfl
              let own : VolumeStore.VolumeRecord :=
                { id := w.volumes 0, name := body.name, fsId := fid, encrypted := body.encrypted,
                  createdAt := w.now
                  mounted := false, mountpoint := none }
              exact h.create own hthere hunused heq hname hown hunspelt

end Book

end Aloelite
