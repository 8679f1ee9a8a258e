import Aloelite.VolumeStore
import Aloelite.Library.GuardedRuns

/-! What becomes of the manager's records. A call changes memory first and writes the file
after, and a record that comes back from a caller is taken as it is. -/
namespace Aloelite.VolumeStore

open KeyedRows Dicts JsonVolumeStore

variable {s : JsonVolumeStore} {m m' : Records} {draw : ℕ → String} {call : StoreCall}
  {fails : Bool}

/-! ### What holds of a store -/

/-- Each volume's `fs_id` names a filesystem. -/
def Records.Referential (m : Records) : Prop :=
  ∀ v ∈ m.volumes, (lookup FilesystemRecord.id m.filesystems v.fsId).isSome

/-- The same records, perhaps in another order. -/
structure Records.Same (m m' : Records) : Prop where
  volumes : m.volumes.Perm m'.volumes
  filesystems : m.filesystems.Perm m'.filesystems
  pending : m.pending = m'.pending
  get : ∀ id, lookup VolumeRecord.id m.volumes id = lookup VolumeRecord.id m'.volumes id
  getFs : ∀ id, lookup FilesystemRecord.id m.filesystems id =
    lookup FilesystemRecord.id m'.filesystems id

/-- A call, and whether its write fails. -/
structure StoreLabel where
  call : StoreCall
  fails : Bool := false

/-- The store, and the ids of the volumes deleted so far. -/
structure Ledger where
  store : JsonVolumeStore
  deleted : List String := []

def Ledger.step (k : Ledger) (l : StoreLabel) : Ledger :=
  let r := l.call.run k.store l.fails
  match l.call, r.2 with
  | .delete id, .ok _ =>
    { store := r.1, deleted := if (k.store.get id).isSome then id :: k.deleted else k.deleted }
  | _, _ => { k with store := r.1 }

/-- Every volume has its filesystem, no deleted one is there, and a reload of the file
would give what is in memory. -/
structure Ledger.Lawful (k : Ledger) : Prop where
  referential : k.store.mem.Referential
  buried : ∀ id ∈ k.deleted, k.store.get id = none
  durable : ∀ draw, (load draw k.store.disk).Same k.store.mem

/-- A call leaves a lawful store, and one that raises leaves memory and file alone. -/
def Ledger.Upholds (k : Ledger) (l : StoreLabel) : Prop :=
  (k.step l).Lawful ∧ ∀ e, (l.call.run k.store l.fails).2 = .error e →
    (l.call.run k.store l.fails).1 = k.store

/-! ### When it does -/

/-- The call finds nothing to change in memory. -/
def StoreCall.Idle (s : JsonVolumeStore) : StoreCall → Prop
  | .put rec => s.get rec.id = some rec
  | .delete id => s.get id = none
  | .putFs rec => s.getFs rec.id = some rec
  | .deleteFs id => (∃ v ∈ s.mem.volumes, v.fsId = id) ∨ s.getFs id = none
  | .addPendingUnmount mp => mp ∈ s.mem.pending
  | .clearPendingUnmount mp => mp ∉ s.mem.pending
  | _ => True

/-- The record put is of a volume that was not deleted, on a filesystem that is there. -/
def StoreCall.Current (k : Ledger) : StoreCall → Prop
  | .put rec => (k.store.getFs rec.fsId).isSome ∧ rec.id ∉ k.deleted
  | _ => True

/-- The record put is current, and a write fails only where there was nothing to change. -/
def StoreLabel.Sane (k : Ledger) (l : StoreLabel) : Prop :=
  l.call.Current k ∧ (l.fails = true → l.call.Idle k.store)

instance (s : JsonVolumeStore) (call : StoreCall) : Decidable (call.Idle s) := by
  unfold StoreCall.Idle
  split <;> infer_instance

instance (k : Ledger) (call : StoreCall) : Decidable (call.Current k) := by
  unfold StoreCall.Current
  split <;> infer_instance

instance (k : Ledger) (l : StoreLabel) : Decidable (l.Sane k) := inferInstanceAs (Decidable (_ ∧ _))

/-! ### What a call writes -/

/-- The records a call comes to write, if it writes at all. -/
def StoreCall.writes (s : JsonVolumeStore) : StoreCall → Option Records
  | .put rec => some { s.mem with volumes := assign VolumeRecord.id s.mem.volumes rec }
  | .delete id => if (s.get id).isSome then
    some { s.mem with volumes := discard VolumeRecord.id s.mem.volumes id } else none
  | .putFs rec => some { s.mem with
    filesystems := assign FilesystemRecord.id s.mem.filesystems rec }
  | .deleteFs id =>
    if s.mem.volumes.any (fun v => v.fsId = id) then none
    else if (s.getFs id).isSome then some { s.mem with
      filesystems := discard FilesystemRecord.id s.mem.filesystems id }
    else none
  | .addPendingUnmount mp =>
    if mp ∈ s.mem.pending then none else some { s.mem with pending := s.mem.pending ++ [mp] }
  | .clearPendingUnmount mp =>
    if mp ∈ s.mem.pending then some { s.mem with pending := s.mem.pending.erase mp } else none
  | .close => some s.mem
  | _ => none

theorem run_of_writes (h : call.writes s = some m) :
    call.run s fails =
      (flush { s with mem := m } fails).map (fun s => s) (Except.map (fun _ => .done)) := by
  cases call with
  | put rec =>
    obtain rfl := Option.some.inj h
    rfl
  | putFs rec =>
    obtain rfl := Option.some.inj h
    rfl
  | close =>
    obtain rfl := Option.some.inj h
    rfl
  | delete id =>
    simp only [StoreCall.writes, Option.ite_none_right_eq_some, Option.some.injEq] at h
    obtain ⟨hthere, rfl⟩ := h
    simp only [StoreCall.run, JsonVolumeStore.delete, if_pos hthere]
  | deleteFs id =>
    simp only [StoreCall.writes, Option.ite_none_left_eq_some, Option.ite_none_right_eq_some,
      Option.some.injEq] at h
    obtain ⟨hfree, hthere, rfl⟩ := h
    simp only [StoreCall.run, deleteFs, if_neg hfree, if_pos hthere]
  | addPendingUnmount mp =>
    simp only [StoreCall.writes, Option.ite_none_left_eq_some, Option.some.injEq] at h
    obtain ⟨hnew, rfl⟩ := h
    simp only [StoreCall.run, addPendingUnmount, if_neg hnew]
    rfl
  | clearPendingUnmount mp =>
    simp only [StoreCall.writes, Option.ite_none_right_eq_some, Option.some.injEq] at h
    obtain ⟨hthere, rfl⟩ := h
    simp only [StoreCall.run, clearPendingUnmount, if_pos hthere]
    rfl
  | _ => cases h

variable (fails) in
theorem run_of_no_write (h : call.writes s = none) : (call.run s fails).1 = s ∧ call.Idle s := by
  cases call with
  | put rec => cases h
  | putFs rec => cases h
  | close => cases h
  | delete id =>
    have hnone : s.get id = none := by simpa [StoreCall.writes] using h
    refine ⟨?_, hnone⟩
    simp [StoreCall.run, JsonVolumeStore.delete, hnone]
  | deleteFs id =>
    simp only [StoreCall.writes] at h
    split at h
    next hused =>
      refine ⟨by simp only [StoreCall.run, deleteFs, if_pos hused]; rfl, Or.inl ?_⟩
      simpa using hused
    next hfree =>
      have hnone : s.getFs id = none := by simpa using h
      refine ⟨?_, Or.inr hnone⟩
      simp only [StoreCall.run, deleteFs, if_neg hfree]
      simp [hnone]
  | addPendingUnmount mp =>
    have hthere : mp ∈ s.mem.pending := by simpa [StoreCall.writes] using h
    refine ⟨?_, hthere⟩
    simp [StoreCall.run, addPendingUnmount, hthere]
  | clearPendingUnmount mp =>
    have hgone : mp ∉ s.mem.pending := by simpa [StoreCall.writes] using h
    refine ⟨?_, hgone⟩
    simp [StoreCall.run, clearPendingUnmount, hgone]
  | _ => exact ⟨rfl, trivial⟩

/-- A call that writes is idle exactly when it writes what is in memory. -/
theorem idle_iff_writes (h : call.writes s = some m) : call.Idle s ↔ m = s.mem := by
  cases call with
  | put rec =>
    obtain rfl := Option.some.inj h
    have hmem : { s.mem with volumes := assign VolumeRecord.id s.mem.volumes rec } = s.mem ↔
        assign VolumeRecord.id s.mem.volumes rec = s.mem.volumes := by
      constructor
      · intro heq
        exact congrArg Records.volumes heq
      · intro heq
        rw [heq]
    rw [hmem, assign_eq_self_iff]
    rfl
  | putFs rec =>
    obtain rfl := Option.some.inj h
    have hmem : { s.mem with
        filesystems := assign FilesystemRecord.id s.mem.filesystems rec } = s.mem ↔
        assign FilesystemRecord.id s.mem.filesystems rec = s.mem.filesystems := by
      constructor
      · intro heq
        exact congrArg Records.filesystems heq
      · intro heq
        rw [heq]
    rw [hmem, assign_eq_self_iff]
    rfl
  | close =>
    obtain rfl := Option.some.inj h
    exact iff_of_true trivial rfl
  | delete id =>
    simp only [StoreCall.writes, Option.ite_none_right_eq_some, Option.some.injEq] at h
    obtain ⟨hthere, rfl⟩ := h
    apply iff_of_false
    · intro hidle
      change s.get id = none at hidle
      rw [hidle] at hthere
      cases hthere
    · intro heq
      have hvolumes : discard VolumeRecord.id s.mem.volumes id = s.mem.volumes :=
        congrArg Records.volumes heq
      rw [JsonVolumeStore.get, ← hvolumes, lookup_discard, if_pos rfl] at hthere
      cases hthere
  | deleteFs id =>
    simp only [StoreCall.writes, Option.ite_none_left_eq_some, Option.ite_none_right_eq_some,
      Option.some.injEq] at h
    obtain ⟨hfree, hthere, rfl⟩ := h
    apply iff_of_false
    · rintro (hused | hidle)
      · apply hfree
        simpa using hused
      · rw [hidle] at hthere
        cases hthere
    · intro heq
      have hrows : discard FilesystemRecord.id s.mem.filesystems id = s.mem.filesystems :=
        congrArg Records.filesystems heq
      rw [getFs, ← hrows, lookup_discard, if_pos rfl] at hthere
      cases hthere
  | addPendingUnmount mp =>
    simp only [StoreCall.writes, Option.ite_none_left_eq_some, Option.some.injEq] at h
    obtain ⟨hnew, rfl⟩ := h
    apply iff_of_false hnew
    intro heq
    have hpending : s.mem.pending ++ [mp] = s.mem.pending := congrArg Records.pending heq
    simp at hpending
  | clearPendingUnmount mp =>
    simp only [StoreCall.writes, Option.ite_none_right_eq_some, Option.some.injEq] at h
    obtain ⟨hthere, rfl⟩ := h
    apply iff_of_false
    · intro hidle
      exact hidle hthere
    · intro heq
      have hlength := congrArg List.length (congrArg Records.pending heq)
      have hpos : 0 < s.mem.pending.length := List.length_pos_of_mem hthere
      simp only [List.length_erase_of_mem hthere] at hlength
      omega
  | _ => cases h

/-! ### The keys -/

structure Records.Keyed (m : Records) : Prop where
  volumes : KeyedRows.Keyed VolumeRecord.id m.volumes
  filesystems : KeyedRows.Keyed FilesystemRecord.id m.filesystems

theorem writes_keyed (hk : s.mem.Keyed) (h : call.writes s = some m) : m.Keyed := by
  cases call with
  | put rec =>
    obtain rfl := Option.some.inj h
    exact ⟨keyed_assign hk.volumes, hk.filesystems⟩
  | putFs rec =>
    obtain rfl := Option.some.inj h
    exact ⟨hk.volumes, keyed_assign hk.filesystems⟩
  | close =>
    obtain rfl := Option.some.inj h
    exact hk
  | delete id =>
    simp only [StoreCall.writes, Option.ite_none_right_eq_some, Option.some.injEq] at h
    obtain ⟨-, rfl⟩ := h
    exact ⟨keyed_discard hk.volumes, hk.filesystems⟩
  | deleteFs id =>
    simp only [StoreCall.writes, Option.ite_none_left_eq_some, Option.ite_none_right_eq_some,
      Option.some.injEq] at h
    obtain ⟨-, -, rfl⟩ := h
    exact ⟨hk.volumes, keyed_discard hk.filesystems⟩
  | addPendingUnmount mp =>
    simp only [StoreCall.writes, Option.ite_none_left_eq_some, Option.some.injEq] at h
    obtain ⟨-, rfl⟩ := h
    exact ⟨hk.volumes, hk.filesystems⟩
  | clearPendingUnmount mp =>
    simp only [StoreCall.writes, Option.ite_none_right_eq_some, Option.some.injEq] at h
    obtain ⟨-, rfl⟩ := h
    exact ⟨hk.volumes, hk.filesystems⟩
  | _ => cases h

/-- What is written reads back. -/
theorem load_payload (hk : m.Keyed) : (load draw (some (.v2 m.payload))).Same m := by
  have hvolumes : m.payload.volumes.Perm m.volumes := List.mergeSort_perm _ _
  have hfilesystems : m.payload.filesystems.Perm m.filesystems := List.mergeSort_perm _ _
  have hkv : KeyedRows.Keyed VolumeRecord.id m.payload.volumes :=
    (hvolumes.map _).nodup_iff.mpr hk.volumes
  have hkf : KeyedRows.Keyed FilesystemRecord.id m.payload.filesystems :=
    (hfilesystems.map _).nodup_iff.mpr hk.filesystems
  rw [load, assigned_of_keyed hkv, assigned_of_keyed hkf]
  exact ⟨hvolumes, hfilesystems, rfl, fun id => lookup_perm hkv hvolumes, fun id =>
    lookup_perm hkf hfilesystems⟩

/-! ### Steps -/

variable {k : Ledger} {l : StoreLabel}

theorem step_of_no_write (h : l.call.writes k.store = none) : k.step l = k := by
  obtain ⟨hsame, hidle⟩ := run_of_no_write l.fails h
  rw [Ledger.step, hsame]
  split
  next id _ hcall _ =>
    rw [hcall] at hidle
    change k.store.get id = none at hidle
    rw [hidle]
    rfl
  next => rfl

/-- The write fails: memory has changed, the file has not. -/
theorem step_of_failed_write (h : l.call.writes k.store = some m) (hfails : l.fails = true) :
    k.step l = { k with store := { k.store with mem := m } } ∧ (l.call.run k.store l.fails).2 =
      .error .write := by
  have hrun : l.call.run k.store l.fails = ({ k.store with mem := m }, .error .write) := by
    rw [run_of_writes h, hfails]
    rfl
  rw [Ledger.step, hrun]
  refine ⟨?_, rfl⟩
  cases l.call with
  | delete id => rfl
  | _ => rfl

/-- The ids a call deletes. -/
def StoreCall.deletes : StoreCall → List String
  | .delete id => [id]
  | _ => []

theorem step_of_write (h : l.call.writes k.store = some m) (hfails : l.fails = false) :
    k.step l = { store := { mem := m, disk := some (.v2 m.payload) },
                 deleted := l.call.deletes ++ k.deleted } ∧
      (l.call.run k.store l.fails).2 = .ok .done := by
  have hrun : l.call.run k.store l.fails =
      ({ mem := m, disk := some (.v2 m.payload) }, .ok .done) := by
    rw [run_of_writes h, hfails]
    rfl
  rw [Ledger.step, hrun]
  refine ⟨?_, rfl⟩
  split
  next id _ hcall _ =>
    rw [hcall] at h
    simp only [StoreCall.writes, Option.ite_none_right_eq_some] at h
    rw [hcall, if_pos h.1]
    rfl
  next hother =>
    have hnone : l.call.deletes = [] := by
      cases hc : l.call with
      | delete id => exact absurd rfl (hother id _ hc)
      | _ => rfl
    rw [hnone]
    rfl

/-- A put that is not of the present makes the records unlawful, and nothing else does. -/
theorem writes_lawful_iff (hk : k.Lawful) (h : l.call.writes k.store = some m) :
    (m.Referential ∧ ∀ id ∈ l.call.deletes ++ k.deleted,
      lookup VolumeRecord.id m.volumes id = none) ↔ l.call.Current k := by
  have hreferential := hk.referential
  have hburied := hk.buried
  -- only a put can name a record that is gone or a filesystem that is not there
  cases hc : l.call with
  | put rec =>
    rw [hc] at h
    obtain rfl := Option.some.inj h
    constructor
    · rintro ⟨href, hbur⟩
      refine ⟨href rec mem_assign_self, ?_⟩
      intro hdeleted
      have hnone := hbur rec.id hdeleted
      rw [lookup_assign, if_pos rfl] at hnone
      cases hnone
    · rintro ⟨hfs, hnew⟩
      constructor
      · intro v hv
        rcases mem_assign hv with rfl | hv
        · exact hfs
        · exact hreferential v hv
      · intro id hid
        have hne : id ≠ rec.id := fun heq => hnew (heq ▸ hid)
        rw [lookup_assign, if_neg hne]
        exact hburied id hid
  | putFs rec =>
    rw [hc] at h
    obtain rfl := Option.some.inj h
    refine iff_of_true ⟨?_, hburied⟩ trivial
    intro v hv
    rw [lookup_assign]
    split
    · rfl
    · exact hreferential v hv
  | close =>
    rw [hc] at h
    obtain rfl := Option.some.inj h
    exact iff_of_true ⟨hreferential, hburied⟩ trivial
  | delete id =>
    rw [hc] at h
    simp only [StoreCall.writes, Option.ite_none_right_eq_some, Option.some.injEq] at h
    obtain ⟨-, rfl⟩ := h
    refine iff_of_true ⟨?_, ?_⟩ trivial
    · intro v hv
      exact hreferential v (List.mem_filter.mp hv).1
    · intro id' hid'
      rw [lookup_discard]
      split
      · rfl
      next hne => exact hburied id' ((List.mem_cons.mp hid').resolve_left hne)
  | deleteFs id =>
    rw [hc] at h
    simp only [StoreCall.writes, Option.ite_none_left_eq_some, Option.ite_none_right_eq_some,
      Option.some.injEq] at h
    obtain ⟨hfree, -, rfl⟩ := h
    refine iff_of_true ⟨?_, hburied⟩ trivial
    intro v hv
    have hne : v.fsId ≠ id := by
      intro heq
      apply hfree
      exact List.any_eq_true.mpr ⟨v, hv, by simpa using heq⟩
    rw [lookup_discard, if_neg hne]
    exact hreferential v hv
  | addPendingUnmount mp =>
    rw [hc] at h
    simp only [StoreCall.writes, Option.ite_none_left_eq_some, Option.some.injEq] at h
    obtain ⟨-, rfl⟩ := h
    exact iff_of_true ⟨hreferential, hburied⟩ trivial
  | clearPendingUnmount mp =>
    rw [hc] at h
    simp only [StoreCall.writes, Option.ite_none_right_eq_some, Option.some.injEq] at h
    obtain ⟨-, rfl⟩ := h
    exact iff_of_true ⟨hreferential, hburied⟩ trivial
  | _ =>
    rw [hc] at h
    cases h

/-- One call from a lawful store. -/
theorem upholds_iff (hk : k.Lawful) (hkeyed : k.store.mem.Keyed) : k.Upholds l ↔ l.Sane k := by
  cases h : l.call.writes k.store with
  | none =>
    obtain ⟨hsame, hidle⟩ := run_of_no_write l.fails h
    refine iff_of_true ⟨?_, fun _ _ => hsame⟩ ⟨?_, fun _ => hidle⟩
    · rw [step_of_no_write h]
      exact hk
    · cases hc : l.call with
      | put rec =>
        rw [hc] at h
        cases h
      | _ => trivial
  | some m =>
    cases hfails : l.fails with
    | true =>
      obtain ⟨hstep, hraises⟩ := step_of_failed_write h hfails
      have hrun : (l.call.run k.store l.fails).1 = { k.store with mem := m } := by
        rw [run_of_writes h, hfails]
        rfl
      rw [Ledger.Upholds, hstep, hraises, hrun, StoreLabel.Sane, hfails, idle_iff_writes h]
      constructor
      · rintro ⟨-, hleft⟩
        have hmem : m = k.store.mem := congrArg JsonVolumeStore.mem (hleft .write rfl)
        refine ⟨?_, fun _ => hmem⟩
        -- an idle put is of a record that is in the store
        subst hmem
        cases hc : l.call with
        | put rec =>
          rw [hc] at h
          have hidle : k.store.get rec.id = some rec := (idle_iff_writes h).mpr rfl
          refine ⟨hk.referential rec (mem_of_lookup hidle), ?_⟩
          intro hdeleted
          rw [hk.buried rec.id hdeleted] at hidle
          cases hidle
        | _ => trivial
      · rintro ⟨-, hidle⟩
        obtain rfl := hidle rfl
        exact ⟨hk, fun _ _ => rfl⟩
    | false =>
      obtain ⟨hstep, hdone⟩ := step_of_write h hfails
      have hcurrent := writes_lawful_iff hk h
      rw [Ledger.Upholds, hstep, hdone]
      constructor
      · rintro ⟨hlawful, -⟩
        refine ⟨hcurrent.mp ⟨hlawful.referential, hlawful.buried⟩, ?_⟩
        rw [hfails]
        intro hfalse
        cases hfalse
      · rintro ⟨hput, -⟩
        obtain ⟨hreferential, hburied⟩ := hcurrent.mpr hput
        refine ⟨⟨hreferential, hburied, fun draw => load_payload (writes_keyed hkeyed h)⟩, ?_⟩
        intro e he
        cases he

theorem step_keyed (hkeyed : k.store.mem.Keyed) : (k.step l).store.mem.Keyed := by
  cases h : l.call.writes k.store with
  | none =>
    rw [step_of_no_write h]
    exact hkeyed
  | some m =>
    cases hfails : l.fails with
    | true =>
      rw [(step_of_failed_write h hfails).1]
      exact writes_keyed hkeyed h
    | false =>
      rw [(step_of_write h hfails).1]
      exact writes_keyed hkeyed h

/-! ### What goes -/

theorem delete_mem {id : String} (h : (s.get id).isSome) :
    (s.delete id false).1.mem =
      { s.mem with volumes := discard VolumeRecord.id s.mem.volumes id } := by
  rw [JsonVolumeStore.delete, if_pos h]
  rfl

theorem fsId_ne_of_volumesOf {id : String} (hnone : s.volumesOf id = []) :
    ∀ v ∈ s.mem.volumes, v.fsId ≠ id := by
  intro v hv heq
  have hmem : v ∈ s.volumesOf id := List.mem_filter.mpr ⟨hv, decide_eq_true heq⟩
  rw [hnone] at hmem
  cases hmem

/-- A filesystem that has no volumes goes. -/
theorem deleteFs_mem {id : String} (hnone : s.volumesOf id = []) (hthere : (s.getFs id).isSome) :
    (s.deleteFs id false).1.mem = { s.mem with
      filesystems := discard FilesystemRecord.id s.mem.filesystems id } := by
  have hunnamed : ¬ s.mem.volumes.any (fun v => v.fsId = id) = true := by
    intro hany
    obtain ⟨v, hv, heq⟩ := List.any_eq_true.mp hany
    exact fsId_ne_of_volumesOf hnone v hv (of_decide_eq_true heq)
  rw [JsonVolumeStore.deleteFs, if_neg hunnamed, if_pos hthere]
  rfl

theorem deleteFs_keeps {id : String} (hk : s.mem.Keyed) (hr : s.mem.Referential)
    (hnone : s.volumesOf id = []) (hthere : (s.getFs id).isSome) :
    (s.deleteFs id false).1.mem.volumes = s.mem.volumes ∧ (s.deleteFs id false).1.mem.Keyed ∧
      (s.deleteFs id false).1.mem.Referential := by
  rw [deleteFs_mem hnone hthere]
  refine ⟨rfl, ⟨hk.volumes, keyed_discard hk.filesystems⟩, ?_⟩
  intro v hv
  change (lookup FilesystemRecord.id
      (discard FilesystemRecord.id s.mem.filesystems id) v.fsId).isSome
  rw [lookup_discard, if_neg (fsId_ne_of_volumesOf hnone v hv)]
  exact hr v hv

/-! ### Opening a store -/

/-- A migration so far: the volumes have their filesystems, and so have the paths. -/
structure Migration.Sound (g : Migration) : Prop where
  referential : g.records.Referential
  paths : ∀ e ∈ g.byPath, (lookup FilesystemRecord.id g.records.filesystems e.2).isSome
  keyed : g.records.Keyed

theorem lookup_assign_isSome {rows : List FilesystemRecord} {rec : FilesystemRecord} {id : String}
    (h : (lookup FilesystemRecord.id rows id).isSome) :
    (lookup FilesystemRecord.id (assign FilesystemRecord.id rows rec) id).isSome := by
  rw [lookup_assign]
  split
  · rfl
  · exact h

theorem Migration.Sound.step {g : Migration} (hg : g.Sound) (rec : OldVolume) (fresh : String) :
    (g.step rec fresh).Sound := by
  rw [Migration.step]
  split
  next path fsId hpath =>
    refine ⟨?_, hg.paths, ⟨keyed_assign hg.keyed.volumes, hg.keyed.filesystems⟩⟩
    intro v hv
    rcases mem_assign hv with rfl | hv
    · exact hg.paths _ (mem_of_lookup hpath)
    · exact hg.referential v hv
  next =>
    have hfresh : (lookup FilesystemRecord.id (assign FilesystemRecord.id g.records.filesystems
        { id := fresh, displayName := if rec.fields.name = "" then fresh else rec.fields.name
          sqlitePath := rec.sqlitePath, createdAt := rec.fields.createdAt }) fresh).isSome := by
      rw [lookup_assign, if_pos rfl, Option.isSome_some]
    refine ⟨?_, ?_, ⟨keyed_assign hg.keyed.volumes, keyed_assign hg.keyed.filesystems⟩⟩
    · intro v hv
      rcases mem_assign hv with rfl | hv
      · exact hfresh
      · exact lookup_assign_isSome (hg.referential v hv)
    · intro e he
      rcases List.mem_append.mp he with he | he
      · exact lookup_assign_isSome (hg.paths e he)
      · obtain rfl := List.mem_singleton.mp he
        exact hfresh

variable (draw) in
/-- `_migrate_v1_locked` gives every volume its filesystem. -/
theorem migrateV1_sound (hm : m.volumes = []) (hkeyed : m.Keyed) (volumes : List OldVolume) :
    (migrateV1 m volumes draw).Referential ∧ (migrateV1 m volumes draw).Keyed := by
  have hfold : ∀ (items : List (OldVolume × ℕ)) (g : Migration), g.Sound →
      (items.foldl (fun g rec => g.step rec.1 (draw rec.2)) g).Sound := by
    intro items
    induction items with
    | nil => exact fun g hg => hg
    | cons rec items ih => exact fun g hg => ih _ (hg.step rec.1 (draw rec.2))
  have hstart : ({ records := m } : Migration).Sound := by
    refine ⟨?_, ?_, hkeyed⟩
    · intro v hv
      rw [hm] at hv
      cases hv
    · intro e he
      cases he
  have hend := hfold volumes.zipIdx _ hstart
  exact ⟨hend.referential, hend.keyed⟩

theorem Records.Same.refl (m : Records) : m.Same m :=
  ⟨List.Perm.refl _, List.Perm.refl _, rfl, fun _ => rfl, fun _ => rfl⟩

/-- A store that was opened is lawful, if the file was. -/
theorem openStore_lawful {disk : Option StoreFile} (hopen : openStore draw disk fails = .ok s)
    (hdisk : ∀ p, disk = some (.v2 p) → (load draw disk).Referential) :
    ({ store := s } : Ledger).Lawful ∧ s.mem.Keyed := by
  have hnone : ∀ id ∈ ([] : List String), s.get id = none := by
    intro id hid
    cases hid
  cases disk with
  | none =>
    have hs : s = { mem := load draw none, disk := some (.v2 (load draw none).payload) } := by
      cases fails with
      | true => cases hopen
      | false => exact (Except.ok.inj hopen).symm
    subst hs
    have hkeyed : (load draw none).Keyed := ⟨List.nodup_nil, List.nodup_nil⟩
    refine ⟨⟨?_, hnone, fun draw' => load_payload hkeyed⟩, hkeyed⟩
    intro v hv
    cases hv
  | some file =>
    cases file with
    | v1 filesystems volumes pending =>
      have hs : s = { mem := load draw (some (.v1 filesystems volumes pending)),
                      disk := some (.v2
                        (load draw (some (.v1 filesystems volumes pending))).payload) } := by
        cases fails with
        | true => cases hopen
        | false => exact (Except.ok.inj hopen).symm
      subst hs
      let m : Records :=
        { filesystems := assigned FilesystemRecord.id filesystems, pending := pending }
      have hm : m.Keyed := ⟨List.nodup_nil, keyed_assigned filesystems⟩
      obtain ⟨hreferential, hkeyed⟩ := migrateV1_sound draw rfl hm volumes
      exact ⟨⟨hreferential, hnone, fun draw' => load_payload hkeyed⟩, hkeyed⟩
    | v2 p =>
      obtain rfl := Except.ok.inj hopen
      have hkeyed : (load draw (some (.v2 p))).Keyed :=
        ⟨keyed_assigned p.volumes, keyed_assigned p.filesystems⟩
      exact ⟨⟨hdisk p rfl, hnone, fun draw' => Records.Same.refl _⟩, hkeyed⟩

/-- The records stay lawful, call by call, exactly as long as no caller puts back what was
deleted and no write fails that had something to write. -/
theorem store_upholds_iff {disk : Option StoreFile} (hopen : openStore draw disk fails = .ok s)
    (hdisk : ∀ p, disk = some (.v2 p) → (load draw disk).Referential) (ls : List StoreLabel) :
    GuardedRuns.Guards Ledger.step Ledger.Upholds { store := s } ls ↔
      GuardedRuns.Guards Ledger.step (fun k l => l.Sane k) { store := s } ls := by
  obtain ⟨hlawful, hkeyed⟩ := openStore_lawful hopen hdisk
  apply GuardedRuns.Guards.congr (P := fun k : Ledger => k.Lawful ∧ k.store.mem.Keyed)
  · intro k l hk
    exact upholds_iff hk.1 hk.2
  · intro k l hk hup
    exact ⟨hup.1, step_keyed hk.2⟩
  · exact ⟨hlawful, hkeyed⟩

/-! ### A record put back -/

def oneFilesystem : FilesystemRecord :=
  { id := "f", displayName := "files", sqlitePath := "f.sqlite", createdAt := 0 }

def oneRecord : VolumeRecord :=
  { id := "v", name := "vol", fsId := "f", encrypted := false, createdAt := 0, mounted := false,
    mountpoint := none }

/-- The store of a first run. -/
def firstStore : Ledger := { store := { disk := some (.v2 ({} : Records).payload) } }

/-- A volume is made, fetched, marked and put back; a delete of what is not there fails to
write nothing. -/
def markedMounted : List StoreLabel :=
  [⟨.putFs oneFilesystem, false⟩, ⟨.put oneRecord, false⟩, ⟨.get "v", false⟩,
    ⟨.put { oneRecord with mounted := true }, false⟩,
    ⟨.delete "w", true⟩]

theorem store_upholds_markedMounted :
    GuardedRuns.Guards Ledger.step Ledger.Upholds firstStore markedMounted := by
  have hopen : openStore (fun _ => "") none false = .ok firstStore.store := rfl
  apply (store_upholds_iff hopen (fun p hp => by cases hp) markedMounted).mpr
  decide +kernel

/-- The volume is deleted, and its filesystem after it, while a caller holds the record. -/
def putBack : List StoreLabel :=
  [⟨.putFs oneFilesystem, false⟩, ⟨.put oneRecord, false⟩, ⟨.get "v", false⟩, ⟨.delete "v", false⟩,
    ⟨.deleteFs "f", false⟩,
    ⟨.put { oneRecord with mounted := true }, false⟩]

/-- The deleted volume is there again without its filesystem; and a put whose write fails
has changed memory. -/
theorem store_takes_back_deleted :
    let k := putBack.foldl Ledger.step firstStore
    let failed := (StoreCall.putFs oneFilesystem).run firstStore.store true
    (openStore (fun _ => "") none false = .ok firstStore.store ∧
      "v" ∈ k.deleted ∧ k.store.get "v" = some { oneRecord with mounted := true } ∧
      ¬ k.store.mem.Referential ∧ ¬ k.Lawful) ∧
        failed.2 = .error .write ∧ failed.1.listFs = [oneFilesystem] ∧ firstStore.store.listFs =
        [] := by
  intro k failed
  have hdeleted : "v" ∈ k.deleted := by decide +kernel
  have hback : k.store.get "v" = some { oneRecord with mounted := true } := by decide +kernel
  have hdangling : ¬ k.store.mem.Referential := by
    intro h
    have hmem : { oneRecord with mounted := true } ∈ k.store.mem.volumes := mem_of_lookup hback
    have hfs := h _ hmem
    have hnone : lookup FilesystemRecord.id k.store.mem.filesystems "f" = none := by decide +kernel
    rw [show ({ oneRecord with mounted := true } : VolumeRecord).fsId = "f" from rfl, hnone] at hfs
    cases hfs
  refine ⟨⟨rfl, hdeleted, hback, hdangling, fun h => hdangling h.referential⟩, ?_, ?_, rfl⟩
  · decide +kernel
  · decide +kernel

end Aloelite.VolumeStore
