import Aloelite.Integrity

/-! CV-3: the committed version of an entry over whole runs. A stream claims its
version at its first flush and commits it at its close, so the order of the two
against other commits is what decides. -/
namespace Aloelite

open Fallible KeyedRows ForestOrder Relation

variable {C : Crypto} {M : Msgpack} {E : Env} {L : License} {now : Int} {db db' : Db} {s : Sys}
  {n : NodeId} {c v : ℕ} {op : Op} {l : Label}

/-! ### One transaction -/

theorem content?_updateContent {m : NodeId} {version size : ℕ} :
    (db.updateContent now m version size).content? n =
      if n = m then (db.content? n).map (fun r => { r with version := version, size := size })
      else db.content? n :=
  lookup_amend (fun _ => rfl)

theorem content?_setRetentionKeep {m : NodeId} {keep : Option Int} :
    (db.setRetentionKeep m keep).content? n =
      if n = m then (db.content? n).map (fun r => { r with retentionKeep := keep })
      else db.content? n :=
  lookup_amend (fun _ => rfl)

/-- A statement keeps the committed version of an entry, unless it is the pointer
swap of that entry. -/
theorem committedVersion_exec {st : Stmt} (h : st.exec now db = .ok db')
    (hprune : ∀ volume, st ≠ .pruneNodes volume) (hc : db.committedVersion n = some c) :
    ∃ c', db'.committedVersion n = some c' ∧ (c' = c ∨ ∃ size, st = .updateContent n c' size) := by
  obtain ⟨r, hr, rfl⟩ := Option.map_eq_some_iff.mp hc
  by_cases ht : Table.contents ∈ st.touches
  · cases st with
    | createContent m version size =>
      obtain ⟨-, -, rfl⟩ := Db.createContent_ok h
      have hold : lookup ContentRow.nodeId db.contents n = some r := hr
      refine ⟨r.version, ?_, Or.inl rfl⟩
      rw [Db.committedVersion, Db.content?, lookup_append_of_some hold]
      rfl
    | updateContent m version size =>
      obtain rfl := Except.ok.inj h
      rw [Db.committedVersion, content?_updateContent]
      by_cases hm : n = m
      · rw [if_pos hm, hr]
        exact ⟨version, rfl, Or.inr ⟨size, by rw [hm]⟩⟩
      · rw [if_neg hm, hr]
        exact ⟨r.version, rfl, Or.inl rfl⟩
    | setRetentionKeep m keep =>
      obtain rfl := Except.ok.inj h
      rw [Db.committedVersion, content?_setRetentionKeep]
      by_cases hm : n = m
      · rw [if_pos hm, hr]
        exact ⟨r.version, rfl, Or.inl rfl⟩
      · rw [if_neg hm, hr]
        exact ⟨r.version, rfl, Or.inl rfl⟩
    | pruneNodes volume => exact absurd rfl (hprune volume)
    | _ => simp [Stmt.touches] at ht
  · have hcontents := (Stmt.exec_agreeOff h).contents ht
    refine ⟨r.version, ?_, Or.inl rfl⟩
    rw [Db.committedVersion, Db.content?, hcontents]
    exact hc

/-- What fills a node leaves every committed version there was. -/
theorem Fills.committedVersion {m : NodeId} (h : Steps (Fills m) now db db')
    (hc : db.committedVersion n = some c) : db'.committedVersion n = some c := by
  induction h with
  | refl => exact hc
  | tail _ hstep ih =>
    obtain ⟨st, hst, hexec⟩ := hstep
    have hprune : ∀ volume, st ≠ .pruneNodes volume := by
      rintro volume rfl
      exact hst
    obtain ⟨c', hc', rfl | ⟨size, rfl⟩⟩ := committedVersion_exec hexec hprune ih
    · exact hc'
    · exact hst.elim

theorem Stride.committedVersion (h : Stride L now db db') (hc : db.committedVersion n = some c) :
    ∃ c', db'.committedVersion n = some c' ∧ (c' = c ∨ L.write n c') := by
  cases h with
  | stmt st hst hexec =>
    have hprune : ∀ volume, st ≠ .pruneNodes volume := by
      rintro volume rfl
      exact hst
    obtain ⟨c', hc', heq | ⟨size, rfl⟩⟩ := committedVersion_exec hexec hprune hc
    · exact ⟨c', hc', Or.inl heq⟩
    · exact ⟨c', hc', Or.inr hst⟩
  | birth row modifiedAt id f hhost hf hrow hfill hedge =>
    obtain ⟨-, -, rfl⟩ := Db.createNode_ok hrow
    have hfilled := Fills.committedVersion hfill hc
    obtain ⟨-, -, -, -, -, -, -, -, -, rfl⟩ := Db.createEdge_ok hedge
    exact ⟨c, hfilled, Or.inl rfl⟩

/-- An operation moves a committed version only to one its license lets it
write. -/
theorem Strides.committedVersion (h : Strides L now db db') (hc : db.committedVersion n = some c) :
    ∃ c', db'.committedVersion n = some c' ∧ (c' = c ∨ L.write n c') := by
  induction h with
  | refl => exact ⟨c, hc, Or.inl rfl⟩
  | tail _ hstride ih =>
    obtain ⟨c₁, hc₁, h₁⟩ := ih
    obtain ⟨c₂, hc₂, rfl | h₂⟩ := hstride.committedVersion hc₁
    · exact ⟨c₂, hc₂, h₁⟩
    · exact ⟨c₂, hc₂, Or.inr h₂⟩

/-- A new version is above the committed one. -/
theorem lt_nextVersion (hc : db.committedVersion n = some c) : c < db.nextVersion n := by
  obtain ⟨r, hr, rfl⟩ := Option.map_eq_some_iff.mp hc
  rw [Db.nextVersion, hr]
  have hle : r.version ≤ max r.version
      ((((db.versions.filter (fun r => r.contentId = n)).map VersionRow.version).max?).getD 0) :=
    le_max_left _ _
  exact Nat.lt_succ_of_le hle

/-! ### One step -/

/-- A close that commits comes while the committed version is still below the
one its stream claimed at an earlier flush. -/
def FreshClaims (s : Sys) (l : Label) : Prop :=
  match l.op with
  | .fdClose fd => ∀ f v c, s.fds[fd]? = some f → f.d.closed = false → f.d.version = some v →
      f.d.requireLock l.env s.db = .ok () → s.db.committedVersion f.d.node = some c → c < v
  | _ => True

/-- `v` may follow `c` as the committed version. -/
def Follows (c : ℕ) (v : Option ℕ) : Prop := ∃ c', v = some c' ∧ (c' = c ∨ c < c')

theorem follows_close {k : Cipher} {tx tx' : Tx} {d : Descriptor} (h : d.close C E k tx = .ok tx')
    (hfresh : ∀ v c, d.closed = false → d.version = some v → d.requireLock E tx.db = .ok () →
      tx.db.committedVersion d.node = some c → c < v)
    (hc : tx.db.committedVersion n = some c) : Follows c (tx'.db.committedVersion n) := by
  by_cases hopen : d.closed = true ∨ d.writable = false
  · rw [Descriptor.close, if_pos hopen] at h
    obtain rfl := Except.ok.inj h
    exact ⟨c, hc, Or.inl rfl⟩
  · obtain ⟨c', hc', heq | ⟨rfl, rfl⟩⟩ := (close_strides h).committedVersion hc
    · exact ⟨c', hc', Or.inl heq⟩
    · refine ⟨_, hc', Or.inr ?_⟩
      rw [Descriptor.close, if_neg hopen] at h
      obtain ⟨hlock, -⟩ := commit_ok h
      rw [Descriptor.claims]
      cases hv : d.version with
      | none => exact lt_nextVersion hc
      | some v =>
        have hclosed : d.closed = false := by
          rw [← Bool.not_eq_true]
          exact fun ht => hopen (Or.inl ht)
        exact hfresh v c hclosed hv hlock hc

theorem Request.license_write {r : Request} {a : NodeId} (h : (r.license db a).write n v) :
    v = db.nextVersion n := by
  cases r <;> exact h

/-- Apart from a flush and a close, a step writes new versions only. -/
theorem Op.license_write (hflush : ∀ fd, op ≠ .fdFlush fd) (hclose : ∀ fd, op ≠ .fdClose fd)
    (h : (op.license E s).write n v) : v = s.db.nextVersion n := by
  cases op with
  | request m r => exact Request.license_write h
  | openWrite m path mode lock => exact h
  | fdFlush fd => exact absurd rfl (hflush fd)
  | fdClose fd => exact absurd rfl (hclose fd)
  | _ => exact h.elim

theorem onFd_db {fd : FdId} {P : Db → Prop} (hsame : P s.db)
    (hfd : ∀ f, s.fds[fd]? = some f → P (fdStep C E s fd f op).1.db) :
    P (onFd C E s fd op).1.db := by
  rw [onFd]
  cases hf : s.fds[fd]? with
  | none => exact hsame
  | some f => exact hfd f hf

theorem exec_committedVersion {conn : ConnId} (hs : s.db.Sound)
    (hfresh : FreshClaims s ⟨E, conn, op⟩) (hc : s.db.committedVersion n = some c) :
    Follows c ((exec C M E s conn op).1.db.committedVersion n) := by
  have hsame : Follows c (s.db.committedVersion n) := ⟨c, hc, Or.inl rfl⟩
  by_cases hflush : ∃ fd, op = .fdFlush fd
  · obtain ⟨fd, rfl⟩ := hflush
    refine onFd_db (P := fun db => Follows c (db.committedVersion n)) hsame ?_
    intro f hf
    simp only [fdStep]
    split
    · refine fdTransact_db (P := fun db => Follows c (db.committedVersion n)) hsame ?_
      intro tx h
      have hcontents := (flushOneChunk_agreeOff h).contents (by simp)
      rw [Db.committedVersion, Db.content?, hcontents]
      exact hsame
    · exact hsame
  by_cases hclose : ∃ fd, op = .fdClose fd
  · obtain ⟨fd, rfl⟩ := hclose
    refine onFd_db (P := fun db => Follows c (db.committedVersion n)) hsame ?_
    intro f hf
    simp only [fdStep]
    split
    · exact hsame
    · refine fdTransact_db (P := fun db => Follows c (db.committedVersion n)) hsame ?_
      intro tx h
      exact follows_close h (fun v c => hfresh f v c hf) hc
  have heffect : Effect C E s op (exec C M E s conn op).1.db := exec_effect hs.linked
  generalize (exec C M E s conn op).1.db = db' at heffect
  cases heffect with
  | strides h =>
    obtain ⟨c', hc', heq | hw⟩ := h.committedVersion hc
    · exact ⟨c', hc', Or.inl heq⟩
    · have hnext := Op.license_write (fun fd h => hflush ⟨fd, h⟩) (fun fd h => hclose ⟨fd, h⟩) hw
      exact ⟨c', hc', Or.inr (hnext ▸ lt_nextVersion hc)⟩
  | founding h =>
    obtain ⟨-, -, -, -, -, hframe, -, -⟩ := createVolume_shape h
    rw [Db.committedVersion, Db.content?, hframe.contents (by simp)]
    exact hsame
  | prune h =>
    rw [prune_shape h hs]
    exact hsame
  | pruneContent h =>
    rw [pruneContent_shape h]
    exact hsame

/-! ### Histories -/

theorem notePointers_same {db db' : Db} (h : db'.committedVersion n = db.committedVersion n)
    (hist : NodeId → List ℕ) : Sys.notePointers db db' hist n = hist n := by
  rw [Sys.notePointers, h]
  cases hc : db.committedVersion n with
  | none => rfl
  | some c => simp

/-- The pointer history is the one of the files before and after. -/
def Noted (s s' : Sys) : Prop := s'.pointers = Sys.notePointers s.db s'.db s.pointers

theorem noted_of_same {s' : Sys} (hdb : s'.db = s.db) (hp : s'.pointers = s.pointers) :
    Noted s s' := by
  rw [Noted, hdb, hp]
  funext n
  exact (notePointers_same rfl _).symm

theorem transact_noted {α : Type} {body : Except FsError (Tx × α)} {done : Sys → α → Sys × Reply}
    (hdb : ∀ s a, (done s a).1.db = s.db) (hp : ∀ s a, (done s a).1.pointers = s.pointers) :
    Noted s (s.transact body done).1 := by
  cases body with
  | error e => exact noted_of_same rfl rfl
  | ok r =>
    obtain ⟨tx, a⟩ := r
    show (done (s.commit tx) a).1.pointers =
        Sys.notePointers s.db (done (s.commit tx) a).1.db s.pointers
    rw [hdb, hp]
    rfl

theorem fdTransact_noted {fd : FdId} {f : OpenFile} {d : Descriptor} {body : Except FsError Tx} :
    Noted s (s.fdTransact fd f d body).1 := by
  cases body with
  | error e => exact noted_of_same rfl rfl
  | ok tx => rfl

theorem fdStep_noted {fd : FdId} {f : OpenFile} : Noted s (fdStep C E s fd f op).1 := by
  have hsame : Noted s s := noted_of_same rfl rfl
  cases op with
  | fdFlush fd' =>
    simp only [fdStep]
    split
    · exact fdTransact_noted
    · exact hsame
  | _ =>
    simp only [fdStep]
    split
    · exact hsame
    · first
      | exact hsame
      | exact fdTransact_noted
      | (split <;> exact hsame)

theorem onFd_noted {fd : FdId} : Noted s (onFd C E s fd op).1 := by
  rw [onFd]
  split
  · exact noted_of_same rfl rfl
  · exact fdStep_noted

theorem exec_noted {conn : ConnId} : Noted s (exec C M E s conn op).1 := by
  cases op with
  | openRead mount path =>
    simp only [exec]
    split <;> exact noted_of_same rfl rfl
  | fdRead fd n => exact onFd_noted
  | fdWrite fd data => exact onFd_noted
  | fdFlush fd => exact onFd_noted
  | fdSeek fd offset whence => exact onFd_noted
  | fdClose fd => exact onFd_noted
  | fdAbort fd => exact onFd_noted
  | _ => exact transact_noted (fun _ _ => rfl) (fun _ _ => rfl)

/-- An entry that has a committed version: the history starts with it. One that
has none has no history. -/
def CurrentFirst (s : Sys) (n : NodeId) : Prop := (s.pointers n).head? = s.db.committedVersion n

/-- No older committed version reaches a newer one. -/
def Descending (s : Sys) (n : NodeId) : Prop := (s.pointers n).Pairwise (· > ·)

theorem exec_keeps_version {conn : ConnId} (hs : s.db.Sound)
    (hc : s.db.committedVersion n ≠ none) :
    (exec C M E s conn op).1.db.committedVersion n ≠ none := by
  obtain ⟨c, hc⟩ := Option.ne_none_iff_exists'.mp hc
  have heffect : Effect C E s op (exec C M E s conn op).1.db := exec_effect hs.linked
  generalize (exec C M E s conn op).1.db = db' at heffect
  cases heffect with
  | strides h =>
    obtain ⟨c', hc', -⟩ := h.committedVersion hc
    simp [hc']
  | founding h =>
    obtain ⟨-, -, -, -, -, hframe, -, -⟩ := createVolume_shape h
    rw [Db.committedVersion, Db.content?, hframe.contents (by simp)]
    exact Option.ne_none_iff_exists'.mpr ⟨c, hc⟩
  | prune h =>
    rw [prune_shape h hs]
    exact Option.ne_none_iff_exists'.mpr ⟨c, hc⟩
  | pruneContent h =>
    rw [pruneContent_shape h]
    exact Option.ne_none_iff_exists'.mpr ⟨c, hc⟩

theorem exec_current {conn : ConnId} (hs : s.db.Sound) (h : CurrentFirst s n) :
    CurrentFirst (exec C M E s conn op).1 n := by
  have hnoted : Noted s (exec C M E s conn op).1 := exec_noted
  have hkeeps : s.db.committedVersion n ≠ none →
      (exec C M E s conn op).1.db.committedVersion n ≠ none := exec_keeps_version hs
  generalize (exec C M E s conn op).1 = s' at hnoted hkeeps
  rw [CurrentFirst, hnoted, Sys.notePointers]
  cases hv : s'.db.committedVersion n with
  | none =>
    have hnone : s.db.committedVersion n = none := by
      by_contra hne
      exact hkeeps hne hv
    show (s.pointers n).head? = none
    rw [h, hnone]
  | some v =>
    by_cases heq : s.db.committedVersion n = some v
    · simp only [heq, if_true]
      rw [h, heq]
    · simp [heq]

/-- In a descending history that starts with the committed version, that version
is the greatest. -/
theorem le_committed (hfirst : CurrentFirst s n) (hdesc : Descending s n) :
    ∀ v ∈ s.pointers n, ∃ c, s.db.committedVersion n = some c ∧ v ≤ c := by
  intro v hv
  rw [CurrentFirst] at hfirst
  rw [Descending] at hdesc
  cases hp : s.pointers n with
  | nil => simp [hp] at hv
  | cons c older =>
    rw [hp] at hfirst hdesc hv
    refine ⟨c, hfirst.symm, ?_⟩
    rcases List.mem_cons.mp hv with rfl | hold
    · exact le_rfl
    · exact (List.rel_of_pairwise_cons hdesc hold).le

/-- A step that changes a committed version sets one above the whole history. -/
theorem lt_of_changed {conn : ConnId} (hs : s.db.Sound) (hfirst : CurrentFirst s n)
    (hdesc : Descending s n) (hfresh : FreshClaims s ⟨E, conn, op⟩)
    (hc : (exec C M E s conn op).1.db.committedVersion n = some c)
    (hne : s.db.committedVersion n ≠ some c) : ∀ v ∈ s.pointers n, v < c := by
  intro v hv
  obtain ⟨c₀, hc₀, hle⟩ := le_committed hfirst hdesc v hv
  obtain ⟨c', hc', heq | hlt⟩ := exec_committedVersion (C := C) (M := M) hs hfresh hc₀
  · rw [hc] at hc'
    rw [hc₀, ← heq, hc'] at hne
    exact absurd rfl hne
  · rw [hc] at hc'
    have hcc : c = c' := Option.some.inj hc'
    omega

theorem exec_descending {conn : ConnId} (hs : s.db.Sound) (hfirst : CurrentFirst s n)
    (hdesc : Descending s n) (hfresh : FreshClaims s ⟨E, conn, op⟩) :
    Descending (exec C M E s conn op).1 n := by
  have hnoted : Noted s (exec C M E s conn op).1 := exec_noted
  have hlt := fun c => lt_of_changed (C := C) (M := M) (c := c) hs hfirst hdesc hfresh
  generalize (exec C M E s conn op).1 = s' at hnoted hlt
  rw [Descending, hnoted, Sys.notePointers]
  cases hv : s'.db.committedVersion n with
  | none => exact hdesc
  | some c =>
    by_cases heq : s.db.committedVersion n = some c
    · simp only [heq, if_true]
      exact hdesc
    · simp only [heq, if_false]
      exact List.pairwise_cons.mpr ⟨hlt c hv heq, hdesc⟩

/-- The history of every entry starts with its committed version, on every
run. -/
theorem Reaches.current {guard : Sys → Label → Prop} (h : Reaches C M guard s) :
    ∀ n, CurrentFirst s n := by
  have hboth : s.db.Sound ∧ ∀ n, CurrentFirst s n := by
    refine GuardedRuns.Run.invariant (P := fun s : Sys => s.db.Sound ∧
      ∀ n, CurrentFirst s n) ?_ h ?_
    · intro s l _ hs
      exact ⟨step_sound hs.1, fun n => exec_current hs.1 (hs.2 n)⟩
    · exact ⟨empty_sound, fun n => rfl⟩
  exact hboth.2

/-- Along every run whose closes come before any commit that overtakes their claim,
each new committed version of an entry is above every earlier one. -/
theorem pointer_moves_forward (h : Reaches C M FreshClaims s) :
    (∀ n, Descending s n ∧ ∀ v ∈ s.pointers n, ∃ c, s.db.committedVersion n = some c ∧ v ≤ c) ∧
      ∀ l n c, FreshClaims s l → (step C M s l).db.committedVersion n = some c →
        s.db.committedVersion n ≠ some c → ∀ v ∈ s.pointers n, v < c := by
  have hfirst := h.current
  have hdesc : ∀ n, Descending s n := by
    have hall : s.db.Sound ∧ ∀ n, CurrentFirst s n ∧ Descending s n := by
      refine GuardedRuns.Run.invariant
        (P := fun s : Sys => s.db.Sound ∧ ∀ n, CurrentFirst s n ∧ Descending s n) ?_ h ?_
      · intro s l hfresh hs
        refine ⟨step_sound hs.1, fun n => ⟨exec_current hs.1 (hs.2 n).1, ?_⟩⟩
        exact exec_descending hs.1 (hs.2 n).1 (hs.2 n).2 hfresh
      · exact ⟨empty_sound, fun n => ⟨rfl, List.Pairwise.nil⟩⟩
    exact fun n => (hall.2 n).2
  constructor
  · intro n
    exact ⟨hdesc n, le_committed (hfirst n) (hdesc n)⟩
  · intro l n c hfresh hc hne
    exact lt_of_changed h.sound (hfirst n) (hdesc n) hfresh hc hne

/-- A stream on the entry `x` that has flushed its first chunk. -/
def flushedRun : List Label :=
  [⟨.counting 0, 0, .createVolume none 1 none .none⟩,
    ⟨.counting 1, 0, .mount { volume := 0 }⟩,
    ⟨.counting 2, 0, .request 1 (.createEntry "x" [])⟩,
    ⟨.counting 4, 0, .openWrite 1 "x" .truncate none⟩,
    ⟨.counting 5, 0, .fdWrite 0 [9]⟩,
    ⟨.counting 6, 0, .fdFlush 0⟩]

/-- The close that commits the version claimed at the flush. -/
def closedRun : List Label := flushedRun ++ [⟨.counting 7, 0, .fdClose 0⟩]

theorem pointer_moves_forward_closed :
    Descending (closedRun.foldl (step Crypto.xorStream Msgpack.refusing) {}) 2 := by
  have hguards : GuardedRuns.Guards (step Crypto.xorStream Msgpack.refusing) FreshClaims {}
      closedRun := by
    refine ⟨trivial, trivial, trivial, trivial, trivial, trivial, ?_, trivial⟩
    intro f v c hf _ hv _ hc
    cases hf
    cases hv
    cases hc
    decide
  exact ((pointer_moves_forward (GuardedRuns.Run.foldl hguards)).1 2).1

/-- A whole-content write through the same mount between the flush and the close:
the close takes the pointer back from 2 to 1. -/
theorem close_moves_pointer_back :
    ∃ s, Reaches Crypto.xorStream Msgpack.refusing (fun _ _ => True) s ∧
      s.pointers 2 = [1, 2, 0] ∧ s.db.committedVersion 2 = some 1 ∧ ¬ Descending s 2 := by
  let ls : List Label := flushedRun ++
    [⟨.counting 7, 0, .request 1 (.writeAll "x" [8])⟩, ⟨.counting 8, 0, .fdClose 0⟩]
  have hguards : GuardedRuns.Guards (step Crypto.xorStream Msgpack.refusing)
      (fun _ _ => True) {} ls :=
    ⟨trivial, trivial, trivial, trivial, trivial, trivial, trivial, trivial, trivial⟩
  have hpointers : (ls.foldl (step Crypto.xorStream Msgpack.refusing) {}).pointers 2 =
      [1, 2, 0] := by
    decide +kernel
  refine ⟨_, GuardedRuns.Run.foldl hguards, hpointers, by decide +kernel, ?_⟩
  rw [Descending, hpointers]
  decide

end Aloelite
