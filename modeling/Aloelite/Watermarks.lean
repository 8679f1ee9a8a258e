import Aloelite.MarkedFiles

/-! The fence between sessions: ids of a session are above those committed before it began, and the
marks are above them all. -/
namespace Aloelite

open Fallible KeyedRows Dicts

namespace IdSys

variable {s s' : IdSys} {i j : ℕ} {h h₀ : IdHandle} {w : MarkedFile} {v : VolumeId} {now : ℕ}

/-- The draft of the writing handle: over the newest commit, each id covered by
the draft's mark or by one still pending. -/
structure Drafted (s : IdSys) (h : IdHandle) (w : MarkedFile) : Prop where
  rev : w.rev = s.file.rev
  raised : s.file.Raised w
  covered : ∀ r ∈ w.ids, w.Covers r ∨
    ((w.mark? r.volume).isSome ∧ ∃ p ∈ h.pending, p.volumeId = r.volume ∧ r.stamp ≤ p.wm)

/-- What is so of the mints and pending marks of a handle in any state. -/
structure Minting (h : IdHandle) : Prop where
  keyed : KeyedRows.Keyed VolumeMark.volumeId h.pending
  counting : ∀ v m, h.mints v = some m → m.Counting ∧ m.seq < seqLimit
  exact : ∀ p ∈ h.pending, ∃ m, h.mints p.volumeId = some m ∧ m.state = p.wm ∧ 0 ≤ m.seq

structure Keeps (s : IdSys) (i : ℕ) (h : IdHandle) : Prop extends Minting h where
  idle : s.writer ≠ some i → h.pending = []
  known : ∀ r ∈ h.known, s.file.Covers r
  seen : ∀ w, h.txn = some (some w) → w.Sized ∧ ∀ r ∈ h.known, w.Covers r
  snapshot : ∀ w, h.txn = some (some w) → s.writer ≠ some i →
    w.rev ≤ s.file.rev ∧ (w.rev = s.file.rev → w = s.file)
  writing : s.writer = some i → ∃ w, h.txn = some (some w) ∧ Drafted s h w

structure Fenced (s : IdSys) : Prop where
  sized : s.file.Sized
  rows : ∀ r ∈ s.file.ids, s.file.Covers r
  issued : ∀ r ∈ s.issued, s.file.Covers r
  handles : ∀ i h, s.handles i = some h → Keeps s i h
  writer : ∀ i, s.writer = some i → (s.handles i).isSome

/-- Another handle's step leaves a handle as it was: the file is the same, or a
writer that is not this handle has committed over it. -/
theorem Keeps.frame (hk : Keeps s j h) (hw : s'.writer = some j ↔ s.writer = some j)
    (hf : s'.file = s.file ∨
      (s.file.Raised s'.file ∧ s.file.rev < s'.file.rev ∧ s.writer ≠ some j)) : Keeps s' j h := by
  have hraised : s.file.Raised s'.file := by
    rcases hf with hf | hf
    · rw [hf]
      exact MarkedFile.Raised.refl _
    · exact hf.1
  refine ⟨hk.toMinting, ?_, ?_, hk.seen, ?_, ?_⟩
  · exact fun hne => hk.idle (fun h => hne (hw.mpr h))
  · exact fun r hr => (hk.known r hr).raised hraised
  · intro w htxn hne
    obtain ⟨hle, heq⟩ := hk.snapshot w htxn (fun h => hne (hw.mpr h))
    rcases hf with hf | ⟨_, hlt, _⟩
    · rw [hf]
      exact ⟨hle, heq⟩
    · exact ⟨by omega, by omega⟩
  · intro hwj
    rcases hf with hf | hf
    · obtain ⟨w, htxn, hrev, hr, hc⟩ := hk.writing (hw.mp hwj)
      refine ⟨w, htxn, ?_, ?_, hc⟩
      · rw [hf, hrev]
      · rw [hf]
        exact hr
    · exact absurd (hw.mp hwj) hf.2.2

/-- A step of one handle that leaves the file alone. -/
theorem Fenced.replace {h' : Option IdHandle} (hf : Fenced s)
    (hs : s'.handles = Function.update s.handles i h') (hfile : s'.file = s.file)
    (hissued : s'.issued = s.issued)
    (hother : ∀ j, j ≠ i → (s'.writer = some j ↔ s.writer = some j))
    (hown : ∀ h, h' = some h → Keeps s' i h) (hwriter : s'.writer = some i → h'.isSome) :
    Fenced s' := by
  refine ⟨?_, ?_, ?_, ?_, ?_⟩
  · rw [hfile]
    exact hf.sized
  · rw [hfile]
    exact hf.rows
  · rw [hfile, hissued]
    exact hf.issued
  · intro j h hj
    rw [hs] at hj
    by_cases hji : j = i
    · subst hji
      rw [Function.update_self] at hj
      exact hown h hj
    · rw [Function.update_of_ne hji] at hj
      exact (hf.handles j h hj).frame (hother j hji) (Or.inl hfile)
  · intro j hj
    rw [hs]
    by_cases hji : j = i
    · subst hji
      rw [Function.update_self]
      exact hwriter hj
    · rw [Function.update_of_ne hji]
      exact hf.writer j ((hother j hji).mp hj)

/-- What a handle sees is sized and covers what was committed when it was
opened. -/
theorem Fenced.view_seen (hf : Fenced s) (hh : s.handles i = some h) :
    (s.view h).Sized ∧ ∀ r ∈ h.known, (s.view h).Covers r := by
  have hk := hf.handles i h hh
  unfold view
  cases htxn : h.txn with
  | none => exact ⟨hf.sized, hk.known⟩
  | some o =>
    cases o with
    | none => exact ⟨hf.sized, hk.known⟩
    | some w => exact hk.seen w htxn

/-- A handle that may write sees the newest commit, or its own draft of it. -/
theorem Fenced.view_drafted (hf : Fenced s) (hh : s.handles i = some h)
    (hw : s.writer = some i ∨ (s.writer = none ∧ (s.view h).rev = s.file.rev)) :
    Drafted s h (s.view h) := by
  have hk := hf.handles i h hh
  rcases hw with hw | ⟨hw, hrev⟩
  · obtain ⟨w, htxn, hd⟩ := hk.writing hw
    unfold view
    rw [htxn]
    exact hd
  · have hview : s.view h = s.file := by
      unfold view at hrev ⊢
      cases htxn : h.txn with
      | none => rfl
      | some o =>
        cases o with
        | none => rfl
        | some w =>
          rw [htxn] at hrev
          exact (hk.snapshot w htxn (by simp [hw])).2 hrev
    rw [hview]
    exact ⟨rfl, MarkedFile.Raised.refl _, fun r hr => Or.inl (hf.rows r hr)⟩

/-- Rolling back keeps the mints, whatever the transaction made of them. -/
theorem Fenced.rollback (hf : Fenced s) (hh : s.handles i = some h₀) (hm : Minting h)
    (hknown : h.known = h₀.known) : Fenced (s.rollback i h) := by
  have hnot : (s.rollback i h).writer ≠ some i := by
    simp only [IdSys.rollback]
    split
    · simp
    · assumption
  refine hf.replace rfl rfl rfl ?_ ?_ (fun h' => absurd h' hnot)
  · intro j hj
    simp only [IdSys.rollback, setHandle]
    split
    · rename_i hw
      simp [hw, Ne.symm hj]
    · rfl
  · intro h' he
    cases he
    refine ⟨⟨List.nodup_nil, hm.counting, by simp⟩, fun _ => rfl, ?_,
      by simp, by simp, fun h' => absurd h' hnot⟩
    exact fun r hr => (hf.handles i h₀ hh).known r (hknown ▸ hr)

/-- A write that drops or covers each id it leaves, and lowers no mark. -/
theorem Fenced.write {f : MarkedFile → MarkedFile} (hf : Fenced s) (hh : s.handles i = some h₀)
    (hm : Minting h) (hknown : h.known = h₀.known) (hview : s.view h = s.view h₀)
    (hsized : (f (s.view h₀)).Sized) (hraised : (s.view h₀).Raised (f (s.view h₀)))
    (hrev : (f (s.view h₀)).rev = (s.view h₀).rev)
    (hcovered : Drafted s h₀ (s.view h₀) → ∀ r ∈ (f (s.view h₀)).ids, (f (s.view h₀)).Covers r ∨
      (((f (s.view h₀)).mark? r.volume).isSome ∧
        ∃ p ∈ h.pending, p.volumeId = r.volume ∧ r.stamp ≤ p.wm)) :
    Fenced (s.write i h f) := by
  unfold IdSys.write
  rw [hview]
  split
  · rename_i hw
    have hd := hf.view_drafted hh hw
    refine hf.replace rfl rfl rfl ?_ ?_ (fun _ => rfl)
    · intro j hj
      rcases hw with hw | hw
      · simp [hw]
      · simp [hw.1, Ne.symm hj]
    · intro h' he
      cases he
      refine ⟨⟨hm.keyed, hm.counting, hm.exact⟩, fun hne => absurd rfl hne, ?_, ?_,
        fun w _ hne => absurd rfl hne, ?_⟩
      · exact fun r hr => (hf.handles i h₀ hh).known r (hknown ▸ hr)
      · intro w hw'
        cases hw'
        refine ⟨hsized, fun r hr => ?_⟩
        exact ((hf.view_seen hh).2 r (hknown ▸ hr)).raised hraised
      · intro _
        exact ⟨_, rfl, hrev.trans hd.rev, hd.raised.trans hraised, hcovered hd⟩
  · exact hf.rollback hh hm hknown

/-- The mint of a volume, cached or new, is one to count on from. -/
theorem Fenced.mintFor (hf : Fenced s) (hh : s.handles i = some h) :
    (h.mintFor (s.view h) v).Counting ∧ (h.mintFor (s.view h) v).seq < seqLimit := by
  have hk := hf.handles i h hh
  unfold IdHandle.mintFor
  cases hm : h.mints v with
  | some m => exact hk.counting v m hm
  | none =>
    cases hwm : (s.view h).mark? v with
    | none => exact ⟨le_rfl, show (-1 : ℤ) < seqLimit by decide⟩
    | some wm =>
      obtain ⟨hpos, hlt⟩ := (hf.view_seen hh).1 v wm hwm
      refine ⟨MonotonicMint.Counting.fence le_rfl hpos, ?_⟩
      simp only [MonotonicMint.fence]
      split
      · exact hlt
      · exact show (-1 : ℤ) < seqLimit by decide

/-- Minting keeps the cached mints and the pending marks together. -/
theorem Fenced.minted (hf : Fenced s) (hh : s.handles i = some h) : Minting (s.minted h v now) := by
  have hk := hf.handles i h hh
  have hseq := MonotonicMint.advance_seq (hf.mintFor (v := v) hh).1 now
  have hkeyed : KeyedRows.Keyed VolumeMark.volumeId (s.minted h v now).pending :=
    keyed_assign hk.keyed
  refine ⟨hkeyed, ?_, ?_⟩
  · intro u m hu
    simp only [IdSys.minted, Function.update_apply] at hu
    split at hu
    · cases hu
      exact ⟨le_trans (by omega) hseq.1, hseq.2⟩
    · exact hk.counting u m hu
  · intro p hp
    by_cases hpv : p.volumeId = v
    · -- one mark a volume: this is the one just noted
      have hnew : p = { volumeId := v, wm := ((h.mintFor (s.view h) v).advance now).state } :=
        eq_of_key_eq hkeyed hp mem_assign_self hpv
      subst hnew
      exact ⟨_, Function.update_self _ _ _, rfl, hseq.1⟩
    · rcases mem_assign hp with rfl | hold
      · exact absurd rfl hpv
      · obtain ⟨m, hm, hrest⟩ := hk.exact p hold
        exact ⟨m, (Function.update_of_ne hpv _ _).trans hm, hrest⟩

theorem mem_minted_pending :
    ({ volumeId := v, wm := ((h.mintFor (s.view h) v).advance now).state } :
    VolumeMark) ∈ (s.minted h v now).pending := mem_assign_self

/-- A pending mark is still pending after minting, or a later one of its volume
is. -/
theorem Fenced.minted_covers (hf : Fenced s) (v : VolumeId) (now : ℕ) (hh : s.handles i = some h)
    {p : VolumeMark} (hp : p ∈ h.pending) :
    ∃ q ∈ (s.minted h v now).pending, q.volumeId = p.volumeId ∧ p.wm ≤ q.wm := by
  by_cases hpv : p.volumeId = v
  · refine ⟨_, mem_minted_pending, hpv.symm, ?_⟩
    obtain ⟨m, hm, hstate, _⟩ := (hf.handles i h hh).exact p hp
    have hcached : h.mintFor (s.view h) v = m := by
      unfold IdHandle.mintFor
      rw [← hpv, hm]
    rw [← hstate, hcached]
    exact MonotonicMint.lt_advance.le
  · refine ⟨p, ?_, rfl, le_rfl⟩
    have hkept : lookup VolumeMark.volumeId (s.minted h v now).pending p.volumeId = some p := by
      simp only [IdSys.minted]
      rw [lookup_assign, if_neg hpv]
      exact lookup_eq_some_of_mem (hf.handles i h hh).keyed hp
    exact mem_of_lookup hkept

theorem Fenced.create (hf : Fenced s) (hh : s.handles i = some h) {d : Draw} {accepted : Bool} :
    Fenced (s.create i h v now d accepted) := by
  unfold IdSys.create
  simp only
  split
  · exact hf.rollback hh (hf.minted hh) rfl
  · split
    · rename_i hok
      refine hf.write hh (hf.minted hh) rfl rfl (hf.view_seen hh).1
        (MarkedFile.Raised.refl _) rfl ?_
      intro hd r hr
      rcases List.mem_append.mp hr with hr | hr
      · rcases hd.covered r hr with hc | ⟨hsome, p, hp, hpv, hle⟩
        · exact Or.inl hc
        · obtain ⟨q, hq, hqv, hpq⟩ := hf.minted_covers v now hh hp
          exact Or.inr ⟨hsome, q, hq, hqv.trans hpv, hle.trans hpq⟩
      · cases List.mem_singleton.mp hr
        exact Or.inr ⟨hok.2, _, mem_minted_pending, rfl, le_rfl⟩
    · exact hf.rollback hh (hf.minted hh) rfl

/-- A commit covers each id of the draft, by the draft's marks and the flush. -/
theorem Fenced.commit_covers (hf : Fenced s) (hh : s.handles i = some h) (hw : s.writer = some i) :
    s.file.Raised ((s.view h).flush h.pending) ∧ ((s.view h).flush h.pending).Sized ∧
      ((s.view h).flush h.pending).rev = s.file.rev ∧
      ∀ r ∈ (s.view h).ids, ((s.view h).flush h.pending).Covers r := by
  have hk := hf.handles i h hh
  have hd := hf.view_drafted hh (Or.inl hw)
  refine ⟨hd.raised.trans MarkedFile.raised_flush, ?_, MarkedFile.flush_rev.trans hd.rev, ?_⟩
  · apply (hf.view_seen hh).1.flush
    intro p hp
    obtain ⟨m, hm, hstate, hpos⟩ := hk.exact p hp
    rw [← hstate]
    exact ⟨hpos, (hk.counting _ m hm).2⟩
  · intro r hr
    rcases hd.covered r hr with hc | ⟨hsome, p, hp, hpv, hle⟩
    · exact hc.raised MarkedFile.raised_flush
    · rw [← hpv] at hsome
      obtain ⟨wm, hwm, hle'⟩ := MarkedFile.flush_covers hp hsome
      rw [hpv] at hwm
      exact ⟨wm, hwm, hle.trans hle'⟩

/-- A handle outside a transaction. -/
theorem Minting.ended (hm : Minting h) : Minting { h with pending := [], txn := none } :=
  ⟨List.nodup_nil, hm.counting, by simp⟩

theorem Fenced.commit (hf : Fenced s) (hh : s.handles i = some h) : Fenced (s.commit i h) := by
  have hk := hf.handles i h hh
  unfold IdSys.commit
  split
  · rename_i hw
    obtain ⟨hraised, hsized, hrev, hcov⟩ := hf.commit_covers hh hw
    have hids : ∀ r ∈ ((s.view h).flush h.pending).ids, ((s.view h).flush h.pending).Covers r := by
      rw [MarkedFile.flush_ids]
      exact hcov
    refine ⟨hsized, hids, ?_, ?_, by simp⟩
    · intro r hr
      rcases List.mem_append.mp hr with hr | hr
      · exact (hf.issued r hr).raised hraised
      · exact hids r hr
    · intro j h' hj
      simp only [setHandle] at hj
      by_cases hji : j = i
      · subst hji
        rw [Function.update_self] at hj
        cases hj
        exact ⟨hk.toMinting.ended, fun _ => rfl, fun r hr => (hk.known r hr).raised hraised,
          by simp,
          by simp, by simp⟩
      · rw [Function.update_of_ne hji] at hj
        have hne : s.writer ≠ some j := by simp [hw, Ne.symm hji]
        refine (hf.handles j h' hj).frame (by simp [hne]) (Or.inr ⟨hraised, ?_, hne⟩)
        simp only
        omega
  · rename_i hw
    refine hf.replace rfl rfl rfl (fun _ _ => Iff.rfl) ?_ (fun h' => absurd h' hw)
    intro h' he
    cases he
    exact ⟨hk.toMinting.ended, fun _ => rfl, hk.known, by simp, by simp, fun h' => absurd h' hw⟩

theorem file_close (hf : Fenced s) (hh : s.handles i = some h) : (s.close i h).file = s.file := by
  have hk := hf.handles i h hh
  unfold IdSys.close
  simp only
  split
  · rename_i htxn
    have hne : s.writer ≠ some i := by
      intro hw
      obtain ⟨w, hw', _⟩ := hk.writing hw
      simp [hw'] at htxn
    rw [hk.idle hne]
    rfl
  · rfl

theorem Fenced.close (hf : Fenced s) (hh : s.handles i = some h) : Fenced (s.close i h) := by
  have hnot : (s.close i h).writer ≠ some i := by
    simp only [IdSys.close]
    split
    · simp
    · assumption
  refine hf.replace rfl (file_close hf hh) rfl ?_ (by simp) (fun h' => absurd h' hnot)
  intro j hj
  simp only [IdSys.close]
  split
  · rename_i hw
    simp [hw, Ne.symm hj]
  · rfl

/-- One step of an open handle keeps the fence. -/
theorem Fenced.exec (hf : Fenced s) (hh : s.handles i = some h) (op : IdOp) :
    Fenced (s.exec i h op) := by
  have hk := hf.handles i h hh
  -- within a transaction the handle works on its draft; others see it at the commit alone
  cases op with
  | «open» => exact hf
  | begin =>
    simp only [IdSys.exec]
    split
    · rename_i htxn
      have hne : s.writer ≠ some i := by
        intro hw
        obtain ⟨w, hw', _⟩ := hk.writing hw
        simp [hw'] at htxn
      refine hf.replace rfl rfl rfl (fun _ _ => Iff.rfl) ?_ (fun h' => absurd h' hne)
      intro h' he
      cases he
      exact ⟨⟨hk.keyed, hk.counting, hk.exact⟩, hk.idle, hk.known, by simp, by simp,
        fun h' => absurd h' hne⟩
    · exact hf
  | read =>
    simp only [IdSys.exec]
    split
    · refine hf.replace rfl rfl rfl (fun _ _ => Iff.rfl) ?_ (fun _ => rfl)
      intro h' he
      cases he
      refine ⟨⟨hk.keyed, hk.counting, hk.exact⟩, hk.idle, hk.known, ?_, ?_, ?_⟩
      · intro w hw
        cases hw
        exact hf.view_seen hh
      · intro w hw hne
        cases hw
        unfold view
        cases htxn : h.txn with
        | none => exact ⟨le_rfl, fun _ => rfl⟩
        | some o =>
          cases o with
          | none => exact ⟨le_rfl, fun _ => rfl⟩
          | some w => exact hk.snapshot w htxn hne
      · intro hw
        have hd := hf.view_drafted hh (Or.inl hw)
        exact ⟨_, rfl, hd.rev, hd.raised, hd.covered⟩
    · exact hf
  -- the new row carries the volume's own mark; the other marks stay as they are
  | createVolume v =>
    simp only [IdSys.exec]
    split
    · exact hf
    · split
      · exact hf.rollback hh hk.toMinting rfl
      · rename_i hnone
        have hnone' : (s.view h).mark? v = none := by simpa using hnone
        have hraised := MarkedFile.raised_append (f := s.view h) { volumeId := v }
        refine hf.write hh hk.toMinting rfl rfl ((hf.view_seen hh).1.append v hnone') hraised rfl ?_
        intro hd r hr
        rcases hd.covered r hr with hc | ⟨hsome, hp⟩
        · exact Or.inl (hc.raised hraised)
        · obtain ⟨wm, hwm⟩ := Option.isSome_iff_exists.mp hsome
          obtain ⟨wm', hwm', _⟩ := hraised _ _ hwm
          refine Or.inr ⟨?_, hp⟩
          rw [hwm']
          rfl
  | create v now d accepted =>
    simp only [IdSys.exec]
    split
    · exact hf
    · exact hf.create hh
  | prune keep =>
    simp only [IdSys.exec]
    split
    · exact hf
    · refine hf.write hh hk.toMinting rfl rfl (hf.view_seen hh).1 (MarkedFile.Raised.refl _) rfl ?_
      intro hd r hr
      exact hd.covered r (List.mem_of_mem_filter hr)
  | commit =>
    simp only [IdSys.exec]
    split
    · exact hf
    · exact hf.commit hh
  | rollback =>
    simp only [IdSys.exec]
    split
    · exact hf
    · exact hf.rollback hh hk.toMinting rfl
  | close => exact hf.close hh

theorem Fenced.step (hf : Fenced s) (l : IdLabel) : Fenced (s.step l) := by
  unfold IdSys.step
  split
  · rename_i hnone _
    refine hf.replace rfl rfl rfl (fun _ _ => Iff.rfl) ?_ (fun _ => rfl)
    intro h' he
    cases he
    have hne : s.writer ≠ some l.handle := by
      intro hw
      have := hf.writer _ hw
      rw [hnone] at this
      simp at this
    exact ⟨⟨List.nodup_nil, by simp, by simp⟩, fun _ => rfl, hf.issued, by simp, by simp,
      fun h' => absurd h' hne⟩
  · exact hf
  · rename_i h hh
    exact hf.exec hh _

theorem Reached.fenced (h : s.Reached) : Fenced s := by
  refine GuardedRuns.Run.invariant (P := Fenced) (fun _ l _ hf => hf.step l) h ?_
  exact ⟨by simp [MarkedFile.Sized, MarkedFile.mark?, lookup], by simp, by simp, by simp, by simp⟩

theorem file_write {f : MarkedFile → MarkedFile} : (s.write i h f).file = s.file := by
  unfold IdSys.write
  split
  · rfl
  · rfl

theorem file_create {d : Draw} {accepted : Bool} :
    (s.create i h v now d accepted).file = s.file := by
  unfold IdSys.create
  simp only
  split
  · rfl
  · split
    · exact file_write
    · rfl

/-- No step lowers or drops a stored mark. -/
theorem Fenced.step_raised (hf : Fenced s) (l : IdLabel) : s.file.Raised (s.step l).file := by
  unfold IdSys.step
  split
  · exact MarkedFile.Raised.refl _
  · exact MarkedFile.Raised.refl _
  · rename_i h hh
    cases l.op with
    | «open» => exact MarkedFile.Raised.refl _
    | begin =>
      simp only [IdSys.exec]
      split
      · exact MarkedFile.Raised.refl _
      · exact MarkedFile.Raised.refl _
    | read =>
      simp only [IdSys.exec]
      split
      · exact MarkedFile.Raised.refl _
      · exact MarkedFile.Raised.refl _
    | createVolume v =>
      simp only [IdSys.exec]
      split
      · exact MarkedFile.Raised.refl _
      · split
        · exact MarkedFile.Raised.refl _
        · rw [file_write]
          exact MarkedFile.Raised.refl _
    | create v now d accepted =>
      simp only [IdSys.exec]
      split
      · exact MarkedFile.Raised.refl _
      · rw [file_create]
        exact MarkedFile.Raised.refl _
    | prune keep =>
      simp only [IdSys.exec]
      split
      · exact MarkedFile.Raised.refl _
      · rw [file_write]
        exact MarkedFile.Raised.refl _
    | commit =>
      simp only [IdSys.exec]
      split
      · exact MarkedFile.Raised.refl _
      · unfold IdSys.commit
        split
        · rename_i hw
          exact (hf.commit_covers hh hw).1
        · exact MarkedFile.Raised.refl _
    | rollback =>
      simp only [IdSys.exec]
      split
      · exact MarkedFile.Raised.refl _
      · exact MarkedFile.Raised.refl _
    | close =>
      simp only [IdSys.exec]
      rw [file_close hf hh]
      exact MarkedFile.Raised.refl _

/-- The first mint of a volume on a handle starts above every id that was
committed when the handle was opened. -/
theorem Fenced.first_above (hf : Fenced s) (now : ℕ) (hh : s.handles i = some h)
    (hfirst : h.mints v = none) {r : IssuedId} (hr : r ∈ h.known) (hv : r.volume = v) :
    r.stamp < ((h.mintFor (s.view h) v).advance now).state := by
  obtain ⟨wm, hwm, hle⟩ := (hf.view_seen hh).2 r hr
  rw [hv] at hwm
  have hstate : wm ≤ (h.mintFor (s.view h) v).state := by
    simp only [IdHandle.mintFor, hfirst, hwm]
    rw [MonotonicMint.fence_state]
    exact le_max_right _ _
  exact lt_of_le_of_lt (hle.trans hstate) MonotonicMint.lt_advance

end IdSys

theorem formatUuid7_ok {a : MonotonicMint} {d : Draw} {x : List Char}
    (h : formatUuid7 a.ts a.seq d = .ok x) : 0 ≤ a.seq ∧ a.seq < seqLimit := by
  by_contra hne
  simp [formatUuid7, refuse, hne] at h

/-- Ids stand in the order they were minted in, above every fence, with a
sequence in twelve bits, and the Rust host mints the same while its integers hold
them; over any interleaving of handles the stored marks only grow, cover every
recorded id, and put the first id of a handle opened later above all that were
committed before. As texts the ids keep that order while the timestamp of the
mint, which borrows forward when a millisecond is full, fits its 48 bits. -/
theorem ids_ordered_and_fenced (calls : List MintCall) (s : IdSys) (h : s.Reached) :
    ((({} : MonotonicMint).trace calls).Pairwise MintEvent.Ordered ∧
      ∀ e ∈ ({} : MonotonicMint).trace calls, e.Fits) ∧
    (∀ (B : Machine.Build) (rust : List RustMintCall), (∀ c ∈ rust, c.Counts) →
      (∀ e ∈ ({} : MonotonicMint).trace (rust.map RustMintCall.asPython), e.FitsU64) →
      ({} : RustMint).trace B rust =
        .done (({} : MonotonicMint).trace (rust.map RustMintCall.asPython))) ∧
    (∀ l, s.file.Raised (s.step l).file) ∧
    (∀ r ∈ s.file.ids, s.file.Covers r) ∧
    s.file.Sized ∧
    ∀ i hd v now d, s.handles i = some hd → hd.mints v = none → ∀ r ∈ hd.known, r.volume = v →
      r.stamp < ((hd.mintFor (s.view hd) v).mint now d).1.state ∧
      ∃ x, ((hd.mintFor (s.view hd) v).mint now d).2 = .ok x ∧
        (((hd.mintFor (s.view hd) v).mint now d).1.ts < 2 ^ 48 → r.id < x) := by
  have hstart : ({} : MonotonicMint).Counting := le_rfl
  have hrust : (({} : RustMint).asPython).seq < 65535 := by decide
  have hf := h.fenced
  refine ⟨⟨MonotonicMint.trace_ordered hstart, MonotonicMint.trace_fits hstart⟩,
    fun B rust hcalls hfits => RustMint.trace_eq hrust hcalls hfits,
    fun l => hf.step_raised l, hf.rows, hf.sized, ?_⟩
  intro i hd v now d hh hfirst r hr hv
  -- a handle opened later takes its fence from the marks, which cover every recorded id
  have habove := hf.first_above now hh hfirst hr hv
  refine ⟨habove, ?_⟩
  have hseq := MonotonicMint.advance_seq (hf.mintFor (v := v) hh).1 now
  obtain ⟨x, y, hx, hy, hlt⟩ := formatUuid7_lt (formatUuid7_ok r.minted) hseq habove r.draw d
  have hid : r.id = x := by
    have := r.minted.symm.trans hx
    injection this
  exact ⟨y, hy, fun hts => hid ▸ hlt hts⟩

/-- A first handle makes a volume and commits an id of it; a second one, opened
with its clock back at zero, is inside a transaction. -/
def regressedRun : List IdLabel :=
  [⟨0, .open⟩, ⟨0, .begin⟩, ⟨0, .createVolume 7⟩,
   ⟨0, .create 7 1000 ⟨0, ['0', '0', '0'], ['0']⟩ true⟩, ⟨0, .commit⟩, ⟨1, .open⟩, ⟨1, .begin⟩]

/-- Two fences and two mints of the Rust host, the second with the clock behind. -/
def regressedCalls : List RustMintCall :=
  [.fence 1000 4095, .mint 7 ⟨0, [], []⟩, .fence 6000 0, .mint 8 ⟨0, [], []⟩]

theorem ids_ordered_and_fenced_regressed :
    (∃ hd r x, (regressedRun.foldl IdSys.step {}).handles 1 = some hd ∧ r ∈ hd.known ∧
      ((hd.mintFor ((regressedRun.foldl IdSys.step {}).view hd) 7).mint 0 ⟨0, [], []⟩).2 = .ok x ∧
      r.id < x) ∧
    ({} : RustMint).trace .debug regressedCalls =
      .done (({} : MonotonicMint).trace (regressedCalls.map RustMintCall.asPython)) := by
  have hrun : IdSys.Reached (regressedRun.foldl IdSys.step {}) := by
    apply GuardedRuns.Run.foldl
    simp [regressedRun, GuardedRuns.Guards]
  obtain ⟨_, hrust, _, _, _, hfirst⟩ := ids_ordered_and_fenced [] _ hrun
  constructor
  · have hknown : ∃ hd r, (regressedRun.foldl IdSys.step {}).handles 1 = some hd ∧
        r ∈ hd.known ∧ hd.mints 7 = none ∧ r.volume = 7 ∧
        ((hd.mintFor ((regressedRun.foldl IdSys.step {}).view hd) 7).mint 0 ⟨0, [], []⟩).1.ts <
          2 ^ 48 :=
      ⟨_, _, rfl, List.mem_singleton_self _, rfl, rfl, by decide +kernel⟩
    obtain ⟨hd, r, hh, hr, hmints, hv, hts⟩ := hknown
    obtain ⟨_, x, hx, hlt⟩ := hfirst 1 hd 7 0 ⟨0, [], []⟩ hh hmints r hr hv
    exact ⟨hd, r, x, hh, hr, hx, hlt hts⟩
  · apply hrust
    · simp [regressedCalls, RustMintCall.Counts]
    · simp [regressedCalls, RustMintCall.asPython, MonotonicMint.trace, MintEvent.FitsU64,
        MonotonicMint.mint, MonotonicMint.state, MonotonicMint.fence, MonotonicMint.advance,
        stamp_lt_iff, seqLimit]

/-- A handle makes a volume and commits an id of it at 1000; another, opened then,
commits one at 6000; the first is inside its next transaction. -/
def cachedRun : List IdLabel :=
  [⟨0, .open⟩, ⟨0, .begin⟩, ⟨0, .createVolume 7⟩,
   ⟨0, .create 7 1000 ⟨0, ['0', '0', '0'], ['0']⟩ true⟩, ⟨0, .commit⟩, ⟨1, .open⟩, ⟨1, .begin⟩,
   ⟨1, .create 7 6000 ⟨0, ['0', '0', '0'], ['0']⟩ true⟩, ⟨1, .commit⟩, ⟨0, .begin⟩]

/-- The mask of the layout: past the last millisecond of 48 bits the text starts
again at zero, though every reading and every fence was below it. And a handle
keeps the mint it has: what is mounted on it after another handle has committed
starts below that commit, also as a text. -/
theorem mint_wraps_at_mask :
    (∃ wm st st' x y, ({} : MonotonicMint).trace
        [.fence (2 ^ 48 - 1) 4094, .mint 0 ⟨0, [], []⟩, .mint 0 ⟨0, [], []⟩] =
      [.fenced wm, .minted st (.ok x), .minted st' (.ok y)] ∧ st < st' ∧ y < x) ∧
    ∃ hd r x, (cachedRun.foldl IdSys.step {}).handles 0 = some hd ∧
      r ∈ (cachedRun.foldl IdSys.step {}).file.ids ∧ r.volume = 7 ∧
      ((hd.mintFor ((cachedRun.foldl IdSys.step {}).view hd) 7).mint 1001 ⟨0, [], []⟩).2 = .ok x ∧
      x < r.id := by
  constructor
  · refine ⟨_, _, _, _, _, rfl, by decide +kernel, by decide +kernel⟩
  · refine ⟨_, _, _, rfl, List.mem_cons_of_mem _ List.mem_cons_self, rfl, rfl, ?_⟩
    decide +kernel

end Aloelite
