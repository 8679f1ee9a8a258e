import Aloelite.Locks

/-! What a step does to the open descriptors, and what ties a writer to its
lock. -/
namespace Aloelite

open Fallible KeyedRows

variable {C : Crypto} {M : Msgpack} {E : Env} {k : Cipher} {db db' : Db} {tx tx' : Tx} {s : Sys}
  {c : ConnId} {op : Op} {fd : FdId} {f f' : OpenFile} {l : Label}

/-- What a descriptor keeps from its opening on. -/
structure SameFd (f f' : OpenFile) : Prop where
  conn : f'.conn = f.conn
  node : f'.d.node = f.d.node
  volume : f'.d.volume = f.d.volume
  cs : f'.d.cs = f.d.cs
  writable : f'.d.writable = f.d.writable
  lock : f'.d.lock = f.d.lock
  ownsLock : f'.d.ownsLock = f.d.ownsLock
  carrySrc : f'.d.carrySrc = f.d.carrySrc
  carryFull : f'.d.carryFull = f.d.carryFull

theorem SameFd.refl (f : OpenFile) : SameFd f f := ⟨rfl, rfl, rfl, rfl, rfl, rfl, rfl, rfl, rfl⟩

/-- The two ways a descriptor comes about. -/
inductive Opened (C : Crypto) (E : Env) (s : Sys) (c : ConnId) : Op → OpenFile → Prop
  | read {mount : MountId} {path : String} {d : Descriptor}
      (h : openRead E (s.conns c).cipher s.db mount path = .ok d) :
      Opened C E s c (.openRead mount path) { conn := c, d := d }
  | write {mount : MountId} {path : String} {mode : WriteMode} {lock : Option LockId} {tx : Tx}
      {d : Descriptor}
      (h : openWrite C E (s.conns c).cipher s.begin mount path mode lock = .ok (tx, d)) :
      Opened C E s c (.openWrite mount path mode lock) { conn := c, d := d }

theorem flushOneChunk_same (d : Descriptor) (rows rows' : List VersionRow) :
    SameFd ⟨c, d, rows⟩ ⟨c, (d.flushOneChunk C E k tx).1, rows'⟩ := by
  have hsame : SameFd ⟨c, d, rows⟩ ⟨c, (d.claimVersion E tx).1, rows'⟩ := by
    simp only [Descriptor.claimVersion]
    split
    · exact ⟨rfl, rfl, rfl, rfl, rfl, rfl, rfl, rfl, rfl⟩
    · split <;> exact ⟨rfl, rfl, rfl, rfl, rfl, rfl, rfl, rfl, rfl⟩
  simp only [Descriptor.flushOneChunk]
  split
  all_goals exact ⟨hsame.conn, hsame.node, hsame.volume, hsame.cs, hsame.writable, hsame.lock,
    hsame.ownsLock, hsame.carrySrc, hsame.carryFull⟩

theorem setFd_fds {fd' : FdId} {g : OpenFile} (hf : s.fds[fd]? = some f)
    (h : (s.setFd fd g).fds[fd']? = some f') (hsame : SameFd f g) :
    ∃ f₀, s.fds[fd']? = some f₀ ∧ SameFd f₀ f' := by
  rw [Sys.setFd, List.getElem?_set] at h
  split at h
  next heq =>
    split at h
    · obtain rfl := Option.some.inj h
      exact ⟨f, heq ▸ hf, hsame⟩
    · cases h
  next => exact ⟨f', h, SameFd.refl f'⟩

theorem fdTransact_fds {fd' : FdId} {d : Descriptor} {body : Except FsError Tx}
    (hf : s.fds[fd]? = some f) (h : (s.fdTransact fd f d body).1.fds[fd']? = some f')
    (hsame : ∀ rows, SameFd f ⟨f.conn, d, rows⟩) : ∃ f₀, s.fds[fd']? = some f₀ ∧ SameFd f₀ f' := by
  cases body with
  | error e => exact setFd_fds hf h (hsame f.rows)
  | ok tx =>
    have hcommit : (s.commit tx).fds = s.fds := rfl
    have hset := setFd_fds (s := s.commit tx) (hcommit ▸ hf) h (hsame _)
    exact hset

theorem absorb_ok {d d' : Descriptor} {data : Bytes} (h : d.absorb data = .ok d') :
    d.closed = false ∧ d.writable = true ∧ ((data = [] ∧ d' = d) ∨ (data ≠ [] ∧ d.flushed ≤ d.pos ∧
      d' = { d with
        pending := patchWindow d.pending (d.pos - d.flushed) data
        pos := d.pos + data.length
        writing := d.cs ≤ (patchWindow d.pending (d.pos - d.flushed) data).length
        stream := patchWindow d.stream d.pos data })) := by
  simp only [Descriptor.absorb, bind_eq_ok, refuse_eq_ok] at h
  obtain ⟨u, hclosed, u', hwrite, h⟩ := h
  refine ⟨hclosed, by simpa using hwrite, ?_⟩
  split at h
  next hdata => exact Or.inl ⟨hdata, (Except.ok.inj h).symm⟩
  next hdata =>
    simp only [bind_eq_ok, refuse_eq_ok, pure_eq_ok, decide_eq_false_iff_not, not_lt] at h
    obtain ⟨u'', hpos, rfl⟩ := h
    exact Or.inr ⟨hdata, hpos, rfl⟩

theorem seek_ok {d d' : Descriptor} {offset : Int} {whence : Whence}
    (h : d.seek db offset whence = .ok d') : ∃ pos, d' = { d with pos := pos } := by
  simp only [Descriptor.seek, bind_eq_ok, pure_eq_ok] at h
  obtain ⟨u, -, u', -, rfl⟩ := h
  exact ⟨_, rfl⟩

theorem read_ok {d d' : Descriptor} {b : Bytes} {n : Option ℕ} (h : d.read C k db n = .ok (b, d')) :
    d.closed = false ∧ d.writable = false ∧ ∃ pos, d' = { d with pos := pos } := by
  simp only [Descriptor.read, bind_eq_ok, refuse_eq_ok] at h
  obtain ⟨u, hclosed, u', hwrite, h⟩ := h
  refine ⟨hclosed, hwrite, ?_⟩
  cases n
  all_goals
    simp only at h
    split at h
    · obtain ⟨-, rfl⟩ := Prod.mk.inj (Except.ok.inj h)
      exact ⟨d.pos, rfl⟩
    · simp only [bind_eq_ok, pure_eq_ok, Prod.mk.injEq] at h
      obtain ⟨u₁, -, rows, -, -, rfl⟩ := h
      exact ⟨_, rfl⟩

theorem fdStep_fds {fd' : FdId} (hf : s.fds[fd]? = some f)
    (h : (fdStep C E s fd f op).1.fds[fd']? = some f') :
    ∃ f₀, s.fds[fd']? = some f₀ ∧ SameFd f₀ f' := by
  have hsame : s.fds[fd']? = some f' → ∃ f₀, s.fds[fd']? = some f₀ ∧ SameFd f₀ f' :=
    fun h => ⟨f', h, SameFd.refl f'⟩
  cases op with
  | fdFlush fd₀ =>
    simp only [fdStep] at h
    split at h
    · refine fdTransact_fds hf h ?_
      intro rows
      exact flushOneChunk_same f.d f.rows rows
    · exact hsame h
  | fdRead fd₀ n =>
    simp only [fdStep] at h
    split at h
    · exact hsame h
    · split at h
      next => exact hsame h
      next b d hread =>
        obtain ⟨-, -, pos, rfl⟩ := read_ok hread
        exact setFd_fds hf h ⟨rfl, rfl, rfl, rfl, rfl, rfl, rfl, rfl, rfl⟩
  | fdWrite fd₀ data =>
    simp only [fdStep] at h
    split at h
    · exact hsame h
    · split at h
      next => exact hsame h
      next d habs =>
        obtain ⟨-, -, ⟨-, rfl⟩ | ⟨-, -, rfl⟩⟩ := absorb_ok habs
        all_goals exact setFd_fds hf h ⟨rfl, rfl, rfl, rfl, rfl, rfl, rfl, rfl, rfl⟩
  | fdSeek fd₀ offset whence =>
    simp only [fdStep] at h
    split at h
    · exact hsame h
    · split at h
      next => exact hsame h
      next d hseek =>
        obtain ⟨pos, rfl⟩ := seek_ok hseek
        exact setFd_fds hf h ⟨rfl, rfl, rfl, rfl, rfl, rfl, rfl, rfl, rfl⟩
  | fdClose fd₀ =>
    simp only [fdStep] at h
    split at h
    · exact hsame h
    · exact fdTransact_fds hf h (fun _ => ⟨rfl, rfl, rfl, rfl, rfl, rfl, rfl, rfl, rfl⟩)
  | fdAbort fd₀ =>
    simp only [fdStep] at h
    split at h
    · exact hsame h
    · exact fdTransact_fds hf h (fun _ => ⟨rfl, rfl, rfl, rfl, rfl, rfl, rfl, rfl, rfl⟩)
  | _ =>
    simp only [fdStep] at h
    split at h <;> exact hsame h

theorem transact_fds {α : Type} {body : Except FsError (Tx × α)} {done : Sys → α → Sys × Reply}
    (hdone : ∀ s a, (done s a).1.fds = s.fds) : (s.transact body done).1.fds = s.fds := by
  cases body with
  | error e => rfl
  | ok r => exact hdone (s.commit r.1) r.2

/-- The descriptor a step works on. -/
def Op.fd? : Op → Option FdId
  | .fdRead fd _ | .fdWrite fd _ | .fdFlush fd | .fdSeek fd _ _ | .fdClose fd | .fdAbort fd =>
    some fd
  | _ => none

theorem setFd_others {g : OpenFile} {fd' : FdId} (hne : fd' ≠ fd) :
    (s.setFd fd g).fds[fd']? = s.fds[fd']? :=
  List.getElem?_set_ne hne.symm

theorem fdTransact_others {fd' : FdId} {d : Descriptor} {body : Except FsError Tx}
    (hne : fd' ≠ fd) :
    (s.fdTransact fd f d body).1.fds[fd']? = s.fds[fd']? := by
  cases body with
  | error e => exact setFd_others hne
  | ok tx => exact List.getElem?_set_ne hne.symm

theorem fdStep_others {fd' : FdId} (hne : fd' ≠ fd) :
    (fdStep C E s fd f op).1.fds[fd']? = s.fds[fd']? := by
  cases op with
  | fdFlush fd₀ =>
    simp only [fdStep]
    split
    · exact fdTransact_others hne
    · rfl
  | _ =>
    simp only [fdStep]
    split
    · rfl
    · first
      | rfl
      | exact fdTransact_others hne
      | (split <;> first | rfl | exact setFd_others hne)

/-- A descriptor the step does not work on was there before, or the step opened it. -/
theorem exec_fds_others {fd' : FdId} (hop : op.fd? ≠ some fd')
    (h : (exec C M E s c op).1.fds[fd']? = some f') :
    s.fds[fd']? = some f' ∨ (s.fds[fd']? = none ∧ Opened C E s c op f') := by
  have hon : ∀ fd, op.fd? = some fd → (onFd C E s fd op).1.fds[fd']? = some f' →
      s.fds[fd']? = some f' := by
    intro fd hfd h
    have hne : fd' ≠ fd := fun heq => hop (heq ▸ hfd)
    rw [onFd] at h
    split at h
    next => exact h
    next => rwa [fdStep_others hne] at h
  have hnew : ∀ g, (s.fds ++ [g])[fd']? = some f' → Opened C E s c op g →
      s.fds[fd']? = some f' ∨ (s.fds[fd']? = none ∧ Opened C E s c op f') := by
    intro g h hg
    rw [List.getElem?_append] at h
    split at h
    next => exact Or.inl h
    next hlt =>
      have hf' : f' = g := by simpa using List.mem_of_getElem? h
      exact Or.inr ⟨List.getElem?_eq_none (not_lt.mp hlt), hf' ▸ hg⟩
  cases op with
  | fdRead fd n => exact Or.inl (hon fd rfl h)
  | fdWrite fd data => exact Or.inl (hon fd rfl h)
  | fdFlush fd => exact Or.inl (hon fd rfl h)
  | fdSeek fd offset whence => exact Or.inl (hon fd rfl h)
  | fdClose fd => exact Or.inl (hon fd rfl h)
  | fdAbort fd => exact Or.inl (hon fd rfl h)
  | openRead mount path =>
    simp only [exec] at h
    split at h
    next => exact Or.inl h
    next d hd => exact hnew _ h (Opened.read hd)
  | openWrite mount path mode lock =>
    simp only [exec] at h
    cases hopen : openWrite C E (s.conns c).cipher s.begin mount path mode lock with
    | error e =>
      rw [hopen] at h
      exact Or.inl h
    | ok r =>
      obtain ⟨tx, d⟩ := r
      rw [hopen] at h
      exact hnew _ h (Opened.write hopen)
  | _ =>
    simp only [exec] at h
    rw [transact_fds (fun _ _ => rfl)] at h
    exact Or.inl h

/-- A descriptor the step does not work on stays as it is. -/
theorem exec_fds_keep {fd' : FdId} (hop : op.fd? ≠ some fd') (hf : s.fds[fd']? = some f) :
    (exec C M E s c op).1.fds[fd']? = some f := by
  have hon : ∀ fd, op.fd? = some fd → (onFd C E s fd op).1.fds[fd']? = some f := by
    intro fd hfd
    have hne : fd' ≠ fd := fun heq => hop (heq ▸ hfd)
    rw [onFd]
    split
    next => exact hf
    next => rwa [fdStep_others hne]
  have hmore : ∀ g, (s.fds ++ [g])[fd']? = some f := by
    intro g
    rw [List.getElem?_append_left (List.getElem?_eq_some_iff.mp hf).1]
    exact hf
  cases op with
  | fdRead fd n => exact hon fd rfl
  | fdWrite fd data => exact hon fd rfl
  | fdFlush fd => exact hon fd rfl
  | fdSeek fd offset whence => exact hon fd rfl
  | fdClose fd => exact hon fd rfl
  | fdAbort fd => exact hon fd rfl
  | openRead mount path =>
    simp only [exec]
    split
    next => exact hf
    next d hd => exact hmore _
  | openWrite mount path mode lock =>
    simp only [exec]
    cases openWrite C E (s.conns c).cipher s.begin mount path mode lock with
    | error e => exact hf
    | ok r => exact hmore _
  | _ =>
    simp only [exec]
    rw [transact_fds (fun _ _ => rfl)]
    exact hf

theorem exec_onFd (hop : op.fd? = some fd) : exec C M E s c op = onFd C E s fd op := by
  cases op <;> cases hop <;> rfl

/-- Every descriptor after a step was there before it, with what it keeps, or the
step opened it. -/
theorem exec_fds {fd' : FdId} (h : (exec C M E s c op).1.fds[fd']? = some f') :
    (∃ f₀, s.fds[fd']? = some f₀ ∧ SameFd f₀ f') ∨ (s.fds[fd']? = none ∧ Opened C E s c op f') := by
  by_cases hop : op.fd? = some fd'
  · rw [exec_onFd hop, onFd] at h
    split at h
    next => exact Or.inl ⟨f', h, SameFd.refl f'⟩
    next f hf => exact Or.inl (fdStep_fds hf h)
  · rcases exec_fds_others hop h with hold | hnew
    · exact Or.inl ⟨f', hold, SameFd.refl f'⟩
    · exact Or.inr hnew

/-! ### The lock of a writer -/

/-- A lock id is minted for no descriptor that is already there. -/
def FreshLockIds (s : Sys) (l : Label) : Prop :=
  l.op.mintsLock → ∀ f ∈ s.fds, f.d.lock ≠ some l.env.uuid

instance (s : Sys) (l : Label) : Decidable (FreshLockIds s l) :=
  inferInstanceAs (Decidable (l.op.mintsLock → ∀ f ∈ s.fds, f.d.lock ≠ some l.env.uuid))

/-- A writer has a lock; while its row stands it is a lock on the writer's
entry. -/
def LockNamed (s : Sys) (f : OpenFile) : Prop :=
  f.d.writable = true → ∃ l, f.d.lock = some l ∧ ∀ r, s.db.lock? l = some r → r.nodeId = f.d.node

theorem Tenure.lock_origin {P : Prop} {A : MountRow → Prop} (h : Tenure E P A db db')
    {r' : LockRow} (hr' : r' ∈ db'.locks) :
    (∃ r ∈ db.locks, SameLock r r') ∨ (P ∧ r'.lockId = E.uuid) := by
  have hold : r' ∈ db.locks → (∃ r ∈ db.locks, SameLock r r') ∨ (P ∧ r'.lockId = E.uuid) :=
    fun h => Or.inl ⟨r', h, rfl, rfl, rfl⟩
  cases h with
  | locked row hmints hid hnew hmount hnode hfree hmounts hlocks =>
    rw [hlocks] at hr'
    rcases List.mem_append.mp hr' with hr' | hr'
    · exact hold hr'
    · rw [List.mem_singleton.mp hr']
      exact Or.inr ⟨hmints, hid⟩
  | renewedLock row exp hrow hvalid hmounts hlocks =>
    rw [hlocks] at hr'
    rcases mem_amend.mp hr' with ⟨hr', -⟩ | ⟨r₀, hr₀, -, rfl⟩
    · exact hold hr'
    · exact Or.inl ⟨r₀, hr₀, rfl, rfl, rfl⟩
  | dropped p hmounts hlocks =>
    rw [hlocks] at hr'
    exact hold (List.mem_of_mem_filter hr')
  | same hmounts hlocks | mounted row hallowed hnew hmounts hlocks | unmounted m' hmounts hlocks
  | renewedMount m' exp hvalid hmounts hlocks =>
    rw [hlocks] at hr'
    exact hold hr'

theorem openWrite_lockNamed {mount : MountId} {path : String} {mode : WriteMode}
    {lock : Option LockId} {d : Descriptor}
    (h : openWrite C E k tx mount path mode lock = .ok (tx', d)) :
    ∃ l, d.lock = some l ∧ ∀ r, tx'.db.lock? l = some r → r.nodeId = d.node := by
  obtain ⟨ctx, tx₁, l, -, -, hlock, hl, -⟩ := openWrite_ok h
  refine ⟨l, hl, ?_⟩
  intro r hr
  rcases writerLock_ok hlock with ⟨-, rfl, row, hrow, -, -, hnode⟩ | ⟨-, -, -, hnew, -, -, rfl⟩
  · obtain rfl := Option.some.inj (hr.symm.trans hrow)
    exact hnode
  · let row : LockRow := { lockId := l, mountId := mount, nodeId := d.node, expiresAt := none }
    have hself : lookup LockRow.lockId (tx₁.db.locks ++ [row]) row.lockId = some row :=
      lookup_append_self hnew
    obtain rfl := Option.some.inj (hr.symm.trans hself)
    rfl

theorem exec_lockNamed (hs : s.db.Sound) (hk : s.db.Tended) (hfresh : FreshLockIds s ⟨E, c, op⟩)
    (hall : ∀ f ∈ s.fds, LockNamed s f) : ∀ f ∈ (exec C M E s c op).1.fds,
      LockNamed (exec C M E s c op).1 f := by
  intro f' hf'
  obtain ⟨fd', hfd'⟩ := List.mem_iff_getElem?.mp hf'
  have hten : Tenure E op.mintsLock (op.admits E s.db) s.db (exec C M E s c op).1.db :=
    exec_tenure hs
  rcases exec_fds hfd' with ⟨f, hf, hsame⟩ | ⟨-, hopen⟩
  · intro hw
    have hmem : f ∈ s.fds := List.mem_of_getElem? hf
    obtain ⟨l, hl, hnode⟩ := hall f hmem (hsame.writable ▸ hw)
    refine ⟨l, hsame.lock.trans hl, ?_⟩
    intro r' hr'
    have hid : r'.lockId = l := key_of_lookup hr'
    rcases hten.lock_origin (mem_of_lookup hr') with ⟨r, hr, hrid, hrnode, -⟩ | ⟨hmints, huuid⟩
    · have hlook : s.db.lock? r.lockId = some r := lookup_eq_some_of_mem hk.locks hr
      rw [hrid, hid] at hlook
      rw [← hrnode, hsame.node]
      exact hnode r hlook
    · rw [hid] at huuid
      exact absurd (huuid ▸ hl) (hfresh hmints f hmem)
  · intro hw
    cases hopen with
    | read h =>
      simp only [openRead, bind_eq_ok, pure_eq_ok] at h
      obtain ⟨m, -, found, -, u, -, rfl⟩ := h
      cases hw
    | write h =>
      obtain ⟨l, hl, hnode⟩ := openWrite_lockNamed h
      refine ⟨l, hl, ?_⟩
      simp only [exec, Sys.transact, h]
      exact hnode

end Aloelite
