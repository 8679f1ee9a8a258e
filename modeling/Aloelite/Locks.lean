import Aloelite.Sessions

/-! Locks over whole runs: at every moment the valid locks of a node belong to
one mount, and validity once lost never comes back. Each step is followed
backwards: what is valid after it was valid before it, or was just admitted. -/
namespace Aloelite

open Fallible KeyedRows ForestOrder Relation

variable {C : Crypto} {M : Msgpack} {E : Env} {now t t' : Int} {db db' : Db} {s s' : Sys}
  {c : ConnId} {op : Op} {l : LockId} {m : MountId} {P : Prop} {A : MountRow → Prop}

/-- The keys of the two tables, and the foreign key of `lock`. -/
structure Db.Tended (db : Db) : Prop where
  mounts : Keyed MountRow.mountId db.mounts
  locks : Keyed LockRow.lockId db.locks
  held : ∀ r ∈ db.locks, (db.mount? r.mountId).isSome

theorem mount?_amend {f : MountRow → MountRow} {m' : MountId}
    (hm : db'.mounts = amend MountRow.mountId db.mounts m' f)
    (hf : ∀ r, (f r).mountId = r.mountId) :
    db'.mount? m = if m = m' then (db.mount? m).map f else db.mount? m := by
  rw [Db.mount?, hm]
  exact lookup_amend hf

theorem mount?_amend_isSome {f : MountRow → MountRow} {m' : MountId}
    (hm : db'.mounts = amend MountRow.mountId db.mounts m' f)
    (hf : ∀ r, (f r).mountId = r.mountId) : (db'.mount? m).isSome = (db.mount? m).isSome := by
  rw [mount?_amend hm hf]
  split
  · rw [Option.isSome_map]
  · rfl

/-- No mount row is ever deleted. -/
theorem Tenure.mount_persists (h : Tenure E P A db db') (hm : (db.mount? m).isSome) :
    (db'.mount? m).isSome := by
  cases h with
  | mounted row hallowed hnew hmounts hlocks =>
    obtain ⟨r, hr⟩ := Option.isSome_iff_exists.mp hm
    rw [Db.mount?, hmounts, lookup_append_of_some hr]
    rfl
  | unmounted m' hmounts hlocks =>
    rw [mount?_amend_isSome hmounts (fun _ => rfl)]
    exact hm
  | renewedMount m' exp hvalid hmounts hlocks =>
    rw [mount?_amend_isSome hmounts (fun _ => rfl)]
    exact hm
  | same hmounts hlocks | locked row hmints hid hnew hmount hnode hfree hmounts hlocks
  | renewedLock row exp hrow hvalid hmounts hlocks | dropped p hmounts hlocks =>
    rw [Db.mount?, hmounts]
    exact hm

theorem Tenure.tended (h : Tenure E P A db db') (hk : db.Tended) : db'.Tended := by
  have hpersist : ∀ m, (db.mount? m).isSome → (db'.mount? m).isSome := fun m => h.mount_persists
  constructor
  · cases h with
    | mounted row hallowed hnew hmounts hlocks =>
      rw [hmounts]
      exact keyed_append hk.mounts hnew
    | unmounted m' hmounts hlocks =>
      rw [hmounts]
      exact keyed_amend hk.mounts (fun _ => rfl)
    | renewedMount m' exp hvalid hmounts hlocks =>
      rw [hmounts]
      exact keyed_amend hk.mounts (fun _ => rfl)
    | same hmounts hlocks | locked row hmints hid hnew hmount hnode hfree hmounts hlocks
    | renewedLock row exp hrow hvalid hmounts hlocks | dropped p hmounts hlocks =>
      rw [hmounts]
      exact hk.mounts
  · cases h with
    | locked row hmints hid hnew hmount hnode hfree hmounts hlocks =>
      rw [hlocks]
      exact keyed_append hk.locks hnew
    | renewedLock row exp hrow hvalid hmounts hlocks =>
      rw [hlocks]
      exact keyed_amend hk.locks (fun _ => rfl)
    | dropped p hmounts hlocks =>
      rw [hlocks]
      exact keyed_filter hk.locks p
    | same hmounts hlocks | mounted row hallowed hnew hmounts hlocks | unmounted m' hmounts hlocks
    | renewedMount m' exp hvalid hmounts hlocks =>
      rw [hlocks]
      exact hk.locks
  · intro r hr
    cases h with
    | locked row hmints hid hnew hmount hnode hfree hmounts hlocks =>
      rw [hlocks] at hr
      rcases List.mem_append.mp hr with hr | hr
      · exact hpersist _ (hk.held r hr)
      · rw [List.mem_singleton.mp hr]
        exact hpersist _ hmount
    | renewedLock row exp hrow hvalid hmounts hlocks =>
      rw [hlocks] at hr
      rcases mem_amend.mp hr with ⟨hr, -⟩ | ⟨r₀, hr₀, -, rfl⟩
      · exact hpersist _ (hk.held r hr)
      · exact hpersist _ (hk.held r₀ hr₀)
    | dropped p hmounts hlocks =>
      rw [hlocks] at hr
      exact hpersist _ (hk.held r (List.mem_of_mem_filter hr))
    | same hmounts hlocks | mounted row hallowed hnew hmounts hlocks | unmounted m' hmounts hlocks
    | renewedMount m' exp hvalid hmounts hlocks =>
      rw [hlocks] at hr
      exact hpersist _ (hk.held r hr)

/-! ### Validity -/

theorem unexpired_mono {exp : Option Int} (hle : t ≤ t') (h : unexpired t' exp = true) :
    unexpired t exp = true := by
  cases exp with
  | none => rfl
  | some e =>
    simp only [unexpired, decide_eq_true_eq] at h ⊢
    omega

theorem validMount?_eq_some {r : MountRow} : db.validMount? t m = some r ↔
    db.mount? m = some r ∧ r.state ≠ .unmounted ∧ unexpired t r.expiresAt = true := by
  rw [Db.validMount?, Option.filter_eq_some_iff]
  simp

theorem validMount?_mono (hle : t ≤ t') (h : (db.validMount? t' m).isSome) :
    (db.validMount? t m).isSome := by
  obtain ⟨r, hr⟩ := Option.isSome_iff_exists.mp h
  obtain ⟨hm, hstate, hexp⟩ := validMount?_eq_some.mp hr
  exact Option.isSome_iff_exists.mpr
    ⟨r, validMount?_eq_some.mpr ⟨hm, hstate, unexpired_mono hle hexp⟩⟩

theorem lockValid_iff {r : LockRow} : db.lockValid t r = true ↔
    (db.validMount? t r.mountId).isSome ∧ unexpired t r.expiresAt = true := by
  simp [Db.lockValid]

theorem lockValid_mono {r : LockRow} (hle : t ≤ t') (h : db.lockValid t' r = true) :
    db.lockValid t r = true := by
  obtain ⟨hm, hexp⟩ := lockValid_iff.mp h
  exact lockValid_iff.mpr ⟨validMount?_mono hle hm, unexpired_mono hle hexp⟩

/-- A mount that was there before a step and is valid after it was valid before
it. -/
theorem Tenure.validMount_back (h : Tenure E P A db db') (hle : E.now ≤ t)
    (hm : (db.mount? m).isSome) (hv : (db'.validMount? t m).isSome) :
    (db.validMount? E.now m).isSome := by
  obtain ⟨r, hr⟩ := Option.isSome_iff_exists.mp hv
  obtain ⟨hlook, hstate, hexp⟩ := validMount?_eq_some.mp hr
  have hexp' := unexpired_mono hle hexp
  -- the row is the old one unless the step amended it
  have hold : ∀ r₀, db.mount? m = some r₀ → r₀ = r → (db.validMount? E.now m).isSome := by
    intro r₀ hr₀ heq
    rw [heq] at hr₀
    exact Option.isSome_iff_exists.mpr ⟨r, validMount?_eq_some.mpr ⟨hr₀, hstate, hexp'⟩⟩
  obtain ⟨r₀, hr₀⟩ := Option.isSome_iff_exists.mp hm
  cases h with
  | mounted row hallowed hnew hmounts hlocks =>
    rw [Db.mount?, hmounts, lookup_append_of_some hr₀] at hlook
    exact hold r₀ hr₀ (Option.some.inj hlook)
  | unmounted m' hmounts hlocks =>
    rw [mount?_amend hmounts (fun _ => rfl)] at hlook
    by_cases heq : m = m'
    · rw [if_pos heq, Option.map_eq_some_iff] at hlook
      obtain ⟨r₁, -, rfl⟩ := hlook
      exact absurd rfl hstate
    · rw [if_neg heq] at hlook
      exact hold r hlook rfl
  | renewedMount m' exp hvalid hmounts hlocks =>
    rw [mount?_amend hmounts (fun _ => rfl)] at hlook
    by_cases heq : m = m'
    · rw [heq]
      exact hvalid
    · rw [if_neg heq] at hlook
      exact hold r hlook rfl
  | same hmounts hlocks | locked row hmints hid hnew hmount hnode hfree hmounts hlocks
  | renewedLock row exp hrow hvalid hmounts hlocks | dropped p hmounts hlocks =>
    rw [Db.mount?, hmounts] at hlook
    exact hold r hlook rfl

/-- `r'` is the lock `r` after a step, perhaps renewed. -/
def SameLock (r r' : LockRow) : Prop :=
  r.lockId = r'.lockId ∧ r.nodeId = r'.nodeId ∧ r.mountId = r'.mountId

/-- A lock that is valid after a step was valid before it, or the step added it
where nothing valid of another mount stood. -/
theorem Tenure.lock_back (h : Tenure E P A db db') (hk : db.Tended) (hle : E.now ≤ t) {r' : LockRow}
    (hr' : r' ∈ db'.locks) (hv : db'.lockValid t r' = true) :
    (∃ r ∈ db.locks, SameLock r r' ∧ db.lockValid E.now r = true) ∨
      (db.lock? r'.lockId = none ∧ ∀ r ∈ db.locks, db.lockValid E.now r = true →
        r.nodeId = r'.nodeId → r.mountId = r'.mountId) := by
  obtain ⟨hmount, hexp⟩ := lockValid_iff.mp hv
  have hold : ∀ r ∈ db.locks, r = r' →
      ∃ r ∈ db.locks, SameLock r r' ∧ db.lockValid E.now r = true := by
    intro r hr heq
    rw [heq] at hr
    refine ⟨r', hr, ⟨rfl, rfl, rfl⟩, lockValid_iff.mpr ⟨?_, unexpired_mono hle hexp⟩⟩
    exact h.validMount_back hle (hk.held r' hr) hmount
  cases h with
  | locked row hmints hrid hnew hmount' hnode hfree hmounts hlocks =>
    rw [hlocks] at hr'
    rcases List.mem_append.mp hr' with hr' | hr'
    · exact Or.inl (hold r' hr' rfl)
    · rw [List.mem_singleton.mp hr']
      exact Or.inr ⟨hnew, hfree⟩
  | renewedLock row exp hrow hvalid hmounts hlocks =>
    rw [hlocks] at hr'
    rcases mem_amend.mp hr' with ⟨hr', -⟩ | ⟨r₀, hr₀, hid, rfl⟩
    · exact Or.inl (hold r' hr' rfl)
    · have heq : r₀ = row := eq_of_key_eq hk.locks hr₀ (mem_of_lookup hrow) hid
      exact Or.inl ⟨r₀, hr₀, ⟨rfl, rfl, rfl⟩, by rw [heq]; exact hvalid⟩
  | dropped p hmounts hlocks =>
    rw [hlocks] at hr'
    exact Or.inl (hold r' (List.mem_of_mem_filter hr') rfl)
  | same hmounts hlocks | mounted row hallowed hnew hmounts hlocks | unmounted m' hmounts hlocks
  | renewedMount m' exp hvalid hmounts hlocks =>
    rw [hlocks] at hr'
    exact Or.inl (hold r' hr' rfl)

/-- A lock row whose id is new carries the id the step minted. -/
theorem Tenure.minted (h : Tenure E P A db db') {r : LockRow} (hr : r ∈ db'.locks)
    (hnew : db.lock? r.lockId = none) : P ∧ r.lockId = E.uuid := by
  have hold : ∀ r₀ ∈ db.locks, r₀.lockId = r.lockId → P ∧ r.lockId = E.uuid :=
    fun r₀ hr₀ heq => absurd heq (lookup_eq_none.mp hnew r₀ hr₀)
  cases h with
  | locked row hmints hid hnew' hmount hnode hfree hmounts hlocks =>
    rw [hlocks] at hr
    rcases List.mem_append.mp hr with hr | hr
    · exact hold r hr rfl
    · rw [List.mem_singleton.mp hr]
      exact ⟨hmints, hid⟩
  | renewedLock row exp hrow hvalid hmounts hlocks =>
    rw [hlocks] at hr
    rcases mem_amend.mp hr with ⟨hr, -⟩ | ⟨r₀, hr₀, -, rfl⟩
    · exact hold r hr rfl
    · exact hold r₀ hr₀ rfl
  | dropped p hmounts hlocks =>
    rw [hlocks] at hr
    exact hold r (List.mem_of_mem_filter hr) rfl
  | same hmounts hlocks | mounted row hallowed hnew' hmounts hlocks | unmounted m' hmounts hlocks
  | renewedMount m' exp hvalid hmounts hlocks =>
    rw [hlocks] at hr
    exact hold r hr rfl

theorem getLockValid_iff : db.getLockValid t l = true ↔
    ∃ r, db.lock? l = some r ∧ db.lockValid t r = true := by
  rw [Db.getLockValid]
  cases db.lock? l <;> simp

/-- Validity of a lock that the step did not mint, backwards. -/
theorem Tenure.getLockValid_back (h : Tenure E P A db db') (hk : db.Tended) (hle : E.now ≤ t)
    (hminted : P → E.uuid ≠ l) (hv : db'.getLockValid t l = true) :
    db.getLockValid E.now l = true := by
  obtain ⟨r', hr', hvalid⟩ := getLockValid_iff.mp hv
  have hid : r'.lockId = l := key_of_lookup hr'
  have hmem := mem_of_lookup hr'
  rcases h.lock_back hk hle hmem hvalid with ⟨r, hr, ⟨hrid, -, -⟩, hrv⟩ | ⟨hnone, -⟩
  · have hlook : db.lock? r.lockId = some r := lookup_eq_some_of_mem hk.locks hr
    rw [hrid, hid] at hlook
    exact getLockValid_iff.mpr ⟨r, hlook, hrv⟩
  · obtain ⟨hP, heq⟩ := h.minted hmem hnone
    exact absurd (heq.symm.trans hid) (hminted hP)

/-! ### Runs -/

/-- The clock never goes backwards. -/
def ClockForward (s : Sys) (l : Label) : Prop := s.clock ≤ l.env.now

instance (s : Sys) (l : Label) : Decidable (ClockForward s l) :=
  inferInstanceAs (Decidable (s.clock ≤ l.env.now))

theorem empty_tended : Db.Tended {} := by
  refine ⟨List.nodup_nil, List.nodup_nil, ?_⟩
  intro r hr
  cases hr

theorem Reaches.tended {guard : Sys → Label → Prop} (h : Reaches C M guard s) : s.db.Tended := by
  have hboth : s.db.Sound ∧ s.db.Tended := by
    refine GuardedRuns.Run.invariant (P := fun s : Sys => s.db.Sound ∧ s.db.Tended) ?_ h
      ⟨empty_sound, empty_tended⟩
    intro s l _ hs
    exact ⟨step_sound hs.1, (exec_tenure hs.1).tended hs.2⟩
  exact hboth.2

/-- All locks valid on one node at one moment belong to one mount. -/
def Exclusive (db : Db) (t : Int) : Prop :=
  ∀ r ∈ db.locks, ∀ r' ∈ db.locks, db.lockValid t r = true → db.lockValid t r' = true →
    r.nodeId = r'.nodeId → r.mountId = r'.mountId

theorem Tenure.exclusive (h : Tenure E P A db db') (hk : db.Tended) (hex : Exclusive db E.now)
    (hle : E.now ≤ t) : Exclusive db' t := by
  intro r hr r' hr' hv hv' hn
  rcases h.lock_back hk hle hr hv with ⟨a, ha, ⟨-, hna, hma⟩, hva⟩ | ⟨hnone, hfree⟩
  · rcases h.lock_back hk hle hr' hv' with ⟨b, hb, ⟨-, hnb, hmb⟩, hvb⟩ | ⟨-, hfree'⟩
    · have hm := hex a ha b hb hva hvb (by rw [hna, hnb, hn])
      rw [← hma, ← hmb, hm]
    · rw [← hma]
      exact hfree' a ha hva (by rw [hna, hn])
  · rcases h.lock_back hk hle hr' hv' with ⟨b, hb, ⟨-, hnb, hmb⟩, hvb⟩ | ⟨hnone', -⟩
    · rw [← hmb]
      exact (hfree b hb hvb (by rw [hnb, hn])).symm
    · -- a step adds at most one lock, so both are that one
      have heq : r = r' := by
        cases h with
        | locked row hmints hid hnew hmount hnode hfree hmounts hlocks =>
          rw [hlocks] at hr hr'
          have hlast : ∀ x ∈ db.locks ++ [row], db.lock? x.lockId = none → x = row := by
            intro x hx hx'
            rcases List.mem_append.mp hx with hx | hx
            · exact absurd rfl (lookup_eq_none.mp hx' x hx)
            · exact List.mem_singleton.mp hx
          rw [hlast r hr hnone, hlast r' hr' hnone']
        | renewedLock row exp hrow hvalid hmounts hlocks =>
          rw [hlocks] at hr
          rcases mem_amend.mp hr with ⟨hr, -⟩ | ⟨r₀, hr₀, -, rfl⟩
          · exact absurd rfl (lookup_eq_none.mp hnone r hr)
          · exact absurd rfl (lookup_eq_none.mp hnone r₀ hr₀)
        | dropped p hmounts hlocks =>
          rw [hlocks] at hr
          exact absurd rfl (lookup_eq_none.mp hnone r (List.mem_of_mem_filter hr))
        | same hmounts hlocks | mounted row hallowed hnew hmounts hlocks
        | unmounted m' hmounts hlocks
        | renewedMount m' exp hvalid hmounts hlocks =>
          rw [hlocks] at hr
          exact absurd rfl (lookup_eq_none.mp hnone r hr)
      rw [heq]

theorem Reaches.exclusive (h : Reaches C M ClockForward s) (ht : s.clock ≤ t) :
    Exclusive s.db t := by
  have hall : s.db.Sound ∧ s.db.Tended ∧ ∀ t, s.clock ≤ t → Exclusive s.db t := by
    refine GuardedRuns.Run.invariant
      (P := fun s : Sys => s.db.Sound ∧ s.db.Tended ∧ ∀ t, s.clock ≤ t → Exclusive s.db t) ?_ h ?_
    · intro s l hclock hs
      obtain ⟨hsound, htended, hex⟩ := hs
      have hten : Tenure l.env l.op.mintsLock (l.op.admits l.env s.db) s.db (step C M s l).db :=
        exec_tenure hsound
      refine ⟨step_sound hsound, hten.tended htended, ?_⟩
      intro t ht
      exact hten.exclusive htended (hex _ hclock) ht
    · refine ⟨empty_sound, empty_tended, ?_⟩
      intro t _ r hr
      cases hr
  exact hall.2.2 t ht

/-- A step from `t` on, the clock going forward. -/
def From (t : Int) (s : Sys) (lab : Label) : Prop := s.clock ≤ lab.env.now ∧ t ≤ lab.env.now

/-- Such a step that does not mint the id `l` once more. -/
def NotAgain (t : Int) (l : LockId) (s : Sys) (lab : Label) : Prop :=
  From t s lab ∧ (lab.op.mintsLock → lab.env.uuid ≠ l)

/-- A mount that is invalid at `t` is invalid at every later moment of every
run. -/
theorem mount_stays_invalid (hs : s.db.Sound) (hm : (s.db.mount? m).isSome)
    (hv : s.db.validMount? t m = none) (hrun : GuardedRuns.Run (step C M) (From t) s s')
    (ht : t ≤ t') (hclock : s'.clock ≤ t') : s'.db.validMount? t' m = none := by
  have hall : s'.db.Sound ∧ (s'.db.mount? m).isSome ∧
      ∀ t', t ≤ t' → s'.clock ≤ t' → s'.db.validMount? t' m = none := by
    refine GuardedRuns.Run.invariant (P := fun s' : Sys => s'.db.Sound ∧ (s'.db.mount? m).isSome ∧
      ∀ t', t ≤ t' → s'.clock ≤ t' → s'.db.validMount? t' m = none) ?_ hrun ?_
    · intro a lab hguard ha
      obtain ⟨hsound, hmount, hinv⟩ := ha
      have hten : Tenure lab.env lab.op.mintsLock (lab.op.admits lab.env a.db) a.db
          (step C M a lab).db := exec_tenure hsound
      refine ⟨step_sound hsound, hten.mount_persists hmount, ?_⟩
      intro t' ht hclock
      rw [← Option.not_isSome_iff_eq_none]
      intro hvalid
      have hback := hten.validMount_back hclock hmount hvalid
      rw [hinv _ hguard.2 hguard.1] at hback
      cases hback
    · refine ⟨hs, hm, ?_⟩
      intro t' ht _
      rw [← Option.not_isSome_iff_eq_none]
      intro hvalid
      have hback := validMount?_mono ht hvalid
      rw [hv] at hback
      cases hback
  exact hall.2.2 t' ht hclock

/-- A lock that is not valid at `t`, because it expired, its mount went or it was
released, is not valid at any later moment of any run. -/
theorem lock_stays_invalid (hs : s.db.Sound) (hk : s.db.Tended)
    (hv : s.db.getLockValid t l = false) (hrun : GuardedRuns.Run (step C M) (NotAgain t l) s s')
    (ht : t ≤ t') (hclock : s'.clock ≤ t') : s'.db.getLockValid t' l = false := by
  have hall : s'.db.Sound ∧ s'.db.Tended ∧
      ∀ t', t ≤ t' → s'.clock ≤ t' → s'.db.getLockValid t' l = false := by
    refine GuardedRuns.Run.invariant (P := fun s' : Sys => s'.db.Sound ∧ s'.db.Tended ∧
      ∀ t', t ≤ t' → s'.clock ≤ t' → s'.db.getLockValid t' l = false) ?_ hrun ?_
    · intro a lab hguard ha
      obtain ⟨hsound, htended, hinv⟩ := ha
      obtain ⟨⟨hforward, hfrom⟩, hminted⟩ := hguard
      have hten : Tenure lab.env lab.op.mintsLock (lab.op.admits lab.env a.db) a.db
          (step C M a lab).db := exec_tenure hsound
      refine ⟨step_sound hsound, hten.tended htended, ?_⟩
      intro t' ht hclock
      rw [← Bool.not_eq_true]
      intro hvalid
      have hback := hten.getLockValid_back htended hclock hminted hvalid
      rw [hinv _ hfrom hforward] at hback
      cases hback
    · refine ⟨hs, hk, ?_⟩
      intro t' ht _
      rw [← Bool.not_eq_true]
      intro hvalid
      obtain ⟨r, hr, hrv⟩ := getLockValid_iff.mp hvalid
      have hback := getLockValid_iff.mpr ⟨r, hr, lockValid_mono ht hrv⟩
      rw [hv] at hback
      cases hback
  exact hall.2.2 t' ht hclock

/-- A standalone lock is granted on a node that carries no valid lock. -/
theorem lock_granted {path : String} {ttlMs : Option Int}
    (h : (exec C M E s c (.request m (.lock path ttlMs))).2 = .ok (.lock l)) :
    ∃ r, (exec C M E s c (.request m (.lock path ttlMs))).1.db.lock? l = some r ∧ r.mountId = m ∧
      ∀ r₀ ∈ s.db.locks, s.db.lockValid E.now r₀ = true → r₀.nodeId ≠ r.nodeId := by
  simp only [exec, Request.run, Sys.transact] at h ⊢
  cases hlock : lock E (s.conns c).cipher s.begin m path ttlMs with
  | error e =>
    rw [hlock] at h
    cases h
  | ok r =>
    obtain ⟨tx, l'⟩ := r
    rw [hlock] at h
    obtain rfl := Reply.lock.inj (Except.ok.inj h)
    obtain ⟨ctx, found, -, -, hany, -, hnew, -, hdb⟩ := lock_ok hlock
    let row : LockRow := ⟨l', m, found.node, expiry E.now ttlMs⟩
    refine ⟨row, ?_, rfl, checkAnyLock_eq_false hany⟩
    have hself : lookup LockRow.lockId (s.db.locks ++ [row]) row.lockId = some row :=
      lookup_append_self hnew
    show lookup LockRow.lockId tx.db.locks l' = _
    rw [hdb]
    exact hself

/-- Lock mutual exclusion, on every run with a clock that never goes back. -/
theorem locks_exclude (h : Reaches C M ClockForward s) :
    (∀ t, s.clock ≤ t → Exclusive s.db t) ∧
      (∀ E c m path ttlMs l,
        (exec C M E s c (.request m (.lock path ttlMs))).2 = .ok (.lock l) →
        ∃ r, (exec C M E s c (.request m (.lock path ttlMs))).1.db.lock? l = some r ∧
          r.mountId = m ∧
          ∀ r₀ ∈ s.db.locks, s.db.lockValid E.now r₀ = true → r₀.nodeId ≠ r.nodeId) ∧
      (∀ t m s', (s.db.mount? m).isSome → s.db.validMount? t m = none →
        GuardedRuns.Run (step C M) (From t) s s' →
        ∀ t', t ≤ t' → s'.clock ≤ t' → s'.db.validMount? t' m = none) ∧
      ∀ t l s', s.db.getLockValid t l = false → GuardedRuns.Run (step C M) (NotAgain t l) s s' →
        ∀ t', t ≤ t' → s'.clock ≤ t' → s'.db.getLockValid t' l = false := by
  refine ⟨fun t ht => h.exclusive ht, fun E c m path ttlMs l => lock_granted, ?_, ?_⟩
  · intro t m s' hm hv hrun t' ht hclock
    exact mount_stays_invalid h.sound hm hv hrun ht hclock
  · intro t l s' hv hrun t' ht hclock
    exact lock_stays_invalid h.sound h.tended hv hrun ht hclock

/-- Two mounts, of which the first holds a lock of 5 ms on the entry `x`. -/
def lockedRun : List Label :=
  [⟨.counting 0, 0, .createVolume none 1 none .none⟩,
    ⟨.counting 1, 0, .mount { volume := 0 }⟩,
    ⟨.counting 2, 1, .mount { volume := 0, allowOverlap := true }⟩,
    ⟨.counting 3, 0, .request 1 (.createEntry "x" [7])⟩,
    ⟨.counting 5, 0, .request 1 (.lock "x" (some 5))⟩]

theorem lockedRun_guards :
    GuardedRuns.Guards (step Crypto.xorStream Msgpack.refusing) ClockForward {}
    lockedRun :=
  ⟨le_rfl, le_rfl, le_rfl, le_rfl, le_rfl, trivial⟩

/-- At 6 ms the lock is gone for good, also when another mount locks the entry
then. -/
theorem locks_exclude_expired :
    let s := lockedRun.foldl (step Crypto.xorStream Msgpack.refusing) {}
    Exclusive s.db 0 ∧ (step Crypto.xorStream Msgpack.refusing s
      ⟨.counting 9 6000000, 1, .request 2 (.lock "x" none)⟩).db.getLockValid 7000000 5 = false := by
  intro s
  have hall := locks_exclude (reaches_foldl lockedRun_guards)
  refine ⟨hall.1 0 (by decide +kernel), ?_⟩
  refine hall.2.2.2 6000000 5 _ (by decide +kernel) ?_ 7000000 (by decide) (by decide +kernel)
  refine (GuardedRuns.Run.refl _).snoc ⟨⟨by decide +kernel, by decide⟩, ?_⟩
  intro _
  decide

end Aloelite
