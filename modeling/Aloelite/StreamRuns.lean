import Aloelite.LockedNodes
import Aloelite.Streams

/-! Writers over runs. As long as no writer that has lost its lock flushes into a
version that is someone else's by now, every entry holds what it was last given, and
every writer whose lock is valid what it has streamed. -/
namespace Aloelite

open Fallible KeyedRows Relation

variable {C : Crypto} {M : Msgpack} {σ : Type} {R : Reading C σ} {V : VolumeId} {E : Env}
  {k : Cipher} {db db' : Db} {tx tx' : Tx} {s s' : Sys} {c : ConnId} {op : Op} {fd : FdId}
  {f f' : OpenFile} {l : Label} {n : NodeId} {v : ℕ} {t t' : Int}

/-- An open writer whose lock is valid. -/
def OpenFile.Live (db : Db) (t : Int) (f : OpenFile) : Prop :=
  f.d.writable = true ∧ f.d.closed = false ∧ ∃ l ∈ f.d.lock, db.getLockValid t l = true

instance (db : Db) (t : Int) (f : OpenFile) : Decidable (f.Live db t) :=
  inferInstanceAs (Decidable (_ ∧ _ ∧ ∃ l ∈ f.d.lock, db.getLockValid t l = true))

/-- The descriptor a flush works on. -/
def Op.flushing (s : Sys) : Op → Option OpenFile
  | .fdFlush fd => s.fds[fd]?
  | _ => none

/-- A flush of a writer that has lost its lock stays out of the committed version of
its entry and of the versions that writers with a valid lock have claimed. -/
def NoReclaim (s : Sys) (l : Label) : Prop :=
  ∀ f ∈ l.op.flushing s, ∀ v ∈ f.d.version, ¬ f.Live s.db l.env.now →
    s.db.committedVersion f.d.node ≠ some v ∧
      ∀ g ∈ s.fds, g.Live s.db l.env.now → g.d.node = f.d.node → g.d.version ≠ some v

instance (s : Sys) (l : Label) : Decidable (NoReclaim s l) :=
  inferInstanceAs (Decidable (∀ f ∈ l.op.flushing s, ∀ v ∈ f.d.version, ¬ f.Live s.db l.env.now →
    s.db.committedVersion f.d.node ≠ some v ∧
      ∀ g ∈ s.fds, g.Live s.db l.env.now → g.d.node = f.d.node → g.d.version ≠ some v))

/-- The cipher a content step works with suits the reading. -/
def Fitting (R : Reading C σ) (s : Sys) (l : Label) : Prop :=
  match l.op with
  | .request m r => r.seals = true → R.FitsMount l.env (s.conns l.conn).cipher s.db m
  | .openWrite m _ _ _ => R.FitsMount l.env (s.conns l.conn).cipher s.db m
  | .fdFlush fd | .fdClose fd =>
    ∀ f, s.fds[fd]? = some f → R.Fits (s.conns f.conn).cipher f.d.volume
  | _ => True

/-- Orderly steps for a reading. A wary one also wants no sealed chunk to have met a
foreign row at its address. -/
structure Orderly (R : Reading C σ) (M : Msgpack) (s : Sys) (l : Label) : Prop where
  timely : Timely s l
  noReclaim : NoReclaim s l
  fitting : Fitting R s l
  clear : R.wary = true → (step C M s l).aliased = false

/-- Entries hold what they were given, live writers what they streamed; two live
writers of an entry have claimed different versions. -/
structure Writers (R : Reading C σ) (s : Sys) : Prop where
  stored : s.begin.Stored R
  streaming : ∀ f ∈ s.fds, f.Live s.db s.clock → Streaming R s.db f
  distinct : ∀ (fd fd' : FdId) (f f' : OpenFile) v, s.fds[fd]? = some f → s.fds[fd']? = some f' →
    f.Live s.db s.clock →
    f'.Live s.db s.clock → f.d.node = f'.d.node → f.d.version = some v → f'.d.version = some v →
    fd = fd'

theorem getLockValid_mono {i : LockId} (hle : t ≤ t') (h : db.getLockValid t' i = true) :
    db.getLockValid t i = true := by
  obtain ⟨r, hr, hv⟩ := getLockValid_iff.mp h
  exact getLockValid_iff.mpr ⟨r, hr, lockValid_mono hle hv⟩

/-- A writer that is live was so before. -/
theorem OpenFile.Live.mono (h : f.Live db t') (hle : t ≤ t') : f.Live db t := by
  obtain ⟨hw, hopen, i, hi, hv⟩ := h
  exact ⟨hw, hopen, i, hi, getLockValid_mono hle hv⟩

/-! ### Steps that write no content -/

theorem Tx.Stored.frame (added : List (NodeId × NodeType × VolumeId × Int)) (h : tx.Stored R)
    (hcontents : tx'.db.contents = tx.db.contents) (hversions : tx'.db.versions = tx.db.versions)
    (hchunks : tx'.db.chunks = tx.db.chunks) (hids : tx'.db.identities = tx.db.identities ++ added)
    (hadded : ∀ i ∈ added, i.2.1 = .container) (hplans : KeepsPlans tx.db tx'.db) (hh : tx.db.Homed)
    (hcommitted : tx'.committed = tx.committed) : tx'.Stored R := by
  have hcontent : ∀ n, tx'.db.content? n = tx.db.content? n := by
    intro n
    rw [Db.content?, Db.content?, hcontents]
  refine ⟨⟨?_, ?_, ?_⟩, ?_⟩
  · intro ch hch
    rw [hchunks] at hch
    exact h.1.addressed ch hch
  · intro r hr
    rw [hversions] at hr
    exact node?_isSome_persists ⟨added, hids⟩ (h.1.owned r hr)
  · intro n c hc
    rw [hcontent] at hc
    obtain ⟨V, hV, hkept⟩ := h.1.content n c hc
    refine ⟨V, home?_persists ⟨added, hids⟩ hV, ?_⟩
    rw [hcommitted]
    refine hkept.frame (hplans.chunkSize (hh.volume n V hV)) ?_ ?_
    · rw [Db.manifest, Db.manifest, hversions]
    · intro r _ ch hch
      rw [Db.chunk?, hchunks]
      exact hch
  · intro n t hne ht hleaf
    rw [hcontent]
    refine h.2 n t hne ?_ hleaf
    rw [Db.nodeType?_eq] at ht ⊢
    obtain ⟨i, hi, htype⟩ := Option.map_eq_some_iff.mp ht
    cases hold : lookup Prod.fst tx.db.identities n with
    | some j =>
      rw [hids, lookup_append_of_some hold] at hi
      obtain rfl := Option.some.inj hi
      rw [Option.map_some, htype]
    | none =>
      -- what a founding adds is a root
      have hmem : i ∈ added := by
        rcases List.mem_append.mp (hids ▸ mem_of_lookup hi) with hmem | hmem
        · exact absurd (key_of_lookup hi) (lookup_eq_none.mp hold i hmem)
        · exact hmem
      exact absurd (htype.symm.trans (hadded i hmem)) hleaf

theorem Tx.Stored.pruneContent {volume : Option VolumeId} {r : ℕ × ℕ} (h : tx.Stored R)
    (hprune : pruneContent E tx volume = .ok (tx', r)) : tx'.Stored R := by
  rw [pruneContent_shape hprune]
  refine ⟨⟨?_, ?_, ?_⟩, h.2⟩
  · intro ch hch
    exact h.1.addressed ch (List.mem_of_mem_filter hch)
  · intro r hr
    exact h.1.owned r (List.mem_of_mem_filter hr)
  · intro n c hc
    obtain ⟨V, hV, hkept⟩ := h.1.content n c hc
    have huntouched : Untouched tx.db (tx.db.pruneContentVersions E.now volume).pruneContentChunks
        n :=
      pruneContent_untouched
    have hver : tx.db.committedVersion n = some c.version := by
      rw [Db.committedVersion, show tx.db.content? n = some c from hc]
      rfl
    refine ⟨V, hV, hkept.frame rfl (huntouched.manifest _ hver) ?_⟩
    intro r hr ch hch
    rw [huntouched.pool _ hver r hr]
    exact hch

theorem createVolume_stored {name : Option String} {chunkSize : ℕ} {pin : Option Bytes}
    {mode : EncMode} (h : s.begin.Stored R) (hs : s.db.Sound) (hh : s.db.Homed)
    (hcreate : createVolume C E s.begin name chunkSize pin mode = .ok (tx', V)) : tx'.Stored R := by
  obtain ⟨-, -, -, hnodes, -, hframe, hcommitted, -⟩ := createVolume_shape hcreate
  have hplans : KeepsPlans s.db tx'.db := (Effect.founding hcreate).plans hs hh
  refine h.frame [(foundedRoot E s.begin).identity] (hframe.contents (by simp))
    (hframe.versions (by simp))
    (hframe.chunks (by simp)) ?_ ?_ hplans hh hcommitted
  · rw [Db.identities, hnodes]
    exact List.map_append
  · intro i hi
    rw [List.mem_singleton.mp hi]
    rfl

theorem changePin_stored {oldPin newPin : Bytes} (h : tx.Stored R) (hh : tx.db.Homed)
    (hchange : changePin C E tx V oldPin newPin = .ok tx') : tx'.Stored R := by
  simp only [changePin, bind_eq_ok] at hchange
  obtain ⟨row, -, root, -, u, -, key, -, hrun⟩ := hchange
  obtain ⟨db₁, hexec, rfl⟩ := Tx.run_ok.mp hrun
  have hframe := Stmt.exec_agreeOff hexec
  have hplans := License.plans_of_grants (L := (License.standard tx.db 0).inSession)
      (by trivial) hexec
  refine h.frame [] (hframe.contents (by simp [Stmt.touches]))
    (hframe.versions (by simp [Stmt.touches]))
    (hframe.chunks (by simp [Stmt.touches])) ?_ ?_ ?_ hh rfl
  · rw [List.append_nil]
    exact hframe.identities (by simp [Stmt.touches])
  · intro i hi
    cases hi
  · exact ⟨[], by rw [List.append_nil]; exact hplans⟩

/-! ### Steps that write content -/

theorem flushOneChunk_grown {d : Descriptor} (h : (d.flushOneChunk C E k tx).2 = .ok tx') :
    Grown C d.node (d.claims tx.db) tx tx' := by
  obtain ⟨tx₁, hclaim, hstage, -⟩ := flushOneChunk_ok h
  have hgrown : Grown C d.node (d.claims tx.db) tx tx₁ := (claimVersion_grown hclaim).1
  exact hgrown.trans (stageChunk_grown hstage)

/-- What is staged is staged for a node that exists. -/
theorem stageChunk_node {i : ℕ} {data : Bytes} (h : tx.stageChunk C E k n v i data = .ok tx') :
    (tx.db.node? n).isSome := by
  simp only [Tx.stageChunk, bind_eq_ok] at h
  obtain ⟨tx₁, hpool, hrow⟩ := h
  obtain ⟨db₁, hpool', rfl⟩ := Tx.run_ok.mp hpool
  obtain ⟨db₂, hrow', -⟩ := Tx.run_ok.mp hrow
  have hids := (Stmt.exec_agreeOff hpool').identities (by simp [Stmt.touches])
  have hn : (db₁.node? n).isSome := (Db.insertChunkRef_ok hrow').2.1
  rw [Db.node?_isSome_eq, hids, ← Db.node?_isSome_eq] at hn
  exact hn

theorem flushOneChunk_node {d : Descriptor} (h : (d.flushOneChunk C E k tx).2 = .ok tx') :
    (tx.db.node? d.node).isSome := by
  obtain ⟨tx₁, hclaim, hstage, -⟩ := flushOneChunk_ok h
  have hgrown : Grown C d.node (d.claims tx.db) tx tx₁ := (claimVersion_grown hclaim).1
  have hids : tx₁.db.identities = tx.db.identities := hgrown.off.identities (by simp)
  rw [Db.node?_isSome_eq, ← hids, ← Db.node?_isSome_eq]
  exact stageChunk_node hstage

/-- No flush of an orderly run goes into a committed version. -/
theorem Writers.claims_uncommitted (h : Writers R s) (hle : s.clock ≤ E.now)
    (hno : NoReclaim s ⟨E, c, .fdFlush fd⟩) (hf : s.fds[fd]? = some f) :
    s.db.committedVersion f.d.node ≠ some (f.d.claims s.db) := by
  by_cases hlive : f.Live s.db E.now
  · exact (h.streaming f (List.mem_of_getElem? hf) (hlive.mono hle)).claims.2.1
  · rw [Descriptor.claims]
    cases hv : f.d.version with
    | none => exact committedVersion_ne_nextVersion
    | some v => exact (hno f hf v hv hlive).1

/-- A close that has something to commit is one of a live writer. -/
theorem close_cases {f : OpenFile} (hnamed : LockNamed s f)
    (h : f.d.close C E k s.begin = .ok tx') :
    ((f.d.closed = true ∨ f.d.writable = false) ∧ tx' = s.begin) ∨
      (f.Live s.db E.now ∧ f.d.commit C E k s.begin = .ok tx') := by
  rw [Descriptor.close] at h
  split at h
  next hshut => exact Or.inl ⟨hshut, (Except.ok.inj h).symm⟩
  next hopen =>
    refine Or.inr ⟨?_, h⟩
    have hw : f.d.writable = true := by
      rw [← Bool.not_eq_false]
      exact fun heq => hopen (Or.inr heq)
    have hclosed : f.d.closed = false := by
      rw [← Bool.not_eq_true]
      exact fun heq => hopen (Or.inl heq)
    obtain ⟨i, hi, -⟩ := hnamed hw
    refine ⟨hw, hclosed, i, hi, ?_⟩
    have hlock := (commit_ok h).1
    rw [Descriptor.requireLock, hi] at hlock
    have hvalid : s.begin.db.getLockValid E.now i = true := by simpa using hlock
    exact hvalid

theorem transact_stored {α : Type} {body : Except FsError (Tx × α)} {done : Sys → α → Sys × Reply}
    (hdone : ∀ s a, (done s a).1.begin = s.begin) (h : s.begin.Stored R)
    (hal : R.wary = true → (s.transact body done).1.aliased = false)
    (hbody : ∀ tx a, body = .ok (tx, a) → (R.wary = true → tx.aliased = false) → tx.Stored R) :
    (s.transact body done).1.begin.Stored R := by
  cases hb : body with
  | error e => exact h
  | ok r =>
    obtain ⟨tx, a⟩ := r
    have hbegin : (s.transact (Except.ok (tx, a)) done).1.begin = (s.commit tx).begin :=
      hdone (s.commit tx) a
    rw [hbegin]
    refine hbody tx a hb fun hw => ?_
    have hlast := hal hw
    rw [hb] at hlast
    exact (congrArg Tx.aliased hbegin).symm.trans hlast

theorem fdTransact_stored {d : Descriptor} {body : Except FsError Tx} (h : s.begin.Stored R)
    (hal : R.wary = true → (s.fdTransact fd f d body).1.aliased = false)
    (hbody : ∀ tx, body = .ok tx → (R.wary = true → tx.aliased = false) → tx.Stored R) :
    (s.fdTransact fd f d body).1.begin.Stored R := by
  cases hb : body with
  | error e => exact h
  | ok tx =>
    refine hbody tx hb fun hw => ?_
    have hlast := hal hw
    rw [hb] at hlast
    exact hlast

/-- An orderly step leaves every entry with what it was last given. -/
theorem Writers.exec_stored (h : Writers R s) (hs : s.db.Sound) (hh : s.db.Homed)
    (hnamed : ∀ f ∈ s.fds, LockNamed s f) (ho : Orderly R M s ⟨E, c, op⟩) :
    (exec C M E s c op).1.begin.Stored R := by
  have hal : R.wary = true → (exec C M E s c op).1.aliased = false := ho.clear
  have hle : s.clock ≤ E.now := ho.timely.1
  have hfit := ho.fitting
  -- a call on a descriptor that is not open changes nothing
  have hon : ∀ fd, (R.wary = true → (onFd C E s fd op).1.aliased = false) →
      (∀ f, s.fds[fd]? = some f → (R.wary = true → (fdStep C E s fd f op).1.aliased = false) →
        (fdStep C E s fd f op).1.begin.Stored R) → (onFd C E s fd op).1.begin.Stored R := by
    intro fd hal hfd
    rw [onFd] at hal ⊢
    cases hf : s.fds[fd]? with
    | none => exact h.stored
    | some f =>
      rw [hf] at hal
      exact hfd f hf hal
  -- the invariant is `Stored`: a step only has to say what it does to entries, rows and claims
  cases op with
  | request m r =>
    refine transact_stored (fun _ _ => rfl) h.stored hal ?_
    intro tx a hrun hal'
    have hfits : r.seals = true → R.FitsMount E (s.conns c).cipher s.begin.db m := hfit
    exact Request.run_stored hfits hs.linked hh h.stored hrun hal'
  | createVolume name chunkSize pin mode =>
    refine transact_stored (fun _ _ => rfl) h.stored hal ?_
    intro tx v hrun _
    exact createVolume_stored h.stored hs hh hrun
  | changePin volume oldPin newPin =>
    refine transact_stored (fun _ _ => rfl) h.stored hal ?_
    intro tx a hrun _
    simp only [asReply, map_eq_ok, Prod.mk.injEq] at hrun
    obtain ⟨⟨t, u⟩, ⟨t', hrun, ht⟩, rfl, -⟩ := hrun
    obtain ⟨rfl, -⟩ := Prod.mk.inj ht
    exact changePin_stored h.stored hh hrun
  | mount args =>
    refine transact_stored (fun _ _ => rfl) h.stored hal ?_
    intro tx a hrun _
    simp only [Aloelite.mount, bind_eq_ok, pure_eq_ok, Prod.mk.injEq] at hrun
    obtain ⟨row, -, root, -, anchor, -, u, -, tx₁, hcreate, conn', -, tx₂, hstate, rfl, -⟩ := hrun
    exact (h.stored.calm (run_calm hcreate trivial)).calm (run_calm hstate trivial)
  | unmount m =>
    refine transact_stored (fun _ _ => rfl) h.stored hal ?_
    intro tx a hrun _
    simp only [noReply, map_eq_ok, Prod.mk.injEq] at hrun
    obtain ⟨t, hrun, rfl, -⟩ := hrun
    exact h.stored.calm (run_calm hrun trivial)
  | openRead m path =>
    simp only [exec]
    split <;> exact h.stored
  | openWrite m path mode lock =>
    refine transact_stored (fun _ _ => rfl) h.stored hal ?_
    intro tx d hrun hal'
    have hfits : R.FitsMount E (s.conns c).cipher s.begin.db m := hfit
    exact (openWrite_streaming (c := c) hfits hh h.stored hrun hal').1
  | fdRead fd n =>
    refine hon fd hal ?_
    intro f hf _
    simp only [fdStep]
    split
    · exact h.stored
    · split <;> exact h.stored
  | fdWrite fd data =>
    refine hon fd hal ?_
    intro f hf _
    simp only [fdStep]
    split
    · exact h.stored
    · split <;> exact h.stored
  | fdSeek fd offset whence =>
    refine hon fd hal ?_
    intro f hf _
    simp only [fdStep]
    split
    · exact h.stored
    · split <;> exact h.stored
  | fdFlush fd =>
    refine hon fd hal ?_
    intro f hf hal₁
    simp only [fdStep] at hal₁ ⊢
    split
    next hbusy =>
      rw [if_pos hbusy] at hal₁
      refine fdTransact_stored h.stored hal₁ ?_
      intro tx hflush _
      -- a flush adds rows at the claimed version alone, and nobody has committed that one
      have hcommitted := h.claims_uncommitted hle ho.noReclaim hf
      have hgrown : Grown C f.d.node (f.d.claims s.db) s.begin tx := flushOneChunk_grown hflush
      exact h.stored.grown hgrown (flushOneChunk_node hflush) hcommitted
    next => exact h.stored
  | fdClose fd =>
    refine hon fd hal ?_
    intro f hf hal₁
    simp only [fdStep] at hal₁ ⊢
    split
    next => exact h.stored
    next hidle =>
      rw [if_neg hidle] at hal₁
      refine fdTransact_stored h.stored hal₁ ?_
      intro tx hclose hal'
      have hmem := List.mem_of_getElem? hf
      -- only the close of a writer whose lock still lives commits its stream
      rcases close_cases (hnamed f hmem) hclose with ⟨-, rfl⟩ | ⟨hlive, hcommit⟩
      · exact h.stored
      · have hstream : Streaming R s.begin.db f := h.streaming f hmem (hlive.mono hle)
        have hdone := hstream.commit (by simpa using hidle) (hfit f hf) h.stored hcommit hal'
        exact hdone.1
  | fdAbort fd =>
    refine hon fd hal ?_
    intro f hf hal₁
    simp only [fdStep] at hal₁ ⊢
    split
    next => exact h.stored
    next hidle =>
      rw [if_neg hidle] at hal₁
      refine fdTransact_stored h.stored hal₁ ?_
      intro tx habort _
      rw [Descriptor.abort] at habort
      split at habort
      · obtain rfl := Except.ok.inj habort
        exact h.stored
      · exact h.stored.calm (releaseOwnLock_calm habort)
  | prune volume =>
    refine transact_stored (fun _ _ => rfl) h.stored hal ?_
    intro tx r hrun _
    have hsound : s.begin.db.Sound := hs
    have hpruned := prune_shape hrun hsound
    have hexec : Stmt.exec E.now s.db .pruneLocks = .ok (s.db.pruneLocks E.now) := rfl
    have hlocks : AgreeOff [.locks] s.db (s.db.pruneLocks E.now) := Stmt.exec_agreeOff hexec
    rw [hpruned]
    exact h.stored.calm ⟨fun _ => rfl, hlocks.weaken (by decide), rfl, rfl⟩
  | pruneContent volume =>
    refine transact_stored (fun _ _ => rfl) h.stored hal ?_
    intro tx r hrun _
    exact h.stored.pruneContent hrun

/-! ### The descriptor of a step -/

/-- What a step makes of its own descriptor, and of the file, as long as the descriptor
stays open. -/
inductive Advance (C : Crypto) (E : Env) (s : Sys) (op : Op) (f : OpenFile) : OpenFile → Tx → Prop
  | moved (pos : ℕ) : Advance C E s op f { f with d := { f.d with pos := pos } } s.begin
  | wrote (data : Bytes) (d : Descriptor) (hidle : f.d.writing = false)
    (h : f.d.absorb data = .ok d) :
      Advance C E s op f { f with d := d } s.begin
  | failed (fd : FdId) (e : FsError) (hop : op = .fdFlush fd) (hbusy : f.d.writing = true)
      (h : (f.d.flushOneChunk C E (s.conns f.conn).cipher s.begin).2 = .error e) :
      Advance C E s op f { f with
        d := (f.d.flushOneChunk C E (s.conns f.conn).cipher s.begin).1 } s.begin
  | flushed (fd : FdId) (tx : Tx) (hop : op = .fdFlush fd) (hbusy : f.d.writing = true)
      (h : (f.d.flushOneChunk C E (s.conns f.conn).cipher s.begin).2 = .ok tx) :
      Advance C E s op f { f with
        d := (f.d.flushOneChunk C E (s.conns f.conn).cipher s.begin).1
        rows := f.rows ++ Sys.addedRows s.db tx.db } (s.commit tx).begin

theorem setFd_self {g : OpenFile} (hf : s.fds[fd]? = some f)
    (h : (s.setFd fd g).fds[fd]? = some f') :
    f' = g := by
  rw [Sys.setFd, List.getElem?_set_self (List.getElem?_eq_some_iff.mp hf).1] at h
  exact (Option.some.inj h).symm

theorem fdTransact_self {d : Descriptor} {body : Except FsError Tx} (hf : s.fds[fd]? = some f)
    (h : (s.fdTransact fd f d body).1.fds[fd]? = some f') : f'.d = d := by
  cases body with
  | error e => rw [setFd_self hf h]
  | ok tx =>
    have hself : f' = { f with d := d, rows := f.rows ++ Sys.addedRows s.db tx.db } :=
      setFd_self (s := s.commit tx) hf h
    rw [hself]

theorem fdStep_advance (hf : s.fds[fd]? = some f) (h : (fdStep C E s fd f op).1.fds[fd]? = some f')
    (hopen : f'.d.closed = false) :
    f.d.closed = false ∧ Advance C E s op f f' (fdStep C E s fd f op).1.begin := by
  have hsame : s.fds[fd]? = some f' → f.d.closed = false ∧ Advance C E s op f f' s.begin := by
    intro h
    obtain rfl := Option.some.inj (hf.symm.trans h)
    exact ⟨hopen, Advance.moved f.d.pos⟩
  -- a call that leaves the descriptor open is a flush, a write, or one that moves the cursor
  cases op with
  | fdFlush fd' =>
    simp only [fdStep] at h ⊢
    split at h
    next hbusy =>
      rw [if_pos hbusy]
      cases hflush : (f.d.flushOneChunk C E (s.conns f.conn).cipher s.begin).2 with
      | error e =>
        rw [hflush] at h
        rw [setFd_self hf h]
        exact ⟨hbusy.2, Advance.failed fd' e rfl hbusy.1 hflush⟩
      | ok tx =>
        rw [hflush] at h
        rw [setFd_self (s := s.commit tx) hf h]
        exact ⟨hbusy.2, Advance.flushed fd' tx rfl hbusy.1 hflush⟩
    next hidle =>
      rw [if_neg hidle]
      exact hsame h
  | fdRead fd' n =>
    simp only [fdStep] at h ⊢
    split at h
    next hbusy =>
      rw [if_pos hbusy]
      exact hsame h
    next hidle =>
      rw [if_neg hidle]
      cases hread : f.d.read C (s.conns f.conn).cipher s.db n with
      | error e =>
        rw [hread] at h
        exact hsame h
      | ok r =>
        obtain ⟨b, d⟩ := r
        rw [hread] at h
        obtain ⟨-, -, pos, rfl⟩ := read_ok hread
        obtain rfl := setFd_self hf h
        exact ⟨hopen, Advance.moved pos⟩
  | fdWrite fd' data =>
    simp only [fdStep] at h ⊢
    split at h
    next hbusy =>
      rw [if_pos hbusy]
      exact hsame h
    next hidle =>
      rw [if_neg hidle]
      cases habs : f.d.absorb data with
      | error e =>
        rw [habs] at h
        exact hsame h
      | ok d =>
        rw [habs] at h
        obtain rfl := setFd_self hf h
        exact ⟨(absorb_ok habs).1, Advance.wrote data d (by simpa using hidle) habs⟩
  | fdSeek fd' offset whence =>
    simp only [fdStep] at h ⊢
    split at h
    next hbusy =>
      rw [if_pos hbusy]
      exact hsame h
    next hidle =>
      rw [if_neg hidle]
      cases hseek : f.d.seek s.db offset whence with
      | error e =>
        rw [hseek] at h
        exact hsame h
      | ok d =>
        rw [hseek] at h
        obtain ⟨pos, rfl⟩ := seek_ok hseek
        obtain rfl := setFd_self hf h
        exact ⟨hopen, Advance.moved pos⟩
  -- close and abort leave a closed descriptor, whatever they answer
  | fdClose fd' =>
    simp only [fdStep] at h ⊢
    split at h
    next hbusy =>
      rw [if_pos hbusy]
      exact hsame h
    next hidle =>
      rw [fdTransact_self hf h] at hopen
      cases hopen
  | fdAbort fd' =>
    simp only [fdStep] at h ⊢
    split at h
    next hbusy =>
      rw [if_pos hbusy]
      exact hsame h
    next hidle =>
      rw [fdTransact_self hf h] at hopen
      cases hopen
  | _ =>
    simp only [fdStep] at h ⊢
    split at h
    next hbusy =>
      rw [if_pos hbusy]
      exact hsame h
    next hidle =>
      rw [if_neg hidle]
      exact hsame h

/-! ### Steps of an orderly run -/

theorem Reaches.named (hr : Reaches C M (Orderly R M) s) : ∀ f ∈ s.fds, LockNamed s f :=
  Reaches.lockNamed (GuardedRuns.Run.weaken (fun _ _ ho => ho.timely) hr)

theorem OpenFile.Live.locked (h : f.Live s.db t) (hnamed : LockNamed s f) :
    s.db.checkAnyLock t f.d.node = true := by
  obtain ⟨hw, -, i, hi, hv⟩ := h
  obtain ⟨i', hi', hnode⟩ := hnamed hw
  obtain rfl := Option.some.inj (hi.symm.trans hi')
  obtain ⟨r, hr, hvalid⟩ := getLockValid_iff.mp hv
  rw [Db.checkAnyLock, List.any_eq_true]
  refine ⟨r, List.mem_filter.mpr ⟨mem_of_lookup hr, hvalid⟩, ?_⟩
  simpa using hnode r hr

/-- A writer that is live after a step was live before it. -/
theorem live_back (hr : Reaches C M (Orderly R M) s) (ho : Orderly R M s ⟨E, c, op⟩)
    (hmem : f ∈ s.fds) (hsame : SameFd f f') (hopen : f'.d.closed = false → f.d.closed = false)
    (hlive : f'.Live (exec C M E s c op).1.db E.now) : f.Live s.db E.now := by
  obtain ⟨hw, hclosed, i, hi, hv⟩ := hlive
  have hlock : f.d.lock = some i := hsame.lock.symm.trans hi
  have hten : Tenure E op.mintsLock (op.admits E s.db) s.db (exec C M E s c op).1.db :=
    exec_tenure hr.sound
  refine ⟨hsame.writable ▸ hw, hopen hclosed, i, hlock, ?_⟩
  refine hten.getLockValid_back hr.tended le_rfl ?_ hv
  intro hmints heq
  exact ho.timely.2 hmints f hmem (hlock.trans (congrArg some heq.symm))

/-- The version a live writer has claimed is below the next one. -/
theorem Writers.claimed_lt (h : Writers R s) (hmem : f ∈ s.fds) (hlive : f.Live s.db s.clock)
    (hv : f.d.version = some v) : v < s.db.nextVersion f.d.node := by
  have hc := (h.streaming f hmem hlive).claimed v hv
  obtain ⟨r, hr⟩ := List.exists_mem_of_ne_nil _ hc.staged
  rw [← hc.rows] at hr
  obtain ⟨hrow, hnode, hver⟩ := Db.mem_manifest.mp hr
  rw [← hnode, ← hver]
  exact lt_nextVersion_of_mem hrow

/-- What one live writer claims no other has claimed. -/
theorem Writers.claims_distinct {i j : FdId} {g : OpenFile} (h : Writers R s)
    (hi : s.fds[i]? = some f) (hj : s.fds[j]? = some g) (hf : f.Live s.db s.clock)
    (hg : g.Live s.db s.clock) (hnode : f.d.node = g.d.node) (hclaims : f.d.claims s.db = v)
    (hv : g.d.version = some v) :
    i = j := by
  rw [Descriptor.claims] at hclaims
  cases hw : f.d.version with
  | none =>
    have hlt := h.claimed_lt (List.mem_of_getElem? hj) hg hv
    rw [hw, Option.getD_none, hnode] at hclaims
    omega
  | some w =>
    rw [hw, Option.getD_some] at hclaims
    exact h.distinct i j f g v hi hj hf hg hnode (hw.trans (congrArg some hclaims)) hv

/-- A step does not write into the version that a live writer it does not belong to
has claimed. -/
theorem Writers.unwritten {i : FdId} (h : Writers R s) (ho : Orderly R M s ⟨E, c, op⟩)
    (hi : s.fds[i]? = some f) (hlive : f.Live s.db E.now) (hop : op.fd? ≠ some i)
    (hclose : ∀ fd g, op = .fdClose fd → s.fds[fd]? = some g → g.Live s.db E.now)
    (hv : f.d.version = some v) : ¬ (op.license E s).write f.d.node v := by
  have hle : s.clock ≤ E.now := ho.timely.1
  have hmem := List.mem_of_getElem? hi
  have hlt := h.claimed_lt hmem (hlive.mono hle) hv
  -- the version another descriptor claims is new or not this one
  have hother : ∀ fd g, op.fd? = some fd → s.fds[fd]? = some g →
      (∀ w, g.d.version = some w → ¬ g.Live s.db E.now →
        ∀ g' ∈ s.fds, g'.Live s.db E.now → g'.d.node = g.d.node → g'.d.version ≠ some w) →
      ¬ (f.d.node = g.d.node ∧ v = g.d.claims s.db) := by
    intro fd g hfd hg hdead hwrite
    obtain ⟨hnode, hclaims⟩ := hwrite
    by_cases hglive : g.Live s.db E.now
    · have heq : fd = i :=
        h.claims_distinct hg hi (hglive.mono hle) (hlive.mono hle) hnode.symm hclaims.symm hv
      exact hop (heq ▸ hfd)
    rw [Descriptor.claims] at hclaims
    cases hw : g.d.version with
    | none =>
      rw [hw, Option.getD_none, ← hnode] at hclaims
      omega
    | some w =>
      rw [hw, Option.getD_some] at hclaims
      exact hdead w hw hglive f hmem hlive hnode (hv.trans (congrArg some hclaims))
  intro hwrite
  by_cases hflush : ∃ fd, op = .fdFlush fd
  · obtain ⟨fd, rfl⟩ := hflush
    cases hg : s.fds[fd]? with
    | none =>
      simp only [Op.license, hg] at hwrite
      exact hwrite
    | some g =>
      simp only [Op.license, hg] at hwrite
      exact hother fd g rfl hg (fun w hw hdead => (ho.noReclaim g hg w hw hdead).2) hwrite
  by_cases hclosing : ∃ fd, op = .fdClose fd
  · obtain ⟨fd, rfl⟩ := hclosing
    cases hg : s.fds[fd]? with
    | none =>
      simp only [Op.license, hg] at hwrite
      exact hwrite
    | some g =>
      simp only [Op.license, hg] at hwrite
      exact hother fd g rfl hg (fun w _ hdead => absurd (hclose fd g rfl hg) hdead) hwrite
  · have hnext := Op.license_write (fun fd h => hflush ⟨fd, h⟩)
        (fun fd h => hclosing ⟨fd, h⟩) hwrite
    omega

/-- The close of a writer that has lost its lock changes nothing. -/
theorem close_dead (hnamed : ∀ f ∈ s.fds, LockNamed s f) (hf : s.fds[fd]? = some f)
    (hdead : ¬ f.Live s.db E.now) : (exec C M E s c (.fdClose fd)).1.db = s.db := by
  show (onFd C E s fd (.fdClose fd)).1.db = s.db
  refine onFd_db (P := fun db => db = s.db) rfl ?_
  intro g hg
  obtain rfl := Option.some.inj (hf.symm.trans hg)
  simp only [fdStep]
  split
  · rfl
  · refine fdTransact_db (P := fun db => db = s.db) rfl ?_
    intro tx hclose
    rcases close_cases (hnamed f (List.mem_of_getElem? hf)) hclose with ⟨-, rfl⟩ | ⟨hlive, -⟩
    · rfl
    · exact absurd hlive hdead

/-- A live writer is undisturbed by the steps of others. -/
theorem Writers.other {i : FdId} (h : Writers R s) (hr : Reaches C M (Orderly R M) s)
    (ho : Orderly R M s ⟨E, c, op⟩) (hi : s.fds[i]? = some f) (hlive : f.Live s.db E.now)
    (hop : op.fd? ≠ some i) : Streaming R (exec C M E s c op).1.db f := by
  have hmem := List.mem_of_getElem? hi
  have hstream := h.streaming f hmem (hlive.mono ho.timely.1)
  by_cases hdead : ∃ fd g, op = .fdClose fd ∧ s.fds[fd]? = some g ∧ ¬ g.Live s.db E.now
  · obtain ⟨fd, g, rfl, hg, hdead⟩ := hdead
    rw [close_dead hr.named hg hdead]
    exact hstream
  · have heffect : Effect C E s op (exec C M E s c op).1.db := exec_effect hr.sound.linked
    have hn := Db.node?_isSome_of_home hstream.home
    have hsteady := heffect.steady hr.sound hn (hlive.locked (hr.named f hmem))
    refine hstream.steady hsteady (heffect.rowsKeyed hr.sound hr.rowsKeyed) ?_ ?_ ?_
    · intro v hv
      refine h.unwritten ho hi hlive hop ?_ hv
      intro fd g hclose hg
      by_contra hnot
      exact hdead ⟨fd, g, hclose, hg, hnot⟩
    · exact home?_persists (heffect.identities hr.sound) hstream.home
    · exact (heffect.plans hr.sound hr.homed).chunkSize (hr.homed.volume _ _ hstream.home)

/-- A live writer whose step it is. -/
theorem Writers.own (h : Writers R s) (hr : Reaches C M (Orderly R M) s)
    (ho : Orderly R M s ⟨E, c, op⟩) (hop : op.fd? = some fd) (hf : s.fds[fd]? = some f)
    (hlive : f.Live s.db E.now) (hadv : Advance C E s op f f' (exec C M E s c op).1.begin) :
    Streaming R (exec C M E s c op).1.db f' ∧
      (f'.d.version = f.d.version ∨ f'.d.version = some (f.d.claims s.db)) := by
  have hmem := List.mem_of_getElem? hf
  have hstream : Streaming R s.begin.db f := h.streaming f hmem (hlive.mono ho.timely.1)
  have hal : R.wary = true → (exec C M E s c op).1.begin.aliased = false := ho.clear
  have hflush : ∀ fd', op = .fdFlush fd' → R.Fits (s.conns f.conn).cipher f.d.volume := by
    intro fd' heq
    have hfit := ho.fitting
    obtain rfl := Option.some.inj ((heq ▸ hop : (Op.fdFlush fd').fd? = some fd))
    rw [heq] at hfit
    exact hfit f hf
  generalize hend : (exec C M E s c op).1.begin = tx at hadv hal
  have hdb : (exec C M E s c op).1.db = tx.db := congrArg Tx.db hend
  rw [hdb]
  cases hadv with
  | moved pos => exact ⟨hstream.repositioned pos, Or.inl rfl⟩
  | wrote data d hidle habs =>
    refine ⟨hstream.absorb habs hidle, Or.inl ?_⟩
    obtain ⟨-, -, ⟨-, rfl⟩ | ⟨-, -, rfl⟩⟩ := absorb_ok habs <;> rfl
  | failed fd' e heq hbusy herror =>
    obtain ⟨tx', hok, -⟩ :=
      hstream.flush (E := E) hbusy (hflush fd' heq) h.stored.1.addressed hr.rowsKeyed
      hr.pooled
    cases herror.symm.trans hok
  | flushed fd' tx' heq hbusy hok =>
    obtain ⟨tx'', hok', hversion, hkept⟩ :=
      hstream.flush (E := E) hbusy (hflush fd' heq) h.stored.1.addressed
      hr.rowsKeyed hr.pooled
    obtain rfl := Except.ok.inj (hok.symm.trans hok')
    exact ⟨hkept hal, Or.inr hversion⟩

/-- The descriptors of the next state that are live there. -/
theorem Writers.live_next {i : FdId} (h : Writers R s) (hr : Reaches C M (Orderly R M) s)
    (ho : Orderly R M s ⟨E, c, op⟩) (hi : (exec C M E s c op).1.fds[i]? = some f')
    (hlive : f'.Live (exec C M E s c op).1.db E.now) :
    Streaming R (exec C M E s c op).1.db f' ∧ (f'.d.version = none ∨ ∃ f, s.fds[i]? = some f ∧
      f.Live s.db E.now ∧ f'.d.node = f.d.node ∧ (f'.d.version = f.d.version ∨
        (op.fd? = some i ∧ f'.d.version = some (f.d.claims s.db)))) := by
  by_cases hop : op.fd? = some i
  · have hon := exec_onFd (C := C) (M := M) (E := E) (s := s) (c := c) hop
    cases hf : s.fds[i]? with
    | none =>
      rw [hon, onFd, hf] at hi
      cases hf.symm.trans hi
    | some f =>
      have hadv := hi
      rw [hon, onFd, hf] at hadv
      obtain ⟨hopen, hadv⟩ := fdStep_advance hf hadv hlive.2.1
      have hexec : (exec C M E s c op).1 = (fdStep C E s i f op).1 := by rw [hon, onFd, hf]
      rw [← hexec] at hadv
      rcases exec_fds hi with ⟨f₀, hf₀, hsame⟩ | ⟨hnone, -⟩
      · obtain rfl := Option.some.inj (hf.symm.trans hf₀)
        have hlive₀ := live_back hr ho (List.mem_of_getElem? hf) hsame (fun _ => hopen) hlive
        obtain ⟨hstream, hversion⟩ := h.own hr ho hop hf hlive₀ hadv
        exact ⟨hstream, Or.inr ⟨f, rfl, hlive₀, hsame.node, hversion.imp id (fun hv => ⟨hop, hv⟩)⟩⟩
      · cases hf.symm.trans hnone
  · rcases exec_fds_others hop hi with hold | ⟨-, hopened⟩
    · have hlive₀ := live_back hr ho (List.mem_of_getElem? hold) (SameFd.refl f') (fun h => h) hlive
      exact ⟨h.other hr ho hold hlive₀ hop, Or.inr ⟨f', hold, hlive₀, rfl, Or.inl rfl⟩⟩
    · cases hopened with
      | read hopen =>
        simp only [openRead, bind_eq_ok, pure_eq_ok] at hopen
        obtain ⟨m, -, found, -, u, -, rfl⟩ := hopen
        cases hlive.1
      | @write mount path mode lock tx d hopen =>
        have hexec : (exec C M E s c (.openWrite mount path mode lock)).1.begin =
            (s.commit tx).begin := by
          simp only [exec, Sys.transact, hopen]
          rfl
        have hal : R.wary = true → tx.aliased = false := by
          intro hw
          have hclear : (exec C M E s c (.openWrite mount path mode lock)).1.begin.aliased =
              false := ho.clear hw
          rw [hexec] at hclear
          exact hclear
        have hfits : R.FitsMount E (s.conns c).cipher s.begin.db mount := ho.fitting
        have hstream := (openWrite_streaming (c := c) hfits hr.homed h.stored hopen hal).2
        have hdb : (exec C M E s c (.openWrite mount path mode lock)).1.db = tx.db :=
          congrArg Tx.db hexec
        rw [hdb]
        obtain ⟨-, -, -, -, -, -, -, -, -, -, -, -, hversion, -⟩ := openWrite_ok hopen
        exact ⟨hstream, Or.inl hversion⟩

theorem step_writers (h : Writers R s) (hr : Reaches C M (Orderly R M) s) (ho : Orderly R M s l) :
    Writers R (step C M s l) := by
  obtain ⟨E, c, op⟩ := l
  have hle : s.clock ≤ E.now := ho.timely.1
  refine ⟨h.exec_stored hr.sound hr.homed hr.named ho, ?_, ?_⟩
  · intro f hf hlive
    obtain ⟨i, hi⟩ := List.mem_iff_getElem?.mp hf
    exact (h.live_next hr ho hi hlive).1
  · intro i j f g v hi hj hf hg hnode hfv hgv
    rcases (h.live_next hr ho hi hf).2 with hnone | ⟨f₀, hi₀, hf₀, hfnode, hfver⟩
    · cases hnone.symm.trans hfv
    rcases (h.live_next hr ho hj hg).2 with hnone | ⟨g₀, hj₀, hg₀, hgnode, hgver⟩
    · cases hnone.symm.trans hgv
    have hnode₀ : f₀.d.node = g₀.d.node := by rw [← hfnode, hnode, hgnode]
    rcases hfver with hfsame | ⟨hopi, hfclaims⟩
    · have hfv₀ : f₀.d.version = some v := hfsame.symm.trans hfv
      rcases hgver with hgsame | ⟨-, hgclaims⟩
      · exact h.distinct i j f₀ g₀ v hi₀ hj₀ (hf₀.mono hle) (hg₀.mono hle) hnode₀ hfv₀
          (hgsame.symm.trans hgv)
      · have hclaims : g₀.d.claims s.db = v := Option.some.inj (hgclaims.symm.trans hgv)
        exact (h.claims_distinct hj₀ hi₀ (hg₀.mono hle)
          (hf₀.mono hle) hnode₀.symm hclaims hfv₀).symm
    · have hclaims : f₀.d.claims s.db = v := Option.some.inj (hfclaims.symm.trans hfv)
      rcases hgver with hgsame | ⟨hopj, -⟩
      · exact h.claims_distinct hi₀ hj₀ (hf₀.mono hle) (hg₀.mono hle) hnode₀ hclaims
          (hgsame.symm.trans hgv)
      · exact Option.some.inj (hopi.symm.trans hopj)

theorem empty_writers : Writers R {} := by
  refine ⟨⟨⟨?_, ?_, ?_⟩, ?_⟩, ?_, ?_⟩
  · intro ch hch
    cases hch
  · intro r hr
    cases hr
  · intro n c hc
    cases hc
  · intro n t _ ht
    cases ht
  · intro f hf
    cases hf
  · intro i j f g v hi
    cases hi

/-- In an orderly run every entry holds what it was last given and every live writer
what it has streamed. -/
theorem Reaches.writers (hr : Reaches C M (Orderly R M) s) : Writers R s := by
  have hboth : Reaches C M (Orderly R M) s ∧ Writers R s := by
    refine GuardedRuns.Run.invariant (P := fun s => Reaches C M (Orderly R M) s ∧ Writers R s) ?_ hr
      ⟨GuardedRuns.Run.refl _, empty_writers⟩
    intro s l ho hs
    exact ⟨GuardedRuns.Run.snoc hs.1 ho, step_writers hs.2 hs.1 ho⟩
  exact hboth.2

/-- A close that succeeds is one of a live writer. Its own rows become the committed
version, its stream what the entry was last given. -/
theorem Writers.close (h : Writers R s) (hr : Reaches C M (Orderly R M) s)
    (ho : Orderly R M s ⟨E, c, .fdClose fd⟩) (hf : s.fds[fd]? = some f) (hw : f.d.writable = true)
    (hopen : f.d.closed = false) (hok : (exec C M E s c (.fdClose fd)).2 = .ok .done) :
    ∃ f' v, (exec C M E s c (.fdClose fd)).1.fds[fd]? = some f' ∧
      (exec C M E s c (.fdClose fd)).1.db.committedVersion f.d.node = some v ∧
      (exec C M E s c (.fdClose fd)).1.db.manifest f.d.node v = f'.rows ∧
      (exec C M E s c (.fdClose fd)).1.committed f.d.node = f.d.stream ∧
      (exec C M E s c (.fdClose fd)).1.db.home? f.d.node = some f.d.volume := by
  have hmem := List.mem_of_getElem? hf
  have hclear : R.wary = true → (exec C M E s c (.fdClose fd)).1.aliased = false := ho.clear
  have heffect : Effect C E s (.fdClose fd) (exec C M E s c (.fdClose fd)).1.db :=
    exec_effect hr.sound.linked
  have hids := heffect.identities hr.sound
  have hfit : R.Fits (s.conns f.conn).cipher f.d.volume := ho.fitting f hf
  have hexec : exec C M E s c (.fdClose fd) = fdStep C E s fd f (.fdClose fd) := by
    show onFd C E s fd (.fdClose fd) = _
    rw [onFd, hf]
  rw [hexec] at hok hclear hids ⊢
  simp only [fdStep] at hok hclear hids ⊢
  split at hok
  next => cases hok
  next hidle =>
    rw [if_neg hidle] at hclear hids ⊢
    cases hclose : f.d.close C E (s.conns f.conn).cipher s.begin with
    | error e =>
      rw [hclose] at hok
      cases hok
    | ok tx =>
      rw [hclose] at hclear hids
      have hlive : f.Live s.db E.now ∧ f.d.commit C E (s.conns f.conn).cipher s.begin = .ok tx := by
        refine (close_cases (hr.named f hmem) hclose).resolve_left ?_
        rw [hw, hopen]
        exact fun hshut => absurd hshut.1 (by decide)
      have hstream : Streaming R s.begin.db f := h.streaming f hmem (hlive.1.mono ho.timely.1)
      obtain ⟨-, hversion, hmanifest, hgiven⟩ :=
        hstream.commit (by simpa using hidle) hfit h.stored hlive.2 hclear
      have hself : (s.fdTransact fd f { f.d with closed := true } (.ok tx)).1.fds[fd]? =
          some { f with d := { f.d with closed := true },
                        rows := f.rows ++ Sys.addedRows s.db tx.db } :=
        List.getElem?_set_self (List.getElem?_eq_some_iff.mp hf).1
      exact ⟨_, f.d.claims s.db, hself, hversion, hmanifest, hgiven,
        home?_persists hids hstream.home⟩

end Aloelite
