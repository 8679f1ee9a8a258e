import Aloelite.EngineStrides

/-! What goes through a mount of access `ro`. Every operation that is to change the tree or its
content asks for the write flag first and ends there; the three on locks do not. -/
namespace Aloelite

open Fallible KeyedRows Relation

variable {C : Crypto} {M : Msgpack} {E : Env} {k : Cipher} {db db' : Db} {tx tx' : Tx} {s s' : Sys}
  {l : Label} {mount : MountId} {q : Request} {reply : Reply} {e : FsError}

/-- The operations the specification marks as mutating, ending and renewing the mount apart. -/
def Request.Mutates : Request → Prop
  | .readAll _ | .renewMount _ => False
  | _ => True

/-- Those on locks. -/
def Request.Locks : Request → Prop
  | .lock .. | .unlock _ | .renewLock .. => True
  | _ => False

/-- A type `create_special` takes. -/
def Request.WellTyped : Request → Prop
  | .createSpecial _ type _ => type ≠ .container ∧ type ≠ .entry
  | _ => True

/-- A row of the mount table gives it the access `ro`. -/
def Db.ReadOnly (db : Db) (mount : MountId) : Prop :=
  ∃ row, db.mount? mount = some row ∧ row.access = .ro

/-- A mutating operation through a mount of access `ro`, or a write to a descriptor that was
opened for reading, the only kind such a mount gives out. -/
def Op.ThroughReadOnly (s : Sys) : Op → Prop
  | .request mount q => s.db.ReadOnly mount ∧ q.Mutates
  | .openWrite mount .. => s.db.ReadOnly mount
  | .fdWrite fd _ => ∀ f, s.fds[fd]? = some f → f.d.writable = false
  | _ => False

def Op.Locks : Op → Prop
  | .request _ q => q.Locks
  | _ => False

/-! ### The write flag -/

theorem openContent_refused {path : String} (h : requireMount E k tx.db mount true = .error e) :
    openContent E k tx.db mount path = .error e := by
  rw [openContent, h, error_bind]

theorem currentSize_refused {path : String} (h : requireMount E k tx.db mount true = .error e) :
    currentSize E k tx.db mount path = .error e := by
  rw [currentSize, h, error_bind]

/-- What asks for the write flag ends with its answer. -/
theorem request_refused (h : requireMount E k tx.db mount true = .error e) (hmutates : q.Mutates)
    (hlocks : ¬ q.Locks) (htyped : q.WellTyped) : q.run C M E k tx mount = .error e := by
  cases q with
  | createSpecial path type data =>
    have hfalse : decide (type = .container ∨ type = .entry) = false := by
      rw [decide_eq_false_iff_not, not_or]
      exact htyped
    simp only [Request.run, createSpecial, hfalse, refuse, createLeaf, h]
    rfl
  | append path data =>
    simp only [Request.run, append, currentSize_refused h, openContent_refused h]
    split <;> rfl
  | writeRange path offset data =>
    simp only [Request.run, writeRange, currentSize_refused h, openContent_refused h]
    split <;> rfl
  | readAll path => exact hmutates.elim
  | renewMount ttlMs => exact hmutates.elim
  | lock path ttlMs => exact absurd trivial hlocks
  | unlock lock => exact absurd trivial hlocks
  | renewLock lock ttlMs => exact absurd trivial hlocks
  | _ =>
    simp only [Request.run, createContainer, createEntry, createLeaf, writeAll, truncate, rename,
      link, move, remove, removeRecursive,
      copy, pack, unpack, setOwner, setAtime, setMtime, setXattr, removeXattr, setMetadata,
      setRetention, h, openContent_refused h]
    rfl

/-- Whatever its type, the request fails. -/
theorem request_fails (h : requireMount E k tx.db mount true = .error e) (hmutates : q.Mutates)
    (hlocks : ¬ q.Locks) :
    ∃ e', q.run C M E k tx mount = .error e' := by
  by_cases htyped : q.WellTyped
  · exact ⟨e, request_refused h hmutates hlocks htyped⟩
  · cases q with
    | createSpecial path type data =>
      refine ⟨.unsupported, ?_⟩
      have htrue : decide (type = .container ∨ type = .entry) = true := by
        rw [decide_eq_true_iff]
        by_contra hne
        exact htyped (not_or.mp hne)
      simp only [Request.run, createSpecial, htrue, refuse]
      rfl
    | _ => exact absurd trivial htyped

theorem openWrite_refused {path : String} {mode : WriteMode} {lock : Option LockId}
    (h : requireMount E k tx.db mount true = .error e) :
    openWrite C E k tx mount path mode lock = .error e := by
  rw [openWrite, h, error_bind]

/-- A mount of access `ro` never passes the write flag; where nothing else is wrong with it, the
answer says so. -/
theorem requireMount_readOnly (hro : db.ReadOnly mount) :
    ∃ e, requireMount E k db mount true = .error e ∧
      ∀ m, requireMount E k db mount false = .ok m → e = .readOnly mount := by
  obtain ⟨row, hrow, haccess⟩ := hro
  have hsame : ∀ row', db.validMount? E.now mount = some row' → row' = row := by
    intro row' hvalid
    have hlookup := (Option.filter_eq_some_iff.mp hvalid).1
    exact Option.some.inj (hlookup.symm.trans hrow)
  cases hm : requireMount E k db mount true with
  | ok m =>
    simp only [requireMount, bind_eq_ok, orRaise_eq_ok, refuse_eq_ok] at hm
    obtain ⟨row', hvalid, volume, -, u, -, u', hrefused, -⟩ := hm
    rw [hsame row' hvalid, haccess] at hrefused
    cases hrefused
  | error e =>
    refine ⟨e, rfl, ?_⟩
    intro m hm'
    simp only [requireMount, bind_eq_ok, orRaise_eq_ok, refuse_eq_ok] at hm'
    obtain ⟨row', hvalid, volume, hvolume, u, hkey, -⟩ := hm'
    obtain rfl := hsame row' hvalid
    simp only [requireMount, hvalid, orRaise, ok_bind, hvolume, hkey, haccess] at hm
    exact (Except.error.inj hm).symm

/-! ### What changes -/

/-- On locks, nothing but the lock table changes, and no id of the volume is minted. -/
theorem locks_frame (hlocks : q.Locks) (h : q.run C M E k tx mount = .ok (tx', reply)) :
    AgreeOff [.locks] tx.db tx'.db ∧ tx'.idCount = tx.idCount := by
  have hrun : ∀ st : Stmt, st.touches ⊆ [.locks] → tx.run E st = .ok tx' →
      AgreeOff [.locks] tx.db tx'.db ∧ tx'.idCount = tx.idCount := by
    intro st hst hrun
    obtain ⟨db₁, hexec, rfl⟩ := Tx.run_ok.mp hrun
    exact ⟨(Stmt.exec_agreeOff hexec).weaken hst, rfl⟩
  cases q with
  | lock path ttlMs =>
    simp only [Request.run, asReply, lock, map_eq_ok, bind_eq_ok, pure_eq_ok, Prod.mk.injEq] at h
    obtain ⟨⟨t, l⟩, ⟨m, -, found, -, u, -, tx₁, h, rfl, -⟩, rfl, -⟩ := h
    exact hrun _ (by simp [Stmt.touches]) h
  | unlock lock =>
    simp only [Request.run, noReply, unlock, map_eq_ok, bind_eq_ok, Prod.mk.injEq] at h
    obtain ⟨t, ⟨m, -, row, -, h⟩, rfl, -⟩ := h
    exact hrun _ (by simp [Stmt.touches]) h
  | renewLock lock ttlMs =>
    simp only [Request.run, noReply, renewLock, map_eq_ok, bind_eq_ok, Prod.mk.injEq] at h
    obtain ⟨t, ⟨m, -, row, -, h⟩, rfl, -⟩ := h
    exact hrun _ (by simp [Stmt.touches]) h
  | _ => exact hlocks.elim

/-- Apart from those on locks, nothing that goes through a mount of access `ro` is more than an
answer. -/
theorem exec_readOnly (hro : l.op.ThroughReadOnly s) (hlocks : ¬ l.op.Locks) :
    (exec C M l.env s l.conn l.op).1 = s := by
  obtain ⟨E, c, op⟩ := l
  cases op with
  | request mount q =>
    obtain ⟨e, he, -⟩ := @requireMount_readOnly E (s.conns c).cipher s.db mount hro.1
    have hdb : requireMount E (s.conns c).cipher s.begin.db mount true = .error e := he
    obtain ⟨e', he'⟩ := @request_fails C M E (s.conns c).cipher s.begin mount q e hdb hro.2 hlocks
    simp only [exec, he']
    rfl
  | openWrite mount path mode lock =>
    obtain ⟨e, he, -⟩ := @requireMount_readOnly E (s.conns c).cipher s.db mount hro
    have hdb : requireMount E (s.conns c).cipher s.begin.db mount true = .error e := he
    simp only [exec, openWrite_refused hdb]
    rfl
  | fdWrite fd data =>
    simp only [exec, onFd]
    cases hfd : s.fds[fd]? with
    | none => rfl
    | some f =>
      have hreader := hro f hfd
      simp only [fdStep]
      split
      · rfl
      · have habsorb : f.d.absorb data = .error .valueError := by
          rw [Descriptor.absorb, hreader]
          cases f.d.closed <;> rfl
        rw [habsorb]
  | _ => exact hro.elim

/-! ### Two runs -/

/-- The state with another last clock reading, which no step looks at. -/
def Sys.at (s : Sys) (t : Int) : Sys := { s with clock := t }

section

variable (t : Int)

@[simp] theorem Sys.begin_at : (s.at t).begin = s.begin := rfl

@[simp] theorem Sys.conns_at : (s.at t).conns = s.conns := rfl

@[simp] theorem Sys.fds_at : (s.at t).fds = s.fds := rfl

@[simp] theorem Sys.db_at : (s.at t).db = s.db := rfl

end

theorem fdStep_at {E : Env} {fd : FdId} {f : OpenFile} {op : Op} (t : Int) :
    fdStep C E (s.at t) fd f op = ((fdStep C E s fd f op).1.at t, (fdStep C E s fd f op).2) := by
  cases op with
  | fdFlush fd' =>
    simp only [fdStep, Sys.begin_at, Sys.conns_at]
    split
    · generalize (f.d.flushOneChunk C E (s.conns f.conn).cipher s.begin).2 = body
      cases body <;> rfl
    · rfl
  | fdRead fd' n =>
    simp only [fdStep, Sys.db_at, Sys.conns_at]
    split
    · rfl
    · generalize f.d.read C (s.conns f.conn).cipher s.db n = answer
      cases answer <;> rfl
  | fdWrite fd' data =>
    simp only [fdStep]
    split
    · rfl
    · cases f.d.absorb data <;> rfl
  | fdSeek fd' offset whence =>
    simp only [fdStep, Sys.db_at]
    split
    · rfl
    · cases f.d.seek s.db offset whence <;> rfl
  | fdClose fd' =>
    simp only [fdStep, Sys.begin_at, Sys.conns_at]
    split
    · rfl
    · cases f.d.close C E (s.conns f.conn).cipher s.begin <;> rfl
  | fdAbort fd' =>
    simp only [fdStep, Sys.begin_at]
    split
    · rfl
    · cases f.d.abort E s.begin <;> rfl
  | _ =>
    simp only [fdStep]
    split
    · rfl
    · rfl

theorem onFd_at {E : Env} {fd : FdId} {op : Op} (t : Int) :
    onFd C E (s.at t) fd op = ((onFd C E s fd op).1.at t, (onFd C E s fd op).2) := by
  simp only [onFd, Sys.fds_at]
  cases s.fds[fd]? with
  | none => rfl
  | some f => exact fdStep_at t

/-- No step reads the clock that was noted. -/
theorem exec_at (E : Env) (c : ConnId) (op : Op) (t : Int) :
    exec C M E (s.at t) c op = ((exec C M E s c op).1.at t, (exec C M E s c op).2) := by
  cases op with
  | request mount q =>
    simp only [exec, Sys.begin_at, Sys.conns_at]
    cases q.run C M E (s.conns c).cipher s.begin mount <;> rfl
  | createVolume name chunkSize pin mode =>
    simp only [exec, Sys.begin_at]
    cases createVolume C E s.begin name chunkSize pin mode <;> rfl
  | changePin volume oldPin newPin =>
    simp only [exec, Sys.begin_at]
    generalize asReply (fun _ => .done)
      ((fun tx => (tx, ())) <$> changePin C E s.begin volume oldPin newPin) = body
    cases body <;> rfl
  | mount args =>
    simp only [exec, Sys.begin_at]
    cases Aloelite.mount C E s.begin args <;> rfl
  | unmount mount =>
    simp only [exec, Sys.begin_at]
    cases noReply (unmount E s.begin mount) <;> rfl
  | openRead mount path =>
    simp only [exec, Sys.conns_at, Sys.db_at, Sys.fds_at]
    cases openRead E (s.conns c).cipher s.db mount path <;> rfl
  | openWrite mount path mode lock =>
    simp only [exec, Sys.begin_at, Sys.conns_at, Sys.fds_at]
    cases openWrite C E (s.conns c).cipher s.begin mount path mode lock <;> rfl
  | prune volume =>
    simp only [exec, Sys.begin_at]
    cases prune E s.begin volume <;> rfl
  | pruneContent volume =>
    simp only [exec, Sys.begin_at]
    cases pruneContent E s.begin volume <;> rfl
  | _ => exact onFd_at t

/-- The answers of a run. -/
def answers (C : Crypto) (M : Msgpack) : Sys → List Label → List (Except FsError Reply)
  | _, [] => []
  | s, l :: ls => (exec C M l.env s l.conn l.op).2 :: answers C M (step C M s l) ls

theorem step_at (t : Int) (l : Label) : step C M (s.at t) l = step C M s l := by
  rw [step, step, exec_at]
  rfl

theorem answers_at (t : Int) (ls : List Label) : answers C M (s.at t) ls = answers C M s ls := by
  cases ls with
  | nil => rfl
  | cons l ls => rw [answers, answers, exec_at, step_at]

/-- The second list of steps is the first without some that go through mounts of access `ro` and
are not on locks; the answers are those the other steps get in the first run. -/
inductive Without (C : Crypto) (M : Msgpack) :
    Sys → List Label → List Label → List (Except FsError Reply) → Prop
  | nil (s : Sys) : Without C M s [] [] []
  | keep {s : Sys} {l : Label} {ls ls' : List Label} {got : List (Except FsError Reply)}
    (h : Without C M (step C M s l) ls ls' got) :
    Without C M s (l :: ls) (l :: ls') ((exec C M l.env s l.conn l.op).2 :: got)
  | drop {s : Sys} {l : Label} {ls ls' : List Label} {got : List (Except FsError Reply)}
    (hro : l.op.ThroughReadOnly s)
    (hlocks : ¬ l.op.Locks) (h : Without C M (step C M s l) ls ls' got) : Without C M s
      (l :: ls) ls' got

/-- A step that is only an answer moves nothing but the clock that was noted. -/
theorem step_readOnly (hro : l.op.ThroughReadOnly s) (hlocks : ¬ l.op.Locks) :
    step C M s l = s.at l.env.now := by
  rw [step, exec_readOnly hro hlocks]
  rfl

/-- The other steps get the answers they get without. -/
theorem Without.answers {ls ls' : List Label} {got : List (Except FsError Reply)}
    (h : Without C M s ls ls' got) :
    got = Aloelite.answers C M s ls' ∧ ∃ t, ls.foldl (step C M) s =
      (ls'.foldl (step C M) s).at t := by
  induction h with
  | nil s => exact ⟨rfl, s.clock, rfl⟩
  | @keep s l ls ls' got h ih =>
    obtain ⟨hgot, t, hend⟩ := ih
    exact ⟨by rw [hgot, Aloelite.answers], t, hend⟩
  | @drop s l ls ls' got hro hlocks h ih =>
    obtain ⟨hgot, t, hend⟩ := ih
    rw [step_readOnly hro hlocks, answers_at] at hgot
    refine ⟨hgot, ?_⟩
    rw [List.foldl_cons, hend, step_readOnly hro hlocks]
    cases ls' with
    | nil => exact ⟨t, rfl⟩
    | cons l' ls' =>
      rw [List.foldl_cons, List.foldl_cons, step_at]
      exact ⟨t, rfl⟩

/-- What a mount of access `ro` does, operations on locks apart: where the mount is good, every
mutating request of a type that is taken and every opening for writing is refused for its access;
nothing changes; and in no run does any other step get another answer than in the run without.
An operation on locks changes the lock table alone and mints no id of the volume. -/
theorem read_only_changes_nothing (C : Crypto) (M : Msgpack) :
    (∀ s E c mount q m, s.db.ReadOnly mount → q.Mutates → ¬ q.Locks → q.WellTyped →
      requireMount E (s.conns c).cipher s.db mount false = .ok m →
        exec C M E s c (.request mount q) = (s, .error (.readOnly mount))) ∧
    (∀ s E c mount path mode lock m, s.db.ReadOnly mount →
      requireMount E (s.conns c).cipher s.db mount false = .ok m →
      exec C M E s c (.openWrite mount path mode lock) = (s, .error (.readOnly mount))) ∧
    (∀ s l, l.op.ThroughReadOnly s → ¬ l.op.Locks → (step C M s l).db = s.db) ∧
    (∀ (s : Sys) E k mount (q : Request) tx reply, q.Locks →
      q.run C M E k s.begin mount = .ok (tx, reply) →
      AgreeOff [.locks] s.db tx.db ∧ tx.idCount = 0) ∧
    (∀ s ls ls' got, Without C M s ls ls' got → got = answers C M s ls' ∧
      (ls.foldl (step C M) s).db = (ls'.foldl (step C M) s).db) := by
  refine ⟨?_, ?_, ?_, ?_, ?_⟩
  · intro s E c mount q m hro hmutates hlocks htyped hm
    obtain ⟨e, he, hwhich⟩ := @requireMount_readOnly E (s.conns c).cipher s.db mount hro
    have hdb : requireMount E (s.conns c).cipher s.begin.db mount true =
        .error (.readOnly mount) := by
      rw [← hwhich m hm]
      exact he
    simp only [exec, request_refused hdb hmutates hlocks htyped]
    rfl
  · intro s E c mount path mode lock m hro hm
    obtain ⟨e, he, hwhich⟩ := @requireMount_readOnly E (s.conns c).cipher s.db mount hro
    have hdb : requireMount E (s.conns c).cipher s.begin.db mount true =
        .error (.readOnly mount) := by
      rw [← hwhich m hm]
      exact he
    simp only [exec, openWrite_refused hdb]
    rfl
  · intro s l hro hlocks
    rw [step_readOnly hro hlocks]
    rfl
  · intro s E k mount q tx reply hlocks h
    exact locks_frame hlocks h
  -- the two runs go through the same states, the steps left out being those that change nothing
  · intro s ls ls' got h
    obtain ⟨hgot, t, hend⟩ := h.answers
    refine ⟨hgot, ?_⟩
    rw [hend]
    rfl

/-- A writer and a reader of one volume. -/
def sharedRun : List Label :=
  [⟨.counting 0, 0, .createVolume none 128 none .none⟩,
    ⟨.counting 1, 0, .mount { volume := 0 }⟩,
    ⟨.counting 2, 1, .mount { volume := 0, access := .ro }⟩,
    ⟨.counting 3, 0, .request 1 (.createEntry "x" [7])⟩]

/-- The reader tries to remove the entry between two steps of the writer. -/
theorem read_only_changes_nothing_shared :
    let s := sharedRun.foldl (step Crypto.xorStream Msgpack.refusing) {}
    let w : Label := ⟨.counting 6, 0, .request 1 (.writeAll "x" [8, 9])⟩
    let r : Label := ⟨.counting 5, 1, .request 2 (.remove "x")⟩
    exec Crypto.xorStream Msgpack.refusing r.env s r.conn r.op = (s, .error (.readOnly 2)) ∧
      [(exec Crypto.xorStream Msgpack.refusing w.env
        (step Crypto.xorStream Msgpack.refusing s r) w.conn w.op).2] =
        answers Crypto.xorStream Msgpack.refusing s [w] := by
  intro s w r
  obtain ⟨hrefused, -, -, -, hwithout⟩ :=
    read_only_changes_nothing Crypto.xorStream Msgpack.refusing
  have hro : s.db.ReadOnly 2 := by
    refine ⟨{ mountId := 2, volumeId := 0, mountPoint := 0, state := .active,
              expiresAt := none, access := .ro }, ?_, rfl⟩
    decide +kernel
  have hm : requireMount (.counting 5) (s.conns 1).cipher s.db 2 false = .ok ⟨2, 0, 0, .none⟩ := by
    decide +kernel
  have hbesides : Without Crypto.xorStream Msgpack.refusing s [r, w] [w] _ :=
    Without.drop ⟨hro, trivial⟩ id (Without.keep (Without.nil _))
  exact ⟨hrefused s (.counting 5) 1 2 (.remove "x") _ hro trivial id trivial hm,
    (hwithout s [r, w] [w] _ hbesides).1⟩

/-- The reader locks the entry, and the writer is refused. -/
theorem reader_blocks_writer :
    ∃ (s : Sys) (r w : Label), Reaches Crypto.xorStream Msgpack.refusing (fun _ _ => True) s ∧
      r.op.ThroughReadOnly s ∧
      (exec Crypto.xorStream Msgpack.refusing r.env s r.conn r.op).2.toOption.isSome = true ∧
      (exec Crypto.xorStream Msgpack.refusing w.env s w.conn w.op).2.toOption.isSome = true ∧
      (exec Crypto.xorStream Msgpack.refusing w.env
        (step Crypto.xorStream Msgpack.refusing s r) w.conn w.op).2 =
        .error (.lockHeld 3) := by
  let s := sharedRun.foldl (step Crypto.xorStream Msgpack.refusing) {}
  let r : Label := ⟨.counting 5, 1, .request 2 (.lock "x" none)⟩
  let w : Label := ⟨.counting 6, 0, .request 1 (.writeAll "x" [8, 9])⟩
  have hguards : GuardedRuns.Guards (step Crypto.xorStream Msgpack.refusing)
      (fun _ _ => True) {} sharedRun :=
    ⟨trivial, trivial, trivial, trivial, trivial⟩
  have hro : s.db.ReadOnly 2 := by
    refine ⟨{ mountId := 2, volumeId := 0, mountPoint := 0, state := .active,
              expiresAt := none, access := .ro }, ?_, rfl⟩
    decide +kernel
  exact ⟨s, r, w, reaches_foldl hguards, ⟨hro, trivial⟩,
    by decide +kernel, by decide +kernel, by rfl⟩

end Aloelite
