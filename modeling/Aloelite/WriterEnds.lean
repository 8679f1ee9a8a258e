import Aloelite.FlushFailures
import Aloelite.TxnBoundary

/-! How a writer ends. Pointer swap and lock release share one transaction, and the
descriptor is closed whatever becomes of it: where the transaction does not commit, a
minted lock stays behind. -/
namespace Aloelite

open Fallible KeyedRows

/-- The two calls that end a descriptor. -/
inductive EndCall where
  | close
  | abort
  deriving DecidableEq, Repr

/-- The statement that fails: `BEGIN`, the look at the lock, the claim with its carry, the
last chunk, the pointer, the release, or `COMMIT`, after which SQLite may have ended the
transaction itself. -/
inductive EndFault where
  | begin
  | check
  | claim
  | chunk
  | pointer
  | release
  | commit (ended : Bool)
  deriving DecidableEq, Repr

namespace Descriptor

/-- A descriptor whose end takes a transaction. -/
def endsInTxn (d : Descriptor) : EndCall → Bool
  | .close => d.closed = false ∧ d.writable = true
  | .abort => d.closed = false ∧ d.writable = true ∧ d.ownsLock = true ∧ d.lock.isSome = true

/-- The statements that the transaction runs. -/
def runs (d : Descriptor) (call : EndCall) : EndFault → Bool
  | .begin | .commit _ => true
  | .check => call = .close ∧ d.lock.isSome = true
  | .claim => call = .close ∧ (d.version = none ∨ (d.carryDone = false ∧ 0 < d.carryFull))
  | .chunk => call = .close ∧ d.pending ≠ []
  | .pointer => call = .close
  | .release => d.ownsLock = true ∧ d.lock.isSome = true

/-- What the transaction does when no statement fails by itself. -/
def endBody (C : Crypto) (E : Env) (k : Cipher) (tx : Tx) (d : Descriptor) :
    EndCall → Except FsError Tx
  | .close => d.close C E k tx
  | .abort => d.abort E tx

/-- The transaction with its fault. A statement that fails is one the transaction runs, and
the exception is the same wherever in the body it comes from. -/
def endOp (C : Crypto) (E : Env) (k : Cipher) (tx : Tx) (d : Descriptor) (call : EndCall)
    (fault : Option EndFault) : TxnOp Db :=
  let body : List (BodyStep Db) := match d.endBody C E k tx call with
    | .ok tx' => [.run (fun _ => tx'.db)]
    | .error _ => [.raise false]
  match fault with
  | none => { steps := body }
  | some .begin => { steps := body, beginFault := true }
  | some (.commit ended) => { steps := body, commitFault := some ended }
  | some p => { steps := if d.runs call p then [.raise false] else body }

end Descriptor

/-- The boundary of each port; an end notes no watermark. -/
def Port.txn (port : Port) (c : TxnConn Db) (op : TxnOp Db) : TxnConn Db × Bool :=
  match port with
  | .python => pyTxn (fun db _ => db) c op
  | .rust => rustTxn (fun db _ => db) c op

/-- What the call leaves: the connection, the descriptor, and whether it returned. -/
structure EndResult where
  conn : TxnConn Db
  d : Descriptor
  returned : Bool

/-- `close` and `abort`, the `finally` included. -/
def Descriptor.endCall (C : Crypto) (E : Env) (k : Cipher) (port : Port) (tx : Tx)
    (d : Descriptor) (call : EndCall) (fault : Option EndFault) : EndResult :=
  if d.endsInTxn call then
    let r := port.txn { stored := tx.db } (d.endOp C E k tx call fault)
    { conn := r.1, d := { d with closed := true }, returned := r.2 }
  else { conn := { stored := tx.db }, d := { d with closed := true }, returned := true }

variable {C : Crypto} {M : Msgpack} {E : Env} {k : Cipher} {own : VolumeId → Cipher} {db : Db}
  {tx tx' : Tx} {d : Descriptor} {call : EndCall} {fault : Option EndFault} {port : Port}
  {n : NodeId} {t : OpenWriter}

/-- The transaction of the call commits. -/
def Descriptor.Commits (C : Crypto) (E : Env) (k : Cipher) (tx : Tx) (d : Descriptor)
    (call : EndCall) (fault : Option EndFault) (tx' : Tx) : Prop :=
  d.endsInTxn call = true ∧ d.endBody C E k tx call = .ok tx' ∧ ∀ p ∈ fault, d.runs call p = false

/-- `COMMIT` fails in the Python port and leaves the transaction to the connection. -/
def Descriptor.LeavesOpen (C : Crypto) (E : Env) (k : Cipher) (port : Port) (tx : Tx)
    (d : Descriptor) (call : EndCall) (fault : Option EndFault) : Prop :=
  port = .python ∧ fault = some (.commit false) ∧ d.endsInTxn call = true ∧ ∃ tx',
    d.endBody C E k tx call = .ok tx'

/-! ### The ways a call can go -/

section

variable {f : Db → Db} {commitFault : Option Bool}

theorem txn_begin {steps : List (BodyStep Db)} :
    port.txn { stored := db } { steps := steps, beginFault := true } =
      ({ stored := db }, false) := by
  cases port <;> simp [Port.txn, pyTxn, rustTxn, TxnConn.Refused]

theorem txn_raise :
    port.txn { stored := db } { steps := [.raise false], commitFault := commitFault } =
      ({ stored := db }, false) := by
  cases port <;> simp [Port.txn, pyTxn, rustTxn, TxnConn.Refused, runBody]

theorem txn_run : port.txn { stored := db } { steps := [.run f] } = ({ stored := f db }, true) := by
  cases port <;> simp [Port.txn, pyTxn, rustTxn, TxnConn.Refused, runBody, runFlush]

/-- Only the Python boundary, and only where SQLite has not ended it, keeps the
transaction. -/
theorem txn_commit {ended : Bool} :
    port.txn { stored := db } { steps := [.run f], commitFault := some ended } =
    ({ stored := db, draft := if port = .python ∧ ended = false then some (f db) else none },
      false) := by
  cases port <;> cases ended <;> simp [Port.txn, pyTxn, rustTxn, TxnConn.Refused, runBody,
    runFlush, leftOpen]

end

/-- How a call ends: its transaction commits, stays open, or is rolled back. -/
inductive Descriptor.Ends (C : Crypto) (E : Env) (k : Cipher) (port : Port) (tx : Tx)
    (d : Descriptor) (call : EndCall) (fault : Option EndFault) (c : TxnConn Db) : Prop
  | commits {tx' : Tx} (h : d.Commits C E k tx call fault tx')
    (hkept : ¬ d.LeavesOpen C E k port tx call fault)
      (hc : c = { stored := tx'.db })
  | stays {tx' : Tx} (h : ∀ tx', ¬ d.Commits C E k tx call fault tx')
    (hleft : d.LeavesOpen C E k port tx call fault)
      (hbody : d.endBody C E k tx call = .ok tx')
        (hc : c = { stored := tx.db, draft := some tx'.db })
  | back (h : ∀ tx', ¬ d.Commits C E k tx call fault tx')
    (hkept : ¬ d.LeavesOpen C E k port tx call fault)
      (hc : c = { stored := tx.db })

theorem endCall_closed : (d.endCall C E k port tx call fault).d = { d with closed := true } := by
  rw [Descriptor.endCall]
  split <;> rfl

/-- With a body that raises nothing is left to commit. -/
theorem endTxn_raises {e : FsError} (hbody : d.endBody C E k tx call = .error e) :
    port.txn { stored := tx.db } (d.endOp C E k tx call fault) = ({ stored := tx.db }, false) := by
  cases fault with
  | none =>
    simp only [Descriptor.endOp, hbody]
    exact txn_raise
  | some p =>
    cases p with
    | begin =>
      simp only [Descriptor.endOp, hbody]
      exact txn_begin
    | commit ended =>
      simp only [Descriptor.endOp, hbody]
      exact txn_raise
    | check | claim | chunk | pointer | release =>
      simp only [Descriptor.endOp, hbody, ite_self]
      exact txn_raise

theorem endTxn_ends (hends : d.endsInTxn call = true) (hbody : d.endBody C E k tx call = .ok tx') :
    d.Ends C E k port tx call fault
      (port.txn { stored := tx.db } (d.endOp C E k tx call fault)).1 := by
  have hnot : ∀ p, fault = some p → d.runs call p = true →
      ∀ tx₁, ¬ d.Commits C E k tx call fault tx₁ := by
    intro p hp hruns tx₁ h
    rw [h.2.2 p hp] at hruns
    cases hruns
  have hleaves : (∀ ended, fault ≠ some (.commit ended)) →
      ¬ d.LeavesOpen C E k port tx call fault :=
    fun h hleft => h false hleft.2.1
  cases hfault : fault with
  | none =>
    subst hfault
    rw [Descriptor.endOp, hbody, txn_run]
    exact .commits ⟨hends, hbody, fun p hp => nomatch hp⟩ (hleaves (fun ended h => nomatch h)) rfl
  | some p =>
    subst hfault
    -- a statement of the body
    have hstatement : d.endOp C E k tx call (some p) =
          { steps := if d.runs call p then [.raise false] else [.run (fun _ => tx'.db)] } →
        (∀ ended, p ≠ .commit ended) →
        d.Ends C E k port tx call (some p)
          (port.txn { stored := tx.db } (d.endOp C E k tx call (some p))).1 := by
      intro hop hp
      have hkept := hleaves (fun ended h => hp ended (Option.some.inj h))
      rw [hop]
      by_cases hruns : d.runs call p = true
      · rw [if_pos hruns, txn_raise]
        exact .back (hnot p rfl hruns) hkept rfl
      · rw [if_neg hruns, txn_run]
        refine .commits ⟨hends, hbody, ?_⟩ hkept rfl
        rintro q ⟨⟩
        simpa using hruns
    cases p with
    | begin =>
      rw [Descriptor.endOp, hbody, txn_begin]
      exact .back (hnot .begin rfl rfl) (hleaves (fun ended h => nomatch h)) rfl
    | commit ended =>
      rw [Descriptor.endOp, hbody, txn_commit]
      have hcommits := hnot (.commit ended) rfl rfl
      by_cases hopen : port = .python ∧ ended = false
      · obtain ⟨rfl, rfl⟩ := hopen
        exact .stays hcommits ⟨rfl, rfl, hends, tx', hbody⟩ hbody rfl
      · rw [if_neg hopen]
        refine .back hcommits (fun hleft => hopen ⟨hleft.1, ?_⟩) rfl
        simpa using hleft.2.1
    | check | claim | chunk | pointer | release =>
      apply hstatement
      · simp only [Descriptor.endOp, hbody]
      · intro ended h
        cases h

theorem endCall_of_commits (h : d.Commits C E k tx call fault tx') :
    d.endCall C E k port tx call fault =
      { conn := { stored := tx'.db }, d := { d with closed := true }, returned := true } := by
  obtain ⟨hends, hbody, hfault⟩ := h
  have hop : d.endOp C E k tx call fault = { steps := [.run (fun _ => tx'.db)] } := by
    cases fault with
    | none => simp only [Descriptor.endOp, hbody]
    | some p =>
      have hruns : d.runs call p = false := hfault p rfl
      cases p with
      | begin => cases hruns
      | commit ended => cases hruns
      | check | claim | chunk | pointer | release =>
        simp only [Descriptor.endOp, hbody, hruns, Bool.false_eq_true, if_false]
  rw [Descriptor.endCall, if_pos hends]
  simp only [hop, txn_run]

theorem endCall_ends :
    d.Ends C E k port tx call fault (d.endCall C E k port tx call fault).conn := by
  rw [Descriptor.endCall]
  by_cases hends : d.endsInTxn call = true
  · rw [if_pos hends]
    cases hbody : d.endBody C E k tx call with
    | error e =>
      rw [endTxn_raises hbody]
      refine .back (fun tx' h => ?_) (fun hleft => ?_) rfl
      · cases hbody.symm.trans h.2.1
      · obtain ⟨-, -, -, tx', htx'⟩ := hleft
        cases hbody.symm.trans htx'
    | ok tx' => exact endTxn_ends hends hbody
  · rw [if_neg hends]
    exact .back (fun tx' h => hends h.1) (fun hleft => hends hleft.2.2.1) rfl

/-! ### What a committed end does -/

theorem getLockValid_congr {db' : Db} {now : Int} {i : LockId} (hmounts : db'.mounts = db.mounts)
    (hlocks : db'.locks = db.locks) :
    db'.getLockValid now i = db.getLockValid now i := by
  have hvalid : db'.lockValid now = db.lockValid now := funext (fun r => Db.lockValid_congr hmounts)
  rw [Db.getLockValid, Db.getLockValid, Db.lock?, Db.lock?, hlocks, hvalid]

theorem releaseOwnLock_frees {now : Int} {i : LockId} (h : d.releaseOwnLock E tx = .ok tx')
    (howns : d.ownsLock = true) (hi : i ∈ d.lock) : tx'.db.getLockValid now i = false := by
  have hlock : d.lock = some i := hi
  rw [Descriptor.releaseOwnLock, howns, hlock] at h
  obtain ⟨db', hexec, rfl⟩ := Tx.run_ok.mp h
  obtain rfl := Except.ok.inj hexec
  have hgone : (tx.db.releaseLock i).lock? i = none := by
    apply List.find?_eq_none.mpr
    intro r hr
    simpa using (List.mem_filter.mp hr).2
  rw [Db.getLockValid, hgone]
  rfl

theorem releaseOwnLock_keeps (h : d.releaseOwnLock E tx = .ok tx') (howns : d.ownsLock = false) :
    tx' = tx := by
  rw [Descriptor.releaseOwnLock, howns] at h
  exact (Except.ok.inj h).symm

/-- A commit touches locks in its release only. -/
theorem commit_release (h : d.commit C E k tx = .ok tx') :
    ∃ tx₃ : Tx, tx₃.db.mounts = tx.db.mounts ∧
    tx₃.db.locks = tx.db.locks ∧ d.releaseOwnLock E tx₃ = .ok tx' := by
  obtain ⟨-, tx₁, tx₂, tx₃, hclaim, hstage, hswap, hrelease⟩ := commit_ok h
  have hframe : AgreeOff [.chunks, .versions, .contents] tx.db tx₃.db := by
    obtain ⟨db₃, hexec, rfl⟩ := Tx.run_ok.mp hswap
    have hclaimed := claimVersion_agreeOff hclaim
    have hstaged := Stages.agreeOff (stagePending_steps hstage)
    refine ((hclaimed.trans hstaged).weaken (by simp)).trans ?_
    exact (Stmt.exec_agreeOff hexec).weaken (by simp [Stmt.touches])
  exact ⟨tx₃.gives d.node d.stream, hframe.mounts (by decide), hframe.locks (by decide), hrelease⟩

/-- The body of an end, up to its release. -/
theorem endBody_release (hends : d.endsInTxn call = true) (h : d.endBody C E k tx call = .ok tx') :
    ∃ tx₃ : Tx, tx₃.db.mounts = tx.db.mounts ∧ tx₃.db.locks = tx.db.locks ∧ d.releaseOwnLock E tx₃ =
      .ok tx' := by
  cases call with
  | close =>
    obtain ⟨hopen, hwritable⟩ : d.closed = false ∧ d.writable = true := of_decide_eq_true hends
    rw [Descriptor.endBody, Descriptor.close, if_neg (by simp [hopen, hwritable])] at h
    exact commit_release h
  | abort =>
    obtain ⟨hopen, hwritable, -⟩ : d.closed = false ∧ d.writable = true ∧ _ :=
      of_decide_eq_true hends
    rw [Descriptor.endBody, Descriptor.abort, if_neg (by simp [hopen, hwritable])] at h
    exact ⟨tx, rfl, rfl, h⟩

/-- Whatever an end commits, it leaves the other entries alone. -/
theorem endBody_untouched (h : d.endBody C E k tx call = .ok tx') (hp : tx.db.Pooled)
    (hn : (tx.db.node? n).isSome) (hother : call = .close → n ≠ d.node) :
    Untouched tx.db tx'.db n := by
  cases call with
  | close => exact Steps.untouched (close_spares (fun _ _ _ => (hother rfl).symm) h) hn hp
  | abort => exact Steps.untouched (abort_spares h) hn hp

/-! ### All or nothing, and no lock left -/

/-- The call has committed the whole stream, or left every entry as it was. -/
def AllOrNothing (C : Crypto) (k : Cipher) (t : OpenWriter) (after : Db) : Prop :=
  (∀ n, (t.tx.db.node? n).isSome → Untouched t.tx.db after n) ∨
    (readContentBytes C k after t.d.node = .ok t.bytes ∧
      (∃ row, after.content? t.d.node = some row ∧ row.size = t.bytes.length) ∧
      ∀ n, n ≠ t.d.node → (t.tx.db.node? n).isSome → Untouched t.tx.db after n)

/-- What a writer's end owes: all or nothing, a closed descriptor, no transaction left
open, no valid lock of its own, a supplied lock as it was. -/
structure EndsWell (C : Crypto) (E : Env) (k : Cipher) (t : OpenWriter) (r : EndResult) : Prop where
  content : AllOrNothing C k t r.conn.stored
  closed : r.d.closed = true
  settled : r.conn.draft = none
  freed : t.d.ownsLock = true → ∀ i ∈ t.d.lock, r.conn.stored.getLockValid E.now i = false
  held : t.d.ownsLock = false → ∀ i ∈ t.d.lock, r.conn.stored.getLockValid E.now i =
    t.tx.db.getLockValid E.now i

/-- The transaction is not left open, and it commits if the writer has a valid lock of its
own. -/
def CanEnd (C : Crypto) (E : Env) (k : Cipher) (port : Port) (t : OpenWriter) (call : EndCall)
    (fault : Option EndFault) : Prop :=
  ¬ t.d.LeavesOpen C E k port t.tx call fault ∧
    (t.d.ownsLock = true → ∀ i ∈ t.d.lock, t.tx.db.getLockValid E.now i = true →
    ∃ tx', t.d.Commits C E k t.tx call fault tx')

/-- A call whose transaction commits ends well. -/
theorem Holding.endsWell (hC : C.KeepsLength) (h : Holding C own t) (hp : t.tx.db.Pooled)
    (hcommits : t.d.Commits C E (own t.d.volume) t.tx call fault tx') (hal : tx'.aliased = false)
    {r : EndResult} (hconn : r.conn = { stored := tx'.db }) (hclosed : r.d.closed = true) :
    EndsWell C E (own t.d.volume) t r := by
  obtain ⟨hends, hbody, -⟩ := hcommits
  obtain ⟨tx₃, hmounts, hlocks, hrelease⟩ := endBody_release hends hbody
  constructor
  · rw [hconn]
    cases hcall : call with
    | close =>
      rw [hcall] at hends hbody
      obtain ⟨hopen, hwritable⟩ : t.d.closed = false ∧ t.d.writable = true :=
        of_decide_eq_true hends
      have hcommit : t.d.commit C E (own t.d.volume) t.tx = .ok tx' := by
        rw [Descriptor.endBody, Descriptor.close, if_neg (by simp [hopen, hwritable])] at hbody
        exact hbody
      obtain ⟨hread, row, hrow, hsize, -⟩ := h.commit hC hcommit hal
      exact Or.inr ⟨hread, ⟨row, hrow, hsize⟩, fun n hn hexists =>
        endBody_untouched hbody hp hexists (fun _ => hn)⟩
    | abort =>
      rw [hcall] at hbody
      exact Or.inl (fun n hexists =>
        endBody_untouched hbody hp hexists (fun hclose => by cases hclose))
  · exact hclosed
  · rw [hconn]
  · intro howns i hi
    rw [hconn]
    exact releaseOwnLock_frees hrelease howns hi
  · intro howns i hi
    obtain rfl := releaseOwnLock_keeps hrelease howns
    rw [hconn]
    exact getLockValid_congr hmounts hlocks

/-- One that is rolled back leaves what was there, the lock included. -/
theorem endsWell_back_iff {r : EndResult} (hconn : r.conn = { stored := t.tx.db })
    (hclosed : r.d.closed = true) :
    EndsWell C E k t r ↔
      (t.d.ownsLock = true → ∀ i ∈ t.d.lock, t.tx.db.getLockValid E.now i = false) := by
  constructor
  · intro h howns i hi
    have hfreed := h.freed howns i hi
    rw [hconn] at hfreed
    exact hfreed
  · intro h
    constructor
    · rw [hconn]
      exact Or.inl (fun n _ => Untouched.refl _ n)
    · exact hclosed
    · rw [hconn]
    · rw [hconn]
      exact h
    · rw [hconn]
      exact fun _ _ _ => rfl

theorem Holding.endsWell_iff (hC : C.KeepsLength) (h : Holding C own t) (hp : t.tx.db.Pooled)
    (hal : ∀ tx', t.d.endBody C E (own t.d.volume) t.tx call = .ok tx' → tx'.aliased = false) :
    EndsWell C E (own t.d.volume) t (t.d.endCall C E (own t.d.volume) port t.tx call fault) ↔
      CanEnd C E (own t.d.volume) port t call fault := by
  have hclosed : (t.d.endCall C E (own t.d.volume) port t.tx call fault).d.closed = true := by
    rw [endCall_closed]
  have hends : t.d.Ends C E (own t.d.volume) port t.tx call fault
      (t.d.endCall C E (own t.d.volume) port t.tx call fault).conn := endCall_ends
  rcases hends with ⟨hcommits, hkept, hconn⟩ | ⟨hnone, hleft, hbody, hconn⟩ | ⟨hnone, hkept, hconn⟩
  · constructor
    · exact fun _ => ⟨hkept, fun _ _ _ _ => ⟨_, hcommits⟩⟩
    · exact fun _ => h.endsWell hC hp hcommits (hal _ hcommits.2.1) hconn hclosed
  · constructor
    · intro hwell
      have hsettled := hwell.settled
      rw [hconn] at hsettled
      cases hsettled
    · exact fun hcan => absurd hleft hcan.1
  · rw [endsWell_back_iff hconn hclosed]
    constructor
    · intro hfree
      refine ⟨hkept, fun howns i hi hvalid => ?_⟩
      rw [hfree howns i hi] at hvalid
      cases hvalid
    · intro hcan howns i hi
      by_contra hvalid
      obtain ⟨tx', htx'⟩ := hcan.2 howns i hi (by simpa using hvalid)
      exact hnone tx' htx'

/-! ### Over runs -/

/-- Others leave a file that has every chunk it refers to. -/
def WriterEvent.Whole : WriterEvent → Prop
  | .elsewhere tx => tx.db.Pooled
  | _ => True

/-- An event before the end: one that can come next, and one that loses nothing of what
was accepted. -/
def Streams (C : Crypto) (k : Cipher) (port : Port) (s : OpenWriter) (e : WriterEvent) : Prop :=
  Offered C k s e ∧ LosesNothing port s e ∧ e.Whole

theorem OpenWriter.next_pooled {e : WriterEvent} {k : Cipher} (h : Holding C own t)
    (ho : Offered C k t e) (hp : t.tx.db.Pooled) (he : e.Whole) :
    (t.next C k port e).tx.db.Pooled := by
  cases e with
  | write data =>
    simp only [OpenWriter.next]
    split <;> exact hp
  | seek offset whence =>
    simp only [OpenWriter.next]
    split <;> exact hp
  | flush E =>
    simp only [OpenWriter.next]
    split
    next d tx hflush =>
      have hok : (t.d.flushOneChunk C E k t.tx).2 = .ok tx := by rw [hflush]
      exact (flushOneChunk_spares (fun _ => h.uncommitted) hok).pooled hp
    next => exact hp
  | fail point => exact hp
  | elsewhere tx => exact he

/-- What a writer's run keeps. -/
theorem Streams.run {V : VolumeId} {start : OpenWriter}
    (hrun : GuardedRuns.Run (fun s e => s.next C (own V) port e) (Streams C (own V) port) start t)
    (hstart : Holding C own start) (hp : start.tx.db.Pooled) (hV : start.d.volume = V) :
    Holding C own t ∧ t.tx.db.Pooled ∧ t.d.node = start.d.node ∧ t.d.volume = V := by
  refine GuardedRuns.Run.invariant
    (P := fun s : OpenWriter => Holding C own s ∧ s.tx.db.Pooled ∧
      s.d.node = start.d.node ∧ s.d.volume = V) ?_ hrun
    ⟨hstart, hp, rfl, hV⟩
  rintro s e ⟨ho, hspared, hwhole⟩ ⟨hheld, hpooled, hnode, hvolume⟩
  obtain ⟨hnode', hvolume'⟩ := s.next_target C (own V) port e
  exact ⟨hheld.next (by rw [hvolume]) ho hspared, OpenWriter.next_pooled hheld ho hpooled hwhole,
    hnode'.trans hnode,
    hvolume'.trans hvolume⟩

variable {sys : Sys} {l : Label} {fd : FdId} {mount : MountId} {path : String} {mode : WriteMode}
  {lock : Option LockId}

/-- Whatever a writer has streamed when it is closed or aborted, and whichever statement of
that fails: the end is all or nothing and leaves no lock of its own exactly where its
transaction is not left open and, if the writer still has a valid lock of its own, commits. -/
theorem writer_ends_well_iff (hC : C.KeepsLength) (port : Port)
    (h : Reaches C M (Careful C M own) sys) (hl : Careful C M own sys l)
    (hop : l.op = .openWrite mount path mode lock)
    (hok : (exec C M l.env sys l.conn l.op).2 = .ok (.fd fd)) :
    ∃ f c, (step C M sys l).fds[fd]? = some f ∧
      WriteTarget C sys l mount path mode f.d.volume f.d.node ∧
      (mode = .append → readContentBytes C (own f.d.volume) sys.db f.d.node = .ok c) ∧
      ∀ t, GuardedRuns.Run (fun s e => s.next C (own f.d.volume) port e)
        (Streams C (own f.d.volume) port)
          ⟨(step C M sys l).begin, f.d, (startOf mode c).bytes⟩ t →
        ∀ E call fault, (∀ tx', t.d.endBody C E (own f.d.volume) t.tx call = .ok tx' →
          tx'.aliased = false) →
          (EndsWell C E (own f.d.volume) t (t.d.endCall C E (own f.d.volume) port t.tx call fault) ↔
            CanEnd C E (own f.d.volume) port t call fault) := by
  obtain ⟨f, c, hf, htarget, hread, hstart⟩ := openWrite_holding h hl hop hok
  refine ⟨f, c, hf, htarget, hread, ?_⟩
  intro t hrun E call fault hal
  have hpooled : (step C M sys l).begin.db.Pooled := Reaches.pooled (h.snoc hl)
  obtain ⟨hheld, hp, -, hvolume⟩ := Streams.run hrun hstart hpooled rfl
  rw [← hvolume] at hal ⊢
  exact hheld.endsWell_iff hC hp hal

/-- The writer above with a third byte. -/
def threeBytes : OpenWriter := appendingWriter.next Crypto.xorStream .identity .python (.write [3])

theorem writer_ends_well_iff_appended :
    EndsWell Crypto.xorStream (.counting 9) .identity threeBytes
      (threeBytes.d.endCall Crypto.xorStream
        (.counting 9) .identity .python threeBytes.tx .close none) := by
  obtain ⟨hl, hok, hfile, hold⟩ := appendingWriter_opened
  obtain ⟨f, c, hf, -, hread, hruns⟩ :=
    writer_ends_well_iff xorStream_keepsLength .python twoChunks_reaches hl rfl hok
  obtain rfl := Option.some.inj (hf.symm.trans hfile)
  obtain rfl : c = [1, 2] := Except.ok.inj ((hread rfl).symm.trans hold)
  have hrun : GuardedRuns.Run (fun s e => OpenWriter.next Crypto.xorStream .identity .python s e)
      (Streams Crypto.xorStream .identity .python) appendingWriter threeBytes :=
    (GuardedRuns.Run.refl appendingWriter).snoc ⟨rfl, trivial, trivial⟩
  have hends : threeBytes.d.endsInTxn .close = true := by decide +kernel
  obtain ⟨tx', hmem, hal⟩ : ∃ tx' ∈ (threeBytes.d.endBody Crypto.xorStream (.counting 9)
      .identity threeBytes.tx .close).toOption, tx'.aliased = false := by
    decide +kernel
  have hbody := mem_toOption.mp hmem
  refine (hruns threeBytes hrun (.counting 9) .close none ?_).mpr ⟨fun hleft => ?_, fun _ _ _ _ =>
    ⟨tx', hends, hbody, ?_⟩⟩
  · intro tx₁ h
    obtain rfl := Except.ok.inj (hbody.symm.trans h)
    exact hal
  · cases hleft.2.1
  · intro p hp
    cases hp

/-- In both ports a close whose pointer update is refused leaves the descriptor closed and
its lock standing, at any later time, against every other mount. -/
theorem failed_close_keeps_lock :
    (step Crypto.xorStream Msgpack.refusing twoChunks appendOpening).fds[0]? =
      some { conn := 0, d := appendingWriter.d } ∧
      ∀ port : Port,
        let r := threeBytes.d.endCall Crypto.xorStream (.counting 9) .identity port threeBytes.tx
          .close (some .pointer)
        r.d.closed = true ∧ r.returned = false ∧ r.conn.stored.getLockValid 1000000 5 = true ∧
          r.conn.stored.checkLockHeld 1000000 3 2 = true ∧
          ¬ EndsWell Crypto.xorStream (.counting 9) .identity threeBytes r := by
  refine ⟨appendingWriter_opened.2.2.1, fun port => ?_⟩
  intro r
  have hr : r.conn.stored.getLockValid (Env.counting 9).now 5 = true := by
    cases port <;> decide +kernel
  refine ⟨?_, ?_, ?_, ?_, fun hwell => ?_⟩
  · cases port <;> decide +kernel
  · cases port <;> decide +kernel
  · cases port <;> decide +kernel
  · cases port <;> decide +kernel
  · have hfreed := hwell.freed (by decide +kernel) 5 (by decide +kernel)
    exact absurd (hr.symm.trans hfreed) Bool.noConfusion

end Aloelite
