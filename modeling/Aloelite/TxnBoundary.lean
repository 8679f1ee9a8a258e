import Aloelite.Watermarks

/-! The transaction boundary: `Db.txn` of `db.py` and of `db.rs` with an exception at
any point of it. The commit half of the Python one runs outside the handler that
rolls back. -/
namespace Aloelite

open Dicts

variable {σ : Type}

/-- A connection: the committed state, the state inside an open transaction, and
`_pending_wm`. -/
structure TxnConn (σ : Type) where
  stored : σ
  draft : Option σ := none
  pending : List VolumeMark := []

/-- Outside any transaction, with no mark pending. -/
def TxnConn.Clean (c : TxnConn σ) : Prop := c.draft = none ∧ c.pending = []

/-- What an operation does inside `txn`. An exception may come with the transaction
already ended by SQLite, as a full disk ends it. -/
inductive BodyStep (σ : Type) where
  | note (p : VolumeMark)
  | run (f : σ → σ)
  | raise (ended : Bool)

/-- An operation with what fails around its body: `BEGIN`, one `UPDATE` of the
watermark flush, `COMMIT`. -/
structure TxnOp (σ : Type) where
  steps : List (BodyStep σ)
  beginFault : Bool := false
  flushFault : Option (ℕ × Bool) := none
  commitFault : Option Bool := none

def runBody : σ → List VolumeMark → List (BodyStep σ) → (σ × List VolumeMark) × Option Bool
  | d, pending, [] => ((d, pending), none)
  | d, pending, .note p :: steps => runBody d (assign VolumeMark.volumeId pending p) steps
  | d, pending, .run f :: steps => runBody (f d) pending steps
  | d, pending, .raise ended :: _ => ((d, pending), some ended)

section

variable (mark : σ → VolumeMark → σ)

/-- `_flush_watermarks`, one `UPDATE` after another. -/
def runFlush : σ → List VolumeMark → Option (ℕ × Bool) → σ × Option Bool
  | d, [], _ => (d, none)
  | d, _ :: _, some (0, ended) => (d, some ended)
  | d, p :: ps, some (k + 1, ended) => runFlush (mark d p) ps (some (k, ended))
  | d, p :: ps, none => runFlush (mark d p) ps none

variable (c : TxnConn σ) (op : TxnOp σ)

/-- `BEGIN` inside a transaction is an error of its own. -/
def TxnConn.Refused : Prop := op.beginFault = true ∨ c.draft.isSome = true

instance : Decidable (c.Refused op) := inferInstanceAs (Decidable (_ ∨ _))

/-- What a transaction leaves open unless SQLite ended it. -/
def leftOpen (ended : Bool) (d : σ) : Option σ := if ended then none else some d

/-- `Db.txn` of `db.py`, with whether the operation succeeded. -/
def pyTxn : TxnConn σ × Bool :=
  if c.Refused op then (c, false)
  else
    match runBody c.stored c.pending op.steps with
    | (_, some _) => ({ stored := c.stored }, false)
    | ((d, pending), none) =>
      match runFlush mark d pending op.flushFault with
      | (d, some ended) =>
        ({ stored := c.stored, draft := leftOpen ended d, pending := pending }, false)
      | (d, none) =>
        match op.commitFault with
        | some ended => ({ stored := c.stored, draft := leftOpen ended d }, false)
        | none => ({ stored := d }, true)

/-- `Db::txn` of `db.rs`: a failed flush or commit rolls back as well. -/
def rustTxn : TxnConn σ × Bool :=
  if c.Refused op then (c, false)
  else
    match runBody c.stored c.pending op.steps with
    | (_, some _) => ({ stored := c.stored }, false)
    | ((d, pending), none) =>
      match runFlush mark d pending op.flushFault with
      | (_, some _) => ({ stored := c.stored }, false)
      | (d, none) =>
        match op.commitFault with
        | some _ => ({ stored := c.stored }, false)
        | none => ({ stored := d }, true)

/-- The complete effect: the body, and the marks it noted. -/
def TxnOp.effect : σ :=
  (runFlush mark (runBody c.stored c.pending op.steps).1.1 (runBody c.stored c.pending op.steps).1.2
    none).1

/-- How a boundary that closes leaves the connection `c'`: clean, with all of the
operation or nothing of it, and open to the next one. -/
structure Closes (r : TxnConn σ × Bool) : Prop where
  clean : r.1.Clean
  stored : r.1.stored = if r.2 then op.effect mark c else c.stored
  next : ∀ op' : TxnOp σ, op'.beginFault = false → ¬ r.1.Refused op'

/-- The body went through, and then an `UPDATE` of the flush failed, or `COMMIT` did
with the transaction still open. -/
def Leaks : Prop :=
  ¬ c.Refused op ∧ (runBody c.stored c.pending op.steps).2 = none ∧
    ((∃ k ended, op.flushFault = some (k, ended) ∧
        k < (runBody c.stored c.pending op.steps).1.2.length) ∨
      op.commitFault = some false)

variable {mark c op} {d d' : σ} {pending : List VolumeMark} {fault : Option (ℕ × Bool)}
  {ended : Bool}

theorem TxnConn.Clean.refused_iff (hc : c.Clean) : c.Refused op ↔ op.beginFault = true := by
  simp [TxnConn.Refused, hc.1]

/-- The flush fails exactly when the failing `UPDATE` is one it runs. -/
theorem runFlush_raised_iff :
    (∃ d' ended, runFlush mark d pending fault = (d', some ended)) ↔
      ∃ k ended, fault = some (k, ended) ∧ k < pending.length := by
  induction pending generalizing d fault with
  | nil => simp [runFlush]
  | cons p ps ih =>
    rcases fault with _ | ⟨k, ended⟩
    · simp only [runFlush, ih]
      simp
    · cases k with
      | zero => simp [runFlush]
      | succ k =>
        simp only [runFlush, ih]
        simp

/-- A flush that goes through has run every `UPDATE`. -/
theorem runFlush_done (h : runFlush mark d pending fault = (d', none)) :
    d' = (runFlush mark d pending none).1 := by
  induction pending generalizing d fault with
  | nil =>
    simp only [runFlush, Prod.mk.injEq] at h ⊢
    exact h.1.symm
  | cons p ps ih =>
    rcases fault with _ | ⟨k, ended⟩
    · simp only [runFlush] at h ⊢
      exact ih h
    · cases k with
      | zero => simp [runFlush] at h
      | succ k =>
        simp only [runFlush] at h ⊢
        exact ih h

theorem runFlush_pending_ne (h : runFlush mark d pending fault = (d', some ended)) :
    pending ≠ [] := by
  rintro rfl
  simp [runFlush] at h

/-- A clean connection is open to the next operation. -/
theorem TxnConn.Clean.next (hc : c.Clean) (op' : TxnOp σ) (hop : op'.beginFault = false) :
    ¬ c.Refused op' := by
  rw [hc.refused_iff, hop]
  simp

/-- Nothing happened: the state before, on a clean connection. -/
theorem closes_before : Closes mark c op ({ stored := c.stored }, false) :=
  ⟨⟨rfl, rfl⟩, rfl, TxnConn.Clean.next (c := { stored := c.stored }) ⟨rfl, rfl⟩⟩

theorem closes_refused (hc : c.Clean) : Closes mark c op (c, false) :=
  ⟨hc, rfl, hc.next⟩

theorem rustTxn_closes (hc : c.Clean) : Closes mark c op (rustTxn mark c op) := by
  unfold rustTxn
  split
  · exact closes_refused hc
  · split
    · exact closes_before
    · rename_i d pending hbody
      split
      · exact closes_before
      · rename_i d' hflush
        split
        · exact closes_before
        · refine ⟨⟨rfl, rfl⟩, ?_, TxnConn.Clean.next (c := { stored := d' }) ⟨rfl, rfl⟩⟩
          rw [if_pos rfl, TxnOp.effect, hbody]
          exact runFlush_done hflush

/-- The Python boundary closes exactly when nothing fails after its body. -/
theorem pyTxn_closes_iff (hc : c.Clean) : Closes mark c op (pyTxn mark c op) ↔ ¬ Leaks c op := by
  unfold pyTxn Leaks
  split
  · rename_i href
    simp only [href, not_true_eq_false, false_and, not_false_eq_true, iff_true]
    exact closes_refused hc
  · rename_i href
    split
    · rename_i hbody
      simp only [hbody]
      simp [closes_before]
    · rename_i d pending hbody
      simp only [hbody, href, not_false_eq_true, true_and]
      split
      · -- the flush raised: the marks are still pending
        rename_i d' ended hflush
        constructor
        · intro h
          exact absurd h.clean.2 (runFlush_pending_ne hflush)
        · intro h
          exact absurd (Or.inl (runFlush_raised_iff.mp ⟨d', ended, hflush⟩)) h
      · rename_i d' hflush
        have hnot : ¬ ∃ k ended, op.flushFault = some (k, ended) ∧ k < pending.length := by
          intro h
          obtain ⟨d'', ended, hraised⟩ := runFlush_raised_iff.mpr h
          rw [hflush] at hraised
          simp at hraised
        simp only [hnot, false_or]
        split
        · rename_i ended hcommit
          rw [hcommit]
          cases ended with
          | false =>
            simp only [not_true_eq_false, iff_false]
            intro h
            have := h.clean.1
            simp [leftOpen] at this
          | true =>
            simp only [leftOpen, if_true, Option.some.injEq, Bool.true_eq_false, not_false_eq_true,
              iff_true]
            exact closes_before
        · rename_i hcommit
          simp only [hcommit, reduceCtorEq, not_false_eq_true, iff_true]
          refine ⟨⟨rfl, rfl⟩, ?_, TxnConn.Clean.next (c := { stored := d' }) ⟨rfl, rfl⟩⟩
          rw [if_pos rfl, TxnOp.effect, hbody]
          exact runFlush_done hflush

end

/-- A connection after any operations of which none leaks is clean, and there each
further operation closes exactly when it does not leak; the Rust boundary
closes always. -/
theorem txn_closes_iff (mark : σ → VolumeMark → σ) (stored : σ) (c : TxnConn σ)
    (h : GuardedRuns.Run (fun c op => (pyTxn mark c op).1)
      (fun c op => ¬ Leaks c op) { stored := stored } c) :
    c.Clean ∧ ∀ op, (Closes mark c op (pyTxn mark c op) ↔ ¬ Leaks c op) ∧
      Closes mark c op (rustTxn mark c op) := by
  have hclean : c.Clean := by
    refine GuardedRuns.Run.invariant (P := TxnConn.Clean) ?_ h ⟨rfl, rfl⟩
    intro c op hop hc
    exact ((pyTxn_closes_iff hc).mpr hop).clean
  exact ⟨hclean, fun op => ⟨pyTxn_closes_iff hclean, rustTxn_closes hclean⟩⟩

/-- A full disk inside the body, then a busy `COMMIT`. -/
theorem txn_closes_iff_fullThenBusy :
    (pyTxn MarkedFile.raise { stored := {} } { steps := [.raise true] }).1.Clean ∧
      Closes MarkedFile.raise { stored := {} } { steps := [], commitFault := some false }
        (rustTxn MarkedFile.raise { stored := {} } { steps := [], commitFault := some false }) := by
  have hop : ¬ Leaks ({ stored := {} } : TxnConn MarkedFile) { steps := [.raise true] } := by
    simp [Leaks, runBody]
  have hrun : GuardedRuns.Run (fun c op => (pyTxn MarkedFile.raise c op).1)
      (fun c op => ¬ Leaks c op)
      ({ stored := {} } : TxnConn MarkedFile)
      (pyTxn MarkedFile.raise { stored := {} } { steps := [.raise true] }).1 :=
    (GuardedRuns.Run.refl _).snoc hop
  exact ⟨(txn_closes_iff MarkedFile.raise {} _ hrun).1,
    ((txn_closes_iff MarkedFile.raise {} _ (GuardedRuns.Run.refl _)).2 _).2⟩

/-- A busy `COMMIT` leaves the transaction of `db.py` open, and the next operation is
refused. -/
theorem busy_commit_leaves_txn_open :
    (pyTxn MarkedFile.raise { stored := {} }
        { steps := [], commitFault := some false }).1.draft.isSome ∧
      ∀ op : TxnOp MarkedFile, (pyTxn MarkedFile.raise { stored := {} }
        { steps := [], commitFault := some false }).1.Refused op :=
  ⟨rfl, fun _ => Or.inr rfl⟩

end Aloelite
