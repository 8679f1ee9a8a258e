import Aloelite.RustIds
import Aloelite.Library.Dicts
import Aloelite.Library.GuardedRuns

/-! The high-water marks of `db.py`, the mints each handle caches, and the transactions that record
ids and advance the marks. A handle reads from the snapshot its transaction took; one handle
writes at a time, and only over the newest commit. -/
namespace Aloelite

open Fallible KeyedRows Dicts

/-- The columns of a volume row that fence the mints. -/
structure VolumeMark where
  volumeId : VolumeId
  wm : Stamp := toLex (0, 0)

/-- A node or edge row, with the state its id was minted at. -/
structure IssuedId where
  volume : VolumeId
  mint : MonotonicMint
  draw : Draw
  id : List Char
  minted : formatUuid7 mint.ts mint.seq draw = .ok id

/-- The `(ts, seq)` of an id. -/
def IssuedId.stamp (r : IssuedId) : Stamp := r.mint.state

structure MarkedFile where
  volumes : List VolumeMark := []
  ids : List IssuedId := []
  /-- how many commits the file has had -/
  rev : ℕ := 0

namespace MarkedFile

def mark? (f : MarkedFile) (v : VolumeId) : Option Stamp :=
  (lookup VolumeMark.volumeId f.volumes v).map VolumeMark.wm

/-- `UPDATE volume SET wm_ts = ?, wm_seq = ?`, under its monotonic guard -/
def raise (f : MarkedFile) (p : VolumeMark) : MarkedFile :=
  { f with
    volumes := amend VolumeMark.volumeId f.volumes p.volumeId
      (fun r => { r with wm := if r.wm < p.wm then p.wm else r.wm }) }

/-- `_flush_watermarks` -/
def flush (f : MarkedFile) (pending : List VolumeMark) : MarkedFile := pending.foldl raise f

end MarkedFile

/-- The part of a `Db` handle that mints. `txn` is the open transaction with the
snapshot it reads, once it has read. `known` is history: every id committed when
the handle was opened. -/
structure IdHandle where
  mints : VolumeId → Option MonotonicMint := fun _ => none
  pending : List VolumeMark := []
  txn : Option (Option MarkedFile) := none
  known : List IssuedId := []

/-- `_mint_for` -/
def IdHandle.mintFor (h : IdHandle) (view : MarkedFile) (v : VolumeId) : MonotonicMint :=
  match h.mints v with
  | some m => m
  | none =>
    match view.mark? v with
    | some wm => MonotonicMint.fence {} wm
    | none => {}

/-- The file and the handles on it. `issued` is history: every id ever
committed. -/
structure IdSys where
  file : MarkedFile := {}
  handles : ℕ → Option IdHandle := fun _ => none
  writer : Option ℕ := none
  issued : List IssuedId := []

inductive IdOp where
  | open
  | begin
  | read
  | createVolume (v : VolumeId)
  | create (v : VolumeId) (now : ℕ) (d : Draw) (accepted : Bool)
  | prune (keep : IssuedId → Bool)
  | commit
  | rollback
  | close

structure IdLabel where
  handle : ℕ
  op : IdOp

namespace IdSys

variable (s : IdSys) (i : ℕ) (h : IdHandle)

/-- What the transaction of a handle sees. -/
def view : MarkedFile := (h.txn.getD none).getD s.file

def setHandle (h : Option IdHandle) : IdSys := { s with handles := Function.update s.handles i h }

/-- `ROLLBACK`, also after any exception inside `txn()`. -/
def rollback : IdSys :=
  { s.setHandle i (some { h with pending := [], txn := none }) with
    writer := if s.writer = some i then none else s.writer }

/-- A statement that writes: refused as busy while another handle writes, or over
a snapshot that is no longer the newest. -/
def write (f : MarkedFile → MarkedFile) : IdSys :=
  if s.writer = some i ∨ (s.writer = none ∧ (s.view h).rev = s.file.rev) then
    { s.setHandle i (some { h with txn := some (some (f (s.view h))) }) with writer := some i }
  else s.rollback i h

/-- The handle after `create_monotonic` has minted. -/
def minted (v : VolumeId) (now : ℕ) : IdHandle :=
  let m := (h.mintFor (s.view h) v).advance now
  { h with
    mints := Function.update h.mints v (some m)
    pending := assign VolumeMark.volumeId h.pending { volumeId := v, wm := m.state }
    txn := some (some (s.view h)) }

/-- `create_monotonic`: mint, note the mark, insert the row. The insert fails on a
missing volume, or on any other constraint. -/
def create (v : VolumeId) (now : ℕ) (d : Draw) (accepted : Bool) : IdSys :=
  let r := (h.mintFor (s.view h) v).mint now d
  match hr : r.2 with
  | .error _ => s.rollback i (s.minted h v now)
  | .ok id =>
    if accepted ∧ ((s.view h).mark? v).isSome then
      s.write i (s.minted h v now) (fun f => { f with ids := f.ids ++ [⟨v, r.1, d, id, hr⟩] })
    else s.rollback i (s.minted h v now)

/-- `_flush_watermarks` and `COMMIT`. A transaction that wrote nothing has nothing
pending and changes nothing. -/
def commit : IdSys :=
  if s.writer = some i then
    let f := (s.view h).flush h.pending
    { s.setHandle i (some { h with pending := [], txn := none }) with
      file := { f with rev := f.rev + 1 }
      writer := none
      issued := s.issued ++ f.ids }
  else s.setHandle i (some { h with pending := [], txn := none })

/-- `close`: marks still pending outside a transaction are flushed first. -/
def close : IdSys :=
  { s.setHandle i none with
    file := if h.txn.isNone then s.file.flush h.pending else s.file
    writer := if s.writer = some i then none else s.writer }

/-- A step of an open handle. Every caller of `create_monotonic` is inside
`txn()`. -/
def exec : IdOp → IdSys
  | .open => s
  | .begin => if h.txn.isNone then s.setHandle i (some { h with txn := some none }) else s
  -- the first read of a deferred transaction takes its snapshot
  | .read =>
    if h.txn.isSome then s.setHandle i (some { h with txn := some (some (s.view h)) }) else s
  | .createVolume v =>
    if h.txn.isNone then s
    else if ((s.view h).mark? v).isSome then s.rollback i h
    else s.write i h (fun f => { f with volumes := f.volumes ++ [{ volumeId := v }] })
  | .create v now d accepted => if h.txn.isNone then s else s.create i h v now d accepted
  | .prune keep =>
    if h.txn.isNone then s else s.write i h (fun f => { f with ids := f.ids.filter keep })
  | .commit => if h.txn.isNone then s else s.commit i h
  | .rollback => if h.txn.isNone then s else s.rollback i h
  | .close => s.close i h

def step (l : IdLabel) : IdSys :=
  match s.handles l.handle, l.op with
  | none, .open => s.setHandle l.handle (some { known := s.issued })
  | none, _ => s
  | some h, op => s.exec l.handle h op

end IdSys

/-- Every state any interleaving of handles reaches from an empty file. -/
def IdSys.Reached (s : IdSys) : Prop := GuardedRuns.Run IdSys.step (fun _ _ => True) {} s

/-! ### Marks -/

namespace MarkedFile

variable {f g k : MarkedFile} {p : VolumeMark} {r : IssuedId} {v : VolumeId} {wm : Stamp}
  {pending : List VolumeMark}

/-- The mark of a row's volume is at or above the row's id. -/
def Covers (f : MarkedFile) (r : IssuedId) : Prop := ∃ wm, f.mark? r.volume = some wm ∧ r.stamp ≤ wm

/-- No mark is lost or lowered. -/
def Raised (f g : MarkedFile) : Prop :=
  ∀ v wm, f.mark? v = some wm → ∃ wm', g.mark? v = some wm' ∧ wm ≤ wm'

/-- Every stored sequence fits twelve bits. -/
def Sized (f : MarkedFile) : Prop :=
  ∀ v wm, f.mark? v = some wm → 0 ≤ (ofLex wm).2 ∧ (ofLex wm).2 < seqLimit

theorem Raised.refl (f : MarkedFile) : f.Raised f := fun _ wm h => ⟨wm, h, le_rfl⟩

theorem Raised.trans (h : f.Raised g) (h' : g.Raised k) : f.Raised k := by
  intro v wm hv
  obtain ⟨wm₁, h₁, hle⟩ := h v wm hv
  obtain ⟨wm₂, h₂, hle'⟩ := h' v wm₁ h₁
  exact ⟨wm₂, h₂, hle.trans hle'⟩

theorem Covers.raised (hc : f.Covers r) (h : f.Raised g) : g.Covers r := by
  obtain ⟨wm, hwm, hle⟩ := hc
  obtain ⟨wm', hwm', hle'⟩ := h _ _ hwm
  exact ⟨wm', hwm', hle.trans hle'⟩

theorem mark?_raise : (f.raise p).mark? v =
    if v = p.volumeId then (f.mark? v).map (fun wm => max wm p.wm) else f.mark? v := by
  have hmax (r : VolumeMark) : (if r.wm < p.wm then p.wm else r.wm) = max r.wm p.wm := by
    split
    · rename_i h
      exact (max_eq_right h.le).symm
    · rename_i h
      exact (max_eq_left (not_lt.mp h)).symm
  unfold raise mark?
  simp only [hmax]
  rw [lookup_amend (by intro r; rfl)]
  split
  · rw [Option.map_map, Option.map_map]
    rfl
  · rfl

theorem raised_raise : f.Raised (f.raise p) := by
  intro v wm hv
  rw [mark?_raise, hv]
  split
  · exact ⟨_, rfl, le_max_left _ _⟩
  · exact ⟨wm, rfl, le_rfl⟩

theorem raised_flush : f.Raised (f.flush pending) := by
  induction pending generalizing f with
  | nil => exact Raised.refl f
  | cons p ps ih => exact raised_raise.trans ih

/-- A flush brings every pending mark in. -/
theorem flush_covers (hp : p ∈ pending) (hv : (f.mark? p.volumeId).isSome) :
    ∃ wm, (f.flush pending).mark? p.volumeId = some wm ∧ p.wm ≤ wm := by
  induction pending generalizing f with
  | nil => simp at hp
  | cons q qs ih =>
    rcases List.mem_cons.mp hp with rfl | hp
    · obtain ⟨wm, hwm⟩ := Option.isSome_iff_exists.mp hv
      have hlater : (f.raise p).Raised ((f.raise p).flush qs) := raised_flush
      have hraise : (f.raise p).mark? p.volumeId = some (max wm p.wm) := by
        rw [mark?_raise, if_pos rfl, hwm]
        rfl
      obtain ⟨wm', hwm', hle⟩ := hlater _ _ hraise
      exact ⟨wm', hwm', (le_max_right _ _).trans hle⟩
    · apply ih hp
      obtain ⟨wm, hwm⟩ := Option.isSome_iff_exists.mp hv
      obtain ⟨wm', hwm', _⟩ := raised_raise (p := q) _ _ hwm
      rw [hwm']
      rfl

theorem flush_ids : (f.flush pending).ids = f.ids := by
  induction pending generalizing f with
  | nil => rfl
  | cons p ps ih => exact ih

theorem flush_rev : (f.flush pending).rev = f.rev := by
  induction pending generalizing f with
  | nil => rfl
  | cons p ps ih => exact ih

theorem Sized.flush (hf : f.Sized)
    (hp : ∀ p ∈ pending, 0 ≤ (ofLex p.wm).2 ∧ (ofLex p.wm).2 < seqLimit) :
    (f.flush pending).Sized := by
  induction pending generalizing f with
  | nil => exact hf
  | cons p ps ih =>
    apply ih
    · intro v wm hv
      rw [mark?_raise] at hv
      split at hv
      · obtain ⟨wm₀, h₀, rfl⟩ := Option.map_eq_some_iff.mp hv
        rcases max_choice wm₀ p.wm with h | h
        · rw [h]
          exact hf v wm₀ h₀
        · rw [h]
          exact hp p List.mem_cons_self
      · exact hf v wm hv
    · exact fun q hq => hp q (List.mem_cons_of_mem p hq)

/-- A new volume row raises nothing and lowers nothing. -/
theorem raised_append (q : VolumeMark) : f.Raised { f with volumes := f.volumes ++ [q] } := by
  intro v wm hv
  obtain ⟨r, hr, rfl⟩ := Option.map_eq_some_iff.mp hv
  refine ⟨r.wm, ?_, le_rfl⟩
  unfold mark?
  rw [lookup_append_of_some hr]
  rfl

theorem Sized.append (hf : f.Sized) (v : VolumeId) (hv : f.mark? v = none) :
    MarkedFile.Sized { f with volumes := f.volumes ++ [{ volumeId := v }] } := by
  intro u wm hu
  by_cases huv : v = u
  · subst huv
    have hnone : lookup VolumeMark.volumeId f.volumes v = none := Option.map_eq_none_iff.mp hv
    have hself := lookup_append_self (r := ({ volumeId := v } : VolumeMark)) hnone
    unfold mark? at hu
    rw [hself] at hu
    cases hu
    exact ⟨le_rfl, show (0 : ℤ) < seqLimit by decide⟩
  · unfold mark? at hu
    rw [lookup_append_of_ne huv] at hu
    exact hf u wm hu

end MarkedFile

end Aloelite
