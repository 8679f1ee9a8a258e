import Aloelite.ContentEdits
import Aloelite.FlushFailures
import Aloelite.FuseFiles
import Aloelite.FuseNames

/-! What is asked of the overlay of an open file, by `fuse.py` and by `overlay.rs`, and what
each call of the engine on the way finds and leaves: others take steps before it, it goes
through, or it is refused. -/
namespace Aloelite

open Attempts Attempt Fallible Patches

namespace AloeFuse

section

variable (C : Crypto) (M : Msgpack) (T : ℕ → Moment) (a : AloeFuse) (port : Port) (inode : Inode)

/-- `_OpenFile.flush`, and `Overlay::flush`, which takes the extents out before it begins. -/
def overlayFlushBy (o : Overlay) : FileHandler Unit :=
  match port with
  | .python => a.overlayFlush C M T inode o
  | .rust => do
    alter (fun d => d.setOverlay inode (some { o with extents := [] }))
    a.flushExtents C M T o.path o.extents
    alter (fun d => d.setOverlay inode (some { o with extents := [], dirty := 0 }))

/-- `write` -/
def overlayWriteBy (o : Overlay) (off : ℕ) (data : Bytes) : FileHandler Unit := do
  alter (fun d => d.setOverlay inode (some (o.taking off data)))
  if DIRTY_FLUSH ≤ (o.taking off data).dirty then
    a.overlayFlushBy C M T port inode (o.taking off data)
  else pure ()

/-- `truncate` -/
def overlayTruncateBy (o : Overlay) (size : ℕ) : FileHandler Unit := do
  a.overlayFlushBy C M T port inode o
  let _ ← a.send C M T (.request a.mount (.truncate o.path size))
  alter (fun d => d.setOverlay inode (some { o with extents := [], dirty := 0, size := size }))

/-- `_append_commit`, and `commit_append`, which takes the buffer out before it begins. -/
def appendCommitBy (fh : FileHandle) (path : String) (buf : Bytes) : FileHandler Unit :=
  match port with
  | .python => do
    a.appendCommit C M T path buf
    alter (fun d => d.setMode fh (.a []))
  | .rust =>
    if buf = [] then pure ()
    else do
      alter (fun d => d.setMode fh (.a []))
      let _ ← a.send C M T (.request a.mount (.append path buf))

theorem overlayWriteBy_python (o : Overlay) (off : ℕ) (data : Bytes) :
    a.overlayWriteBy C M T .python inode o off data = a.overlayWrite C M T inode o off data := rfl

theorem overlayTruncateBy_python (o : Overlay) (size : ℕ) :
    a.overlayTruncateBy C M T .python inode o size = a.overlayTruncate C M T inode o size := rfl

end

end AloeFuse

/-! ### Calls on an overlay -/

/-- What is asked of the overlay of an inode. -/
inductive OverlayCall where
  | write (off : ℕ) (data : Bytes)
  | read (off n : ℕ)
  | truncate (size : ℕ)
  | flush

/-- A call on the overlay, with the moments that its engine calls come in. -/
structure OverlayEvent where
  moments : ℕ → Moment
  call : OverlayCall

/-- The daemon, and the byte array that the calls it has taken make. -/
structure OverlayFile where
  d : FileDaemon
  ref : Bytes

namespace OverlayCall

variable (C : Crypto) (M : Msgpack) (T : ℕ → Moment) (a : AloeFuse) (port : Port) (inode : Inode)

def run (c : OverlayCall) : FileHandler Bytes := do
  let o ← AloeFuse.overlayOf inode
  match c with
  | .write off data =>
    a.overlayWriteBy C M T port inode o off data
    return []
  | .read off n => a.overlayRead C M T o off n
  | .truncate size =>
    a.overlayTruncateBy C M T port inode o size
    return []
  | .flush =>
    a.overlayFlushBy C M T port inode o
    return []

/-- What a call that goes through makes of a byte array. -/
def reference (ref : Bytes) : OverlayCall → Bytes
  | .write off data => patch 0 ref off data
  | .truncate size => resized ref size
  | .read .. | .flush => ref

/-- What a call that goes through answers. -/
def answer (ref : Bytes) : OverlayCall → Bytes
  | .read off n => (ref.drop off).take n
  | _ => []

/-- The byte array after a call that may have failed. A write is in the overlay before a
flush can fail. -/
def taken (ref : Bytes) (done : Bool) : OverlayCall → Bytes
  | .truncate size => if done then resized ref size else ref
  | c => c.reference ref

/-- A write writes something. -/
def Filled : OverlayCall → Prop
  | .write _ data => data ≠ []
  | _ => True

/-- The stretches a call would put in place first. -/
def flushed (o : Overlay) : OverlayCall → List (ℕ × Bytes)
  | .write off data =>
    if DIRTY_FLUSH ≤ (o.taking off data).dirty then (o.taking off data).extents else []
  | .read .. => []
  | .truncate _ | .flush => o.extents

/-- The engine calls of a flush. -/
def flushOps (path : String) (es : List (ℕ × Bytes)) : List Op :=
  es.map (fun e => .request a.mount (.writeRange path e.1 e.2))

/-- The writing engine calls of a call on an overlay, if none fails. -/
def ops (o : Overlay) (c : OverlayCall) : List Op :=
  flushOps a o.path (c.flushed o) ++
    match c with
    | .truncate size => [.request a.mount (.truncate o.path size)]
    | _ => []

end OverlayCall

def OverlayFile.next (C : Crypto) (M : Msgpack) (a : AloeFuse) (port : Port) (inode : Inode)
    (t : OverlayFile) (e : OverlayEvent) : OverlayFile :=
  let r := e.call.run C M e.moments a port inode t.d
  ⟨r.1, e.call.taken t.ref r.2.isOk⟩

/-! ### Calls of the engine -/

namespace Moment

variable (C : Crypto) (M : Msgpack) (m : Moment) (conn : ConnId) (op : Op) (s : Sys)

/-- What a call answers in this moment. -/
def answer : Except FsError Reply :=
  if m.busy then .error .operational else (exec C M m.env (m.meet C M s) conn op).2

/-- What it leaves of the engine. -/
def after : Sys := if m.busy then m.meet C M s else step C M (m.meet C M s) ⟨m.env, conn, op⟩

/-- The call goes through. -/
def Passes : Prop := (m.answer C M conn op s).isOk

instance : Decidable (m.Passes C M conn op s) :=
  inferInstanceAs (Decidable ((m.answer C M conn op s).isOk = true))

end Moment

/-- Wherever the path leads, it leads to the entry. -/
def LeadsOnly (db : Db) (mount : MountId) (path : String) (n : NodeId) : Prop :=
  ∀ w E k V m, LeafAt w E k db mount path V m → m = n

section

variable (C : Crypto) (M : Msgpack) (own : VolumeId → Cipher) (a : AloeFuse) (path : String)
  (n : NodeId)

/-- A step of others that is orderly as far as the bytes go and leaves the file alone. -/
def SparesFile (s : Sys) (l : Label) : Prop :=
  Careful C M own s l ∧ (step C M s l).committed n = s.committed n ∧
    LeadsOnly (step C M s l).db a.mount path n

/-- So are all steps of others before the engine call of a moment. -/
def Quiet (s : Sys) (m : Moment) : Prop :=
  GuardedRuns.Guards (step C M) (SparesFile C M own a path n) s m.others

/-- Before each of the next calls others leave the file alone. -/
def LeftAlone (T : ℕ → Moment) : ℕ → ℕ → Sys → Prop
  | 0, _, _ => True
  | k + 1, turn, s =>
    Quiet C M own a path n s (T turn) ∧ LeftAlone T k (turn + 1) ((T turn).meet C M s)

/-- Engine calls one after another up to the first that is refused, each orderly as far as
the bytes go; before each others leave the file alone. Where it is sure, none is refused. -/
def Tried (sure : Prop) (T : ℕ → Moment) : ℕ → Sys → List Op → Prop
  | _, _, [] => True
  | turn, s, op :: ops =>
    Quiet C M own a path n s (T turn) ∧
      ((T turn).busy = false →
        Careful C M own ((T turn).meet C M s) ⟨(T turn).env, a.conn, op⟩) ∧
      (sure → (T turn).Passes C M a.conn op s) ∧
      ((T turn).Passes C M a.conn op s →
        Tried sure T (turn + 1) ((T turn).after C M a.conn op s) ops)

end

/-- From the first stretch that is refused on, the file has already what they would put in
place. -/
def ThereAlready (C : Crypto) (M : Msgpack) (T : ℕ → Moment) (a : AloeFuse) (path : String)
    (n : NodeId) : ℕ → Sys → List (ℕ × Bytes) → Prop
  | _, _, [] => True
  | turn, s, e :: es =>
    let op : Op := .request a.mount (.writeRange path e.1 e.2)
    if (T turn).Passes C M a.conn op s then
      ThereAlready C M T a path n (turn + 1) ((T turn).after C M a.conn op s) es
    else Extents.lay 0 (s.committed n) (e :: es) = s.committed n

/-! ### The file under an overlay -/

variable {C : Crypto} {M : Msgpack} {own : VolumeId → Cipher} {E : Env} {k : Cipher}
  {db db' : Db} {s s' : Sys} {l : Label} {m : Moment} {T : ℕ → Moment} {turn : ℕ} {op : Op}
  {ops : List Op} {mount : MountId} {path : String} {n : NodeId} {V : VolumeId} {w : Bool}
  {a : AloeFuse} {d : FileDaemon}

theorem LeafAt.congr (hmounts : db'.mounts = db.mounts) (hvolumes : db'.volumes = db.volumes)
    (hnodes : db'.nodes = db.nodes) (hedges : db'.edges = db.edges) :
    LeafAt w E k db' mount path V n ↔ LeafAt w E k db mount path V n := by
  constructor
  · rintro ⟨ctx, found, hm, hV, hfound, hn, hleaf⟩
    rw [requireMount_congr hmounts hvolumes] at hm
    rw [resolve_congr hnodes hedges] at hfound
    exact ⟨ctx, found, hm, hV, hfound, hn, hleaf⟩
  · rintro ⟨ctx, found, hm, hV, hfound, hn, hleaf⟩
    refine ⟨ctx, found, ?_, hV, ?_, hn, hleaf⟩
    · rw [requireMount_congr hmounts hvolumes]
      exact hm
    · rw [resolve_congr hnodes hedges]
      exact hfound

/-- A path leads to one entry, whenever and by whatever key. -/
theorem leadsOnly_of_leafAt (h : LeafAt w E k db mount path V n) : LeadsOnly db mount path n := by
  obtain ⟨ctx, found, hm, -, hfound, rfl, -⟩ := h
  rintro w' E' k' V' m ⟨ctx', found', hm', -, hfound', rfl, -⟩
  obtain ⟨row, volume, hrow, -, -, rfl⟩ := requireMount_ok hm
  obtain ⟨row', volume', hrow', -, -, rfl⟩ := requireMount_ok hm'
  have hmount := (Option.filter_eq_some_iff.mp hrow).1
  have hmount' := (Option.filter_eq_some_iff.mp hrow').1
  obtain rfl : row = row' := Option.some.inj (hmount.symm.trans hmount')
  have hfirst : resolve db row.mountPoint path = .ok found := hfound
  have hsecond : resolve db row.mountPoint path = .ok found' := hfound'
  obtain rfl : found = found' := Except.ok.inj (hfirst.symm.trans hsecond)
  rfl

/-- A run of the engine whose bytes read back, with the entry at its path. -/
structure Backed (C : Crypto) (M : Msgpack) (own : VolumeId → Cipher) (mount : MountId)
    (path : String) (n : NodeId) (s : Sys) : Prop where
  reaches : Reaches C M (Careful C M own) s
  leads : LeadsOnly s.db mount path n

/-- An edit that goes through does to the entry what it does to a byte array. -/
theorem Backed.edit (h : Backed C M own mount path n s) (edit : Edit) (hl : Careful C M own s l)
    (hop : l.op = .request mount (edit.request path))
    (hok : (exec C M l.env s l.conn l.op).2.isOk) :
    Backed C M own mount path n (step C M s l) ∧
      (step C M s l).committed n = edit.reference (s.committed n) := by
  have hseals : (edit.request path).seals = true := by cases edit <;> rfl
  have hfits := hl.fitsMount hop hseals
  have hstored : s.begin.Stored (Reading.exact (C := C) own) := h.reaches.orderly.writers.stored
  have hclear : (step C M s l).aliased = false := hl.2.2
  have hreach : Reaches C M (Careful C M own) (step C M s l) := h.reaches.snoc hl
  cases hbody : (edit.request path).run C M l.env (s.conns l.conn).cipher s.begin mount with
  | error e =>
    rw [hop] at hok
    simp only [exec, hbody, Sys.transact] at hok
    cases hok
  | ok r =>
    obtain ⟨tx', reply⟩ := r
    have hstep : (step C M s l).db = tx'.db ∧ (step C M s l).committed = tx'.committed ∧
        (step C M s l).aliased = tx'.aliased := by
      simp only [step, hop, exec, hbody]
      exact ⟨rfl, rfl, rfl⟩
    rw [hstep.2.2] at hclear
    obtain ⟨V, m, hleaf, hhome, -, hcases⟩ :=
      Edit.run_rewrites hfits h.reaches.homed hstored hbody (fun _ => hclear)
    obtain rfl : m = n := h.leads _ _ _ _ _ hleaf
    rcases hcases with ⟨hidle, htx⟩ | ⟨-, hrewrites⟩
    · have hsame : (step C M s l).db = s.db := by
        rw [hstep.1, htx]
        rfl
      refine ⟨⟨hreach, ?_⟩, ?_⟩
      · rw [hsame]
        exact h.leads
      · have hidle : edit.idle (s.committed m) := hidle
        rw [hstep.2.1, htx, Edit.reference_idle hidle]
        rfl
    · refine ⟨⟨hreach, ?_⟩, ?_⟩
      · obtain ⟨tx₁, tx₂, hstaged, -, hswap, rfl⟩ := hrewrites
        have hoff : AgreeOff [.contents, .chunks, .versions, .locks] s.begin.db
            (tx₂.gives m (edit.reference (s.begin.committed m))).db := by
          obtain ⟨db', hexec, rfl⟩ := Tx.run_ok.mp hswap
          have hswapped : AgreeOff [.contents] tx₁.db db' := Stmt.exec_agreeOff hexec
          exact (hstaged.toGrown.off.weaken (by simp)).trans (hswapped.weaken (by simp))
        rw [hstep.1]
        intro w E k V m' hleaf'
        rw [LeafAt.congr (hoff.mounts (by decide)) (hoff.volumes (by decide))
          (hoff.nodes (by decide)) (hoff.edges (by decide))] at hleaf'
        exact h.leads _ _ _ _ _ hleaf'
      · rw [hstep.2.1]
        exact hrewrites.committed

/-- One that is refused changes nothing. -/
theorem Backed.refused {r : Request} (h : Backed C M own mount path n s)
    (hl : Careful C M own s l) (hop : l.op = .request mount r)
    (hno : ¬ (exec C M l.env s l.conn l.op).2.isOk) :
    Backed C M own mount path n (step C M s l) ∧ (step C M s l).committed = s.committed := by
  have hstep : (step C M s l).db = s.db ∧ (step C M s l).committed = s.committed := by
    rw [hop] at hno
    simp only [step, hop, exec] at hno ⊢
    cases hbody : r.run C M l.env (s.conns l.conn).cipher s.begin mount with
    | error e => exact ⟨rfl, rfl⟩
    | ok r =>
      rw [hbody] at hno
      exact absurd rfl hno
  refine ⟨⟨h.reaches.snoc hl, ?_⟩, hstep.2⟩
  rw [hstep.1]
  exact h.leads

/-- Steps of others that leave the file alone leave it as it is. -/
theorem Backed.run (h : Backed C M own a.mount path n s)
    (hrun : GuardedRuns.Run (step C M) (SparesFile C M own a path n) s s') :
    Backed C M own a.mount path n s' ∧ s'.committed n = s.committed n := by
  apply hrun.invariant (P := fun s' =>
    Backed C M own a.mount path n s' ∧ s'.committed n = s.committed n) _ ⟨h, rfl⟩
  intro s' l hspares hs'
  obtain ⟨hcareful, hcommitted, hleads⟩ := hspares
  exact ⟨⟨hs'.1.reaches.snoc hcareful, hleads⟩, hcommitted.trans hs'.2⟩

/-- An edit in its moment: it goes through and does to the entry what it does to a byte
array, or it is refused and leaves the entry as it was. -/
theorem Backed.tried {sure : Prop} (h : Backed C M own a.mount path n s) (edit : Edit)
    (hop : op = .request a.mount (edit.request path))
    (htried : Tried C M own a path n sure T turn s (op :: ops)) :
    Backed C M own a.mount path n ((T turn).after C M a.conn op s) ∧
      ((T turn).Passes C M a.conn op s ∧
          ((T turn).after C M a.conn op s).committed n = edit.reference (s.committed n) ∧
          Tried C M own a path n sure T (turn + 1) ((T turn).after C M a.conn op s) ops ∨
        ¬ (T turn).Passes C M a.conn op s ∧ ¬ sure ∧
          ((T turn).after C M a.conn op s).committed n = s.committed n) := by
  obtain ⟨hquiet, hcareful, hsure, hthen⟩ := htried
  have hmet : Backed C M own a.mount path n ((T turn).meet C M s) ∧
      ((T turn).meet C M s).committed n = s.committed n := h.run (GuardedRuns.Run.foldl hquiet)
  obtain ⟨hbacked, hsame⟩ := hmet
  by_cases hbusy : (T turn).busy
  · have hafter : (T turn).after C M a.conn op s = (T turn).meet C M s := if_pos hbusy
    have hno : ¬ (T turn).Passes C M a.conn op s := by
      rw [Moment.Passes, Moment.answer, if_pos hbusy]
      exact Bool.false_ne_true
    rw [hafter]
    exact ⟨hbacked, Or.inr ⟨hno, fun hall => hno (hsure hall), hsame⟩⟩
  · have hidle : (T turn).busy = false := Bool.eq_false_iff.mpr hbusy
    have hafter : (T turn).after C M a.conn op s =
        step C M ((T turn).meet C M s) ⟨(T turn).env, a.conn, op⟩ := if_neg hbusy
    have hpasses : (T turn).Passes C M a.conn op s ↔
        (exec C M (T turn).env ((T turn).meet C M s) a.conn op).2.isOk := by
      rw [Moment.Passes, Moment.answer, if_neg hbusy]
    by_cases hok : (T turn).Passes C M a.conn op s
    · have hthrough := hbacked.edit edit (hcareful hidle) hop (hpasses.mp hok)
      rw [← hafter, hsame] at hthrough
      exact ⟨hthrough.1, Or.inl ⟨hok, hthrough.2, hthen hok⟩⟩
    · have hrefused := hbacked.refused (hcareful hidle) hop (fun hyes => hok (hpasses.mpr hyes))
      rw [← hafter] at hrefused
      refine ⟨hrefused.1, Or.inr ⟨hok, fun hall => hok (hsure hall), ?_⟩⟩
      rw [hrefused.2, hsame]

/-- The daemon where a call of the engine has left it. -/
def FileDaemon.onSys (d : FileDaemon) (s : Sys) (turn : ℕ) : FileDaemon :=
  { d with base.sys := s, turn := turn }

theorem send_eq (op : Op) : a.send C M T op d =
    (d.onSys ((T d.turn).after C M a.conn op d.base.sys) (d.turn + 1),
      (T d.turn).answer C M a.conn op d.base.sys) := by
  unfold AloeFuse.send AloeFuse.engine Moment.after Moment.answer
  simp only
  split
  · rfl
  · rfl

theorem send_passes (h : (T d.turn).Passes C M a.conn op d.base.sys) : ∃ reply, a.send C M T op d =
    (d.onSys ((T d.turn).after C M a.conn op d.base.sys) (d.turn + 1), .ok reply) := by
  rw [send_eq]
  rw [Moment.Passes] at h
  cases hanswer : (T d.turn).answer C M a.conn op d.base.sys with
  | ok reply => exact ⟨reply, rfl⟩
  | error e =>
    rw [hanswer] at h
    cases h

theorem send_fails (h : ¬ (T d.turn).Passes C M a.conn op d.base.sys) : ∃ e, a.send C M T op d =
    (d.onSys ((T d.turn).after C M a.conn op d.base.sys) (d.turn + 1), .error e) := by
  rw [send_eq]
  rw [Moment.Passes] at h
  cases hanswer : (T d.turn).answer C M a.conn op d.base.sys with
  | ok reply =>
    rw [hanswer] at h
    exact absurd rfl h
  | error e => exact ⟨e, rfl⟩

theorem Tried.weaken {sure : Prop} (h : Tried C M own a path n sure T turn s ops) :
    Tried C M own a path n False T turn s ops := by
  induction ops generalizing turn s with
  | nil => trivial
  | cons op ops ih => exact ⟨h.1, h.2.1, False.elim, fun hok => ih (h.2.2.2 hok)⟩

end Aloelite
