import Aloelite.OverlayWrites

/-! Overlays of open files against a byte array: as long as the calls of the engine go through
and no one else writes, what is written, read, cut off and flushed is what a byte array would
give. -/
namespace Aloelite

open Attempts Attempt Fallible Patches

variable {C : Crypto} {M : Msgpack} {own : VolumeId → Cipher} {E : Env} {T : ℕ → Moment}
  {path : String} {n : NodeId} {V : VolumeId} {a : AloeFuse} {port : Port} {inode : Inode}
  {o : Overlay} {d : FileDaemon} {t : OverlayFile} {e : OverlayEvent} {off m : ℕ} {c : Bytes}
  {sure : Prop}

namespace OverlayFile

/-- The calls whose engine calls are orderly as far as the bytes go, with others that leave the
file alone, and none refused where that is sure. -/
def Guarded (C : Crypto) (M : Msgpack) (own : VolumeId → Cipher) (a : AloeFuse) (inode : Inode)
    (path : String) (n : NodeId) (sure : Prop) (t : OverlayFile) (e : OverlayEvent) : Prop :=
  e.call.Filled ∧
    (∀ off m, e.call = .read off m →
      LeftAlone C M own a path n e.moments 3 t.d.turn t.d.base.sys) ∧
    ∀ o, t.d.files inode = some o →
      Tried C M own a path n sure e.moments t.d.turn t.d.base.sys (e.call.ops a o)

/-- No stretch is lost at this call. -/
def LosesNone (C : Crypto) (M : Msgpack) (a : AloeFuse) (port : Port) (inode : Inode)
    (path : String) (n : NodeId) (t : OverlayFile) (e : OverlayEvent) : Prop :=
  ∀ o, t.d.files inode = some o → port = .python ∨
    ThereAlready C M e.moments a path n t.d.turn t.d.base.sys (e.call.flushed o)

/-! ### One call -/

theorem Mirrors.path_eq (h : t.Mirrors C M own a inode path n) :
    ∀ o, t.d.files inode = some o → o.path = path := by
  obtain ⟨o, hfiles, hpath, -⟩ := h
  intro o' hfiles'
  obtain rfl : o = o' := Option.some.inj (hfiles.symm.trans hfiles')
  exact hpath

theorem Mirrors.ends {call : OverlayCall} (h : t.Mirrors C M own a inode path n)
    (hg : Guarded C M own a inode path n sure t ⟨T, call⟩) (port : Port)
    (hwrites : ∀ off m, call ≠ .read off m) :
    ∃ o, t.d.files inode = some o ∧ Ends C M own a port inode path n sure T t o call := by
  obtain ⟨o, hfiles, rfl, hbacked, hholds⟩ := h
  obtain ⟨hfilled, -, htried⟩ := hg
  refine ⟨o, hfiles, ?_⟩
  cases call with
  | write off data => exact ends_write hfiles hbacked hholds hfilled (htried o hfiles)
  | read off m => exact absurd rfl (hwrites off m)
  | truncate size => exact ends_truncate hfiles hbacked hholds (htried o hfiles)
  | flush => exact ends_flush hfiles hbacked hholds (htried o hfiles)

/-- A read changes nothing but what others do. -/
theorem next_read (hfiles : t.d.files inode = some o) : ∃ i ≤ 3,
    t.next C M a port inode ⟨T, .read off m⟩ =
      ⟨t.d.onSys (looked C M T i t.d.turn t.d.base.sys) (t.d.turn + i), t.ref⟩ := by
  have hrun : (OverlayCall.read off m).run C M T a port inode t.d =
      a.overlayRead C M T o off m t.d := by
    rw [OverlayCall.run, bind_of_ok (overlayOf_ok hfiles)]
  have hlooks : Looks C M T 3 (a.overlayRead C M T o off m) := overlayRead_looks
  obtain ⟨i, hi, hstate⟩ := hlooks t.d
  refine ⟨i, hi, ?_⟩
  rw [next_call hrun, hstate]
  rfl

theorem Mirrors.read (h : t.Mirrors C M own a inode path n)
    (hg : Guarded C M own a inode path n sure t ⟨T, .read off m⟩) (port : Port) :
    (t.next C M a port inode ⟨T, .read off m⟩).Mirrors C M own a inode path n ∧
      (t.next C M a port inode ⟨T, .read off m⟩).d.files = t.d.files := by
  obtain ⟨o, hfiles, hpath, hbacked, hholds⟩ := h
  obtain ⟨i, hi, hnext⟩ : ∃ i ≤ 3, t.next C M a port inode ⟨T, .read off m⟩ =
      ⟨t.d.onSys (looked C M T i t.d.turn t.d.base.sys) (t.d.turn + i), t.ref⟩ :=
    next_read hfiles
  obtain ⟨hbacked', hsame⟩ := hbacked.run ((hg.2.1 off m rfl).le hi).run
  rw [hnext]
  refine ⟨⟨o, hfiles, hpath, hbacked', ?_⟩, rfl⟩
  rw [← hsame] at hholds
  exact hholds

/-- A step leaves an overlay that stands for the array, just if no stretch is lost at it. -/
theorem Mirrors.next_iff (h : t.Mirrors C M own a inode path n)
    (hg : Guarded C M own a inode path n False t e) (port : Port) :
    (t.next C M a port inode e).Mirrors C M own a inode path n ↔
      LosesNone C M a port inode path n t e := by
  obtain ⟨T, call⟩ := e
  by_cases hread : ∃ off m, call = .read off m
  · obtain ⟨off, m, rfl⟩ := hread
    exact ⟨fun _ _ _ => Or.inr trivial, fun _ => (h.read hg port).1⟩
  · obtain ⟨o, hfiles, hiff, -⟩ := h.ends hg port (fun off m hc => hread ⟨off, m, hc⟩)
    rw [hiff]
    constructor
    · intro hkept o' hfiles'
      obtain rfl : o = o' := Option.some.inj (hfiles.symm.trans hfiles')
      exact hkept
    · exact fun hall => hall o hfiles

theorem Guarded.losesNone (h : Guarded C M own a inode path n True t e)
    (hpath : ∀ o, t.d.files inode = some o → o.path = path) (port : Port) :
    LosesNone C M a port inode path n t e := by
  intro o hfiles
  right
  rw [← hpath o hfiles]
  exact Tried.thereAlready (hpath o hfiles ▸ h.2.2 o hfiles)

theorem Guarded.weaken (h : Guarded C M own a inode path n sure t e) :
    Guarded C M own a inode path n False t e :=
  ⟨h.1, h.2.1, fun o hfiles => (h.2.2 o hfiles).weaken⟩

theorem Mirrors.next_sure (h : t.Mirrors C M own a inode path n)
    (hg : Guarded C M own a inode path n True t e) (port : Port) :
    (t.next C M a port inode e).Mirrors C M own a inode path n :=
  (h.next_iff hg.weaken port).mpr (hg.losesNone h.path_eq port)

theorem next_neat (h : t.Mirrors C M own a inode path n)
    (hg : Guarded C M own a inode path n True t e)
    (hneat : ∃ o, t.d.files inode = some o ∧ o.Neat) (port : Port) :
    ∃ o, (t.next C M a port inode e).d.files inode = some o ∧ o.Neat := by
  obtain ⟨o, hfiles, hneat⟩ := hneat
  obtain ⟨T, call⟩ := e
  by_cases hread : ∃ off m, call = .read off m
  · obtain ⟨off, m, rfl⟩ := hread
    rw [(h.read hg port).2]
    exact ⟨o, hfiles, hneat⟩
  · obtain ⟨o', hfiles', -, hsure⟩ := h.ends hg port (fun off m hc => hread ⟨off, m, hc⟩)
    obtain rfl : o = o' := Option.some.inj (hfiles.symm.trans hfiles')
    obtain ⟨-, o₁, hfiles₁, hneat₁⟩ := hsure trivial
    exact ⟨o₁, hfiles₁, hneat₁ hneat⟩

/-! ### What it serves -/

/-- What is read of an overlay that stands for the array, and what a flush that goes
through leaves in the file. -/
structure Serves (C : Crypto) (M : Msgpack) (own : VolumeId → Cipher) (a : AloeFuse) (port : Port)
    (inode : Inode) (path : String) (n : NodeId) (t : OverlayFile) : Prop where
  read : ∀ T off m, Guarded C M own a inode path n True t ⟨T, .read off m⟩ →
    Readable C M own a path n T t.d.turn t.d.base.sys →
      ((OverlayCall.read off m).run C M T a port inode t.d).2 = .ok ((t.ref.drop off).take m)
  flush : ∀ T, Guarded C M own a inode path n True t ⟨T, .flush⟩ →
    (OverlayCall.flush.run C M T a port inode t.d).2 = .ok [] ∧
      ∀ w E k V, LeafAt w E k (t.next C M a port inode ⟨T, .flush⟩).d.base.sys.db a.mount path V n →
        readContentBytes C (own V) (t.next C M a port inode ⟨T, .flush⟩).d.base.sys.db n =
          .ok t.ref

theorem Mirrors.serves (hC : C.KeepsLength) (h : t.Mirrors C M own a inode path n) (port : Port) :
    Serves C M own a port inode path n t where
  read := by
    intro T off m hg hread
    obtain ⟨o, hfiles, rfl, hbacked, hholds⟩ := h
    rw [OverlayCall.run, bind_of_ok (overlayOf_ok hfiles)]
    exact overlayRead_eq hC hbacked (hg.2.1 off m rfl) hread hholds
  flush := by
    intro T hg
    obtain ⟨o, hfiles, rfl, hbacked, hholds⟩ := h
    obtain ⟨s', turn, hbacked', hcommitted, hrun⟩ :=
      flush_sure hfiles hbacked hholds port (hg.2.2 o hfiles)
    rw [next_call hrun, hrun]
    refine ⟨rfl, fun w E k V hleaf => ?_⟩
    rw [← hcommitted]
    exact hbacked'.readsWhole hleaf

/-- An overlay that is opened stands for the committed content. -/
theorem openfile_mirrors (node : NodeId)
    (h : Reaches C M (Careful C M own) ((T d.turn).meet C M d.base.sys))
    (hleaf : LeafAt false (T d.turn).env (((T d.turn).meet C M d.base.sys).conns a.conn).cipher
      ((T d.turn).meet C M d.base.sys).db a.mount path V n)
    (hc : readContentBytes C (own V) ((T d.turn).meet C M d.base.sys).db n = .ok c)
    (hidle : (T d.turn).busy = false) (hnone : d.files inode = none) :
    ∃ o, (a.openfile C M T inode path node d).2 = .ok o ∧
      Mirrors C M own a inode path n ⟨(a.openfile C M T inode path node d).1, c⟩ ∧
      (a.openfile C M T inode path node d).1.files inode = some o ∧ o.Neat := by
  let s := (T d.turn).meet C M d.base.sys
  have hbacked : Backed C M own a.mount path n s := ⟨h, leadsOnly_of_leafAt hleaf⟩
  obtain rfl : s.committed n = c := Except.ok.inj ((hbacked.readsWhole hleaf).symm.trans hc)
  obtain ⟨row, hstat, hsize⟩ := hbacked.sized hleaf
  have hsizeAt : a.sizeAt C M T path d = (d.onSys s (d.turn + 1), .ok (s.committed n).length) := by
    apply see_ok hidle
    rw [hstat, ok_bind, hsize]
    rfl
  let o : Overlay := { path := path, refs := 1, size := (s.committed n).length, node := node }
  have hopen : a.openfile C M T inode path node d =
      ((d.onSys s (d.turn + 1)).setOverlay inode (some o), .ok o) := by
    have hlook : (ask (fun d => .ok (d.files inode)) : FileHandler (Option Overlay)) d =
        (d, .ok none) := by
      rw [ask_run, hnone]
    rw [AloeFuse.openfile, bind_of_ok hlook]
    simp only
    rw [bind_of_ok hsizeAt]
    rfl
  rw [hopen]
  refine ⟨o, rfl, ?_, Function.update_self _ _ _, List.Pairwise.nil, rfl⟩
  exact mirrors_setOverlay_iff.mpr ⟨rfl, hbacked, ⟨Extents.Apart.nil, rfl, rfl⟩⟩

/-- As long as no engine call is refused, each is orderly as far as the bytes go and no one else
writes, the extents are in order and apart, every call answers as the byte array does, the sizes
agree, and a flush makes the array the content of the file. -/
theorem overlay_is_byte_array {node : NodeId} (hC : C.KeepsLength) (port : Port)
    (h : Reaches C M (Careful C M own) ((T d.turn).meet C M d.base.sys))
    (hleaf : LeafAt false (T d.turn).env (((T d.turn).meet C M d.base.sys).conns a.conn).cipher
      ((T d.turn).meet C M d.base.sys).db a.mount path V n)
    (hc : readContentBytes C (own V) ((T d.turn).meet C M d.base.sys).db n = .ok c)
    (hidle : (T d.turn).busy = false) (hnone : d.files inode = none)
    (hrun : GuardedRuns.Run (next C M a port inode) (Guarded C M own a inode path n True)
      ⟨(a.openfile C M T inode path node d).1, c⟩ t) :
    (∃ o, t.d.files inode = some o ∧ o.Neat ∧ (∀ e ∈ o.extents, e.2 ≠ []) ∧
      o.size = t.ref.length) ∧
    (∀ T call, Guarded C M own a inode path n True t ⟨T, call⟩ →
      (∀ off m, call = .read off m → Readable C M own a path n T t.d.turn t.d.base.sys) →
        (call.run C M T a port inode t.d).2 = .ok (call.answer t.ref)) ∧
    ∀ T, Guarded C M own a inode path n True t ⟨T, .flush⟩ →
      ∀ w E k V, LeafAt w E k (t.next C M a port inode ⟨T, .flush⟩).d.base.sys.db a.mount path V n →
        readContentBytes C (own V) (t.next C M a port inode ⟨T, .flush⟩).d.base.sys.db n =
          .ok t.ref := by
  obtain ⟨o₀, -, hmirrors₀, hfiles₀, hneat₀⟩ := openfile_mirrors node h hleaf hc hidle hnone
  obtain ⟨hmirrors, hneat⟩ : t.Mirrors C M own a inode path n ∧
      ∃ o, t.d.files inode = some o ∧ o.Neat := by
    -- invariant: the extents over the file make up the array, in order and apart
    apply hrun.invariant (P := fun t => t.Mirrors C M own a inode path n ∧
      ∃ o, t.d.files inode = some o ∧ o.Neat) _ ⟨hmirrors₀, o₀, hfiles₀, hneat₀⟩
    intro t e hg ht
    exact ⟨ht.1.next_sure hg port, next_neat ht.1 hg ht.2 port⟩
  have hserves := hmirrors.serves hC port
  refine ⟨?_, ?_, fun T hg => (hserves.flush T hg).2⟩
  · obtain ⟨o, hfiles, hneat⟩ := hneat
    obtain ⟨o', hfiles', -, -, hholds⟩ := hmirrors
    obtain rfl : o = o' := Option.some.inj (hfiles.symm.trans hfiles')
    exact ⟨o, hfiles, hneat, hholds.apart.filled, hholds.size⟩
  · intro T call hg hreadable
    -- a read looks at the file under the extents; the other calls answer from the overlay alone
    by_cases hread : ∃ off m, call = .read off m
    · obtain ⟨off, m, rfl⟩ := hread
      exact hserves.read T off m hg (hreadable off m rfl)
    · obtain ⟨o', hfiles', -, hsure⟩ := hmirrors.ends hg port (fun off m hc => hread ⟨off, m, hc⟩)
      rw [(hsure trivial).1]
      cases call with
      | read off m => exact absurd ⟨off, m, rfl⟩ hread
      | write off data => rfl
      | truncate size => rfl
      | flush => rfl

/-! ### Fixed runs -/

/-- A sealed file `x` of three bytes, in a daemon that has it open for reading and writing
under the inode 9. -/
def sealedDaemon : FileDaemon :=
  { base := { sys := (sealedRun.take 3).foldl (step Crypto.xorStream Msgpack.refusing) {},
              n := fun _ => none } }

def sealedFront : AloeFuse := { conn := 0, mount := 2, ino := id }

/-- Moments in which nobody else does anything. -/
def alone (i : ℕ) : Moment := { env := .counting (6 + 10 * i) }

theorem sealedDaemon_reaches : Reaches Crypto.xorStream Msgpack.refusing
    (Careful Crypto.xorStream Msgpack.refusing sealedKey) sealedDaemon.base.sys := by
  have hguards : GuardedRuns.Guards (step Crypto.xorStream Msgpack.refusing)
      (Careful Crypto.xorStream Msgpack.refusing sealedKey) {} (sealedRun.take 3) := by
    decide +kernel
  exact reaches_foldl hguards

theorem sealedDaemon_leaf (i : ℕ) : LeafAt false (alone i).env
    (sealedDaemon.base.sys.conns 0).cipher sealedDaemon.base.sys.db 2 "x" 1 4 :=
  ⟨⟨2, 1, 1, .convergent⟩, ⟨4, .entry⟩, by rfl, rfl, by decide +kernel, rfl, by decide⟩

theorem sealedDaemon_read :
    readContentBytes Crypto.xorStream (sealedKey 1) sealedDaemon.base.sys.db 4 = .ok [7, 8, 9] := by
  decide +kernel

def sealedOpen : OverlayFile :=
  ⟨(sealedFront.openfile Crypto.xorStream Msgpack.refusing alone 9 "x" 4 sealedDaemon).1, [7, 8, 9]⟩

/-- A write past the end, and what a read gives before it is flushed. -/
theorem overlay_is_byte_array_gap :
    let t := sealedOpen.next Crypto.xorStream Msgpack.refusing sealedFront .python 9
      ⟨alone, .write 4 [6]⟩
    ((OverlayCall.read 0 9).run Crypto.xorStream Msgpack.refusing alone sealedFront .python 9
      t.d).2 = .ok [7, 8, 9, 0, 6] := by
  intro t
  have hguard : Guarded Crypto.xorStream Msgpack.refusing sealedKey sealedFront 9 "x" 4 True
      sealedOpen ⟨alone, .write 4 [6]⟩ := by
    refine ⟨List.cons_ne_nil _ _, fun off m hread => ?_, fun o ho => ?_⟩
    · cases hread
    · obtain rfl : _ = o := Option.some.inj ho
      exact trivial
  have hrun : GuardedRuns.Run (next Crypto.xorStream Msgpack.refusing sealedFront .python 9)
      (Guarded Crypto.xorStream Msgpack.refusing sealedKey sealedFront 9 "x" 4 True) sealedOpen t :=
    (GuardedRuns.Run.refl sealedOpen).snoc hguard
  have hanswers := (overlay_is_byte_array xorStream_keepsLength .python sealedDaemon_reaches
    (sealedDaemon_leaf 0) sealedDaemon_read rfl rfl hrun).2.1
  refine hanswers alone (.read 0 9) ⟨trivial, ?_, fun o _ => trivial⟩ ?_
  · intro off m _
    exact ⟨trivial, trivial, trivial, trivial⟩
  · intro off m _
    refine ⟨fun i _ => rfl, 1, sealedDaemon_leaf 1, sealedDaemon_leaf 2, ?_⟩
    decide +kernel

/-- A volume with one-byte chunks, in which the byte 6 under its own nonce has the ciphertext of
the stored byte 5: what the overlay of `y` takes is accepted and flushed, nothing is refused, and
the file reads as the other byte. -/
theorem overlay_flush_commits_other_byte :
    ∃ (s : Sys) (t₀ t₁ t₂ : OverlayFile),
      Reaches Crypto.xorStream Msgpack.refusing (fun s l => Apart s l ∧ Keyed sealedKey s l) s ∧
      readContentBytes Crypto.xorStream (sealedKey 0) s.db 6 = .ok [] ∧
      t₀ = ⟨(sealedFront.openfile Crypto.xorStream Msgpack.refusing alone 9 "y" 6
        { base := { sys := s, n := fun _ => none }, turn := 1 }).1, []⟩ ∧
      t₁ = t₀.next Crypto.xorStream Msgpack.refusing sealedFront .python 9 ⟨alone, .write 0 [6]⟩ ∧
      t₂ = t₁.next Crypto.xorStream Msgpack.refusing sealedFront .python 9 ⟨alone, .flush⟩ ∧
      Apart t₁.d.base.sys ⟨(alone 2).env, 0, .request 2 (.writeRange "y" 0 [6])⟩ ∧
      Keyed sealedKey t₁.d.base.sys ⟨(alone 2).env, 0, .request 2 (.writeRange "y" 0 [6])⟩ ∧
      (OverlayCall.flush.run Crypto.xorStream Msgpack.refusing alone sealedFront .python 9
        t₁.d).2 = .ok [] ∧
      t₂.ref = [6] ∧
      readContentBytes Crypto.xorStream (sealedKey 0) t₂.d.base.sys.db 6 = .ok [5] := by
  let ls : List Label :=
    [⟨.counting 0, 0, .createVolume none 1 (some [4]) .convergent⟩,
      ⟨.counting 2, 0, .mount { volume := 0, pin := some [4] }⟩,
      ⟨.counting 4, 0, .request 2 (.createEntry "x" [5])⟩,
      ⟨.counting 6, 0, .request 2 (.createEntry "y" [])⟩]
  have hguards : GuardedRuns.Guards (step Crypto.xorStream Msgpack.refusing)
      (fun s l => Apart s l ∧ Keyed sealedKey s l) {} ls := by
    decide +kernel
  refine ⟨ls.foldl (step Crypto.xorStream Msgpack.refusing) {}, _, _, _, reaches_foldl hguards,
    ?_, rfl, rfl, rfl, ?_, ?_, ?_, ?_, ?_⟩
  all_goals decide +kernel

end OverlayFile

end Aloelite
