import Aloelite.OverlayReads

/-! What a call on an overlay leaves: whether it still stands for the byte array when the flush
in it, or the truncation behind it, goes through or is refused. -/
namespace Aloelite

open Attempts Attempt Fallible Patches

variable {C : Crypto} {M : Msgpack} {own : VolumeId → Cipher} {E : Env} {T : ℕ → Moment}
  {path : String} {n : NodeId} {V : VolumeId} {a : AloeFuse} {port : Port} {inode : Inode}
  {o : Overlay} {d : FileDaemon} {t : OverlayFile} {off m size : ℕ} {data ref c : Bytes}
  {sure : Prop}

theorem overlayOf_ok (hfiles : d.files inode = some o) :
    AloeFuse.overlayOf inode d = (d, .ok o) := by
  simp only [AloeFuse.overlayOf, ask_run, hfiles]
  rfl

theorem next_call {call : OverlayCall} {r : FileDaemon × Except FsError Bytes}
    (h : call.run C M T a port inode t.d = r) :
    t.next C M a port inode ⟨T, call⟩ = ⟨r.1, call.taken t.ref r.2.isOk⟩ := by
  rw [← h]
  rfl

/-! ### Calls that write -/

/-- What is known of the overlay after a call that writes: it stands for the array unless
stretches were lost, and where no engine call is refused it is as it should be. -/
def Ends (C : Crypto) (M : Msgpack) (own : VolumeId → Cipher) (a : AloeFuse) (port : Port)
    (inode : Inode) (path : String) (n : NodeId) (sure : Prop) (T : ℕ → Moment) (t : OverlayFile)
    (o : Overlay) (call : OverlayCall) : Prop :=
  (OverlayFile.Mirrors C M own a inode path n (t.next C M a port inode ⟨T, call⟩) ↔
      port = .python ∨ ThereAlready C M T a path n t.d.turn t.d.base.sys (call.flushed o)) ∧
    (sure → (call.run C M T a port inode t.d).2 = .ok [] ∧
      ∃ o', (t.next C M a port inode ⟨T, call⟩).d.files inode = some o' ∧ (o.Neat → o'.Neat))

/-- A flush at the end of a call. -/
theorem flush_outcome (port : Port) (hfiles : d.files inode = some o)
    (hbacked : Backed C M own a.mount o.path n d.base.sys)
    (hholds : o.Holds (d.base.sys.committed n) ref)
    (htried : Tried C M own a o.path n sure T d.turn d.base.sys
      (OverlayCall.flushOps a o.path o.extents ++ [])) :
    ∃ d' r, (do
        a.overlayFlushBy C M T port inode o
        return []) d = (d', r) ∧
      (OverlayFile.Mirrors C M own a inode o.path n ⟨d', ref⟩ ↔
        port = .python ∨ ThereAlready C M T a o.path n d.turn d.base.sys o.extents) ∧
      (sure → r = .ok ([] : Bytes) ∧ ∃ o', d'.files inode = some o' ∧ o'.Neat) := by
  obtain ⟨s', turn, hbacked', hcases⟩ := overlayFlushBy_mirrors port hfiles hbacked hholds htried
  rcases hcases with ⟨hthere, hcommitted, -, hflush⟩ | ⟨hsure, ⟨e, hflush⟩, hiff⟩
  · refine ⟨_, _, bind_of_ok hflush, ⟨fun _ => Or.inr hthere, fun _ => ?_⟩,
      fun _ => ⟨rfl, _, Function.update_self _ _ _, Overlay.neat_flushed⟩⟩
    exact mirrors_setOverlay_iff.mpr ⟨rfl, hbacked', .empty hcommitted hholds.size⟩
  · refine ⟨_, _, bind_of_error hflush, ?_, fun h => absurd h hsure⟩
    rw [mirrors_setOverlay_iff]
    constructor
    · rintro ⟨-, -, hleft⟩
      exact hiff.mp hleft
    · intro hkept
      exact ⟨Overlay.left_path, hbacked', hiff.mpr hkept⟩

section

variable (hfiles : t.d.files inode = some o)
  (hbacked : Backed C M own a.mount o.path n t.d.base.sys)
  (hholds : o.Holds (t.d.base.sys.committed n) t.ref)

include hfiles hbacked hholds

theorem flush_sure (port : Port) (htried : Tried C M own a o.path n True T t.d.turn t.d.base.sys
    (OverlayCall.flush.ops a o)) :
    ∃ s' turn, Backed C M own a.mount o.path n s' ∧ s'.committed n = t.ref ∧
      OverlayCall.flush.run C M T a port inode t.d =
        ((t.d.onSys s' turn).setOverlay inode (some { o with extents := [], dirty := 0 }),
          .ok []) := by
  obtain ⟨s', turn, hbacked', ⟨-, hcommitted, -, hflush⟩ | ⟨hsure, -⟩⟩ :=
    overlayFlushBy_mirrors port hfiles hbacked hholds htried
  · refine ⟨s', turn, hbacked', hcommitted, ?_⟩
    rw [OverlayCall.run, bind_of_ok (overlayOf_ok hfiles)]
    exact bind_of_ok hflush
  · exact absurd trivial hsure

theorem ends_flush (htried : Tried C M own a o.path n sure T t.d.turn t.d.base.sys
    (OverlayCall.flush.ops a o)) : Ends C M own a port inode o.path n sure T t o .flush := by
  obtain ⟨d', r, hflush, hmirrors, hsure⟩ := flush_outcome port hfiles hbacked hholds htried
  have hrun : OverlayCall.flush.run C M T a port inode t.d = (d', r) := by
    rw [OverlayCall.run, bind_of_ok (overlayOf_ok hfiles)]
    exact hflush
  rw [Ends, next_call hrun, hrun]
  refine ⟨hmirrors, fun h => ?_⟩
  obtain ⟨hr, o', hfiles', hneat⟩ := hsure h
  exact ⟨hr, o', hfiles', fun _ => hneat⟩

theorem ends_write (hdata : data ≠ []) (htried : Tried C M own a o.path n sure T t.d.turn
    t.d.base.sys ((OverlayCall.write off data).ops a o)) :
    Ends C M own a port inode o.path n sure T t o (.write off data) := by
  have hholds' : (o.taking off data).Holds (t.d.base.sys.committed n) (patch 0 t.ref off data) :=
    hholds.taking hdata
  have hneat : (o.taking off data).Neat := hholds.neat hdata
  let d' := t.d.setOverlay inode (some (o.taking off data))
  have hfiles' : d'.files inode = some (o.taking off data) := Function.update_self _ _ _
  by_cases hdirty : DIRTY_FLUSH ≤ (o.taking off data).dirty
  · have hflushed : (OverlayCall.write off data).flushed o = (o.taking off data).extents :=
      if_pos hdirty
    have htried' : Tried C M own a o.path n sure T t.d.turn t.d.base.sys
        (OverlayCall.flushOps a o.path (o.taking off data).extents ++ []) := by
      rw [← hflushed]
      exact htried
    obtain ⟨d'', r, hflush, hmirrors, hsure⟩ := flush_outcome port (d := d') hfiles' hbacked
      hholds' htried'
    have hrun : (OverlayCall.write off data).run C M T a port inode t.d = (d'', r) := by
      rw [OverlayCall.run, bind_of_ok (overlayOf_ok hfiles), ← hflush]
      simp only [AloeFuse.overlayWriteBy, if_pos hdirty]
      rfl
    rw [Ends, next_call hrun, hrun, hflushed]
    refine ⟨hmirrors, fun h => ?_⟩
    obtain ⟨hr, o', hfiles', hneat⟩ := hsure h
    exact ⟨hr, o', hfiles', fun _ => hneat⟩
  · have hflushed : (OverlayCall.write off data).flushed o = [] := if_neg hdirty
    have hrun : (OverlayCall.write off data).run C M T a port inode t.d = (d', .ok []) := by
      rw [OverlayCall.run, bind_of_ok (overlayOf_ok hfiles)]
      simp only [AloeFuse.overlayWriteBy, if_neg hdirty]
      rfl
    rw [Ends, next_call hrun, hrun, hflushed]
    refine ⟨⟨fun _ => Or.inr trivial, fun _ => ?_⟩, fun _ => ⟨rfl, _, hfiles', fun _ => hneat⟩⟩
    exact mirrors_setOverlay_iff.mpr ⟨rfl, hbacked, hholds'⟩

theorem ends_truncate (htried : Tried C M own a o.path n sure T t.d.turn t.d.base.sys
    ((OverlayCall.truncate size).ops a o)) :
    Ends C M own a port inode o.path n sure T t o (.truncate size) := by
  obtain ⟨s', turn, hbacked', hcases⟩ := overlayFlushBy_mirrors port hfiles hbacked hholds htried
  rcases hcases with ⟨hthere, hcommitted, hcut, hflush⟩ | ⟨hsure, ⟨e, hflush⟩, hiff⟩
  · -- nothing is pending any more, and the file is cut off in a moment of its own
    let d' := (t.d.onSys s' turn).setOverlay inode (some { o with extents := [], dirty := 0 })
    have hop : Op.request a.mount (.truncate o.path size) =
        .request a.mount ((Edit.truncate size).request o.path) := rfl
    obtain ⟨hbacked'', ⟨hpasses, hcommitted', -⟩ | ⟨hfails, hnot, hsame⟩⟩ :=
      hbacked'.tried (.truncate size) hop hcut
    · obtain ⟨reply, hsend⟩ := send_passes (d := d') hpasses
      let s'' := (T turn).after C M a.conn (.request a.mount (.truncate o.path size)) s'
      have htruncate : a.overlayTruncateBy C M T port inode o size t.d =
          ((t.d.onSys s'' (turn + 1)).setOverlay inode
            (some { o with extents := [], dirty := 0, size := size }), .ok ()) := by
        rw [AloeFuse.overlayTruncateBy, bind_of_ok hflush, bind_of_ok hsend, alter_run]
        exact congrArg (·, _) (FileDaemon.setOverlay_twice (d := t.d.onSys s'' (turn + 1)))
      have hrun : (OverlayCall.truncate size).run C M T a port inode t.d =
          ((t.d.onSys s'' (turn + 1)).setOverlay inode
            (some { o with extents := [], dirty := 0, size := size }), .ok []) := by
        rw [OverlayCall.run, bind_of_ok (overlayOf_ok hfiles)]
        exact bind_of_ok htruncate
      rw [Ends, next_call hrun, hrun]
      refine ⟨⟨fun _ => Or.inr hthere, fun _ => ?_⟩,
        fun _ => ⟨rfl, _, Function.update_self _ _ _, fun _ => ⟨List.Pairwise.nil, rfl⟩⟩⟩
      refine mirrors_setOverlay_iff.mpr ⟨rfl, hbacked'', .empty ?_ ?_⟩
      · rw [← hcommitted]
        exact hcommitted'
      · change size = (resized t.ref size).length
        rw [resized, List.length_append, List.length_take, List.length_replicate]
        omega
    · obtain ⟨e, hsend⟩ := send_fails (d := d') hfails
      let s'' := (T turn).after C M a.conn (.request a.mount (.truncate o.path size)) s'
      have hrun : (OverlayCall.truncate size).run C M T a port inode t.d =
          ((t.d.onSys s'' (turn + 1)).setOverlay inode
            (some { o with extents := [], dirty := 0 }), .error e) := by
        rw [OverlayCall.run, bind_of_ok (overlayOf_ok hfiles)]
        apply bind_of_error
        rw [AloeFuse.overlayTruncateBy, bind_of_ok hflush]
        exact bind_of_error hsend
      rw [Ends, next_call hrun, hrun]
      refine ⟨⟨fun _ => Or.inr hthere, fun _ => ?_⟩, fun h => absurd h hnot⟩
      refine mirrors_setOverlay_iff.mpr ⟨rfl, hbacked'', .empty ?_ hholds.size⟩
      exact hsame.trans hcommitted
  -- the flush was refused: what is left is the port's business and the size stays
  · have hrun : (OverlayCall.truncate size).run C M T a port inode t.d =
        ((t.d.onSys s' turn).setOverlay inode (some (o.left port)), .error e) := by
      rw [OverlayCall.run, bind_of_ok (overlayOf_ok hfiles)]
      apply bind_of_error
      exact bind_of_error hflush
    rw [Ends, next_call hrun, hrun]
    refine ⟨?_, fun h => absurd h hsure⟩
    rw [mirrors_setOverlay_iff]
    constructor
    · rintro ⟨-, -, hleft⟩
      exact hiff.mp hleft
    · intro hkept
      exact ⟨Overlay.left_path, hbacked', hiff.mpr hkept⟩

end

end Aloelite
