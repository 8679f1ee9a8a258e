import Aloelite.Overlays

/-! Flushes and commits that are refused: at which extent, and whether the daemon still has the
bytes it accepted. `fuse.py` keeps extents and buffers until the engine has taken them,
`overlay.rs` and `commit_append` empty them first. -/
namespace Aloelite

open Attempts Attempt Fallible Patches

variable {C : Crypto} {M : Msgpack} {own : VolumeId → Cipher} {T : ℕ → Moment} {s : Sys}
  {path : String} {n : NodeId} {V : VolumeId} {a : AloeFuse} {port : Port} {inode : Inode}
  {d : FileDaemon} {t : OverlayFile} {ref c buf : Bytes} {fh : FileHandle} {h : Handle} {turn : ℕ}

/-! ### Appends -/

/-- A handle whose buffer, after the committed content, is the byte array. -/
def AppendMirrors (C : Crypto) (M : Msgpack) (own : VolumeId → Cipher) (a : AloeFuse)
    (fh : FileHandle) (path : String) (n : NodeId) (d : FileDaemon) (ref : Bytes) : Prop :=
  ∃ h buf, d.handle? fh = some h ∧ h.mode = .a buf ∧
    Backed C M own a.mount path n d.base.sys ∧ d.base.sys.committed n ++ buf = ref

theorem handle?_setMode {mode : HandleMode} :
    (d.setMode fh mode).handle? fh = (d.handle? fh).map (fun h => { h with mode := mode }) := by
  unfold FileDaemon.handle? FileDaemon.setMode
  simp only
  induction d.opened with
  | nil => rfl
  | cons p ps ih =>
    rw [List.map_cons]
    by_cases hp : p.1 = fh
    · simp only [hp, if_true, List.find?_cons, decide_true, Option.map_some]
    · simp only [hp, if_false, List.find?_cons, decide_false]
      exact ih

theorem appendMirrors_emptied (hh : d.handle? fh = some h)
    (hbacked : Backed C M own a.mount path n s) (href : s.committed n = ref) :
    AppendMirrors C M own a fh path n ((d.setMode fh (.a [])).onSys s turn) ref := by
  refine ⟨{ h with mode := .a [] }, [], ?_, rfl, hbacked, ?_⟩
  · change (d.setMode fh (.a [])).handle? fh = _
    rw [handle?_setMode, hh]
    rfl
  · rw [List.append_nil]
    exact href

/-- The commit of what a handle holds, with the answer of the engine. -/
theorem appendCommitBy_eq {r : Except FsError Reply} (port : Port) (hbuf : buf ≠ [])
    (hsend : ∀ d₀ : FileDaemon, d₀.base.sys = d.base.sys → d₀.turn = d.turn →
      a.send C M T (.request a.mount (.append path buf)) d₀ = (d₀.onSys s turn, r)) :
    (a.appendCommitBy C M T port fh path buf d).1 =
      if port = .python ∧ r.isOk = false then d.onSys s turn
      else (d.setMode fh (.a [])).onSys s turn := by
  have hown := hsend d rfl rfl
  have hemptied := hsend (d.setMode fh (.a [])) rfl rfl
  cases port with
  | python =>
    have hstart : a.appendCommitBy C M T .python fh path buf d = ((do
        let _ ← a.send C M T (.request a.mount (.append path buf))) >>= fun _ =>
        alter (fun d => d.setMode fh (.a []))) d := by
      simp only [AloeFuse.appendCommitBy, AloeFuse.appendCommit, if_neg hbuf]
    rw [hstart]
    cases r with
    | error e =>
      rw [bind_of_error (bind_of_error hown)]
      rfl
    | ok v =>
      have hdone : (do
          let _ ← a.send C M T (.request a.mount (.append path buf))) d =
          (d.onSys s turn, .ok ()) := bind_of_ok hown
      rw [bind_of_ok hdone]
      rfl
  | rust =>
    have hstart : a.appendCommitBy C M T .rust fh path buf d = (do
        let _ ← a.send C M T (.request a.mount (.append path buf)))
          (d.setMode fh (.a [])) := by
      simp only [AloeFuse.appendCommitBy, if_neg hbuf]
      rfl
    rw [hstart]
    cases r with
    | error e =>
      rw [bind_of_error hemptied]
      rfl
    | ok v =>
      rw [bind_of_ok hemptied]
      rfl

/-- A batch that is refused stays in the buffer where it is taken out after its commit; one
that is taken is in the file once. -/
theorem appendCommitBy_iff (port : Port) (hh : d.handle? fh = some h) (hmode : h.mode = .a buf)
    (hbacked : Backed C M own a.mount path n d.base.sys)
    (href : d.base.sys.committed n ++ buf = ref) (hbuf : buf ≠ [])
    (htried : Tried C M own a path n False T d.turn d.base.sys
      [.request a.mount (.append path buf)]) :
    let passes := (T d.turn).Passes C M a.conn (.request a.mount (.append path buf)) d.base.sys
    (AppendMirrors C M own a fh path n (a.appendCommitBy C M T port fh path buf d).1 ref ↔
      port = .python ∨ passes) ∧
    (passes → (a.appendCommitBy C M T port fh path buf d).1.base.sys.committed n = ref) := by
  intro passes
  let op : Op := .request a.mount (.append path buf)
  let s := (T d.turn).after C M a.conn op d.base.sys
  have hop : op = .request a.mount ((Edit.append buf).request path) := rfl
  have hsend : ∀ d₀ : FileDaemon, d₀.base.sys = d.base.sys → d₀.turn = d.turn →
      a.send C M T op d₀ =
        (d₀.onSys s (d.turn + 1), (T d.turn).answer C M a.conn op d.base.sys) := by
    intro d₀ hsys hturn
    rw [send_eq, hsys, hturn]
  rw [appendCommitBy_eq port hbuf hsend]
  obtain ⟨hbacked', ⟨hpasses, hcommitted, -⟩ | ⟨hfails, -, hsame⟩⟩ :=
    hbacked.tried (.append buf) hop htried
  · have hok : ((T d.turn).answer C M a.conn op d.base.sys).isOk = true := hpasses
    have hall : s.committed n = ref := hcommitted.trans href
    rw [if_neg (fun hno => Bool.false_ne_true (hno.2.symm.trans hok))]
    refine ⟨⟨fun _ => Or.inr hpasses, fun _ => ?_⟩, fun _ => hall⟩
    exact appendMirrors_emptied hh hbacked' hall
  · have hno : ((T d.turn).answer C M a.conn op d.base.sys).isOk = false :=
      Bool.eq_false_iff.mpr hfails
    refine ⟨?_, fun hyes => absurd hyes hfails⟩
    cases port with
    | python =>
      rw [if_pos ⟨rfl, hno⟩]
      refine ⟨fun _ => Or.inl rfl, fun _ => ⟨h, buf, hh, hmode, hbacked', ?_⟩⟩
      exact (congrArg (· ++ buf) hsame).trans href
    | rust =>
      rw [if_neg (fun hpython => Port.noConfusion hpython.1)]
      constructor
      · rintro ⟨h', buf', hh', hmode', -, href'⟩
        have hhandle : (d.setMode fh (.a [])).handle? fh = some h' := hh'
        rw [handle?_setMode, hh, Option.map_some, Option.some.injEq] at hhandle
        rw [← hhandle] at hmode'
        obtain rfl : [] = buf' := HandleMode.a.inj hmode'
        have hnothing : d.base.sys.committed n ++ [] = d.base.sys.committed n ++ buf :=
          ((congrArg (· ++ []) hsame).symm.trans href').trans href.symm
        exact absurd (List.append_cancel_left hnothing).symm hbuf
      · rintro (hport | hyes)
        · cases hport
        · exact absurd hyes hfails

/-- In runs that lose no stretch every overlay stands for its array, whatever was refused at
whichever extent, and a step from there loses none just if the daemon keeps them, nothing is
refused, or the file has them already. A batch of appends is kept just if it is taken out after
its commit or the commit goes through, and is then in the file once. -/
theorem failed_flush_keeps_iff {node : NodeId} (hC : C.KeepsLength) (port : Port)
    (h : Reaches C M (Careful C M own) ((T d.turn).meet C M d.base.sys))
    (hleaf : LeafAt false (T d.turn).env (((T d.turn).meet C M d.base.sys).conns a.conn).cipher
      ((T d.turn).meet C M d.base.sys).db a.mount path V n)
    (hc : readContentBytes C (own V) ((T d.turn).meet C M d.base.sys).db n = .ok c)
    (hidle : (T d.turn).busy = false) (hnone : d.files inode = none) :
    (∀ t, GuardedRuns.Run (OverlayFile.next C M a port inode)
        (fun t e => OverlayFile.Guarded C M own a inode path n False t e ∧
          OverlayFile.LosesNone C M a port inode path n t e)
        ⟨(a.openfile C M T inode path node d).1, c⟩ t →
      t.Mirrors C M own a inode path n ∧ OverlayFile.Serves C M own a port inode path n t ∧
      ∀ e, OverlayFile.Guarded C M own a inode path n False t e →
        ((t.next C M a port inode e).Mirrors C M own a inode path n ↔
          OverlayFile.LosesNone C M a port inode path n t e)) ∧
    ∀ (d : FileDaemon) fh (h : Handle) buf path n ref T, d.handle? fh = some h →
      h.mode = .a buf → buf ≠ [] → Backed C M own a.mount path n d.base.sys →
      d.base.sys.committed n ++ buf = ref →
      Tried C M own a path n False T d.turn d.base.sys [.request a.mount (.append path buf)] →
      (AppendMirrors C M own a fh path n (a.appendCommitBy C M T port fh path buf d).1 ref ↔
        port = .python ∨
          (T d.turn).Passes C M a.conn (.request a.mount (.append path buf)) d.base.sys) ∧
      ((T d.turn).Passes C M a.conn (.request a.mount (.append path buf)) d.base.sys →
        (a.appendCommitBy C M T port fh path buf d).1.base.sys.committed n = ref) := by
  constructor
  · intro t hrun
    obtain ⟨-, -, hmirrors₀, -, -⟩ := OverlayFile.openfile_mirrors node h hleaf hc hidle hnone
    have hmirrors : t.Mirrors C M own a inode path n := by
      -- a step that loses nothing keeps the mirror, so the run does
      apply hrun.invariant (P := fun t => t.Mirrors C M own a inode path n) _ hmirrors₀
      intro t e hg ht
      exact (ht.next_iff hg.1 port).mpr hg.2
    exact ⟨hmirrors, hmirrors.serves hC port, fun e hg => hmirrors.next_iff hg port⟩
  · intro d fh h buf path n ref T hh hmode hbuf hbacked href htried
    exact appendCommitBy_iff port hh hmode hbacked href hbuf htried

namespace OverlayFile

/-! ### Fixed runs -/

/-- Two writes past the end of the open file, apart from each other. -/
def sealedWritten (port : Port) : OverlayFile :=
  (sealedOpen.next Crypto.xorStream Msgpack.refusing sealedFront port 9 ⟨alone, .write 4 [6]⟩).next
    Crypto.xorStream Msgpack.refusing sealedFront port 9 ⟨alone, .write 8 [6]⟩

/-- The first stretch goes through, at the second the database is busy. -/
def busyAtSecond (i : ℕ) : Moment := { alone i with busy := decide (i = 2) }

theorem failed_flush_keeps_iff_sealed :
    ((sealedWritten .python).next Crypto.xorStream Msgpack.refusing sealedFront .python 9
      ⟨busyAtSecond, .flush⟩).Mirrors Crypto.xorStream Msgpack.refusing sealedKey sealedFront 9
        "x" 4 := by
  have hiff := (@failed_flush_keeps_iff Crypto.xorStream Msgpack.refusing sealedKey alone "x" 4 1
    sealedFront 9 sealedDaemon [7, 8, 9] 4 xorStream_keepsLength .python sealedDaemon_reaches
    (sealedDaemon_leaf 0) sealedDaemon_read rfl rfl).1
  have hpython : ∀ t e,
      LosesNone Crypto.xorStream Msgpack.refusing sealedFront .python 9 "x" 4 t e :=
    fun t e o _ => Or.inl rfl
  have hwrite : ∀ t off, (∃ o, t.d.files 9 = some o ∧ (OverlayCall.write off [6]).flushed o = []) →
      Guarded Crypto.xorStream Msgpack.refusing sealedKey sealedFront 9 "x" 4 False t
        ⟨alone, .write off [6]⟩ := by
    intro t off hsmall
    obtain ⟨o, hfiles, hflushed⟩ := hsmall
    refine ⟨List.cons_ne_nil _ _, ?_, ?_⟩
    · intro off m hread
      cases hread
    · intro o' hfiles'
      obtain rfl : o = o' := Option.some.inj (hfiles.symm.trans hfiles')
      have hnone : (OverlayCall.write off [6]).ops sealedFront o = [] := by
        unfold OverlayCall.ops
        rw [hflushed]
        rfl
      rw [hnone]
      exact trivial
  have hrun : GuardedRuns.Run (next Crypto.xorStream Msgpack.refusing sealedFront .python 9)
      (fun t e =>
        Guarded Crypto.xorStream Msgpack.refusing sealedKey sealedFront 9 "x" 4 False t e ∧
        LosesNone Crypto.xorStream Msgpack.refusing sealedFront .python 9 "x" 4 t e)
      sealedOpen (sealedWritten .python) :=
    ((GuardedRuns.Run.refl sealedOpen).snoc
      ⟨hwrite _ 4 ⟨_, rfl, by decide +kernel⟩, hpython _ _⟩).snoc
      ⟨hwrite _ 8 ⟨_, rfl, by decide +kernel⟩, hpython _ _⟩
  have hflush : Guarded Crypto.xorStream Msgpack.refusing sealedKey sealedFront 9 "x" 4 False
      (sealedWritten .python) ⟨busyAtSecond, .flush⟩ := by
    refine ⟨trivial, ?_, ?_⟩
    · intro off m hread
      cases hread
    · intro o ho
      obtain rfl : _ = o := Option.some.inj ho
      refine ⟨trivial, fun _ => by decide +kernel, False.elim, fun _ => ?_⟩
      exact ⟨trivial, fun hidle => Bool.noConfusion hidle, False.elim, fun _ => trivial⟩
  exact ((hiff (sealedWritten .python) hrun).2.2 _ hflush).mpr (hpython _ _)

/-- Before the second stretch another mount locks the file. -/
def lockedAtSecond (i : ℕ) : Moment :=
  { alone i with
    others := if i = 2 then
      [⟨.counting 60, 1, .mount { volume := 1, pin := some [4], allowOverlap := true }⟩,
        ⟨.counting 70, 1, .request 60 (.lock "x" none)⟩]
    else [] }

/-- The flush puts the first stretch in place and is refused at the second: one daemon reads the
accepted byte afterwards, the other reads a zero. A batch of appends that is refused is gone
from the handle of the other as well. -/
theorem failed_flush_loses_write :
    let after := fun port => (sealedWritten port).next Crypto.xorStream Msgpack.refusing sealedFront
      port 9 ⟨lockedAtSecond, .flush⟩
    let appending := (sealedWritten .rust).d.enter 1 ⟨"x", 9, .a [5], 4⟩
    let appended := sealedFront.appendCommitBy Crypto.xorStream Msgpack.refusing busyAtSecond .rust
      1 "x" [5] { appending with turn := 2 }
    (OverlayCall.flush.run Crypto.xorStream Msgpack.refusing lockedAtSecond sealedFront .rust 9
      (sealedWritten .rust).d).2 = .error (.lockHeld 4) ∧
    readContentBytes Crypto.xorStream (sealedKey 1) (after .rust).d.base.sys.db 4 =
      .ok [7, 8, 9, 0, 6] ∧
    (after .rust).ref = [7, 8, 9, 0, 6, 0, 0, 0, 6] ∧
    ((OverlayCall.read 0 9).run Crypto.xorStream Msgpack.refusing alone sealedFront .python 9
      (after .python).d).2 = .ok [7, 8, 9, 0, 6, 0, 0, 0, 6] ∧
    ((OverlayCall.read 0 9).run Crypto.xorStream Msgpack.refusing alone sealedFront .rust 9
      (after .rust).d).2 = .ok [7, 8, 9, 0, 6, 0, 0, 0, 0] ∧
    appended.2.toOption = none ∧ (appended.1.handle? 1).map Handle.mode = some (.a []) := by
  intro after appending appended
  refine ⟨?_, ?_, ?_, ?_, ?_, ?_, ?_⟩
  all_goals decide +kernel

end OverlayFile

end Aloelite
