import Aloelite.InodeReplies

/-! The inode table and the kernel over a whole dialogue. The table is meant to hold just the inodes
the kernel refers to. -/
namespace Aloelite

open Attempts Attempt Fallible Tallies

namespace Dialogue

variable {C : Crypto} {M : Msgpack} {E : ℕ → Env} {a : AloeFuse} {port : Port} {t : Dialogue}

/-- The daemon and the kernel agree on every inode, and the kernel knows a node for just the
inodes it refers to. -/
structure Sound (t : Dialogue) : Prop where
  agree : Tally.Agree ROOT t.daemon.tally t.kernel
  backed : Tally.Backed ROOT t.kernel
  root : t.kernel.value ROOT ≠ none

theorem start_sound (sys : Sys) (root : NodeId) : (start sys root).Sound := by
  refine ⟨⟨rfl, fun _ _ => rfl⟩, ?_, by simp [start]⟩
  intro i hi
  simp [start, hi]

/-- A request after which both sides are as before. -/
theorem Sound.same {r : FuseRequest} (h : t.Sound)
    (hdaemon : (a.handleBy C M E port r t.daemon).1.tally = t.daemon.tally)
    (hkernel : t.kernel.replied a r (a.handleBy C M E port r t.daemon).2 = t.kernel) :
    (t.next C M a port (.request E r)).Sound := by
  refine ⟨?_, ?_, ?_⟩
  · change Tally.Agree ROOT (a.handleBy C M E port r t.daemon).1.tally (t.kernel.replied a r _)
    rw [hdaemon, hkernel]
    exact h.agree
  · change Tally.Backed ROOT (t.kernel.replied a r _)
    rw [hkernel]
    exact h.backed
  · change (t.kernel.replied a r _).value ROOT ≠ none
    rw [hkernel]
    exact h.root

/-- A node that both sides are told of. -/
theorem Sound.told {r : FuseRequest} {i : Inode} {n : NodeId} (h : t.Sound)
    (hagree : Tally.Agree ROOT (a.handleBy C M E port r t.daemon).1.tally (t.kernel.told i n))
    (hkernel : t.kernel.replied a r (a.handleBy C M E port r t.daemon).2 = t.kernel.told i n) :
    (t.next C M a port (.request E r)).Sound := by
  refine ⟨?_, ?_, ?_⟩
  · change Tally.Agree ROOT _ (t.kernel.replied a r _)
    rw [hkernel]
    exact hagree
  · change Tally.Backed ROOT (t.kernel.replied a r _)
    rw [hkernel]
    exact h.backed.told
  · change (t.kernel.replied a r _).value ROOT ≠ none
    rw [hkernel]
    exact Tally.told_value_ne h.root

theorem Sound.enters {r : FuseRequest} (h : t.Sound) (hr : r.enters)
    (hcounted : ∀ x d, a.making C M E r t.daemon = (d, .ok x) →
      (∀ w ∈ t.kernel.value (a.ino x.2), w = x.2) ∧
        (a.completing C M E port r x (a.remember x.2 d).1).2.isOk) :
    (t.next C M a port (.request E r)).Sound := by
  rcases handleBy_enters_cases hr port (fun x d hmaking => (hcounted x d hmaking).2) with
    ⟨e, hres, htally⟩ | ⟨x, d, hmaking, hres, htally⟩
  · apply h.same htally
    rw [hres]
    apply replied_error
    rintro inode count rfl
    exact hr
  · refine h.told (i := a.ino x.2) (n := x.2) ?_ ?_
    · rw [htally]
      exact h.agree.tell (hcounted x d hmaking).1
    · rw [hres]
      exact replied_enters hr x.2

/-- The name `.` of the root, or one that is refused, and the name `..`, whose entry is the
root. -/
theorem Sound.dots {parent : Inode} {name : String} (h : t.Sound) (hdots : name = "." ∨ name = "..")
    (hcounted : name = "." → parent ≠ ROOT → ∀ node ∈ t.daemon.n parent,
      (statById (E 0) (t.daemon.sys.conns a.conn).cipher t.daemon.sys.db a.mount node).isOk =
        false) :
    (t.next C M a port (.request E (.lookup parent name))).Sound := by
  have hforget : ∀ inode count, FuseRequest.lookup parent name ≠ .forget inode count := nofun
  have htally := handleBy_keepsTally (C := C) (M := M) (E := E) (a := a) (T := t.daemon.tally)
    (fun hr : (FuseRequest.lookup parent name).enters => hdots.elim hr.1 hr.2) hforget port t.daemon
      rfl
  cases hres : (a.handleBy C M E port (.lookup parent name) t.daemon).2 with
  | error e =>
    apply h.same htally
    rw [hres]
    exact replied_error hforget
  | ok reply =>
    cases reply with
    | done =>
      apply h.same htally
      rw [hres]
      rfl
    | attr n =>
      -- an answered name is the root's
      have hroot : (if name = "." then parent else if name = ".." then ROOT else a.ino n) =
          ROOT := by
        by_cases hdot : name = "."
        · rw [if_pos hdot]
          by_contra hparent
          have hlookup : a.lookup E parent name t.daemon =
              ((a.handleBy C M E port (.lookup parent name) t.daemon).1, .ok (.attr n)) := by
            refine Prod.ext ?_ (Eq.trans ?_ hres)
            · cases port <;> rfl
            · cases port <;> rfl
          rw [AloeFuse.lookup, if_pos hdots, if_pos hdot] at hlookup
          obtain ⟨node, d₁, hnode, hlook⟩ := bind_ok_iff.mp hlookup
          obtain ⟨row, d₂, hlook, -⟩ := bind_ok_iff.mp hlook
          obtain ⟨rfl, hn⟩ := nodeOf_ok hnode
          have hno := hcounted hdot hparent node hn
          have hyes : statById (E 0) (t.daemon.sys.conns a.conn).cipher t.daemon.sys.db a.mount
              node = .ok row :=
            congrArg Prod.snd hlook
          rw [hyes] at hno
          cases hno
        · rw [if_neg hdot, if_pos (hdots.resolve_left hdot)]
      refine h.told (i := ROOT) (n := n) ?_ ?_
      · rw [htally]
        exact h.agree.told_pin h.root
      · rw [hres]
        change (some ((if name = "." then parent else if name = ".." then ROOT else a.ino n), n)
            |>.map (fun e => t.kernel.told e.1 e.2)).getD t.kernel = _
        rw [hroot]
        rfl

theorem Sound.forget {inode : Inode} {count : ℕ} (h : t.Sound) :
    (t.next C M a port (.request E (.forget inode count))).Sound := by
  have htally : (a.handleBy C M E port (.forget inode count) t.daemon).1.tally =
      if inode = ROOT then t.daemon.tally else t.daemon.tally.drop inode count := by
    have hhandle : a.handleBy C M E port (.forget inode count) = AloeFuse.forget inode count := by
      cases port <;> rfl
    rw [hhandle]
    exact forget_tally inode count t.daemon
  refine ⟨?_, h.backed.giveBack, ?_⟩
  · change Tally.Agree ROOT (a.handleBy C M E port (.forget inode count) t.daemon).1.tally
        (t.kernel.giveBack ROOT inode count)
    rw [htally]
    exact h.agree.giveBack
  · change (t.kernel.giveBack ROOT inode count).value ROOT ≠ none
    rw [Tally.giveBack_value_pin]
    exact h.root

theorem Sound.next {e : KernelEvent} (h : t.Sound) (ho : t.Offered e)
    (hcounted : CountedTwice C M a port t e) :
    (t.next C M a port e).Sound := by
  cases e with
  | request E r =>
    -- a request that gives no entry
    have hplain : ¬r.enters → (∀ inode count, r ≠ .forget inode count) → (∀ n, r.entry a n = none) →
        (t.next C M a port (.request E r)).Sound := fun henters hforget hentry =>
      h.same (handleBy_keepsTally henters hforget port t.daemon rfl) (replied_none hforget hentry _)
    cases r with
    | lookup parent name =>
      by_cases hdots : name = "." ∨ name = ".."
      · apply h.dots hdots
        rintro rfl hparent
        exact hcounted.2 parent rfl hparent
      · have henters : (FuseRequest.lookup parent name).enters := not_or.mp hdots
        exact h.enters henters (hcounted.1 henters)
    | forget inode count => exact h.forget
    | mkdir parent name mode => exact h.enters trivial (hcounted.1 trivial)
    | create parent name mode flags => exact h.enters trivial (hcounted.1 trivial)
    | symlink parent name target => exact h.enters trivial (hcounted.1 trivial)
    | mknod parent name mode => exact h.enters trivial (hcounted.1 trivial)
    | link inode newParent newName =>
      obtain ⟨err, hres⟩ := link_refused port hcounted
      have hforget : ∀ i count, FuseRequest.link inode newParent newName ≠ .forget i count := nofun
      refine h.same (handleBy_keepsTally id hforget port t.daemon rfl) ?_
      rw [hres]
      exact replied_error hforget
    | unlink parent name => exact hplain id nofun (fun _ => rfl)
    | rmdir parent name => exact hplain id nofun (fun _ => rfl)
    | rename parentOld nameOld parentNew nameNew => exact hplain id nofun (fun _ => rfl)
  | opendir E inode =>
    rw [Dialogue.next]
    split
    · exact ⟨h.agree, h.backed, h.root⟩
    · exact h
  | readdir E fh start room =>
    rw [Dialogue.next]
    split
    · rename_i entries hentries
      obtain ⟨hheld, hdots⟩ := hcounted entries hentries
      have hkernel : t.kernel.listed a port (a.emit E room (entries.drop start) t.daemon).2 =
          t.kernel := by
        rw [emit_listed]
        exact listed_dots hdots
      rw [hkernel]
      exact ⟨emit_agree _ room t.daemon hheld h.agree, h.backed, h.root⟩
    · exact h
  | releasedir fh => exact ⟨h.agree, h.backed, h.root⟩
  | aside f =>
    refine ⟨?_, h.backed, h.root⟩
    change Tally.Agree ROOT (f t.daemon).tally t.kernel
    rw [show (f t.daemon).tally = t.daemon.tally from ho]
    exact h.agree

/-- A link that is answered: once the references from before it are given back, the kernel
has one left and the daemon has forgotten the inode. -/
theorem Sound.link_drops {E' : ℕ → Env} {inode newParent : Inode} {newName : String} {n : NodeId}
    (h : t.Sound) (hinode : inode ≠ ROOT)
    (hres : (a.handleBy C M E port (.link inode newParent newName) t.daemon).2 = .ok (.attr n)) :
    let t' := (t.next C M a port (.request E (.link inode newParent newName))).next C M a port
      (.request E' (.forget inode (t.daemon.nlookup inode)))
    t'.daemon.n inode = none ∧ t'.kernel.count inode = 1 := by
  intro t'
  have hforget : ∀ i count, FuseRequest.link inode newParent newName ≠ .forget i count := nofun
  have htally := handleBy_keepsTally (C := C) (M := M) (E := E) (a := a)
      (T := t.daemon.tally) id hforget port t.daemon rfl
  obtain ⟨hnone, hone, -⟩ := h.agree.untold (v := n) hinode
  have hhandle : a.handleBy C M E' port (.forget inode (t.daemon.nlookup inode)) =
      AloeFuse.forget inode (t.daemon.nlookup inode) := by
    cases port <;> rfl
  have hdaemon : t'.daemon.tally = t.daemon.tally.drop inode (t.daemon.nlookup inode) := by
    change (a.handleBy C M E' port (.forget inode (t.daemon.nlookup inode)) _).1.tally = _
    rw [hhandle, forget_tally, if_neg hinode]
    exact congrArg (Tally.drop · inode (t.daemon.nlookup inode)) htally
  have hkernel : t'.kernel = (t.kernel.told inode n).drop inode (t.daemon.nlookup inode) := by
    change Tally.giveBack ROOT (t.kernel.replied a (.link inode newParent newName) _) inode _ = _
    rw [hres, Tally.giveBack, if_neg hinode]
    rfl
  refine ⟨?_, ?_⟩
  · exact (congrArg (Tally.value · inode) hdaemon).trans hnone
  · rw [hkernel]
    exact hone

end Dialogue

/-- In runs whose requests are all counted on both sides, an inode that the kernel refers to
maps to the node it was told of, requests on it go to that node, and an inode it does not
refer to is in no table. -/
theorem inode_table_outlives {C : Crypto} {M : Msgpack} {a : AloeFuse} {t : Dialogue} (port : Port)
    (sys : Sys) (root : NodeId)
    (hrun : GuardedRuns.Run (Dialogue.next C M a port) (fun t e => t.Offered e ∧
      Dialogue.CountedTwice C M a port t e)
      (Dialogue.start sys root) t) :
    (∀ i, i ≠ ROOT → 0 < t.kernel.count i → ∃ node, t.kernel.value i = some node ∧
      t.daemon.n i = some node) ∧
    (∀ i, i ≠ ROOT → t.kernel.count i = 0 → t.daemon.n i = none ∧ t.daemon.nlookup i = 0) ∧
    ∀ E i node, t.kernel.value i = some node → AloeFuse.nodeOf i t.daemon = (t.daemon, .ok node) ∧
      (i ≠ ROOT → a.path E i t.daemon =
        (t.daemon, pathOf E (t.daemon.sys.conns a.conn).cipher t.daemon.sys.db a.mount node)) := by
  -- invariant: the daemon's table and counts are the kernel's
  have hsound : t.Sound := by
    refine hrun.invariant (P := Dialogue.Sound) ?_ (Dialogue.start_sound sys root)
    rintro t e ⟨ho, hcounted⟩ h
    exact h.next ho hcounted
  have hvalues : t.daemon.n = t.kernel.value := hsound.agree.values
  refine ⟨?_, ?_, ?_⟩
  · intro i hi hcount
    have hsome : t.kernel.value i ≠ none := fun hnone => by
      have hzero := (hsound.backed i hi).mp hnone
      omega
    obtain ⟨node, hnode⟩ := Option.ne_none_iff_exists'.mp hsome
    exact ⟨node, hnode, hvalues ▸ hnode⟩
  · intro i hi hcount
    have hnone := (hsound.backed i hi).mpr hcount
    exact ⟨hvalues ▸ hnone, (hsound.agree.counts i hi).trans hcount⟩
  · intro E i node hnode
    have hn : t.daemon.n i = some node := hvalues ▸ hnode
    have hlook : AloeFuse.nodeOf i t.daemon = (t.daemon, .ok node) := by
      rw [AloeFuse.nodeOf, ask_run, hn]
      rfl
    refine ⟨hlook, fun hi => ?_⟩
    rw [AloeFuse.path, if_neg hi, bind_of_ok hlook]
    rfl

namespace Dialogue

/-- A file made in a volume just mounted, under inode 12 and, from there, under other names. -/
def makingFile : KernelEvent := .request (fun i => .counting (9 + i)) (.create 1 "a" 0o644 1)

def mountedDialogue : Dialogue :=
  start (mountedRun.foldl (step Crypto.xorStream Msgpack.refusing) {}) 0

theorem counted_made {C : Crypto} {M : Msgpack} {E : ℕ → Env} {a : AloeFuse} {port : Port}
    {t : Dialogue} {r : FuseRequest} {x : String × NodeId}
    (hmade : (a.making C M E r t.daemon).2 = .ok x)
    (hv : ∀ w ∈ t.kernel.value (a.ino x.2), w = x.2)
    (hok : (a.completing C M E port r x (a.remember x.2 (a.making C M E r t.daemon).1).1).2.isOk) :
    ∀ x d, a.making C M E r t.daemon = (d, .ok x) →
      (∀ w ∈ t.kernel.value (a.ino x.2), w = x.2) ∧
        (a.completing C M E port r x (a.remember x.2 d).1).2.isOk := by
  intro y d hmaking
  rw [hmaking] at hmade hok
  obtain rfl := Except.ok.inj hmade
  exact ⟨hv, hok⟩

theorem offered_forget {E : ℕ → Env} {inode : Inode} {count : ℕ} {t : Dialogue}
    (h : count ≤ t.kernel.count inode) :
    t.Offered (.request E (.forget inode count)) := h

/-- The file is made and looked up, and one of the two references given back. -/
theorem inode_table_outlives_lookup :
    let t := [makingFile, .request (fun i => .counting (20 + i)) (.lookup 1 "a"),
      .request (fun i => .counting (30 + i)) (.forget 12 1)].foldl
      (next Crypto.xorStream Msgpack.refusing mountedFuse .python) mountedDialogue
    t.kernel.count 12 = 1 ∧ ∃ node, t.kernel.value 12 = some node ∧ t.daemon.n 12 = some node := by
  intro t
  have hrun : GuardedRuns.Run (next Crypto.xorStream Msgpack.refusing mountedFuse .python)
      (fun t e => t.Offered e ∧
        CountedTwice Crypto.xorStream Msgpack.refusing mountedFuse .python t e) mountedDialogue
          t := by
    apply GuardedRuns.Run.foldl
    refine ⟨⟨trivial, fun _ => counted_made (x := ("/a", 10)) ?_ ?_ ?_, nofun⟩,
      ⟨trivial, fun _ => counted_made (x := ("/a", 10)) ?_ ?_ ?_, fun p h =>
        absurd (FuseRequest.lookup.inj h).2 (by decide)⟩,
      ⟨offered_forget ?_, nofun, nofun⟩, trivial⟩
    all_goals decide +kernel
  have hcount : t.kernel.count 12 = 1 := by decide +kernel
  exact ⟨hcount, (inode_table_outlives .python _ 0 hrun).1 12 (by decide)
    (by rw [hcount]; exact Nat.one_pos)⟩

/-- The reference of a link is not counted by either daemon, nor is that of a listing by the
one whose listings are counted: the file is there, the kernel holds its inode, and the daemon
does not know it. The other daemon knows it after a listing although the kernel does not. -/
theorem inode_table_miscounts :
    let run := fun port (es : List KernelEvent) =>
      es.foldl (next Crypto.xorStream Msgpack.refusing mountedFuse port) mountedDialogue
    let linked := [makingFile, .request (fun i => .counting (20 + i)) (.link 12 1 "b"),
      .request (fun i => .counting (30 + i)) (.forget 12 1)]
    let listed := [makingFile, .opendir (fun i => .counting (20 + i)) 1,
      .readdir (fun i => .counting (22 + i)) 1 0 9,
      .request (fun i => .counting (30 + i)) (.forget 12 1)]
    let lost := fun t : Dialogue => t.kernel.count 12 = 1 ∧ t.kernel.value 12 = some 10 ∧
      t.daemon.n 12 = none ∧
      (AloeFuse.nodeOf 12 t.daemon).2 = .error .keyError ∧
      (statById (.counting 40) (t.daemon.sys.conns 0).cipher t.daemon.sys.db 1 10).isOk
    let offered := fun port =>
      GuardedRuns.Guards (next Crypto.xorStream Msgpack.refusing mountedFuse port) Offered
        mountedDialogue
    (offered .python linked ∧ lost (run .python linked)) ∧
      (offered .rust linked ∧ lost (run .rust linked)) ∧
    (offered .python listed ∧ lost (run .python listed)) ∧
    (run .rust [makingFile, .request (fun i => .counting (20 + i)) (.forget 12 1),
    .opendir (fun i => .counting (30 + i)) 1,
      .readdir (fun i => .counting (32 + i)) 1 0 9]).kernel.count 12 = 0 ∧
    (run .rust [makingFile, .request (fun i => .counting (20 + i)) (.forget 12 1),
    .opendir (fun i => .counting (30 + i)) 1,
      .readdir (fun i => .counting (32 + i)) 1 0 9]).daemon.n 12 = some 10 := by
  intro run linked listed lost offered
  refine ⟨⟨⟨trivial, trivial, offered_forget ?_, trivial⟩, ?_⟩,
    ⟨⟨trivial, trivial, offered_forget ?_, trivial⟩, ?_⟩,
    ⟨⟨trivial, trivial, trivial, offered_forget ?_, trivial⟩, ?_⟩, ?_, ?_⟩
  all_goals decide +kernel

end Dialogue

end Aloelite
