import Aloelite.DeletedRecords

/-! Over any run of the manager's calls a record opens the volume that was made for it, as long as
the names given in a file are told apart. -/
namespace Aloelite

open KeyedRows Dicts Fallible

variable {C : Crypto} {M : Msgpack} {ids : IdSpelling} {hash : Bytes → Bytes}
  {cfg : ManagerConfig} {d : Draws} {s : Sys} {c : ConnId} {name : String} {v : VolumeId}
  {pin : Option Bytes} {db : Db}

namespace Book

variable {b : Book} {fid : String} {rec : VolumeStore.VolumeRecord}
  {store : VolumeStore.JsonVolumeStore}

/-! ### Runs -/

theorem Matched.step (h : b.Matched ids cfg) (l : ManagerLabel)
    (hnamed : l.call.Named ids cfg b l.draws) :
    (b.step C M ids hash cfg l).Matched ids cfg := by
  obtain ⟨call, d⟩ := l
  cases call with
  | create body w =>
    have hstep : b.step C M ids hash cfg ⟨.create body w, d⟩ =
        if (b.m.create C M cfg d body w).2 = 201 then
          { b with m := (b.m.create C M cfg d body w).1,
                   made := inscribe b.made [(w.volumes 0, d.create.uuid)] }
        else { b with m := (b.m.create C M cfg d body w).1 } := rfl
    rw [hstep]
    rcases h.createCall (C := C) (M := M)
      (d := d) hnamed with ⟨hstatus, hmatched⟩ | ⟨hstatus, hkeeps⟩
    · rw [if_pos hstatus]
      exact hmatched
    · rw [if_neg hstatus]
      exact h.keeps hkeeps
  | upload u w => exact h.upload hnamed
  | delete vid joined =>
    cases hget : b.m.store.get vid with
    | some rec =>
      have hstep : b.step C M ids hash cfg ⟨.delete vid joined, d⟩ =
          if (b.m.delete C M cfg d vid joined).2 = 204 then
            { b with m := (b.m.delete C M cfg d vid joined).1,
                     forgotten := b.forget (b.m.delete C M cfg d vid joined).1 rec }
          else { b with m := (b.m.delete C M cfg d vid joined).1 } := by
        simp only [Book.step, hget]
        rfl
      have hdeleted := Matched.delete joined (C := C) (M := M) (d := d) h hget
      rw [hstep, if_pos hdeleted.1]
      exact hdeleted.2
    | none =>
      have hstep : b.step C M ids hash cfg ⟨.delete vid joined, d⟩ =
          { b with m := (b.m.delete C M cfg d vid joined).1 } := by
        simp only [Book.step, hget]
        rfl
      rw [hstep]
      apply h.keeps
      rw [Manager.delete, hget]
      exact Manager.Keeps.refl _
  | mount vid body start =>
    apply h.keeps
    change b.m.Keeps cfg (b.m.mount C M ids cfg d vid body start).1
    rw [Manager.mount]
    split
    · exact Manager.Keeps.refl _
    next rec hget =>
      obtain ⟨v, -, hserves⟩ := h.serves (mem_of_lookup hget)
      split
      · exact hserves.mountDirect
      · exact hserves.mountFuse
  | unmount vid client joined => exact h.keeps Manager.unmount_keeps
  | dav vid pin =>
    apply h.keeps
    change b.m.Keeps cfg (b.m.dav C M ids hash d vid pin).1
    cases hfound : b.m.requireVolume vid with
    | error status =>
      rw [Manager.dav, hfound]
      exact Manager.Keeps.refl _
    | ok rec =>
      have hmem : rec ∈ b.m.store.list := by
        rw [Manager.requireVolume] at hfound
        split at hfound
        next hget =>
          obtain rfl := Except.ok.inj hfound
          exact mem_of_lookup hget
        · split at hfound
          · cases hfound
          next hfilter =>
            obtain rfl := Except.ok.inj hfound
            apply List.mem_of_mem_filter (p := fun r => decide (r.name = vid))
            exact hfilter ▸ List.mem_singleton_self _
          · cases hfound
      obtain ⟨v, -, hserves⟩ := h.serves hmem
      exact hserves.dav hfound
  | s3 bucket mayAccess =>
    apply h.keeps
    change b.m.Keeps cfg (b.m.s3 C M ids d bucket mayAccess).1
    cases hfound : b.m.store.list.find? (fun r => r.name = bucket) with
    | none =>
      rw [Manager.s3, hfound]
      split
      · exact Manager.Keeps.refl _
      · exact Manager.Keeps.refl _
    | some rec =>
      obtain ⟨v, -, hserves⟩ := h.serves (List.mem_of_find?_eq_some hfound)
      exact hserves.s3 hfound
  | work path ls =>
    apply h.keeps
    exact Manager.Keeps.setFiles
      (DirectSessionRegistry.keepsRoster_update (steps_keepRoster hnamed))
  | shutdown late => exact h.keeps (Manager.shutdown_keeps h.keyed)

/-- No records, and no files. -/
structure Blank (b : Book) : Prop where
  volumes : b.m.store.mem.volumes = []
  filesystems : b.m.store.mem.filesystems = []
  files : ∀ p, b.m.front.reg.files p = {}
  forgotten : ∀ fid, b.forgotten fid = []

theorem Blank.matched (h : b.Blank) : b.Matched ids cfg := by
  have hroster : ∀ fid, (b.fileOf cfg fid).db.roster = [] := by
    intro fid
    rw [fileOf, h.files]
    rfl
  have hlist : ∀ rec, rec ∉ b.m.store.list := by
    intro rec hrec
    change rec ∈ b.m.store.mem.volumes at hrec
    rw [h.volumes] at hrec
    cases hrec
  refine ⟨⟨?_, ?_⟩, fun rec hrec => absurd hrec (hlist rec), ?_, ?_, fun fid _ =>
    ⟨hroster fid, h.forgotten fid⟩, ?_,
    fun rec hrec => absurd hrec (hlist rec), ?_, fun rec hrec => absurd hrec (hlist rec)⟩
  · rw [h.volumes]
    exact List.nodup_nil
  · rw [h.filesystems]
    exact List.nodup_nil
  · intro f hf
    rw [h.filesystems] at hf
    cases hf
  · intro p
    rw [h.files]
    exact empty_sound
  · intro fid
    rw [hroster]
    exact WellNamed.nil
  · intro fid
    rw [claimed, VolumeStore.JsonVolumeStore.volumesOf, h.volumes, h.forgotten, hroster]
    exact List.Perm.refl _

variable (C M ids cfg) in
/-- Whatever is asked for the volume of a record's name, by `unlock`, by `attach` or by a FUSE
thread, in the file as it is: a mount is of the volume `v`, and the file has no new volume. -/
def OpensOwn (b : Book) (rec : VolumeStore.VolumeRecord) (v : VolumeId) : Prop :=
  ∀ s : Sys, s.db = (b.fileOf cfg rec.fsId).db → ∀ (d : Draws) (c : ConnId) (pin : Option Bytes),
    (∀ create, OpensOnly s (fsMount C M ids.read d s c rec.name pin create) v) ∧
      OpensOnly s (fuseMount C M ids d s c rec.name pin) v

end Book

/-- While volumes come with names of their own, a record's name opens the volume the record was
made for; the volumes of a file are those of its records and of the records deleted. -/
theorem records_open_own {b₀ b : Book} (hblank : b₀.Blank)
    (hrun : GuardedRuns.Run (Book.step C M ids hash cfg)
      (fun b l => l.call.Named ids cfg b l.draws) b₀ b) :
    b.OneToOne cfg ∧ ∀ rec ∈ b.m.store.list, ∃ v, b.made rec.id = some v ∧
      b.m.store.sqlitePathOf rec = .ok (Manager.fsPath cfg rec.fsId) ∧
        (∀ e, b.m.front.reg.sessions rec.id = some e → e.path = Manager.fsPath cfg rec.fsId) ∧
          b.OpensOwn C M ids cfg rec v := by
  have hmatched : b.Matched ids cfg := by
    refine GuardedRuns.Run.invariant (P := fun b : Book => b.Matched ids cfg) ?_ hrun hblank.matched
    intro b l hnamed h
    exact h.step l hnamed
  refine ⟨hmatched.perm, ?_⟩
  intro rec hrec
  obtain ⟨v, hmade, hserves⟩ := hmatched.serves hrec
  refine ⟨v, hmade, hserves.path, hmatched.sessions rec hrec, ?_⟩
  intro s hdb d c pin
  have hsound : s.db.Sound := by
    rw [hdb]
    exact hmatched.sound _
  have hnames : WellNamed ids s.db.roster := by
    rw [hdb]
    exact hmatched.named rec.fsId
  have hmem : (v, some rec.name) ∈ s.db.roster := by
    rw [hdb]
    exact hserves.suits.mem
  exact ⟨fun create => (fsMount_opens pin hnames hmem create).only hsound,
    (fuseMount_opens pin hnames hmem).only hsound⟩

/-! ### Two volumes of one file -/

instance WellNamed.decidable (ids : IdSpelling) (roster : List (VolumeId × Option String)) :
    Decidable (WellNamed ids roster) :=
  decidable_of_iff ((∀ p ∈ roster, p.2 ≠ none ∧ p.2 ≠ some "") ∧ (roster.map Prod.snd).Nodup ∧
    ∀ p ∈ roster, ∀ q ∈ roster, p.2 ≠ some (ids.text q.1)) (by
      constructor
      · rintro ⟨hnamed, hdistinct, hunspelt⟩
        refine ⟨?_, hdistinct, hunspelt⟩
        intro p hp
        obtain ⟨hsome, hne⟩ := hnamed p hp
        obtain ⟨name, hname⟩ := Option.ne_none_iff_exists'.mp hsome
        refine ⟨name, ?_, hname⟩
        rintro rfl
        exact hne hname
      · intro h
        refine ⟨?_, h.distinct, h.unspelt⟩
        intro p hp
        obtain ⟨name, hne, hname⟩ := h.named p hp
        rw [hname]
        exact ⟨by simp, by simpa using hne⟩)

def emptyBook : Book := { m := emptyManager }

theorem emptyBook_blank : emptyBook.Blank := ⟨rfl, rfl, fun _ => rfl, fun _ => rfl⟩

/-- A volume that is made in a file of its own, or in that of another. -/
def volumeMade (n : ℕ) (name vid : String) (fsId : Option String) : ManagerLabel :=
  drawing n (.create { name := name, fsId := fsId }
    { volumes := fun _ => vid, fs := "fs", now := 0 })

/-- A file with one volume. -/
def oneVolumeFile (name : Option String) : Sys :=
  step Crypto.xorStream Msgpack.refusing {} ⟨.counting 0, 0, .createVolume name 128 none .none⟩

theorem oneVolumeFile_sound (name : Option String) : (oneVolumeFile name).db.Sound :=
  step_sound empty_sound

def uploaded (n : ℕ) (name : Option String) : ManagerLabel :=
  drawing n (.upload { file := oneVolumeFile name, filename := "old.sqlite",
                       createdAt := fun _ => 0 }
    { volumes := fun _ => "up", fs := "upfs", now := 0 })

/-- The book after some calls. -/
def booked (ls : List ManagerLabel) : Book :=
  ls.foldl (Book.step Crypto.xorStream Msgpack.refusing IdSpelling.tally (fun p => p) homeManager)
    emptyBook

/-- Two volumes in one file and one in a file that is brought; the first is unlocked and
deleted. -/
def madeAndDeleted : List ManagerLabel :=
  [volumeMade 0 "one" "a" none, volumeMade 20 "two" "b" (some "fs"), uploaded 40 (some "three"),
    drawing 60 (.dav "one" none),
    drawing 80 (.delete "a" true)]

theorem records_open_own_madeAndDeleted :
    let b := booked madeAndDeleted
    b.OneToOne homeManager ∧ ∃ rec v, b.m.store.get "b" = some rec ∧ b.made "b" = some v ∧
      b.OpensOwn Crypto.xorStream Msgpack.refusing IdSpelling.tally homeManager rec v := by
  intro b
  have hguards : GuardedRuns.Guards
      (Book.step Crypto.xorStream Msgpack.refusing IdSpelling.tally (fun p => p) homeManager)
      (fun b l => l.call.Named IdSpelling.tally homeManager b l.draws) emptyBook
        madeAndDeleted := by
    refine ⟨?_, ?_, ?_, trivial, trivial, trivial⟩
    · unfold volumeMade drawing ManagerCall.Named Manager.Unused
      decide +kernel
    · unfold volumeMade drawing ManagerCall.Named Manager.Unused
      decide +kernel
    · refine ⟨by decide +kernel, oneVolumeFile_sound _, by decide +kernel, by decide +kernel, ?_⟩
      unfold Manager.Unused
      decide +kernel
  obtain ⟨hperm, hopens⟩ := records_open_own emptyBook_blank (GuardedRuns.Run.foldl hguards)
  refine ⟨hperm, ?_⟩
  have hthere : (b.m.store.get "b").isSome := by decide +kernel
  obtain ⟨rec, hrec⟩ := Option.isSome_iff_exists.mp hthere
  obtain ⟨v, hmade, -, -, hown⟩ := hopens rec (mem_of_lookup hrec)
  refine ⟨rec, v, hrec, ?_, hown⟩
  rw [← key_of_lookup hrec]
  exact hmade

/-- A deleted record leaves its volume in the file of another; and a volume that came without a
name is not the one that its record unlocks, which is made anew. -/
theorem records_open_others :
    let b := booked madeAndDeleted
    let c := booked [uploaded 40 none]
    let s := c.fileOf homeManager "upfs"
    let r := fsMount Crypto.xorStream Msgpack.refusing IdSpelling.tally.read ⟨.counting 60,
      .counting 64, .counting 68, [1]⟩ s 9
      ((c.m.store.get "up").map (fun rec => rec.name) |>.getD "") none true
    (b.claimed "fs" = [20] ∧ (b.fileOf homeManager "fs").db.roster.map Prod.fst = [0, 20]) ∧
      c.made "up" = some 0 ∧ s.db.roster.map Prod.fst = [0] ∧ r.1.db.roster.map Prod.fst = [0, 60] ∧
      r.2 = .ok 64 ∧
        (r.1.db.mount? 64).map MountRow.volumeId = some 60 := by
  decide +kernel

end Aloelite
