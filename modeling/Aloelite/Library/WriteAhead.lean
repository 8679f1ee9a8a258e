import Mathlib.Data.List.Induction
import Mathlib.Tactic

/-! A file of pages behind a write-ahead log: a commit appends its frames, a checkpoint
copies frames into the file page by page, and the log starts again once all of it is in
the file. -/
namespace WriteAhead

variable {β : Type*}

/-- A file of pages. What lies past the end is not read. -/
structure File (β : Type*) where
  size : ℕ
  page : ℕ → β

/-- The frames of one transaction and the size of the database after it. -/
structure Commit (β : Type*) where
  frames : List (ℕ × β)
  size : ℕ

/-- The last frame of a page. -/
def Commit.frame? (c : Commit β) (p : ℕ) : Option β :=
  (c.frames.reverse.find? (fun f => f.1 == p)).map Prod.snd

/-- The database after a transaction. -/
def Commit.apply (c : Commit β) (f : File β) : File β :=
  ⟨c.size, fun p => (c.frame? p).getD (f.page p)⟩

/-- Every page past an end has a frame. -/
def Commit.Fills (c : Commit β) (n : ℕ) : Prop := ∀ p < c.size, n ≤ p → (c.frame? p).isSome = true

instance (c : Commit β) (n : ℕ) : Decidable (c.Fills n) :=
  inferInstanceAs (Decidable (∀ p < c.size, _))

def replay (f : File β) (log : List (Commit β)) : File β := log.foldl (fun f c => c.apply f) f

/-- The newest frame of a page in a log. -/
def newest : List (Commit β) → ℕ → Option β
  | [], _ => none
  | c :: log, p => (newest log p).or (c.frame? p)

/-- Two files of the same content. -/
def SamePages (f g : File β) : Prop := f.size = g.size ∧ ∀ p < f.size, f.page p = g.page p

/-- A page written in place. What a file grows by and is not written reads as the default. -/
def File.write [Inhabited β] (f : File β) (p : ℕ) (b : β) : File β :=
  ⟨max f.size (p + 1), fun q => if q = p then b else if q < f.size then f.page q else default⟩

def File.truncate [Inhabited β] (f : File β) (n : ℕ) : File β :=
  ⟨n, fun p => if p < f.size then f.page p else default⟩

section

variable {f g h : File β} {c : Commit β} {log log' : List (Commit β)} {p m k : ℕ} {b : β}

/-! ### Logs -/

theorem replay_append : replay f (log ++ log') = replay (replay f log) log' := List.foldl_append

theorem replay_snoc : replay f (log ++ [c]) = c.apply (replay f log) := by
  rw [replay_append]
  rfl

theorem newest_snoc : newest (log ++ [c]) p = (c.frame? p).or (newest log p) := by
  induction log with
  | nil =>
    change Option.or none (c.frame? p) = (c.frame? p).or none
    rw [Option.none_or, Option.or_none]
  | cons d log ih => rw [List.cons_append, newest, ih, newest, Option.or_assoc]

/-- A page of the database is its newest frame, and that of the file where it has none. -/
theorem replay_page : (replay f log).page p = (newest log p).getD (f.page p) := by
  induction log using List.reverseRecOn with
  | nil => rfl
  | append_singleton log c ih =>
    rw [replay_snoc, newest_snoc]
    change (c.frame? p).getD ((replay f log).page p) = _
    rw [ih]
    cases c.frame? p with
    | none => rfl
    | some b => rfl

theorem SamePages.refl : SamePages f f := ⟨rfl, fun _ _ => rfl⟩

theorem SamePages.symm (h : SamePages f g) : SamePages g f :=
  ⟨h.1.symm, fun p hp => (h.2 p (h.1 ▸ hp)).symm⟩

theorem SamePages.trans (hfg : SamePages f g) (hgh : SamePages g h) : SamePages f h :=
  ⟨hfg.1.trans hgh.1, fun p hp => (hfg.2 p hp).trans (hgh.2 p (hfg.1 ▸ hp))⟩

/-- A transaction that writes every page it adds says all of the database after it. -/
theorem SamePages.apply (h : SamePages f g) (hc : c.Fills f.size) :
    SamePages (c.apply f) (c.apply g) := by
  refine ⟨rfl, fun p hp => ?_⟩
  change (c.frame? p).getD (f.page p) = (c.frame? p).getD (g.page p)
  by_cases hin : p < f.size
  · rw [h.2 p hin]
  · obtain ⟨b, hb⟩ := Option.isSome_iff_exists.mp (hc p hp (by omega))
    rw [hb]
    rfl

/-! ### Logs whose transactions write every page they add -/

/-- Each transaction of a log writes the pages it adds to the ones before it. -/
def Grown (f : File β) (log : List (Commit β)) : Prop :=
  ∀ m (c : Commit β), log[m]? = some c → c.Fills (replay f (log.take m)).size

theorem Grown.snoc (h : Grown f log) (hc : c.Fills (replay f log).size) : Grown f (log ++ [c]) := by
  intro m d hd
  rcases Nat.lt_trichotomy m log.length with hm | rfl | hm
  · rw [List.getElem?_append_left hm] at hd
    rw [List.take_append_of_le_length (by omega)]
    exact h m d hd
  · rw [List.getElem?_concat_length] at hd
    obtain rfl := Option.some.inj hd
    rw [List.take_left]
    exact hc
  · rw [List.getElem?_eq_none (by rw [List.length_append, List.length_singleton]; omega)] at hd
    cases hd

theorem take_succ_of (hm : m < log.length) : log.take (m + 1) = log.take m ++ [log[m]] := by
  rw [List.take_add_one, List.getElem?_eq_getElem hm]
  rfl

theorem newest_take_none (h : newest (log.take m) p = none) (hk : k ≤ m) :
    newest (log.take k) p = none := by
  obtain ⟨d, rfl⟩ := Nat.exists_eq_add_of_le hk
  rw [List.take_add] at h
  generalize (log.drop k).take d = rest at h
  induction rest using List.reverseRecOn with
  | nil => rwa [List.append_nil] at h
  | append_singleton rest c ih =>
    rw [← List.append_assoc, newest_snoc, Option.or_eq_none_iff] at h
    exact ih h.2

/-- A page without a frame was there all along. -/
theorem Grown.kept (h : Grown f log) (hp : p < (replay f (log.take m)).size)
    (hnone : newest (log.take m) p = none) (hm : m ≤ log.length) (hk : k ≤ m) :
    p < (replay f (log.take k)).size := by
  induction m with
  | zero => rwa [Nat.le_zero.mp hk]
  | succ m ih =>
    rcases Nat.lt_or_eq_of_le hk with hlt | rfl
    · have hlast : m < log.length := by omega
      have hfills := h m log[m] (List.getElem?_eq_getElem hlast)
      rw [take_succ_of hlast, newest_snoc, Option.or_eq_none_iff] at hnone
      rw [take_succ_of hlast, replay_snoc] at hp
      have hbefore : p < (replay f (log.take m)).size := by
        by_contra hpast
        have hframe := hfills p hp (by omega)
        rw [hnone.1] at hframe
        cases hframe
      exact ih hbefore hnone.2 (by omega) (by omega)
    · exact hp

end

/-! ### The file, its log and its readers -/

/-- A checkpoint under way: how much of the log it copies, the pages still to come, and
whether it keeps writers out. -/
structure Checkpoint where
  limit : ℕ
  todo : List ℕ
  locked : Bool

/-- The file and the log, how far open readers read the log, how much of it is in the
file. The rest is kept for the statements: the file as it was when the log started, the
most transactions a copied page came from, the committed databases in order. -/
structure Wal (β : Type*) where
  main : File β
  log : List (Commit β) := []
  readers : List ℕ := []
  checkpoint : Option Checkpoint := none
  backfilled : ℕ := 0
  base : File β := main
  reach : ℕ := 0
  past : List (File β) := []
  current : File β := main

/-- What a connection does. -/
inductive Act (β : Type*) where
  | commit (c : Commit β)
  | read
  | endRead (i : ℕ)
  | begin (limit : ℕ) (todo : List ℕ) (locked : Bool)
  | copy (p : ℕ)
  | finish
  | restart

/-- The database after so many transactions. -/
def Wal.committed (w : Wal β) (j : ℕ) : Option (File β) := (w.past ++ [w.current])[j]?

/-- How many transactions had ended when the log started. -/
def Wal.start (w : Wal β) : ℕ := w.past.length - w.log.length

/-- A checkpoint stops at the oldest reader. It copies pages of the frames up to there,
and if that is the whole log every one of them; what is in the file already is not
copied again. -/
def Wal.MayBegin (w : Wal β) (limit : ℕ) (todo : List ℕ) : Prop :=
  w.checkpoint.isNone = true ∧ w.backfilled ≤ limit ∧ limit ≤ w.log.length ∧
    (∀ m ∈ w.readers, limit ≤ m) ∧
    (limit = w.backfilled → todo = []) ∧ (∀ p ∈ todo, (newest (w.log.take limit) p).isSome = true) ∧
      (w.backfilled < limit → limit = w.log.length → ∀ p < w.current.size,
      (newest w.log p).isSome = true → p ∈ todo)

/-- The log starts again when all of it is in the file and no reader is behind. -/
def Wal.MayRestart (w : Wal β) : Prop :=
  w.checkpoint.isNone = true ∧ w.backfilled = w.log.length ∧ ∀ m ∈ w.readers, m = w.log.length

def Wal.Allowed (w : Wal β) : Act β → Prop
  | .commit c => (∀ k ∈ w.checkpoint, k.locked = false) ∧ c.Fills w.current.size
  | .read => True
  | .endRead _ => True
  | .begin limit todo _ => w.MayBegin limit todo
  | .copy p => ∃ k ∈ w.checkpoint, p ∈ k.todo
  | .finish => ∃ k ∈ w.checkpoint, k.todo = []
  | .restart => w.MayRestart

instance (w : Wal β) (limit : ℕ) (todo : List ℕ) : Decidable (w.MayBegin limit todo) :=
  inferInstanceAs (Decidable (_ ∧ _ ∧ _ ∧ _ ∧ _ ∧ _ ∧ _))

instance (w : Wal β) : Decidable w.MayRestart := inferInstanceAs (Decidable (_ ∧ _ ∧ _))

instance (w : Wal β) : ∀ a : Act β, Decidable (w.Allowed a)
  | .commit c => inferInstanceAs (Decidable (_ ∧ c.Fills w.current.size))
  | .read => isTrue trivial
  | .endRead _ => isTrue trivial
  | .begin limit todo _ => inferInstanceAs (Decidable (w.MayBegin limit todo))
  | .copy p => inferInstanceAs (Decidable (∃ k ∈ w.checkpoint, p ∈ k.todo))
  | .finish => inferInstanceAs (Decidable (∃ k ∈ w.checkpoint, k.todo = []))
  | .restart => inferInstanceAs (Decidable w.MayRestart)

section

variable [Inhabited β]

/-- One page of a checkpoint. -/
def Wal.copyPage (w : Wal β) (k : Checkpoint) (p : ℕ) : Wal β :=
  match newest (w.log.take k.limit) p with
  | none => w
  | some b =>
    { w with
      main := w.main.write p b
      checkpoint := some { k with todo := k.todo.erase p }
      reach := max w.reach k.limit }

/-- The end of a checkpoint. One that has copied the whole log cuts the file to the size
of the database. -/
def Wal.endCheckpoint (w : Wal β) (k : Checkpoint) : Wal β :=
  match w.log.getLast? with
  | none => { w with checkpoint := none }
  | some c =>
    if w.backfilled < k.limit ∧ k.limit = w.log.length then
      { w with main := w.main.truncate c.size, checkpoint := none, backfilled := k.limit,
               reach := k.limit }
    else { w with checkpoint := none, backfilled := k.limit }

def Wal.step (w : Wal β) : Act β → Wal β
  | .commit c => { w with
    log := w.log ++ [c], past := w.past ++ [w.current], current := c.apply w.current }
  | .read => { w with readers := w.log.length :: w.readers }
  | .endRead i => { w with readers := w.readers.eraseIdx i }
  | .begin limit todo locked => { w with checkpoint := some ⟨limit, todo, locked⟩ }
  | .copy p =>
    match w.checkpoint with
    | none => w
    | some k => w.copyPage k p
  | .finish =>
    match w.checkpoint with
    | none => w
    | some k => w.endCheckpoint k
  -- the writer goes back to the start of the log; the readers left see the database file alone
  | .restart =>
    { w with log := [], readers := w.readers.map (fun _ => 0), backfilled := 0,
             base := w.main, reach := 0 }

end

/-! ### What every run keeps -/

/-- A checkpoint under way. Where it copies the whole log, a page with a frame is in the
file or still to come. -/
structure Wal.Copies (w : Wal β) (k : Checkpoint) : Prop where
  backfilled_le : w.backfilled ≤ k.limit
  limit_le : k.limit ≤ w.log.length
  idle : k.limit = w.backfilled → k.todo = []
  framed : ∀ p ∈ k.todo, (newest (w.log.take k.limit) p).isSome = true
  copied : w.backfilled < k.limit → k.limit = w.log.length → ∀ p < w.current.size, ∀ b,
    newest w.log p = some b →
    p ∈ k.todo ∨ (p < w.main.size ∧ w.main.page p = b)

/-- The log lists the last databases that were committed. Away from the frames that a
checkpoint may have copied the file is what it was, and it is the last database when all
of the log is in it. -/
structure Wal.Sound (w : Wal β) : Prop where
  placed : w.log.length ≤ w.past.length
  shown : ∀ m ≤ w.log.length, ∃ f, w.committed (w.start + m) = some f ∧
    SamePages f (replay w.base (w.log.take m))
  grown : Grown w.base w.log
  reach_le : w.reach ≤ w.log.length
  untouched : ∀ p, (∀ m ≤ w.reach, p < (replay w.base (w.log.take m)).size) →
    newest (w.log.take w.reach) p = none →
    p < w.main.size ∧ w.main.page p = w.base.page p
  backfilled_le : w.backfilled ≤ w.log.length
  whole : w.backfilled = w.log.length → SamePages w.main w.current
  under : ∀ k, w.checkpoint = some k → w.Copies k

/-- A file without a log. -/
theorem Wal.sound_of_file (f : File β) : ({ main := f } : Wal β).Sound where
  placed := Nat.le_refl 0
  shown := by
    intro m hm
    obtain rfl := Nat.le_zero.mp hm
    exact ⟨f, rfl, SamePages.refl⟩
  grown := by
    intro m c hc
    cases hc
  reach_le := Nat.le_refl 0
  untouched := fun p hp _ => ⟨hp 0 (Nat.le_refl 0), rfl⟩
  backfilled_le := Nat.le_refl 0
  whole := fun _ => SamePages.refl
  under := by
    intro k hk
    cases hk

section

variable {w : Wal β} {k : Checkpoint} {c : Commit β} {p limit : ℕ} {b : β} {todo : List ℕ}
  {locked : Bool} {a : Act β}

theorem Wal.Sound.committed_current (h : w.Sound) :
    w.committed (w.start + w.log.length) = some w.current := by
  rw [Wal.committed, Wal.start, Nat.sub_add_cancel h.placed, List.getElem?_concat_length]

/-- The last database is what the log makes of the file. -/
theorem Wal.Sound.current_same (h : w.Sound) : SamePages w.current (replay w.base w.log) := by
  obtain ⟨f, hf, hsame⟩ := h.shown w.log.length (Nat.le_refl _)
  rw [h.committed_current] at hf
  obtain rfl := Option.some.inj hf
  rwa [List.take_length] at hsame

/-- A page without a frame is in the file as it was. -/
theorem Wal.Sound.page_of_none (h : w.Sound) {m : ℕ} (hreach : w.reach ≤ m) (hm : m ≤ w.log.length)
    (hp : p < (replay w.base (w.log.take m)).size) (hnone : newest (w.log.take m) p = none) :
    p < w.main.size ∧ w.main.page p = (replay w.base (w.log.take m)).page p := by
  have hkept : ∀ k ≤ w.reach, p < (replay w.base (w.log.take k)).size :=
    fun k hk => h.grown.kept hp hnone hm (by omega)
  obtain ⟨hin, hpage⟩ := h.untouched p hkept (newest_take_none hnone hreach)
  refine ⟨hin, ?_⟩
  rw [hpage, replay_page, hnone]
  rfl

variable [Inhabited β]

theorem Wal.start_commit : (w.step (.commit c)).start = w.start := by
  change (w.past ++ [w.current]).length - (w.log ++ [c]).length = w.past.length - w.log.length
  rw [List.length_append, List.length_append, List.length_singleton, List.length_singleton,
    Nat.add_sub_add_right]

theorem Wal.Sound.commit (h : w.Sound) (hc : c.Fills w.current.size) :
    (w.step (.commit c)).Sound := by
  have hlength : (w.log ++ [c]).length = w.log.length + 1 := List.length_append
  have htake : ∀ m ≤ w.log.length, (w.log ++ [c]).take m = w.log.take m :=
    fun m hm => List.take_append_of_le_length hm
  have hreplay : replay w.base (w.log ++ [c]) = c.apply (replay w.base w.log) := replay_snoc
  -- one frame more in the log: what is said of the frames up to an older mark is said as before
  refine ⟨?_, ?_, ?_, ?_, ?_, ?_, ?_, ?_⟩
  · change (w.log ++ [c]).length ≤ (w.past ++ [w.current]).length
    rw [hlength, List.length_append, List.length_singleton]
    exact Nat.succ_le_succ h.placed
  · intro m hm
    change m ≤ (w.log ++ [c]).length at hm
    rw [hlength] at hm
    rw [Wal.start_commit]
    change ∃ f, (w.past ++ [w.current] ++ [c.apply w.current])[w.start + m]? = some f ∧
      SamePages f (replay w.base ((w.log ++ [c]).take m))
    rcases Nat.lt_or_eq_of_le hm with hlt | rfl
    · obtain ⟨f, hf, hsame⟩ := h.shown m (by omega)
      have hin : w.start + m < (w.past ++ [w.current]).length := (List.getElem?_eq_some_iff.mp hf).1
      refine ⟨f, ?_, ?_⟩
      · rw [List.getElem?_append_left hin]
        exact hf
      · rw [htake m (by omega)]
        exact hsame
    · have hlast : w.start + (w.log.length + 1) = (w.past ++ [w.current]).length := by
        rw [Wal.start, List.length_append, List.length_singleton]
        have hplaced := h.placed
        omega
      refine ⟨c.apply w.current, ?_, ?_⟩
      · rw [hlast, List.getElem?_concat_length]
      · rw [← hlength, List.take_length, hreplay]
        exact h.current_same.apply hc
  · apply h.grown.snoc
    rwa [← h.current_same.1]
  · change w.reach ≤ (w.log ++ [c]).length
    rw [hlength]
    exact Nat.le_succ_of_le h.reach_le
  · change ∀ p, (∀ m ≤ w.reach, p < (replay w.base ((w.log ++ [c]).take m)).size) →
      newest ((w.log ++ [c]).take w.reach) p = none → p < w.main.size ∧ w.main.page p =
      w.base.page p
    intro p hp hnone
    rw [htake w.reach h.reach_le] at hnone
    apply h.untouched p _ hnone
    intro m hm
    have hpm := hp m hm
    rwa [htake m (hm.trans h.reach_le)] at hpm
  · change w.backfilled ≤ (w.log ++ [c]).length
    rw [hlength]
    exact Nat.le_succ_of_le h.backfilled_le
  · intro hwhole
    change w.backfilled = (w.log ++ [c]).length at hwhole
    have hle := h.backfilled_le
    omega
  · intro k hk
    obtain ⟨hback, hlimit, hidle, hframed, -⟩ := h.under k hk
    refine ⟨hback, ?_, hidle, ?_, ?_⟩
    · change k.limit ≤ (w.log ++ [c]).length
      omega
    · change ∀ p ∈ k.todo, (newest ((w.log ++ [c]).take k.limit) p).isSome = true
      rwa [htake k.limit hlimit]
    · intro _ hfull
      change k.limit = (w.log ++ [c]).length at hfull
      omega

theorem Wal.Sound.begin (h : w.Sound) (hb : w.MayBegin limit todo) :
    (w.step (.begin limit todo locked)).Sound := by
  obtain ⟨-, hback, hlimit, -, hidle, hframed, hall⟩ := hb
  refine ⟨h.placed, h.shown, h.grown, h.reach_le, h.untouched, h.backfilled_le, h.whole, ?_⟩
  intro k hk
  obtain rfl := Option.some.inj hk
  refine ⟨hback, hlimit, hidle, hframed, ?_⟩
  intro hless hfull p hp b hb
  exact Or.inl (hall hless hfull p hp (Option.isSome_of_mem hb))

theorem Wal.Sound.copyPage (h : w.Sound) (hk : w.checkpoint = some k) (hp : p ∈ k.todo) :
    (w.copyPage k p).Sound := by
  obtain ⟨hback, hlimit, hidle, hframed, hcopied⟩ := h.under k hk
  obtain ⟨b, hb⟩ := Option.isSome_iff_exists.mp (hframed p hp)
  rw [Wal.copyPage, hb]
  refine ⟨h.placed, h.shown, h.grown, max_le h.reach_le hlimit, ?_, h.backfilled_le, ?_, ?_⟩
  · intro q hq hnone
    change newest (w.log.take (max w.reach k.limit)) q = none at hnone
    obtain ⟨hin, hpage⟩ :=
      h.untouched q (fun m hm => hq m (hm.trans (le_max_left _ _)))
        (newest_take_none hnone (le_max_left _ _))
    have hne : q ≠ p := by
      rintro rfl
      rw [newest_take_none hnone (le_max_right _ _)] at hb
      cases hb
    refine ⟨lt_of_lt_of_le hin (le_max_left _ _), ?_⟩
    change (if q = p then b else if q < w.main.size then w.main.page q else default) = w.base.page q
    rw [if_neg hne, if_pos hin, hpage]
  · -- a log that is in the file already is not copied again
    intro hwhole
    change w.backfilled = w.log.length at hwhole
    rw [hidle (by omega)] at hp
    cases hp
  · intro k' hk'
    obtain rfl := Option.some.inj hk'
    refine ⟨hback, hlimit, ?_, fun q hq => hframed q (List.mem_of_mem_erase hq), ?_⟩
    · intro heq
      change k.todo.erase p = []
      rw [hidle heq]
      rfl
    · intro hless hfull q hq b' hb'
      change k.limit = w.log.length at hfull
      change q ∈ k.todo.erase p ∨ (q < max w.main.size (p + 1) ∧
        (if q = p then b else if q < w.main.size then w.main.page q else default) = b')
      by_cases hqp : q = p
      · right
        rw [hfull, List.take_length, ← hqp, hb'] at hb
        rw [if_pos hqp]
        exact ⟨by omega, (Option.some.inj hb).symm⟩
      · rcases hcopied hless hfull q hq b' hb' with hmem | ⟨hin, hpage⟩
        · exact Or.inl ((List.mem_erase_of_ne hqp).mpr hmem)
        · right
          rw [if_neg hqp, if_pos hin]
          exact ⟨lt_of_lt_of_le hin (le_max_left _ _), hpage⟩

/-- A checkpoint of the whole log leaves the last database in the file. -/
theorem Wal.Sound.truncated (h : w.Sound) (hk : w.checkpoint = some k) (htodo : k.todo = [])
    (hless : w.backfilled < k.limit) (hfull : k.limit = w.log.length)
    (hc : w.log.getLast? = some c) :
    SamePages (w.main.truncate c.size) w.current := by
  have hsame := h.current_same
  have hsize : w.current.size = c.size := by
    obtain ⟨rest, hlog⟩ := List.getLast?_eq_some_iff.mp hc
    rw [hsame.1, hlog, replay_snoc]
    rfl
  refine ⟨hsize.symm, ?_⟩
  intro p hp
  change p < c.size at hp
  have hin : p < w.main.size ∧ w.main.page p = w.current.page p := by
    rw [hsame.2 p (hsize ▸ hp)]
    have hpast : p < (replay w.base (w.log.take w.log.length)).size := by
      rw [List.take_length, ← hsame.1, hsize]
      exact hp
    cases hnewest : newest w.log p with
    | none =>
      have hpage := h.page_of_none h.reach_le (Nat.le_refl _) hpast (by rwa [List.take_length])
      rwa [List.take_length] at hpage
    | some b =>
      rw [replay_page, hnewest]
      rcases (h.under k hk).copied hless hfull p (hsize ▸ hp) b hnewest with hmem | hdone
      · rw [htodo] at hmem
        cases hmem
      · exact hdone
  change (if p < w.main.size then w.main.page p else default) = w.current.page p
  rw [if_pos hin.1, hin.2]

theorem Wal.Sound.endCheckpoint (h : w.Sound) (hk : w.checkpoint = some k) (htodo : k.todo = []) :
    (w.endCheckpoint k).Sound := by
  obtain ⟨hback, hlimit, -, -, -⟩ := h.under k hk
  rw [Wal.endCheckpoint]
  cases hc : w.log.getLast? with
  | none => exact ⟨h.placed, h.shown, h.grown, h.reach_le, h.untouched,
    h.backfilled_le, h.whole, nofun⟩
  | some c =>
    change (if w.backfilled < k.limit ∧ k.limit = w.log.length then _ else _ : Wal β).Sound
    by_cases hcut : w.backfilled < k.limit ∧ k.limit = w.log.length
    · rw [if_pos hcut]
      have hsame := h.truncated hk htodo hcut.1 hcut.2 hc
      refine ⟨h.placed, h.shown, h.grown, hlimit, ?_, hlimit, fun _ => hsame, nofun⟩
      intro p hp hnone
      have hend := hp k.limit (Nat.le_refl _)
      obtain ⟨hin, hpage⟩ :=
        h.untouched p (fun m hm => hp m (hm.trans (h.reach_le.trans_eq hcut.2.symm)))
        (newest_take_none hnone (h.reach_le.trans_eq hcut.2.symm))
      rw [hcut.2, List.take_length, ← h.current_same.1, ← hsame.1] at hend
      refine ⟨hend, ?_⟩
      change (if p < w.main.size then w.main.page p else default) = w.base.page p
      rw [if_pos hin, hpage]
    · rw [if_neg hcut]
      refine ⟨h.placed, h.shown, h.grown, h.reach_le, h.untouched, hlimit, ?_, nofun⟩
      -- all of the log is in the file only if it was there before
      intro hwhole
      change k.limit = w.log.length at hwhole
      exact h.whole (by omega)

theorem Wal.Sound.restart (h : w.Sound) (hr : w.MayRestart) : (w.step .restart).Sound := by
  have hwhole := h.whole hr.2.1
  refine ⟨Nat.zero_le _, ?_, ?_, Nat.le_refl 0, fun p hp _ => ⟨hp 0 (Nat.le_refl 0), rfl⟩,
    Nat.le_refl 0, fun _ => hwhole, ?_⟩
  · intro m hm
    obtain rfl := Nat.le_zero.mp hm
    refine ⟨w.current, ?_, hwhole.symm⟩
    change (w.past ++ [w.current])[w.past.length - 0 + 0]? = some w.current
    rw [Nat.sub_zero, Nat.add_zero, List.getElem?_concat_length]
  · intro m c hc
    cases hc
  · intro k hk
    change w.checkpoint = some k at hk
    rw [Option.isNone_iff_eq_none.mp hr.1] at hk
    cases hk

/-- What one step keeps. -/
theorem Wal.Sound.step (h : w.Sound) (ha : w.Allowed a) : (w.step a).Sound := by
  cases a with
  | commit c => exact h.commit ha.2
  | read => exact ⟨h.placed, h.shown, h.grown, h.reach_le, h.untouched, h.backfilled_le, h.whole,
      fun k hk => ⟨(h.under k hk).1, (h.under k hk).2, (h.under k hk).3,
      (h.under k hk).4, (h.under k hk).5⟩⟩
  | endRead i => exact ⟨h.placed, h.shown, h.grown, h.reach_le, h.untouched, h.backfilled_le,
    h.whole,
      fun k hk => ⟨(h.under k hk).1, (h.under k hk).2, (h.under k hk).3,
      (h.under k hk).4, (h.under k hk).5⟩⟩
  | begin limit todo locked => exact h.begin ha
  | copy p =>
    obtain ⟨k, hk, hp⟩ := ha
    have hstep : w.step (.copy p) = w.copyPage k p := by rw [Wal.step, Option.mem_def.mp hk]
    rw [hstep]
    exact h.copyPage hk hp
  | finish =>
    obtain ⟨k, hk, htodo⟩ := ha
    have hstep : w.step .finish = w.endCheckpoint k := by rw [Wal.step, Option.mem_def.mp hk]
    rw [hstep]
    exact h.endCheckpoint hk htodo
  | restart => exact h.restart ha

/-- What was committed stays so. -/
theorem Wal.committed_step {j : ℕ} {f : File β} (h : w.committed j = some f) :
    (w.step a).committed j = some f := by
  have hkept : ∀ v : Wal β, v.past = w.past → v.current = w.current → v.committed j = some f := by
    intro v hpast hcurrent
    rw [Wal.committed, hpast, hcurrent]
    exact h
  cases a with
  | commit c =>
    change (w.past ++ [w.current] ++ [c.apply w.current])[j]? = some f
    rw [List.getElem?_append_left (List.getElem?_eq_some_iff.mp h).1]
    exact h
  | read => exact h
  | endRead i => exact h
  | begin limit todo locked => exact h
  | copy p =>
    rw [Wal.step]
    split
    next => exact h
    next k hk =>
      rw [Wal.copyPage]
      split
      · exact h
      · exact hkept _ rfl rfl
  | finish =>
    rw [Wal.step]
    split
    next => exact h
    next k hk =>
      rw [Wal.endCheckpoint]
      split
      · exact h
      · split <;> exact hkept _ rfl rfl
  | restart => exact h

theorem Wal.past_step : w.past.length ≤ (w.step a).past.length := by
  have hkept : (w.step a).committed w.past.length = some w.current :=
    Wal.committed_step List.getElem?_concat_length
  have hin := (List.getElem?_eq_some_iff.mp hkept).1
  rw [List.length_append, List.length_singleton] at hin
  omega

/-! ### The file by itself -/

/-- The file holds what the first transactions of the log wrote, down to at least the
`j`th of all, and nothing a later one wrote. -/
def Wal.Settled (w : Wal β) (j : ℕ) : Prop :=
  ∃ m, w.reach ≤ m ∧ m ≤ w.log.length ∧ j ≤ w.start + m ∧
    w.main.size = (replay w.base (w.log.take m)).size ∧
    ∀ p < w.main.size, ∀ b, newest (w.log.take m) p = some b → w.main.page p = b

omit [Inhabited β] in
/-- A settled file is a committed database. -/
theorem Wal.Sound.of_settled (h : w.Sound) {j : ℕ} (hj : w.Settled j) :
    ∃ i f, j ≤ i ∧ w.committed i = some f ∧ SamePages w.main f := by
  obtain ⟨m, hreach, hm, hjm, hsize, hpages⟩ := hj
  obtain ⟨f, hf, hsame⟩ := h.shown m hm
  refine ⟨w.start + m, f, hjm, hf, ?_⟩
  have hmain : SamePages w.main (replay w.base (w.log.take m)) := by
    refine ⟨hsize, ?_⟩
    intro p hp
    cases hnewest : newest (w.log.take m) p with
    | none => exact (h.page_of_none hreach hm (hsize ▸ hp) hnewest).2
    | some b =>
      rw [hpages p hp b hnewest, replay_page, hnewest]
      rfl
  exact hmain.trans hsame.symm

/-- A log that starts again leaves the file settled. -/
theorem Wal.settled_restart {j : ℕ} (hj : j ≤ w.past.length) : (w.step .restart).Settled j := by
  refine ⟨0, Nat.le_refl 0, Nat.le_refl 0, hj, rfl, ?_⟩
  intro p hp b hnone
  cases hnone

/-- Whether a step may change the file. -/
def Act.writes : Act β → Bool
  | .copy _ => true
  | .finish => true
  | _ => false

theorem Wal.step_main (ha : a.writes = false) : (w.step a).main = w.main := by
  cases a with
  | copy p => cases ha
  | finish => cases ha
  | _ => rfl

theorem Wal.Settled.commit {j : ℕ} (hj : w.Settled j) : (w.step (.commit c)).Settled j := by
  obtain ⟨m, hreach, hm, hjm, hsize, hpages⟩ := hj
  have hlength : (w.log ++ [c]).length = w.log.length + 1 := List.length_append
  have htake : (w.log ++ [c]).take m = w.log.take m := List.take_append_of_le_length hm
  refine ⟨m, hreach, ?_, ?_, ?_, ?_⟩
  · change m ≤ (w.log ++ [c]).length
    omega
  · rwa [Wal.start_commit]
  · change w.main.size = (replay w.base ((w.log ++ [c]).take m)).size
    rw [htake, hsize]
  · change ∀ p < w.main.size, ∀ b, newest ((w.log ++ [c]).take m) p = some b → w.main.page p = b
    rwa [htake]

/-- A settled file stays so until a checkpoint writes to it. -/
theorem Wal.Settled.step {j : ℕ} (hj : w.Settled j) (h : w.Sound) (ha : a.writes = false) :
    (w.step a).Settled j := by
  cases a with
  | commit c => exact hj.commit
  | read => exact hj
  | endRead i => exact hj
  | begin limit todo locked => exact hj
  | copy p => cases ha
  | finish => cases ha
  | restart =>
    obtain ⟨m, -, hm, hjm, -⟩ := hj
    apply Wal.settled_restart
    have hplaced := h.placed
    rw [Wal.start] at hjm
    omega

end

end WriteAhead
