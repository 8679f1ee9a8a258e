import Aloelite.Downloads
import Aloelite.Library.GuardedRuns
import Aloelite.Library.WriteAhead

/-! An export of a volume: a checkpoint through SQLite, then plain reads of the main file
while other connections commit and checkpoint. -/
namespace Aloelite

open GuardedRuns WriteAhead

/-- `_wal_checkpoint_truncate`: from what the pragma answers, the frames copied and the
frames left. -/
def walCheckpointTruncate (busy log checkpointed : ℤ) : ℤ × ℤ :=
  (checkpointed, if busy = 0 then max (log - checkpointed) 0 else log)

/-- How far `_export_response` is. `since` counts the transactions that had ended when the
request came. -/
inductive ExportResponse where
  | waiting
  | checkpointing (since : ℕ)
  | checkpointed (since : ℕ) (remaining : ℤ)
  | opened (since : ℕ)
  | generating (since size : ℕ) (sent : List UInt8)
  | closed (since size : ℕ) (sent : List UInt8)
  deriving DecidableEq

/-- The database on disk and one export of it. -/
structure ExportWorld (β : Type*) where
  wal : Wal β
  response : ExportResponse := .waiting

/-- A step of SQLite for any connection, the one of the request among them, or a step of
the request. `read` is given what the system reads. -/
inductive ExportStep (β : Type*) where
  | sqlite (a : Act β)
  | request
  | truncated
  | busy (log checkpointed : ℤ)
  | openFile
  | fstat
  | read (n : ℕ)

/-- The loop of `generate` goes on while bytes remain. -/
def generate (since size : ℕ) (sent : List UInt8) : ExportResponse :=
  if sent.length < size then .generating since size sent else .closed since size sent

section

variable {β : Type*} (bytes : β → List UInt8)

/-- The file image of a database. -/
def fileBytes (f : File β) : List UInt8 := (List.range f.size).flatMap (fun p => bytes (f.page p))

/-- What is still to be read of the first `size` bytes. -/
def unread (size : ℕ) (sent : List UInt8) (f : File β) : List UInt8 :=
  ((fileBytes bytes f).take size).drop sent.length

/-- `os.read` gives at most a chunk of what remains, and nothing only at the end of the file. -/
def ExportResponse.MayRead (f : File β) (n : ℕ) : ExportResponse → Prop
  | .generating _ size sent =>
    n ≤ min streamChunk (size - sent.length) ∧ (sent.length < (fileBytes bytes f).length → 0 < n)
  | _ => False

instance (f : File β) (n : ℕ) : ∀ r : ExportResponse, Decidable (r.MayRead bytes f n)
  | .generating _ _ _ => inferInstanceAs (Decidable (_ ∧ _))
  | .waiting => isFalse id
  | .checkpointing _ => isFalse id
  | .checkpointed _ _ => isFalse id
  | .opened _ => isFalse id
  | .closed _ _ _ => isFalse id

def ExportWorld.Allowed (s : ExportWorld β) : ExportStep β → Prop
  | .sqlite a => s.wal.Allowed a
  | .truncated => s.wal.MayRestart
  | .read n => s.response.MayRead bytes s.wal.main n
  | _ => True

instance (s : ExportWorld β) : ∀ l, Decidable (s.Allowed bytes l)
  | .sqlite a => inferInstanceAs (Decidable (s.wal.Allowed a))
  | .truncated => inferInstanceAs (Decidable s.wal.MayRestart)
  | .read n => inferInstanceAs (Decidable (s.response.MayRead bytes s.wal.main n))
  | .request => isTrue trivial
  | .busy _ _ => isTrue trivial
  | .openFile => isTrue trivial
  | .fstat => isTrue trivial

def ExportWorld.step [Inhabited β] (s : ExportWorld β) : ExportStep β → ExportWorld β
  | .sqlite a => { s with wal := s.wal.step a }
  | .request =>
    match s.response with
    | .waiting => { s with response := .checkpointing s.wal.past.length }
    | _ => s
  | .truncated =>
    match s.response with
    | .checkpointing since =>
      { wal := s.wal.step .restart,
        response := .checkpointed since (walCheckpointTruncate 0 0 0).2 }
    | _ => s
  -- the pragma answers busy and leaves the log as it is
  | .busy log checkpointed =>
    match s.response with
    | .checkpointing since =>
      { s with response := .checkpointed since (walCheckpointTruncate 1 log checkpointed).2 }
    | _ => s
  | .openFile =>
    -- frames left in the log are only warned of
    match s.response with
    | .checkpointed since _ => { s with response := .opened since }
    | _ => s
  | .fstat =>
    match s.response with
    | .opened since => { s with response := generate since (fileBytes bytes s.wal.main).length [] }
    | _ => s
  | .read n =>
    match s.response with
    | .generating since size sent =>
      -- one `os.read`: the file may have been checkpointed into since the last one
      let chunk := ((fileBytes bytes s.wal.main).drop sent.length).take n
      if chunk = [] then { s with response := .closed since size sent }
      else { s with response := generate since size (sent ++ chunk) }
    | _ => s

/-- The bytes are a database that was committed, and no older than the request. -/
def ExportWorld.OneState (s : ExportWorld β) (since : ℕ) (sent : List UInt8) : Prop :=
  ∃ j f, since ≤ j ∧ s.wal.committed j = some f ∧ sent = fileBytes bytes f

def ExportWorld.Coherent (s : ExportWorld β) : Prop :=
  ∀ since size sent, s.response = .closed since size sent → s.OneState bytes since sent

/-- The size is taken of a settled file, and from then on no step of a connection changes
a byte that is still to be read. -/
def ExportWorld.Calm [Inhabited β] (s : ExportWorld β) : ExportStep β → Prop
  | .fstat => ∀ since, s.response = .opened since → s.wal.Settled since
  | .sqlite a => ∀ since size sent, s.response = .generating since size sent →
      unread bytes size sent (s.wal.step a).main = unread bytes size sent s.wal.main
  | _ => True

variable {bytes} {f g : File β} {s t : ExportWorld β} {since size : ℕ} {sent : List UInt8}
  {l : ExportStep β}

theorem fileBytes_same (h : SamePages f g) : fileBytes bytes f = fileBytes bytes g := by
  rw [fileBytes, fileBytes, ← h.1]
  apply List.flatMap_congr
  intro p hp
  rw [h.2 p (List.mem_range.mp hp)]

/-- An export under way has sent the beginning of a committed database, and the rest of
it is still in the file. -/
def ExportWorld.Follows (bytes : β → List UInt8) (s : ExportWorld β) : ExportResponse → Prop
  | .generating since size sent =>
    s.OneState bytes since (sent ++ unread bytes size sent s.wal.main) ∧
      (sent ++ unread bytes size sent s.wal.main).length = size
  | .closed since _ sent => s.OneState bytes since sent
  | _ => True

/-- What every calm run keeps. -/
structure ExportWorld.Sound (bytes : β → List UInt8) (s : ExportWorld β) : Prop where
  wal : s.wal.Sound
  follows : s.Follows bytes s.response

/-- The loop leaves off at the end of the database. -/
theorem ExportWorld.follows_generate (h : s.Follows bytes (.generating since size sent)) :
    s.Follows bytes (generate since size sent) := by
  rw [generate]
  split
  next => exact h
  next hend =>
    obtain ⟨hstate, hlength⟩ := h
    rw [List.length_append] at hlength
    have hnone : unread bytes size sent s.wal.main = [] := List.eq_nil_of_length_eq_zero (by omega)
    rw [hnone, List.append_nil] at hstate
    exact hstate

/-- One read. -/
theorem ExportWorld.follows_read {n : ℕ} {chunk : List UInt8}
    (h : s.Follows bytes (.generating since size sent)) (hn : n ≤ size - sent.length)
    (hchunk : chunk = ((fileBytes bytes s.wal.main).drop sent.length).take n) :
    s.Follows bytes (.generating since size (sent ++ chunk)) := by
  have hfront : chunk = (unread bytes size sent s.wal.main).take n := by
    rw [hchunk, unread, List.drop_take, List.take_take, Nat.min_eq_left hn]
  have hback : unread bytes size (sent ++ chunk) s.wal.main =
      (unread bytes size sent s.wal.main).drop chunk.length := by
    rw [unread, unread, List.drop_drop, List.length_append]
  have hwhole : chunk ++ (unread bytes size sent s.wal.main).drop chunk.length =
      unread bytes size sent s.wal.main := by
    conv_rhs => rw [← List.take_append_drop n (unread bytes size sent s.wal.main), ← hfront]
    congr 1
    rw [hfront, List.length_take]
    rcases Nat.le_total n (unread bytes size sent s.wal.main).length with hle | hle
    · rw [Nat.min_eq_left hle]
    · rw [Nat.min_eq_right hle, List.drop_length, List.drop_eq_nil_of_le hle]
  have hsame : sent ++ chunk ++ unread bytes size (sent ++ chunk) s.wal.main =
      sent ++ unread bytes size sent s.wal.main := by
    rw [hback, List.append_assoc, hwhole]
  rw [ExportWorld.Follows, hsame]
  exact h

/-- An empty read comes when nothing is left. -/
theorem ExportWorld.follows_end {n : ℕ} (h : s.Follows bytes (.generating since size sent))
    (hsome : sent.length < (fileBytes bytes s.wal.main).length → 0 < n)
    (hnil : ((fileBytes bytes s.wal.main).drop sent.length).take n = []) :
    s.OneState bytes since sent := by
  have hnone : unread bytes size sent s.wal.main = [] := by
    rcases Nat.lt_or_ge sent.length (fileBytes bytes s.wal.main).length with hlt | hge
    · have hpos := hsome hlt
      rcases List.take_eq_nil_iff.mp hnil with hzero | hdrop
      · omega
      · rw [List.drop_eq_nil_iff] at hdrop
        omega
    · rw [unread, List.drop_take, List.drop_eq_nil_of_le hge, List.take_nil]
  have hstate := h.1
  rwa [hnone, List.append_nil] at hstate

theorem ExportWorld.Sound.coherent (h : s.Sound bytes) : s.Coherent bytes := by
  intro since size sent hclosed
  have hfollows := h.follows
  rw [hclosed] at hfollows
  exact hfollows

theorem ExportWorld.sound_of_file (f : File β) : ExportWorld.Sound bytes { wal := { main := f } } :=
  ⟨Wal.sound_of_file f, trivial⟩

variable [Inhabited β]

theorem ExportWorld.OneState.step (h : s.OneState bytes since sent) (a : Act β)
    (r : ExportResponse) :
    ExportWorld.OneState bytes ⟨s.wal.step a, r⟩ since sent := by
  obtain ⟨j, f, hj, hf, hsent⟩ := h
  exact ⟨j, f, hj, Wal.committed_step hf, hsent⟩

/-- What connections do among themselves. -/
theorem others_run {w v : Wal β} {r : ExportResponse} (h : Run Wal.step Wal.Allowed w v) :
    Run (ExportWorld.step bytes) (fun s l => s.Allowed bytes l) ⟨w, r⟩ ⟨v, r⟩ := by
  apply h.invariant
    (P := fun u => Run (ExportWorld.step bytes) (fun s l => s.Allowed bytes l) ⟨w, r⟩ ⟨u, r⟩)
  · intro u a ha hu
    have ha' : ExportWorld.Allowed bytes ⟨u, r⟩ (.sqlite a) := ha
    exact hu.snoc ha'
  · exact Run.refl _

/-- What one step of a connection keeps. -/
theorem ExportWorld.Sound.sqlite {a : Act β} (h : s.Sound bytes) (ha : s.wal.Allowed a)
    (hcalm : s.Calm bytes (.sqlite a)) :
    (s.step bytes (.sqlite a)).Sound bytes := by
  refine ⟨h.wal.step ha, ?_⟩
  change ExportWorld.Follows bytes ⟨s.wal.step a, s.response⟩ s.response
  have hfollows := h.follows
  cases hr : s.response with
  | generating since size sent =>
    rw [hr] at hfollows
    have hsame := hcalm since size sent hr
    rw [ExportWorld.Follows, hsame]
    exact ⟨hfollows.1.step a _, hfollows.2⟩
  | closed since size sent =>
    rw [hr] at hfollows
    exact hfollows.step a _
  | waiting => trivial
  | checkpointing since => trivial
  | checkpointed since remaining => trivial
  | opened since => trivial

/-- What one step keeps. -/
theorem ExportWorld.Sound.step (h : s.Sound bytes) (hl : s.Allowed bytes l)
    (hcalm : s.Calm bytes l) :
    (s.step bytes l).Sound bytes := by
  have hfollows := h.follows
  cases l with
  | sqlite a => exact h.sqlite hl hcalm
  | request =>
    rw [ExportWorld.step]
    split
    · exact ⟨h.wal, trivial⟩
    · exact h
  | truncated =>
    rw [ExportWorld.step]
    split
    · exact ⟨h.wal.restart hl, trivial⟩
    · exact h
  | busy log checkpointed =>
    rw [ExportWorld.step]
    split
    · exact ⟨h.wal, trivial⟩
    · exact h
  | openFile =>
    rw [ExportWorld.step]
    split
    · exact ⟨h.wal, trivial⟩
    · exact h
  | fstat =>
    rw [ExportWorld.step]
    split
    -- where the response is calm the file shows one committed state when its size is taken
    next since hr =>
      refine ⟨h.wal, ?_⟩
      obtain ⟨j, f, hj, hf, hsame⟩ := h.wal.of_settled (hcalm since hr)
      apply ExportWorld.follows_generate
      have hunread : unread bytes (fileBytes bytes s.wal.main).length [] s.wal.main =
          fileBytes bytes s.wal.main := by
        rw [unread, List.take_length, List.length_nil, List.drop_zero]
      refine ⟨⟨j, f, hj, hf, ?_⟩, ?_⟩
      · change [] ++ unread bytes _ [] s.wal.main = fileBytes bytes f
        rw [List.nil_append, hunread, fileBytes_same hsame]
      · change ([] ++ unread bytes _ [] s.wal.main).length = _
        rw [List.nil_append, hunread]
    · exact h
  | read n =>
    rw [ExportWorld.step]
    split
    next since size sent hr =>
      rw [ExportWorld.Allowed, hr, ExportResponse.MayRead] at hl
      rw [hr] at hfollows
      dsimp only
      split
      next hnil => exact ⟨h.wal, ExportWorld.follows_end hfollows hl.2 hnil⟩
      next =>
        refine ⟨h.wal, ?_⟩
        apply ExportWorld.follows_generate
        exact ExportWorld.follows_read hfollows (by omega) rfl
    · exact h

/-- An export is one committed database, no older than the request, in every run in which
its size is taken of a settled file and no checkpoint changes what is still to be read. -/
theorem export_coherent {f : File β}
    (h : Run (ExportWorld.step bytes) (fun s l => s.Allowed bytes l ∧ s.Calm bytes l)
      { wal := { main := f } } t) :
    t.Coherent bytes := by
  have hsound : t.Sound bytes :=
    h.invariant (fun s l hl hs => hs.step hl.1 hl.2) (ExportWorld.sound_of_file f)
  exact hsound.coherent

/-- Whether a response is between its checkpoint and its last read. -/
def ExportResponse.exposed : ExportResponse → Bool
  | .checkpointed _ _ => true
  | .opened _ => true
  | .generating _ _ _ => true
  | _ => false

/-- The request is not told that its checkpoint is busy, and from there to the last read
no checkpoint writes to the file. -/
def ExportWorld.Alone (s : ExportWorld β) : ExportStep β → Prop
  | .busy _ _ => False
  | .sqlite a => s.response.exposed = true → a.writes = false
  | _ => True

instance (s : ExportWorld β) : ∀ l, Decidable (s.Alone l)
  | .busy _ _ => isFalse id
  | .sqlite a => inferInstanceAs (Decidable (s.response.exposed = true → a.writes = false))
  | .request => isTrue trivial
  | .truncated => isTrue trivial
  | .openFile => isTrue trivial
  | .fstat => isTrue trivial
  | .read _ => isTrue trivial

/-- From the checkpoint to the size the file is settled. -/
def ExportWorld.Waits (s : ExportWorld β) : Prop :=
  match s.response with
  | .checkpointing since => since ≤ s.wal.past.length
  | .checkpointed since _ | .opened since => s.wal.Settled since
  | _ => True

theorem ExportWorld.Waits.calm (h : s.Waits) (hl : s.Alone l) : s.Calm bytes l := by
  cases l with
  | fstat =>
    intro since hr
    rw [ExportWorld.Waits, hr] at h
    exact h
  | sqlite a =>
    intro since size sent hr
    rw [ExportWorld.Alone, hr] at hl
    rw [Wal.step_main (hl rfl)]
  | _ => trivial

theorem ExportWorld.Waits.sqlite {a : Act β} (h : s.Waits) (hs : s.wal.Sound)
    (hl : s.Alone (.sqlite a)) :
    (s.step bytes (.sqlite a)).Waits := by
  change ExportWorld.Waits ⟨s.wal.step a, s.response⟩
  rw [ExportWorld.Waits] at h
  rw [ExportWorld.Alone] at hl
  rw [ExportWorld.Waits]
  cases hr : s.response with
  | checkpointing since =>
    rw [hr] at h
    exact h.trans Wal.past_step
  | checkpointed since remaining =>
    rw [hr] at h hl
    exact h.step hs (hl rfl)
  | opened since =>
    rw [hr] at h hl
    exact h.step hs (hl rfl)
  | _ => trivial

theorem ExportWorld.Waits.step (h : s.Waits) (hs : s.wal.Sound) (hl : s.Alone l) :
    (s.step bytes l).Waits := by
  cases l with
  | sqlite a => exact h.sqlite hs hl
  | request =>
    rw [ExportWorld.step]
    split
    · exact Nat.le_refl _
    · exact h
  | truncated =>
    rw [ExportWorld.step]
    split
    next since hr =>
      rw [ExportWorld.Waits, hr] at h
      exact Wal.settled_restart h
    · exact h
  | busy log checkpointed => exact hl.elim
  | openFile =>
    rw [ExportWorld.step]
    split
    next since remaining hr =>
      rw [ExportWorld.Waits, hr] at h
      exact h
    · exact h
  | fstat =>
    rw [ExportWorld.step]
    split
    next since hr =>
      rw [generate]
      split <;> trivial
    · exact h
  | read n =>
    rw [ExportWorld.step]
    split
    next since size sent hr =>
      dsimp only
      split
      · trivial
      · rw [generate]
        split <;> trivial
    · exact h

theorem alone_calm {f : File β}
    (h : Run (ExportWorld.step bytes) (fun s l => s.Allowed bytes l ∧ s.Alone l)
      { wal := { main := f } } t) :
    Run (ExportWorld.step bytes) (fun s l => s.Allowed bytes l ∧ s.Calm bytes l)
      { wal := { main := f } } t ∧
      t.Sound bytes ∧ t.Waits := by
  apply h.invariant
    (P := fun u => Run (ExportWorld.step bytes) (fun s l => s.Allowed bytes l ∧ s.Calm bytes l)
    { wal := { main := f } } u ∧ u.Sound bytes ∧ u.Waits)
  · rintro u l ⟨hl, halone⟩ ⟨hrun, hsound, hwaits⟩
    have hcalm : u.Calm bytes l := hwaits.calm halone
    exact ⟨hrun.snoc ⟨hl, hcalm⟩, hsound.step hl hcalm, hwaits.step hsound.wal halone⟩
  · exact ⟨Run.refl _, ExportWorld.sound_of_file f, trivial⟩

/-- An export that no other checkpoint comes near is one committed database. -/
theorem alone_coherent {f : File β}
    (h : Run (ExportWorld.step bytes) (fun s l => s.Allowed bytes l ∧ s.Alone l)
      { wal := { main := f } } t) :
    t.Coherent bytes := (alone_calm h).2.1.coherent

end

/-! ### Runs -/

/-- A page of one byte over and over. -/
def filled (n : ℕ) (b : UInt8) : List UInt8 := List.replicate n b

/-- One transaction before the request, another while the export is sent. -/
def quietSteps : List (ExportStep UInt8) :=
  [.sqlite (.commit ⟨[(0, 1)], 2⟩), .request, .sqlite (.begin 1 [0] true), .sqlite (.copy 0),
    .sqlite .finish, .truncated,
    .openFile, .fstat, .sqlite (.commit ⟨[(1, 2)], 2⟩), .read 1024]

def quietEnd : ExportWorld UInt8 :=
  quietSteps.foldl (ExportWorld.step (filled 512)) { wal := { main := ⟨2, fun _ => 0⟩ } }

theorem export_coherent_quiet : quietEnd.Coherent (filled 512) ∧
    quietEnd.response = .closed 1 1024 (filled 512 1 ++ filled 512 0) := by
  have halone : Run (ExportWorld.step (filled 512))
      (fun s l => s.Allowed (filled 512) l ∧ s.Alone l)
      { wal := { main := ⟨2, fun _ => 0⟩ } } quietEnd := Run.foldl (by decide +kernel)
  exact ⟨export_coherent (alone_calm halone).1, by decide +kernel⟩

theorem length_filled {n : ℕ} {b : UInt8} : (filled n b).length = n := List.length_replicate

theorem filled_pages {f : File UInt8} {n : ℕ} : (fileBytes (filled n) f).length = f.size * n := by
  rw [fileBytes, List.length_flatMap]
  simp [filled]

theorem mem_filled {f : File UInt8} {n : ℕ} {b : UInt8} (hb : b ∈ fileBytes (filled n) f) :
    ∃ p < f.size, b = f.page p := by
  obtain ⟨p, hp, hmem⟩ := List.mem_flatMap.mp hb
  exact ⟨p, List.mem_range.mp hp, List.eq_of_mem_replicate hmem⟩

theorem first_filled {f : File UInt8} {n : ℕ} (hsize : 0 < f.size) (hn : 0 < n) :
    (fileBytes (filled n) f)[0]? = some (f.page 0) := by
  obtain ⟨m, hm⟩ := Nat.exists_eq_succ_of_ne_zero (Nat.ne_of_gt hsize)
  rw [fileBytes, hm, List.range_succ_eq_map, List.flatMap_cons,
    List.getElem?_append_left (by simpa [filled] using hn)]
  exact List.getElem?_replicate_of_lt hn

theorem last_filled {f : File UInt8} {n m : ℕ} (hsize : f.size = m + 1) :
    (fileBytes (filled n) f).drop (m * n) = filled n (f.page m) := by
  have hfront : ((List.range m).flatMap (fun p => filled n (f.page p))).length = m * n :=
    filled_pages (f := ⟨m, f.page⟩)
  rw [fileBytes, hsize, List.range_succ, List.flatMap_append, ← hfront, List.drop_left,
    List.flatMap_singleton]

/-! A transaction that writes the first page and the last, with its checkpoint, between two
reads. -/

def blankFile : File UInt8 := ⟨17, fun _ => 0⟩

/-- What the request does up to the size: its checkpoint finds an empty log. -/
def tornOpening : List (ExportStep UInt8) :=
  [.request, .sqlite (.begin 0 [] true), .sqlite .finish, .truncated, .openFile]

/-- What other connections do between the reads. -/
def tornBetween : List (Act UInt8) :=
  [.commit ⟨[(0, 1), (16, 1)], 17⟩, .begin 1 [0, 16] false, .copy 0, .copy 16, .finish]

def tornWal : Wal UInt8 := tornBetween.foldl Wal.step { main := blankFile }

theorem torn_last : ((fileBytes (filled 65536) tornWal.main).drop 1048576).take 65536 =
    filled 65536 1 := by
  have hlast : (fileBytes (filled 65536) tornWal.main).drop (16 * 65536) =
      filled 65536 (tornWal.main.page 16) := last_filled rfl
  have hdrop : (fileBytes (filled 65536) tornWal.main).drop 1048576 = filled 65536 1 := hlast
  rw [hdrop]
  exact List.take_of_length_le length_filled.le

/-- The bytes of the run: sixteen pages from before the transaction, one from after it. -/
def tornBytes : List UInt8 := (fileBytes (filled 65536) blankFile).take 1048576 ++ filled 65536 1

theorem torn_opening :
    tornOpening.foldl (ExportWorld.step (filled 65536)) { wal := { main := blankFile } } =
    ⟨{ main := blankFile }, .opened 0⟩ := rfl

theorem length_blank : (fileBytes (filled 65536) blankFile).length = 1114112 := by
  rw [filled_pages]
  decide

theorem length_front : ((fileBytes (filled 65536) blankFile).take 1048576).length = 1048576 := by
  rw [List.length_take, length_blank]
  exact Nat.min_eq_left (by decide)

theorem torn_run : Run (ExportWorld.step (filled 65536)) (fun s l => s.Allowed (filled 65536) l)
    { wal := { main := blankFile } } ⟨tornWal, .closed 0 1114112 tornBytes⟩ := by
  have hsized : ExportWorld.step (filled 65536) ⟨{ main := blankFile }, .opened 0⟩ .fstat =
      ⟨{ main := blankFile }, .generating 0 1114112 []⟩ := by
    rw [ExportWorld.step]
    dsimp only
    rw [length_blank, generate, List.length_nil, if_pos (by decide)]
  have hfirst : (fileBytes (filled 65536) blankFile).take 1048576 ≠ [] := by
    rw [← List.length_pos_iff_ne_nil, length_front]
    decide
  have hread : ExportWorld.step (filled 65536) ⟨{ main := blankFile }, .generating 0 1114112 []⟩
      (.read 1048576) =
      ⟨{ main := blankFile },
      .generating 0 1114112 ((fileBytes (filled 65536) blankFile).take 1048576)⟩ := by
    rw [ExportWorld.step]
    dsimp only
    rw [List.length_nil, List.drop_zero, if_neg hfirst, List.nil_append, generate, length_front,
      if_pos (by decide)]
  have hlast : filled 65536 1 ≠ [] := by
    rw [← List.length_pos_iff_ne_nil, length_filled]
    decide
  have hends : ExportWorld.step (filled 65536)
      ⟨tornWal, .generating 0 1114112 ((fileBytes (filled 65536) blankFile).take 1048576)⟩
        (.read 65536) =
      ⟨tornWal, .closed 0 1114112 tornBytes⟩ := by
    rw [ExportWorld.step]
    dsimp only
    rw [length_front, torn_last, if_neg hlast, generate, List.length_append, length_front,
      length_filled, if_neg (by decide),
      tornBytes]
  have hopened : Run (ExportWorld.step (filled 65536)) (fun s l => s.Allowed (filled 65536) l)
      { wal := { main := blankFile } } ⟨{ main := blankFile }, .opened 0⟩ := by
    rw [← torn_opening]
    exact Run.foldl (by decide +kernel)
  have hgoing : Run (ExportWorld.step (filled 65536)) (fun s l => s.Allowed (filled 65536) l)
      { wal := { main := blankFile } } ⟨{ main := blankFile }, .generating 0 1114112 []⟩ := by
    rw [← hsized]
    exact hopened.snoc trivial
  have hhalf : Run (ExportWorld.step (filled 65536)) (fun s l => s.Allowed (filled 65536) l)
      { wal := { main := blankFile } }
      ⟨{ main := blankFile },
        .generating 0 1114112 ((fileBytes (filled 65536) blankFile).take 1048576)⟩ := by
    rw [← hread]
    exact hgoing.snoc ⟨by decide, fun _ => by decide⟩
  have hcopied : Run (ExportWorld.step (filled 65536)) (fun s l => s.Allowed (filled 65536) l)
      { wal := { main := blankFile } }
      ⟨tornWal, .generating 0 1114112 ((fileBytes (filled 65536) blankFile).take 1048576)⟩ := by
    have hbetween : Run Wal.step Wal.Allowed { main := blankFile } tornWal :=
      Run.foldl (by decide +kernel)
    exact hhalf.trans (others_run hbetween)
  rw [← hends]
  apply hcopied.snoc
  change 65536 ≤ min streamChunk
      (1114112 - ((fileBytes (filled 65536) blankFile).take 1048576).length) ∧ (_ → 0 < 65536)
  rw [length_front]
  exact ⟨by decide, fun _ => by decide⟩

/-- Every byte of one committed database was zero, and the first byte of the other is not. -/
theorem export_torn : Run (ExportWorld.step (filled 65536)) (fun s l => s.Allowed (filled 65536) l)
    { wal := { main := blankFile } } ⟨tornWal, .closed 0 1114112 tornBytes⟩ ∧
    ¬ ExportWorld.Coherent (filled 65536) ⟨tornWal, .closed 0 1114112 tornBytes⟩ := by
  refine ⟨torn_run, ?_⟩
  intro hcoherent
  obtain ⟨j, f, -, hf, hbytes⟩ := hcoherent 0 1114112 tornBytes rfl
  have hone : (1 : UInt8) ∈ tornBytes :=
    List.mem_append_right _ (List.mem_replicate.mpr ⟨by decide, rfl⟩)
  have hzero : tornBytes[0]? = some 0 := by
    rw [tornBytes, List.getElem?_append_left (by rw [List.length_take, filled_pages]; decide),
      List.getElem?_take_of_lt (by decide)]
    exact first_filled (by decide) (by decide)
  rw [hbytes] at hone hzero
  match j, hf with
  | 0, hf =>
    obtain rfl : blankFile = f := Option.some.inj hf
    obtain ⟨p, -, hp⟩ := mem_filled hone
    cases hp
  | 1, hf =>
    obtain rfl := Option.some.inj hf
    rw [first_filled (by decide) (by decide)] at hzero
    exact absurd hzero (by decide)
  | j + 2, hf => cases hf

end Aloelite
