import Aloelite.VersionPointers
import Aloelite.Library.Newest

/-! `prune_content` against retention as it is meant: the committed version and
the most recently committed ones before it, and no version that never was. -/
namespace Aloelite

open Fallible KeyedRows Newest

variable {C : Crypto} {M : Msgpack} {E : Env} {now : Int} {db : Db} {s : Sys} {tx : Tx} {n : NodeId}
  {c v : ℕ} {volume : Option VolumeId} {keep : Int}

/-- The versions committed before the current one that still have manifest rows,
most recent first. -/
def Sys.earlierCommitted (s : Sys) (n : NodeId) : List ℕ :=
  (s.pointers n).tail.filter (fun v => v ∈ s.db.stagedVersions n)

/-- What `retention_keep = keep` is to leave of an entry. -/
def Sys.wanted (s : Sys) (n : NodeId) (keep : Int) : List ℕ :=
  ((s.db.committedVersion n).toList) ++ (s.earlierCommitted n).take (keep - 1).toNat

/-- Of an entry's manifest rows exactly those of the wanted versions are left, each
with its chunk. -/
structure RetainsLast (s : Sys) (db : Db) (n : NodeId) (keep : Int) : Prop where
  rows : ∀ r ∈ s.db.versions, r.contentId = n → (r ∈ db.versions ↔ r.version ∈ s.wanted n keep)
  noneAdded : ∀ r ∈ db.versions, r ∈ s.db.versions
  chunks : ∀ r ∈ db.versions, db.chunk? r.chunkHash = s.db.chunk? r.chunkHash

/-- None of the `keep - 1` highest versions below the committed one was staged
without ever being committed. -/
def NoStray (s : Sys) (n : NodeId) (keep : Int) : Prop :=
  ∀ c v, s.db.committedVersion n = some c → v ∈ s.db.stagedVersions n → v < c →
    (s.db.rankBelow n c v : Int) ≤ keep - 1 → v ∈ s.pointers n

theorem mem_stagedVersions : v ∈ db.stagedVersions n ↔
    ∃ r ∈ db.versions, r.contentId = n ∧ r.version = v := by
  simp [Db.stagedVersions, and_assoc]

/-- The staged versions below the committed one, highest first. -/
def stagedBelow (db : Db) (n : NodeId) (c : ℕ) : List ℕ :=
  ((db.stagedVersions n).filter (fun v => v < c)).insertionSort (· ≥ ·)

theorem mem_stagedBelow : v ∈ stagedBelow db n c ↔ v ∈ db.stagedVersions n ∧ v < c := by
  simp [stagedBelow, List.mem_insertionSort]

theorem stagedBelow_descending : (stagedBelow db n c).Pairwise (· > ·) := by
  have hsorted : (stagedBelow db n c).Pairwise (· ≥ ·) := List.pairwise_insertionSort _ _
  have hnodup : (stagedBelow db n c).Nodup := by
    rw [stagedBelow, (List.perm_insertionSort _ _).nodup_iff]
    exact (List.nodup_dedup _).filter _
  refine (hsorted.and hnodup).imp ?_
  rintro a b ⟨hge, hne⟩
  exact lt_of_le_of_ne hge hne.symm

/-- `row_number()` is the rank. -/
theorem rankBelow_eq : db.rankBelow n c v = rank (stagedBelow db n c) v := by
  rw [stagedBelow, rank_perm (List.perm_insertionSort _ _), rank, List.filter_filter, Db.rankBelow]
  congr 2
  funext u
  simp

/-- What the view retains of an entry under `keep`. -/
theorem retainedVersion_iff {r : ContentRow} (hr : db.content? n = some r)
    (hkeep : r.retentionKeep = some keep) (hpos : 1 ≤ keep) (hv : v ∈ db.stagedVersions n) :
    db.retainedVersion n v = true ↔ v = r.version ∨
      v ∈ (stagedBelow db n r.version).take (keep - 1).toNat := by
  rw [Db.retainedVersion, hr, mem_take_iff stagedBelow_descending, ← rankBelow_eq, mem_stagedBelow]
  have hmax : max (keep - 1) 0 = keep - 1 := max_eq_left (by omega)
  simp only [hv, hkeep, Db.keepsRank, hmax, decide_true, Bool.true_and, Bool.or_eq_true,
    Bool.and_eq_true,
    decide_eq_true_eq, true_and]
  have hnat : ((db.rankBelow n r.version v : Int) ≤ keep - 1) ↔
      db.rankBelow n r.version v ≤ (keep - 1).toNat := by omega
  rw [hnat]

/-- An unlocked entry in the scope of a prune keeps the rows the view retains. -/
theorem mem_pruneContent {r : VersionRow} (hlock : db.checkAnyLock now r.contentId = false)
    (hscope : ∀ v, volume = some v → ∃ x ∈ db.nodes, x.nodeId = r.contentId ∧ x.volumeId = v) :
    r ∈ ((db.pruneContentVersions now volume).pruneContentChunks).versions ↔
      r ∈ db.versions ∧ db.retainedVersion r.contentId r.version = true := by
  have hin : (volume.all fun v => db.nodes.any fun x => x.nodeId = r.contentId ∧ x.volumeId = v) =
      true := by
    cases volume with
    | none => rfl
    | some v =>
      obtain ⟨x, hx, hid, hvol⟩ := hscope v rfl
      rw [Option.all_some, List.any_eq_true]
      exact ⟨x, hx, by simp [hid, hvol]⟩
  show r ∈ db.versions.filter (db.survivesPrune now volume) ↔ _
  rw [List.mem_filter, Db.survivesPrune, hlock, hin]
  simp

/-- The chunks of the rows that are left stay in the pool. -/
theorem chunk?_pruneContent {r : VersionRow}
    (hr : r ∈ ((db.pruneContentVersions now volume).pruneContentChunks).versions) :
    ((db.pruneContentVersions now volume).pruneContentChunks).chunk? r.chunkHash =
      db.chunk? r.chunkHash := by
  have hused : r ∈ (db.pruneContentVersions now volume).versions := hr
  show lookup ChunkRow.chunkHash (db.chunks.filter _) r.chunkHash = _
  rw [Db.chunk?, lookup, lookup, List.find?_filter]
  congr 1
  funext ch
  by_cases hid : ch.chunkHash = r.chunkHash
  · have hany : ((db.pruneContentVersions now volume).versions.any fun x =>
      x.chunkHash = ch.chunkHash)
        = true := List.any_eq_true.mpr ⟨r, hused, by simp [hid]⟩
    simp [hid, hid ▸ hany]
  · simp [hid]

/-! ### The history of an entry -/

theorem committedVersion_of_content {r : ContentRow} (hr : s.db.content? n = some r) :
    s.db.committedVersion n = some r.version := by
  rw [Db.committedVersion, hr]
  rfl

theorem pointers_split {r : ContentRow} (hfirst : CurrentFirst s n)
    (hr : s.db.content? n = some r) : ∃ older, s.pointers n = r.version :: older := by
  rw [CurrentFirst, committedVersion_of_content hr] at hfirst
  cases hp : s.pointers n with
  | nil => simp [hp] at hfirst
  | cons v older =>
    rw [hp] at hfirst
    exact ⟨older, by rw [Option.some.inj hfirst]⟩

theorem mem_earlierCommitted : v ∈ s.earlierCommitted n ↔
    v ∈ (s.pointers n).tail ∧ v ∈ s.db.stagedVersions n := by
  simp [Sys.earlierCommitted]

theorem earlierCommitted_descending (hforward : Descending s n) :
    (s.earlierCommitted n).Pairwise (· > ·) := by
  have htail : (s.pointers n).tail.Pairwise (· > ·) := hforward.sublist (List.tail_sublist _)
  exact htail.filter _

/-- Having moved forward, the pointer is above every earlier committed version. -/
theorem earlierCommitted_subset {r : ContentRow} (hfirst : CurrentFirst s n)
    (hr : s.db.content? n = some r) (hforward : Descending s n) :
    s.earlierCommitted n ⊆ stagedBelow s.db n r.version := by
  intro v hv
  obtain ⟨hold, hstaged⟩ := mem_earlierCommitted.mp hv
  obtain ⟨older, hp⟩ := pointers_split hfirst hr
  rw [Descending, hp] at hforward
  rw [hp, List.tail_cons] at hold
  exact mem_stagedBelow.mpr ⟨hstaged, List.rel_of_pairwise_cons hforward hold⟩

theorem mem_wanted {r : ContentRow} (hr : s.db.content? n = some r) :
    v ∈ s.wanted n keep ↔ v = r.version ∨ v ∈ (s.earlierCommitted n).take (keep - 1).toNat := by
  simp [Sys.wanted, committedVersion_of_content hr, Option.toList]

/-- Without strays the top staged versions below the pointer are the top committed
ones. -/
theorem NoStray.take_eq {r : ContentRow} (h : NoStray s n keep) (hfirst : CurrentFirst s n)
    (hr : s.db.content? n = some r) (hforward : Descending s n) (hpos : 1 ≤ keep) :
    (s.earlierCommitted n).take (keep - 1).toNat =
      (stagedBelow s.db n r.version).take (keep - 1).toNat := by
  have htop : (stagedBelow s.db n r.version).take (keep - 1).toNat ⊆ s.earlierCommitted n := by
    intro v hv
    obtain ⟨hmem, hrank⟩ := (mem_take_iff stagedBelow_descending).mp hv
    obtain ⟨hstaged, hlt⟩ := mem_stagedBelow.mp hmem
    rw [← rankBelow_eq] at hrank
    have hin := h r.version v (committedVersion_of_content hr) hstaged hlt (by omega)
    obtain ⟨older, hp⟩ := pointers_split hfirst hr
    rw [hp] at hin
    rcases List.mem_cons.mp hin with heq | hold
    · omega
    · exact mem_earlierCommitted.mpr ⟨by rw [hp]; exact hold, hstaged⟩
  exact take_eq_of_subset stagedBelow_descending (earlierCommitted_descending hforward)
    (earlierCommitted_subset hfirst hr hforward) htop

/-- For an unlocked entry whose committed version has only moved forward,
`prune_content` leaves exactly the wanted versions if and only if no version that
was never committed ranks among those it keeps. -/
theorem pruneContent_retainsLast_iff {guard : Sys → Label → Prop} {r : ContentRow} {counts : ℕ × ℕ}
    (hs : Reaches C M guard s) (hr : s.db.content? n = some r) (hkeep : r.retentionKeep = some keep)
    (hpos : 1 ≤ keep) (hlock : s.db.checkAnyLock E.now n = false)
    (hscope : ∀ v, volume = some v → ∃ x ∈ s.db.nodes, x.nodeId = n ∧ x.volumeId = v)
    (hforward : Descending s n) (h : pruneContent E s.begin volume = .ok (tx, counts)) :
    RetainsLast s tx.db n keep ↔ NoStray s n keep := by
  have hdb : tx.db = (s.db.pruneContentVersions E.now volume).pruneContentChunks := by
    rw [pruneContent_shape h]
    rfl
  -- the query keeps the committed version and the next `keep - 1` below it, committed or not
  have hleft : ∀ x ∈ s.db.versions, x.contentId = n → (x ∈ tx.db.versions ↔
      x.version = r.version ∨
      x.version ∈ (stagedBelow s.db n r.version).take (keep - 1).toNat) := by
    intro x hx hid
    have hstaged : x.version ∈ s.db.stagedVersions n := mem_stagedVersions.mpr ⟨x, hx, hid, rfl⟩
    rw [hdb, mem_pruneContent (by rw [hid]; exact hlock) (by rw [hid]; exact hscope), hid,
      retainedVersion_iff hr hkeep hpos hstaged]
    exact and_iff_right hx
  constructor
  · intro hretains c v hc hv hlt hrank
    obtain rfl := Option.some.inj ((committedVersion_of_content hr).symm.trans hc)
    obtain ⟨x, hx, hid, rfl⟩ := mem_stagedVersions.mp hv
    have htop : x.version ∈ (stagedBelow s.db n r.version).take (keep - 1).toNat := by
      rw [mem_take_iff stagedBelow_descending, mem_stagedBelow, ← rankBelow_eq]
      exact ⟨⟨hv, hlt⟩, by omega⟩
    have hkept := (hleft x hx hid).mpr (Or.inr htop)
    rcases (mem_wanted hr).mp ((hretains.rows x hx hid).mp hkept) with heq | hin
    · omega
    · exact List.mem_of_mem_tail (mem_earlierCommitted.mp (List.mem_of_mem_take hin)).1
  · intro hstray
    refine ⟨?_, ?_, ?_⟩
    · intro x hx hid
      rw [hleft x hx hid, mem_wanted hr, hstray.take_eq (hs.current n) hr hforward hpos]
    · intro x hx
      rw [hdb] at hx
      exact (List.mem_filter.mp (show x ∈ s.db.versions.filter _ from hx)).1
    · intro x hx
      rw [hdb] at hx ⊢
      exact chunk?_pruneContent hx

/-- The entry `x` with `retention_keep` 2, written once. -/
def keptRun : List Label :=
  [⟨.counting 0, 0, .createVolume none 1 none .none⟩,
    ⟨.counting 1, 0, .mount { volume := 0 }⟩,
    ⟨.counting 2, 0, .request 1 (.createEntry "x" [])⟩,
    ⟨.counting 4, 0, .request 1 (.setRetention "x" (some 2))⟩,
    ⟨.counting 5, 0, .request 1 (.writeAll "x" [1])⟩]

theorem pruneContent_retainsLast_iff_kept :
    (let s := keptRun.foldl (step Crypto.xorStream Msgpack.refusing) {}
     RetainsLast s ((s.db.pruneContentVersions 0 none).pruneContentChunks) 2 2 ↔
       NoStray s 2 2) := by
  intro s
  have hrun : Reaches Crypto.xorStream Msgpack.refusing (fun _ _ => True) s :=
    reaches_foldl (show GuardedRuns.Guards _ _ _ keptRun from
      ⟨trivial, trivial, trivial, trivial, trivial, trivial⟩)
  have hprune : pruneContent (.counting 6) s.begin none =
      .ok ({ db := (s.db.pruneContentVersions 0 none).pruneContentChunks,
             committed := s.committed },
        (0, 0)) := by rfl
  have hforward : Descending s 2 := by
    have hp : s.pointers 2 = [1, 0] := by decide +kernel
    rw [Descending, hp]
    decide
  have hscope : ∀ v, (none : Option VolumeId) = some v → ∃ x ∈ s.db.nodes, x.nodeId = 2 ∧
      x.volumeId = v := by
    intro v hv
    cases hv
  have hlock : s.db.checkAnyLock (Env.counting 6).now 2 = false := by rfl
  have hrow : s.db.content? 2 =
      some { nodeId := 2, version := 1, size := 1, retentionKeep := some 2 } := by rfl
  have hiff := pruneContent_retainsLast_iff hrun hrow rfl (by decide) hlock hscope hforward hprune
  exact hiff

/-- A second stream aborted after a flush, then another write: the prune keeps the
aborted version 2 and drops version 1, the one committed before the last. -/
theorem prune_keeps_aborted_version :
    ∃ s tx counts, Reaches Crypto.xorStream Msgpack.refusing (fun _ _ => True) s ∧
      s.pointers 2 = [3, 1, 0] ∧ s.db.checkAnyLock 0 2 = false ∧
      pruneContent (.counting 11) s.begin none = .ok (tx, counts) ∧
      tx.db.stagedVersions 2 = [2, 3] ∧ ¬ RetainsLast s tx.db 2 2 := by
  let ls : List Label := keptRun ++
    [⟨.counting 6, 0, .openWrite 1 "x" .truncate none⟩, ⟨.counting 7, 0, .fdWrite 0 [9]⟩,
      ⟨.counting 8, 0, .fdFlush 0⟩, ⟨.counting 9, 0, .fdAbort 0⟩,
      ⟨.counting 10, 0, .request 1 (.writeAll "x" [3])⟩]
  let s := ls.foldl (step Crypto.xorStream Msgpack.refusing) {}
  have hrun : Reaches Crypto.xorStream Msgpack.refusing (fun _ _ => True) s :=
    reaches_foldl (show GuardedRuns.Guards _ _ _ ls from ⟨trivial, trivial, trivial, trivial,
      trivial,
      trivial, trivial, trivial, trivial, trivial, trivial⟩)
  let db := (s.db.pruneContentVersions 0 none).pruneContentChunks
  let first : VersionRow := { contentId := 2, version := 1, chunkIndex := 0, chunkHash := [1] }
  refine ⟨s, { db := db, committed := s.committed }, (1, 1), hrun, by decide +kernel,
    by decide +kernel, by rfl, by decide +kernel, ?_⟩
  intro h
  have hrow : first ∈ s.db.versions := by decide +kernel
  have hgone : first ∉ db.versions := by decide +kernel
  have hwanted : first.version ∈ s.wanted 2 2 := by decide +kernel
  exact hgone ((h.rows first hrow rfl).mpr hwanted)

end Aloelite
