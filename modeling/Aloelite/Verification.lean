import Aloelite.Engine

/-! `verify` over content tables in any state, damaged ones included, and what a clean
report says about them. -/
namespace Aloelite

open Fallible KeyedRows

/-! ### The content tables as SQLite stores them -/

/-- A row of `content`; its integers may have any sign. -/
structure StoredContent where
  nodeId : NodeId
  version : Int
  size : Int
  deriving DecidableEq, Repr

/-- A row of `content_chunk`. -/
structure StoredChunk where
  chunkHash : Digest
  data : Bytes
  length : Int
  nonce : Nonce
  encTag : Tag
  deriving DecidableEq, Repr

/-- A row of `content_version`. -/
structure StoredRef where
  contentId : NodeId
  version : Int
  chunkIndex : Int
  chunkHash : Digest
  deriving DecidableEq, Repr

/-- The three tables, whatever has become of them under the primary key of `content`. -/
structure ContentTables where
  contents : List StoredContent
  chunks : List StoredChunk
  refs : List StoredRef
  keyed : Keyed StoredContent.nodeId contents

namespace ContentTables

variable (t : ContentTables)

def content? (n : NodeId) : Option StoredContent := lookup StoredContent.nodeId t.contents n

def chunk? (h : Digest) : Option StoredChunk := lookup StoredChunk.chunkHash t.chunks h

/-- The manifest rows of one version, in index order. -/
def manifest (n : NodeId) (version : Int) : List StoredRef :=
  (t.refs.filter (fun r => r.contentId = n ∧ r.version = version)).insertionSort
    (fun r s => r.chunkIndex ≤ s.chunkIndex)

/-- `read_chunks` -/
def readChunks (n : NodeId) (version : Int) : List StoredChunk :=
  (t.manifest n version).filterMap (fun r => t.chunk? r.chunkHash)

/-- `Db.read_content_bytes` -/
def readContentBytes (C : Crypto) (k : Cipher) (n : NodeId) : Except FsError Bytes :=
  match t.content? n with
  | none => .ok []
  | some c => do
    let parts ← (t.readChunks n c.version).mapM
      (fun ch => orRaise (k.decryptChunk C ch.data ch.nonce ch.encTag) .invalidTag)
    return parts.flatten

/-- The tables of a file of the engine. -/
def of (db : Db) (h : Keyed ContentRow.nodeId db.contents) : ContentTables where
  contents := db.contents.map (fun c => ⟨c.nodeId, c.version, c.size⟩)
  chunks := db.chunks.map (fun c => ⟨c.chunkHash, c.data, c.length, c.nonce, c.encTag⟩)
  refs := db.versions.map (fun r => ⟨r.contentId, r.version, r.chunkIndex, r.chunkHash⟩)
  keyed := by
    unfold Keyed at h ⊢
    rw [List.map_map]
    exact h

end ContentTables

/-! ### `verify` -/

/-- A row of `verify_manifest`; `present` says that there is a length. -/
structure VerifyRow where
  nodeId : NodeId
  version : Int
  size : Int
  chunkIndex : Int
  chunkHash : Digest
  chunkLength : Option Int
  deriving DecidableEq, Repr

inductive VerifyProblem where
  | gap (node : NodeId) (version : Int) (indexes : List Int)
  | missingChunk (node : NodeId) (hash : Digest)
  | sizeMismatch (node : NodeId) (manifest chunks : Int)
  | addressMismatch (hash : Digest)
  | decryptFailed (hash : Digest)
  | lengthMismatch (hash : Digest)
  deriving DecidableEq, Repr

/-- `VerifyReport` -/
structure VerifyReport where
  entriesChecked : ℕ
  chunksChecked : ℕ
  problems : List VerifyProblem
  deriving DecidableEq, Repr

section

variable (db : Db) (t : ContentTables)

/-- The rows of `verify_manifest` for a row of `content`. -/
def verifyRows (c : StoredContent) : List VerifyRow :=
  (t.manifest c.nodeId c.version).map (fun r =>
    ⟨c.nodeId, c.version, c.size, r.chunkIndex, r.chunkHash,
    (t.chunk? r.chunkHash).map StoredChunk.length⟩)

/-- The template `verify_manifest` -/
def verifyManifest (volume : VolumeId) : List VerifyRow :=
  ((t.contents.filter
    (fun c => (db.node? c.nodeId).any (fun n => n.volumeId = volume))).insertionSort
    (fun c c' => c.nodeId ≤ c'.nodeId)).flatMap (verifyRows t)

/-- The key of `per_node`. -/
def VerifyRow.key (r : VerifyRow) : NodeId × Int := (r.nodeId, r.version)

/-- `per_node` -/
def perNode (rows : List VerifyRow) : List ((NodeId × Int) × List VerifyRow) :=
  (rows.map VerifyRow.key).eraseDups.map (fun key => (key, rows.filter (fun r => r.key = key)))

/-- The turn of the first loop for an entry. -/
def checkEntry (e : (NodeId × Int) × List VerifyRow) : List VerifyProblem :=
  let indexes := e.2.map VerifyRow.chunkIndex
  let total := (e.2.filterMap VerifyRow.chunkLength).sum
  let size := (e.2.head?.map VerifyRow.size).getD 0
  (if indexes ≠ (List.range indexes.length).map Int.ofNat then
    [.gap e.1.1 e.1.2 indexes] else []) ++
    (e.2.filter (fun r => r.chunkLength.isNone)).map (fun r => .missingChunk e.1.1 r.chunkHash) ++
    (if total ≠ size then [.sizeMismatch e.1.1 size total] else [])

/-- The turn of the deep loop for a chunk. -/
def checkChunk (C : Crypto) (k : Cipher) (h : Digest) : List VerifyProblem :=
  match t.chunk? h with
  | none => []
  | some c =>
    if C.chunkHash c.data ≠ h then [.addressMismatch h]
    else match k.decryptChunk C c.data c.nonce c.encTag with
      | none => [.decryptFailed h]
      | some pt => if (pt.length : Int) ≠ c.length then [.lengthMismatch h] else []

/-- `seen_chunks` -/
def seenChunks (rows : List VerifyRow) : List Digest :=
  ((rows.filter (fun r => r.chunkLength.isSome)).map VerifyRow.chunkHash).eraseDups

/-- `verify` -/
def verify (C : Crypto) (E : Env) (k : Cipher) (mount : MountId) (deep : Bool) :
    Except FsError VerifyReport := do
  let m ← requireMount E k db mount false
  let rows := verifyManifest db t m.volume
  let seen := seenChunks rows
  return {
    entriesChecked := (perNode rows).length
    chunksChecked := if deep then seen.length else 0
    problems := (perNode rows).flatMap checkEntry ++ if deep then seen.flatMap (checkChunk t C k)
      else [] }

end

/-- An entry whose committed version is all there: its indexes, its chunks, its bytes. -/
structure ContentTables.Readable (t : ContentTables) (C : Crypto) (k : Cipher) (c : StoredContent) :
    Prop where
  indexes : (t.manifest c.nodeId c.version).map StoredRef.chunkIndex =
    (List.range (t.manifest c.nodeId c.version).length).map Int.ofNat
  chunks : ∀ r ∈ t.manifest c.nodeId c.version, ∃ ch, t.chunk? r.chunkHash = some ch ∧
    C.chunkHash ch.data = r.chunkHash ∧
    (k.decryptChunk C ch.data ch.nonce ch.encTag).isSome
  bytes : ∃ b, t.readContentBytes C k c.nodeId = .ok b ∧ (b.length : Int) = c.size

variable {C : Crypto} {E : Env} {k : Cipher} {db : Db} {t : ContentTables} {c c' : StoredContent}
  {n : NodeId} {mount : MountId} {volume : VolumeId}

/-! ### What the checks say -/

theorem verifyRows_key {r : VerifyRow} (h : r ∈ verifyRows t c) :
    r.key = (c.nodeId, c.version) := by
  obtain ⟨ref, -, rfl⟩ := List.mem_map.mp h
  rfl

/-- Of rows grouped under different entries those of one entry are its own. -/
theorem filter_flatMap_rows {cs : List StoredContent} (hkeyed : Keyed StoredContent.nodeId cs)
    (hc : c ∈ cs) :
    (cs.flatMap (verifyRows t)).filter (fun r => r.key = (c.nodeId, c.version)) =
      verifyRows t c := by
  have hown : ∀ c, (verifyRows t c).filter (fun r => r.key = (c.nodeId, c.version)) =
      verifyRows t c := by
    intro c
    rw [List.filter_eq_self]
    exact fun r hr => decide_eq_true (verifyRows_key hr)
  have hother : ∀ c', c'.nodeId ≠ c.nodeId →
      (verifyRows t c').filter (fun r => r.key = (c.nodeId, c.version)) = [] := by
    intro c' hne
    rw [List.filter_eq_nil_iff]
    intro r hr
    rw [decide_eq_true_iff, verifyRows_key hr]
    exact fun heq => hne (Prod.ext_iff.mp heq).1
  induction cs with
  | nil => cases hc
  | cons x cs ih =>
    obtain ⟨hx, hkeyed⟩ := List.nodup_cons.mp hkeyed
    rw [List.flatMap_cons, List.filter_append]
    rcases List.mem_cons.mp hc with rfl | hc
    · have hnone : (cs.flatMap (verifyRows t)).filter (fun r => r.key = (c.nodeId, c.version)) =
          [] := by
        rw [List.filter_eq_nil_iff]
        intro r hr
        obtain ⟨c', hc', hr⟩ := List.mem_flatMap.mp hr
        rw [decide_eq_true_iff, verifyRows_key hr]
        intro heq
        have hid : c'.nodeId = c.nodeId := (Prod.ext_iff.mp heq).1
        apply hx
        rw [← hid]
        exact List.mem_map_of_mem hc'
      rw [hown, hnone, List.append_nil]
    · have hne : x.nodeId ≠ c.nodeId := by
        intro heq
        apply hx
        rw [heq]
        exact List.mem_map_of_mem hc
      rw [hother x hne, ih hkeyed hc, List.nil_append]

theorem mem_perNode (hc : c ∈ t.contents)
    (hvolume : (db.node? c.nodeId).any (fun n => n.volumeId = volume))
    (hrows : t.manifest c.nodeId c.version ≠ []) :
    ((c.nodeId, c.version), verifyRows t c) ∈ perNode (verifyManifest db t volume) := by
  have hmem : c ∈ (t.contents.filter
      (fun c => (db.node? c.nodeId).any (fun n => n.volumeId = volume))).insertionSort
      (fun c c' => c.nodeId ≤ c'.nodeId) := by
    rw [List.mem_insertionSort]
    exact List.mem_filter.mpr ⟨hc, hvolume⟩
  have hkeyed : Keyed StoredContent.nodeId ((t.contents.filter
      (fun c => (db.node? c.nodeId).any (fun n => n.volumeId = volume))).insertionSort
        (fun c c' => c.nodeId ≤ c'.nodeId)) := by
    have hperm := (List.perm_insertionSort (fun c c' : StoredContent => c.nodeId ≤ c'.nodeId)
      (t.contents.filter (fun c => (db.node? c.nodeId).any (fun n => n.volumeId = volume)))).map
        StoredContent.nodeId
    exact hperm.nodup_iff.mpr (keyed_filter t.keyed _)
  obtain ⟨ref, hhead⟩ := List.exists_mem_of_ne_nil _ hrows
  refine List.mem_map.mpr ⟨(c.nodeId, c.version), ?_, ?_⟩
  · rw [List.mem_eraseDups]
    refine List.mem_map.mpr ⟨_, List.mem_flatMap.mpr ⟨c, hmem, List.mem_map_of_mem hhead⟩, rfl⟩
  · rw [verifyManifest, filter_flatMap_rows hkeyed hmem]

theorem verify_ok {deep : Bool} {report : VerifyReport}
    (h : verify db t C E k mount deep = .ok report) :
    ∃ m, requireMount E k db mount false = .ok m ∧
      report.problems = (perNode (verifyManifest db t m.volume)).flatMap checkEntry ++
        if deep then (seenChunks (verifyManifest db t m.volume)).flatMap (checkChunk t C k)
          else [] := by
  obtain ⟨m, hm, hreport⟩ := bind_eq_ok.mp h
  cases hreport
  exact ⟨m, hm, rfl⟩

theorem checkChunk_nil {h : Digest} {ch : StoredChunk} (hch : t.chunk? h = some ch)
    (hclean : checkChunk t C k h = []) :
    C.chunkHash ch.data = h ∧ ∃ pt, k.decryptChunk C ch.data ch.nonce ch.encTag = some pt ∧
      (pt.length : Int) = ch.length := by
  simp only [checkChunk, hch] at hclean
  by_cases haddr : C.chunkHash ch.data = h
  · rw [if_neg (not_not.mpr haddr)] at hclean
    cases hpt : k.decryptChunk C ch.data ch.nonce ch.encTag with
    | none =>
      rw [hpt] at hclean
      cases hclean
    | some pt =>
      simp only [hpt] at hclean
      by_cases hlen : (pt.length : Int) = ch.length
      · exact ⟨haddr, pt, rfl, hlen⟩
      · rw [if_pos hlen] at hclean
        cases hclean
  · rw [if_pos haddr] at hclean
    cases hclean

theorem checkEntry_nil (hrows : t.manifest c.nodeId c.version ≠ [])
    (hclean : checkEntry ((c.nodeId, c.version), verifyRows t c) = []) :
    (t.manifest c.nodeId c.version).map StoredRef.chunkIndex =
        (List.range (t.manifest c.nodeId c.version).length).map Int.ofNat ∧
      (∀ r ∈ t.manifest c.nodeId c.version, (t.chunk? r.chunkHash).isSome) ∧
      ((verifyRows t c).filterMap VerifyRow.chunkLength).sum = c.size := by
  have hindexes : (verifyRows t c).map VerifyRow.chunkIndex =
      (t.manifest c.nodeId c.version).map StoredRef.chunkIndex := by
    rw [verifyRows, List.map_map]
    rfl
  have hsize : ((verifyRows t c).head?.map VerifyRow.size).getD 0 = c.size := by
    obtain ⟨ref, refs, hcons⟩ := List.exists_cons_of_ne_nil hrows
    rw [verifyRows, hcons]
    rfl
  simp only [checkEntry, hsize, hindexes, List.length_map, List.append_eq_nil_iff] at hclean
  obtain ⟨⟨hgap, hmissing⟩, htotal⟩ := hclean
  refine ⟨?_, ?_, ?_⟩
  · by_contra hne
    rw [if_pos hne] at hgap
    cases hgap
  · intro r hr
    have hnone := List.filter_eq_nil_iff.mp (List.map_eq_nil_iff.mp hmissing) _
        (List.mem_map_of_mem hr)
    simpa [Option.isSome_iff_ne_none] using hnone
  · by_contra hne
    rw [if_pos hne] at htotal
    cases htotal

/-- Chunks that open to their lengths open to the sum of them. -/
theorem openRefs {refs : List StoredRef} (h : ∀ r ∈ refs, ∃ ch pt, t.chunk? r.chunkHash = some ch ∧
      k.decryptChunk C ch.data ch.nonce ch.encTag = some pt ∧ (pt.length : Int) = ch.length) :
    ∃ parts : List Bytes, (refs.filterMap (fun r => t.chunk? r.chunkHash)).mapM
        (fun ch => orRaise (k.decryptChunk C ch.data ch.nonce ch.encTag) FsError.invalidTag) =
          .ok parts ∧
      (parts.flatten.length : Int) =
        (refs.filterMap (fun r => (t.chunk? r.chunkHash).map StoredChunk.length)).sum := by
  induction refs with
  | nil => exact ⟨[], rfl, rfl⟩
  | cons r refs ih =>
    obtain ⟨ch, pt, hch, hpt, hlen⟩ := h r List.mem_cons_self
    obtain ⟨parts, hparts, hsum⟩ := ih (fun r hr => h r (List.mem_cons_of_mem _ hr))
    refine ⟨pt :: parts, ?_, ?_⟩
    · have hcons : (r :: refs).filterMap (fun r => t.chunk? r.chunkHash) =
          ch :: refs.filterMap (fun r => t.chunk? r.chunkHash) :=
        List.filterMap_cons_some hch
      rw [hcons, List.mapM_cons, hpt, hparts]
      rfl
    · have hcons : (r :: refs).filterMap (fun r => (t.chunk? r.chunkHash).map StoredChunk.length) =
          ch.length :: refs.filterMap (fun r => (t.chunk? r.chunkHash).map StoredChunk.length) := by
        rw [List.filterMap_cons, hch]
        rfl
      rw [hcons, List.sum_cons, List.flatten_cons, List.length_append, Nat.cast_add, hlen, hsum]

theorem mem_seenChunks {r : StoredRef} (hc : c ∈ t.contents)
    (hvolume : (db.node? c.nodeId).any (fun n => n.volumeId = volume))
    (hr : r ∈ t.manifest c.nodeId c.version) (hch : (t.chunk? r.chunkHash).isSome) :
    r.chunkHash ∈ seenChunks (verifyManifest db t volume) := by
  rw [seenChunks, List.mem_eraseDups, List.mem_map]
  refine ⟨_, List.mem_filter.mpr ⟨List.mem_flatMap.mpr ⟨c, ?_, List.mem_map_of_mem hr⟩, ?_⟩, rfl⟩
  · rw [List.mem_insertionSort]
    exact List.mem_filter.mpr ⟨hc, hvolume⟩
  · simpa using hch

theorem ContentTables.mem_of_content? (h : t.content? n = some c) : c ∈ t.contents ∧ c.nodeId = n :=
  ⟨mem_of_lookup h, key_of_lookup h⟩

theorem ContentTables.content?_of_mem (h : c ∈ t.contents) : t.content? c.nodeId = some c :=
  lookup_eq_some_of_mem t.keyed h

theorem ContentTables.readContentBytes_of_mem (h : c ∈ t.contents) :
    t.readContentBytes C k c.nodeId =
    ((t.readChunks c.nodeId c.version).mapM
      (fun ch => orRaise (k.decryptChunk C ch.data ch.nonce ch.encTag) FsError.invalidTag)).map
        List.flatten := by
  have hbind : ∀ x : Except FsError (List Bytes), (do
      let parts ← x
      return parts.flatten) = x.map List.flatten := by
    intro x
    cases x with
    | error e => rfl
    | ok parts => rfl
  rw [readContentBytes, content?_of_mem h]
  exact hbind _

/-- A clean report vouches for every entry that has a manifest row. -/
theorem readable_of_clean {report : VerifyReport} {m : MountCtx}
    (hm : requireMount E k db mount false = .ok m) (h : verify db t C E k mount true = .ok report)
    (hclean : report.problems = []) (hc : c ∈ t.contents)
    (hvolume : (db.node? c.nodeId).any (fun n => n.volumeId = m.volume))
    (hrows : t.manifest c.nodeId c.version ≠ []) :
    t.Readable C k c := by
  obtain ⟨m', hm', hproblems⟩ := verify_ok h
  obtain rfl : m = m' := Except.ok.inj (hm.symm.trans hm')
  rw [hclean, if_pos rfl] at hproblems
  obtain ⟨hentries, hdeep⟩ := List.append_eq_nil_iff.mp hproblems.symm
  have hentry := List.flatMap_eq_nil_iff.mp hentries _ (mem_perNode hc hvolume hrows)
  obtain ⟨hindexes, hpresent, htotal⟩ := checkEntry_nil hrows hentry
  have hopen : ∀ r ∈ t.manifest c.nodeId c.version, ∃ ch pt, t.chunk? r.chunkHash = some ch ∧
      C.chunkHash ch.data = r.chunkHash ∧ k.decryptChunk C ch.data ch.nonce ch.encTag = some pt ∧
      (pt.length : Int) = ch.length := by
    intro r hr
    obtain ⟨ch, hch⟩ := Option.isSome_iff_exists.mp (hpresent r hr)
    have hchunk := List.flatMap_eq_nil_iff.mp hdeep _ (mem_seenChunks hc hvolume hr (hpresent r hr))
    obtain ⟨haddr, pt, hpt, hlen⟩ := checkChunk_nil hch hchunk
    exact ⟨ch, pt, hch, haddr, hpt, hlen⟩
  refine ⟨hindexes, ?_, ?_⟩
  · intro r hr
    obtain ⟨ch, pt, hch, haddr, hpt, -⟩ := hopen r hr
    refine ⟨ch, hch, haddr, ?_⟩
    rw [hpt]
    rfl
  · have hlengths : ∀ r ∈ t.manifest c.nodeId c.version, ∃ ch pt, t.chunk? r.chunkHash = some ch ∧
        k.decryptChunk C ch.data ch.nonce ch.encTag = some pt ∧ (pt.length : Int) = ch.length := by
      intro r hr
      obtain ⟨ch, pt, hch, -, hpt, hlen⟩ := hopen r hr
      exact ⟨ch, pt, hch, hpt, hlen⟩
    obtain ⟨parts, hparts, hsum⟩ := openRefs hlengths
    refine ⟨parts.flatten, ?_, ?_⟩
    · rw [ContentTables.readContentBytes_of_mem hc, ContentTables.readChunks, hparts]
      rfl
    · rw [hsum, ← htotal, verifyRows, List.filterMap_map]
      rfl

/-- An entry without manifest rows reads as nothing. -/
theorem readable_of_no_rows (hc : c ∈ t.contents) (hrows : t.manifest c.nodeId c.version = []) :
    t.Readable C k c ↔ c.size = 0 := by
  have hread : t.readContentBytes C k c.nodeId = .ok [] := by
    rw [ContentTables.readContentBytes_of_mem hc, ContentTables.readChunks, hrows]
    rfl
  constructor
  · intro h
    obtain ⟨b, hb, hlen⟩ := h.bytes
    rw [hread] at hb
    obtain rfl := Except.ok.inj hb
    exact hlen.symm
  · intro hsize
    refine ⟨?_, ?_, [], hread, hsize.symm⟩
    · rw [hrows]
      rfl
    · intro r hr
      rw [hrows] at hr
      cases hr

/-- Under a clean deep report the entries of the volume are readable just if those without
manifest rows are empty. -/
theorem verify_clean_iff {report : VerifyReport} {m : MountCtx}
    (hm : requireMount E k db mount false = .ok m) (h : verify db t C E k mount true = .ok report)
    (hclean : report.problems = []) :
    (∀ n row c, db.node? n = some row → row.volumeId = m.volume → row.type ≠ .container →
      t.content? n = some c → t.Readable C k c) ↔
      ∀ n row c, db.node? n = some row → row.volumeId = m.volume → row.type ≠ .container →
        t.content? n = some c →
        t.manifest n c.version = [] → c.size = 0 := by
  constructor
  · intro hall n row c hrow hvolume htype hc hrows
    obtain ⟨hmem, rfl⟩ := ContentTables.mem_of_content? hc
    exact (readable_of_no_rows hmem hrows).mp (hall _ row c hrow hvolume htype hc)
  · intro hempty n row c hrow hvolume htype hc
    obtain ⟨hmem, rfl⟩ := ContentTables.mem_of_content? hc
    by_cases hrows : t.manifest c.nodeId c.version = []
    · exact (readable_of_no_rows hmem hrows).mpr (hempty _ row c hrow hvolume htype hc hrows)
    · refine readable_of_clean hm h hclean hmem ?_ hrows
      rw [hrow]
      exact decide_eq_true hvolume

/-! ### The engine's own tables -/

theorem lookup_map_to {ρ τ κ : Type} [DecidableEq κ] {key : ρ → κ} {key₂ : τ → κ} {f : ρ → τ}
    (hkey : ∀ r, key₂ (f r) = key r)
    (rows : List ρ) (x : κ) : lookup key₂ (rows.map f) x = (lookup key rows x).map f := by
  rw [lookup, lookup, List.find?_map]
  simp only [Function.comp_def, hkey]

namespace ContentTables

variable {h : Keyed ContentRow.nodeId db.contents}

theorem of_chunk? (d : Digest) : (of db h).chunk? d =
    (db.chunk? d).map (fun c => ⟨c.chunkHash, c.data, c.length, c.nonce, c.encTag⟩) :=
  lookup_map_to (fun _ => rfl) db.chunks d

theorem of_content? (n : NodeId) :
    (of db h).content? n = (db.content? n).map (fun c => ⟨c.nodeId, c.version, c.size⟩) :=
  lookup_map_to (fun _ => rfl) db.contents n

theorem of_manifest (n : NodeId) (v : ℕ) : (of db h).manifest n v =
    ((db.manifest n v).insertionSort (fun r s => r.chunkIndex ≤ s.chunkIndex)).map
      (fun r => ⟨r.contentId, r.version, r.chunkIndex, r.chunkHash⟩) := by
  have hfilter : (of db h).refs.filter (fun r => r.contentId = n ∧ r.version = (v : Int)) =
      (db.manifest n v).map (fun r => ⟨r.contentId, r.version, r.chunkIndex, r.chunkHash⟩) := by
    rw [of, Db.manifest, List.filter_map]
    simp only [Function.comp_def, Nat.cast_inj]
  have hle : ∀ a b : VersionRow, a.chunkIndex ≤ b.chunkIndex ↔ (a.chunkIndex : Int) ≤
      b.chunkIndex :=
    fun a b => Int.ofNat_le.symm
  rw [manifest, hfilter]
  exact (List.map_insertionSort _ (fun r s : StoredRef => r.chunkIndex ≤ s.chunkIndex)
    (fun r => ⟨r.contentId, r.version, r.chunkIndex, r.chunkHash⟩) _ (fun a _ b _ => hle a b)).symm

/-- Undamaged tables are read as the engine reads its file. -/
theorem of_readContentBytes (n : NodeId) :
    (of db h).readContentBytes C k n = Aloelite.readContentBytes C k db n := by
  rw [readContentBytes, Aloelite.readContentBytes, of_content?]
  cases db.content? n with
  | none => rfl
  | some c =>
    have hchunks : (of db h).readChunks n c.version =
        (db.readChunks n c.version).map
          (fun c => ⟨c.chunkHash, c.data, c.length, c.nonce, c.encTag⟩) := by
      rw [readChunks, Db.readChunks, of_manifest, List.filterMap_map, List.map_filterMap]
      simp only [Function.comp_def, of_chunk?]
    simp only [Option.map_some, hchunks, openChunks, List.mapM_map]
    rfl

end ContentTables

/-- A volume with an entry of two bytes. -/
def twoByteEntry : List Label :=
  [⟨.counting 0, 0, .createVolume none 1 none .none⟩,
    ⟨.counting 1, 0, .mount { volume := 0 }⟩,
    ⟨.counting 2, 0, .request 1 (.createEntry "x" [1, 2])⟩]

theorem twoByteEntry_reaches : Reaches Crypto.xorStream Msgpack.refusing (fun _ _ => True)
    (twoByteEntry.foldl (step Crypto.xorStream Msgpack.refusing) {}) :=
  reaches_foldl ⟨trivial, trivial, trivial, trivial⟩

theorem twoByteEntry_keyed :
    Keyed ContentRow.nodeId
      (twoByteEntry.foldl (step Crypto.xorStream Msgpack.refusing) {}).db.contents := by
  unfold Keyed
  decide +kernel

theorem verify_clean_iff_twoByteEntry :
    (ContentTables.of _ twoByteEntry_keyed).Readable Crypto.xorStream .identity ⟨2, 1, 2⟩ := by
  have hm : requireMount (.counting 3) .identity
      (twoByteEntry.foldl (step Crypto.xorStream Msgpack.refusing) {}).db 1 false =
      .ok ⟨1, 0, 0, .none⟩ := by rfl
  have hverify : verify (twoByteEntry.foldl (step Crypto.xorStream Msgpack.refusing) {}).db
      (ContentTables.of _ twoByteEntry_keyed)
      Crypto.xorStream (.counting 3) .identity 1 true = .ok ⟨1, 2, []⟩ := by decide +kernel
  refine (verify_clean_iff hm hverify rfl).mpr ?_ 2 _ _ rfl rfl (by decide +kernel) rfl
  intro n row c _ _ _ hc hrows
  obtain ⟨hmem, rfl⟩ := ContentTables.mem_of_content? hc
  have honly : c = ⟨2, 1, 2⟩ := List.mem_singleton.mp hmem
  subst honly
  exact absurd hrows (by decide +kernel)

/-- The tables without the manifest. -/
def lostManifest : ContentTables := { ContentTables.of _ twoByteEntry_keyed with refs := [] }

/-- The entry has lost its manifest rows; the deep report is clean and the read comes back
empty. -/
theorem verify_passes_lost_manifest :
    ∃ s t report c, Reaches Crypto.xorStream Msgpack.refusing (fun _ _ => True) s ∧
      t.contents = s.db.contents.map (fun c => ⟨c.nodeId, c.version, c.size⟩) ∧ t.refs = [] ∧
      verify s.db t Crypto.xorStream (.counting 3) .identity 1 true = .ok report ∧
        report.problems = [] ∧
      (s.db.node? 2).map NodeRow.type = some .entry ∧ t.content? 2 = some c ∧ c.size = 2 ∧
      t.readContentBytes Crypto.xorStream .identity 2 = .ok [] ∧
        ¬ t.Readable Crypto.xorStream .identity c := by
  refine ⟨_, lostManifest, ⟨0, 0, []⟩, ⟨2, 1, 2⟩, twoByteEntry_reaches, rfl, rfl,
    by decide +kernel, rfl, by decide +kernel,
    by decide +kernel, rfl, by decide +kernel, ?_⟩
  intro hread
  obtain ⟨b, hb, hlen⟩ := hread.bytes
  have hempty : lostManifest.readContentBytes Crypto.xorStream .identity 2 = .ok [] := by
    decide +kernel
  rw [hempty] at hb
  obtain rfl := Except.ok.inj hb
  exact absurd hlen (by decide)

end Aloelite
